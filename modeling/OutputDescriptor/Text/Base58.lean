import OutputDescriptor.Hash.Ripemd160
import OutputDescriptor.Text.Chars

/-! Base58 text, plain and with the four check bytes that keys and legacy addresses carry. -/
namespace OutputDescriptor.Base58

def alphabet : List Char :=
  "123456789ABCDEFGHJKLMNPQRSTUVWXYZabcdefghijkmnopqrstuvwxyz".toList

def digitOf? (c : Char) : Option Nat := alphabet.findIdx? (· == c)

def charOf (digit : Nat) : Char := alphabet.getD digit '1'

/-- Leading zero bytes are written as that many ones, the rest as a number in base 58. -/
def encode (bytes : Bytes) : List Char :=
  let zeros := (bytes.takeWhile (· == 0)).length
  let number := (digits 58 (2 * bytes.length) (Bytes.toNat bytes)).dropWhile (· == 0)
  List.replicate zeros '1' ++ number.map charOf

def decode? (text : List Char) : Option Bytes := do
  let ds ← text.mapM digitOf?
  let zeros := (ds.takeWhile (· == 0)).length
  let number := (digits 256 text.length (ofDigits 58 ds)).dropWhile (· == 0)
  return List.replicate zeros 0 ++ number.map UInt8.ofNat

/-- The first four bytes of the double hash of a payload. -/
def checkBytes (payload : Bytes) : Bytes := (sha256d payload).val.take 4

def encodeCheck (payload : Bytes) : List Char := encode (payload ++ checkBytes payload)

def decodeCheck? (text : List Char) : Option Bytes := do
  let bytes ← decode? text
  let payload := bytes.take (bytes.length - 4)
  if 4 ≤ bytes.length ∧ bytes.drop (bytes.length - 4) = checkBytes payload then some payload
  else none

theorem isAlphanum_of_decodeCheck? {text : List Char} {payload : Bytes}
    (h : decodeCheck? text = some payload) : text ≠ [] ∧ ∀ c ∈ text, c.isAlphanum := by
  obtain ⟨bytes, hbytes, hcheck⟩ := Option.bind_eq_some_iff.mp h
  obtain ⟨digits, hdigits, hvalue⟩ := Option.bind_eq_some_iff.mp hbytes
  constructor
  · rintro rfl
    cases hdigits
    cases hvalue
    simp only [Option.ite_none_right_eq_some] at hcheck
    exact absurd hcheck.1.1 (by decide)
  · refine isAlphanum_of_mapM (fun c x hx => ?_) hdigits
    have halphabet : ∀ c ∈ alphabet, c.isAlphanum := List.all_eq_true.mp (by decide)
    exact halphabet c (mem_of_findIdx? hx)

end OutputDescriptor.Base58
