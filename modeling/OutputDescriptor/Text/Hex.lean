import OutputDescriptor.Bytes
import OutputDescriptor.Text.Chars

/-! Hexadecimal text. Either letter case is read, and lower case is written. -/
namespace OutputDescriptor.Hex

def alphabet : List Char := "0123456789abcdef".toList

def encodeDigit (value : Nat) : Char := alphabet.getD value '0'

def decodeDigit (c : Char) : Option Nat := alphabet.findIdx? (· == c.toLower)

def encodeChars : Bytes → List Char
  | [] => []
  | byte :: rest =>
    encodeDigit (byte.toNat / 16) :: encodeDigit (byte.toNat % 16) :: encodeChars rest

def decodeChars : List Char → Option Bytes
  | [] => some []
  | [_] => none
  | high :: low :: rest => do
    let h ← decodeDigit high
    let l ← decodeDigit low
    let bytes ← decodeChars rest
    return UInt8.ofNat (16 * h + l) :: bytes

theorem decodeDigit_encodeDigit :
    ∀ value ∈ List.range 16, decodeDigit (encodeDigit value) = some value := by
  decide

theorem decodeChars_encodeChars (bytes : Bytes) : decodeChars (encodeChars bytes) = some bytes := by
  induction bytes with
  | nil => rfl
  | cons byte rest ih =>
    have hbyte := byte.toNat_lt
    have hhigh := decodeDigit_encodeDigit (byte.toNat / 16) (List.mem_range.mpr (by omega))
    have hlow := decodeDigit_encodeDigit (byte.toNat % 16) (List.mem_range.mpr (by omega))
    have hsum : UInt8.ofNat (16 * (byte.toNat / 16) + byte.toNat % 16) = byte := by
      rw [Nat.div_add_mod, UInt8.ofNat_toNat]
    simp only [encodeChars, decodeChars, hhigh, hlow, ih, Option.bind_eq_bind, Option.bind_some,
      hsum, Option.pure_def]

theorem isAlphanum_of_decodeChars {text : List Char} {bytes : Bytes}
    (h : decodeChars text = some bytes) : ∀ c ∈ text, c.isAlphanum := by
  have hdigit {c : Char} {value : Nat} (h : decodeDigit c = some value) : c.isAlphanum := by
    have halphabet : ∀ c ∈ alphabet, c.isAlphanum := List.all_eq_true.mp (by decide)
    exact isAlphanum_of_toLower (halphabet _ (mem_of_findIdx? h))
  fun_induction decodeChars text generalizing bytes with
  | case1 => simp
  | case2 => cases h
  | case3 high low rest ih =>
    obtain ⟨hi, hhi, h⟩ := Option.bind_eq_some_iff.mp h
    obtain ⟨lo, hlo, h⟩ := Option.bind_eq_some_iff.mp h
    obtain ⟨others, hothers, -⟩ := Option.bind_eq_some_iff.mp h
    rw [List.forall_mem_cons, List.forall_mem_cons]
    exact ⟨hdigit hhi, hdigit hlo, ih hothers⟩

def encode (bytes : Bytes) : String := String.ofList (encodeChars bytes)

def decode? (text : String) : Option Bytes := decodeChars text.toList

end OutputDescriptor.Hex
