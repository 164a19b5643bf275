import OutputDescriptor.Bytes
import OutputDescriptor.Residue

/-! Witness addresses: a human-readable part, a version and a program, guarded by a checksum. -/
namespace OutputDescriptor

/-- What a witness address says. The human-readable part is kept in lower case. -/
structure SegwitText where
  humanReadablePart : List Char
  version : Symbol
  program : Bytes
  deriving DecidableEq, Repr

namespace SegwitText

def rows : List (BitVec 30) := [0x3b6a57b2, 0x26508e6d, 0x1ea119fa, 0x3d4233dd, 0x2a1462b3]

/-- Version zero has a code of its own; all later versions share another. -/
def code (version : Symbol) : ResidueCode 30 where
  rows := rows
  target := if version = 0 then 1 else 0x2bc830a3

/-- The human-readable part enters the checksum with its high bits, a zero, and its low bits. -/
def expand (humanReadablePart : List Char) : List Symbol :=
  humanReadablePart.map (fun c => BitVec.ofNat 5 (c.toNat / 32)) ++
    0 :: humanReadablePart.map (fun c => BitVec.ofNat 5 c.toNat)

/-- Bytes as symbols, with zero bits added to fill the last symbol. -/
def symbolsOfBytes (bytes : Bytes) : List Symbol :=
  let count := (8 * bytes.length + 4) / 5
  let padding := 5 * count - 8 * bytes.length
  (digits 32 count (Bytes.toNat bytes <<< padding)).map (BitVec.ofNat 5)

/-- Symbols as bytes. The bits left over are fewer than a symbol and all zero. -/
def bytesOfSymbols? (symbols : List Symbol) : Option Bytes :=
  let padding := 5 * symbols.length % 8
  let value := ofDigits 32 (symbols.map BitVec.toNat)
  let whole := value >>> padding
  if padding ≤ 4 ∧ whole <<< padding = value then
    some (Bytes.ofNat (5 * symbols.length / 8) whole)
  else none

/-- A program has 2 to 40 bytes, and one of version zero has 20 or 32. -/
def programSizeOk (version : Symbol) (size : Nat) : Bool :=
  2 ≤ size && size ≤ 40 && (version ≠ 0 || size = 20 || size = 32)

def encode (address : SegwitText) : List Char :=
  let data := address.version :: symbolsOfBytes address.program
  let code := code address.version
  let check := code.checkSymbols (code.run 1 (expand address.humanReadablePart ++ data))
  address.humanReadablePart ++ '1' :: (data ++ check).map Symbol.toChar

def uniformCase (text : List Char) : Bool :=
  !(text.any Char.isUpper && text.any Char.isLower)

def splitSeparator? (text : List Char) : Option (List Char × List Char) :=
  let data := (text.reverse.takeWhile (· ≠ '1')).reverse
  if data.length < text.length then some (text.take (text.length - data.length - 1), data)
  else none

theorem splitSeparator?_eq_some {text part data : List Char}
    (h : splitSeparator? text = some (part, data)) : text = part ++ '1' :: data := by
  unfold splitSeparator? at h
  have hsplit := List.takeWhile_append_dropWhile (p := (· ≠ '1')) (l := text.reverse)
  generalize htail : text.reverse.takeWhile (· ≠ '1') = tail at h hsplit
  cases hrest : text.reverse.dropWhile (· ≠ '1') with
  | nil =>
    rw [hrest, List.append_nil] at hsplit
    simp [hsplit] at h
  | cons c rest =>
    have hone : c = '1' := by
      have := List.head_dropWhile_not (l := text.reverse) (· ≠ '1') (by rw [hrest]; simp)
      simp only [hrest, List.head_cons] at this
      simpa using this
    rw [hrest, hone] at hsplit
    have htext : text = rest.reverse ++ '1' :: tail.reverse := by
      have := congrArg List.reverse hsplit
      simpa using this.symm
    simp only [Option.ite_none_right_eq_some, Option.some.injEq, Prod.mk.injEq] at h
    obtain ⟨-, hpart, rfl⟩ := h
    have hlen : text.length - tail.reverse.length - 1 = rest.reverse.length := by
      rw [htext, List.length_append, List.length_cons]
      omega
    rw [hlen, htext, List.take_left] at hpart
    rw [← hpart, ← htext]

def humanReadablePartOk (part : List Char) : Bool :=
  part ≠ [] && part.length ≤ 83 && part.all fun c => 33 ≤ c.toNat && c.toNat ≤ 126

def maxLength : Nat := 90

def decode? (text : List Char) : Option SegwitText := do
  let lower := text.map Char.toLower
  let (part, data) ← splitSeparator? lower
  let symbols ← data.mapM Symbol.ofChar?
  let version ← symbols.head?
  let code := code version
  let payload := (symbols.drop 1).take (symbols.length - 7)
  let program ← bytesOfSymbols? payload
  if uniformCase text ∧ text.length ≤ maxLength ∧ humanReadablePartOk part ∧
      version.toNat ≤ 16 ∧ 7 ≤ symbols.length ∧
      code.run 1 (expand part ++ symbols) = code.target ∧
      programSizeOk version program.length then
    some ⟨part, version, program⟩
  else none

end SegwitText

end OutputDescriptor
