import OutputDescriptor.Digits

/-! Byte strings, byte strings of a fixed length, and the big-endian numbers they hold. -/
namespace OutputDescriptor

abbrev Bytes := List UInt8

/-- Hashes, fingerprints and chain codes carry their length in the type. -/
abbrev FixedBytes (n : Nat) := { bytes : Bytes // bytes.length = n }

namespace Bytes

/-- The last `count` bytes of a number, most significant byte first. -/
def ofNat (count value : Nat) : Bytes :=
  (digits 256 count value).map UInt8.ofNat

def toNat (bytes : Bytes) : Nat :=
  ofDigits 256 (bytes.map UInt8.toNat)

@[simp] theorem length_ofNat (count value : Nat) : (ofNat count value).length = count := by
  simp [ofNat]

end Bytes

namespace FixedBytes

def take? (n : Nat) (bytes : Bytes) : Option (FixedBytes n) :=
  if h : (bytes.take n).length = n then some ⟨bytes.take n, h⟩ else none

def take {n : Nat} (m : Nat) (h : m ≤ n) (bytes : FixedBytes n) : FixedBytes m :=
  ⟨bytes.val.take m, by rw [List.length_take, bytes.property]; omega⟩

def drop {n : Nat} (m : Nat) (bytes : FixedBytes n) : FixedBytes (n - m) :=
  ⟨bytes.val.drop m, by rw [List.length_drop, bytes.property]⟩

end FixedBytes

end OutputDescriptor
