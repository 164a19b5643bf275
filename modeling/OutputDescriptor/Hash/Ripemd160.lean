import OutputDescriptor.Hash.Sha256

/-! The hash function RIPEMD-160, and the two-step hashes that outputs and checksums use. -/
namespace OutputDescriptor

namespace Ripemd160

structure State where
  a : UInt32
  b : UInt32
  c : UInt32
  d : UInt32
  e : UInt32

def initial : State := ⟨0x67452301, 0xefcdab89, 0x98badcfe, 0x10325476, 0xc3d2e1f0⟩

/-- From one stage to the next the message words are taken in permuted order. -/
def permutation : List Nat := [7, 4, 13, 1, 10, 6, 15, 3, 12, 0, 9, 5, 2, 14, 11, 8]

/-- The word order of the first stage of the right line. -/
def rightOrder : List Nat := (List.range 16).map fun i => (9 * i + 5) % 16

def rotations : List (List UInt32) :=
  [[11, 14, 15, 12, 5, 8, 7, 9, 11, 13, 14, 15, 6, 7, 9, 8],
   [12, 13, 11, 15, 6, 9, 9, 7, 12, 15, 11, 13, 7, 8, 7, 7],
   [13, 15, 14, 11, 7, 7, 6, 8, 13, 14, 13, 12, 5, 5, 6, 9],
   [14, 11, 12, 14, 8, 6, 5, 5, 15, 12, 15, 14, 9, 9, 8, 6],
   [15, 12, 13, 13, 9, 5, 8, 6, 14, 11, 12, 11, 8, 6, 5, 5]]

def leftConstants : List UInt32 := [0x00000000, 0x5a827999, 0x6ed9eba1, 0x8f1bbcdc, 0xa953fd4e]

def rightConstants : List UInt32 := [0x50a28be6, 0x5c4dd124, 0x6d703ef3, 0x7a6d76e9, 0x00000000]

def rotateLeft (x n : UInt32) : UInt32 := (x <<< n) ||| (x >>> (32 - n))

def mix : Nat → UInt32 → UInt32 → UInt32 → UInt32
  | 0, x, y, z => x ^^^ y ^^^ z
  | 1, x, y, z => (x &&& y) ||| (~~~x &&& z)
  | 2, x, y, z => (x ||| ~~~y) ^^^ z
  | 3, x, y, z => (x &&& z) ||| (y &&& ~~~z)
  | _, x, y, z => x ^^^ (y ||| ~~~z)

def round (f : UInt32 → UInt32 → UInt32 → UInt32) (constant : UInt32) (s : State)
    (step : UInt32 × UInt32) : State :=
  let t := rotateLeft (s.a + f s.b s.c s.d + step.1 + constant) step.2 + s.e
  ⟨s.e, t, s.b, rotateLeft s.c 10, s.d⟩

def line (words : List UInt32) (order : List Nat) (s : State) :
    List (Nat × UInt32 × List UInt32) → State
  | [] => s
  | (f, constant, turns) :: rest =>
    let steps := order.map fun i => (words.getD i 0, turns.getD i 0)
    line words (order.map fun i => permutation.getD i 0) (steps.foldl (round (mix f) constant) s)
      rest

def littleEndian (bytes : Bytes) : Nat := Bytes.toNat bytes.reverse

/-- The right line runs through the bitwise functions backwards. -/
def compress (s : State) (block : Bytes) : State :=
  let words := (chunks 4 16 block).map fun bytes => UInt32.ofNat (littleEndian bytes)
  let l := line words (List.range 16) s ([0, 1, 2, 3, 4].zip (leftConstants.zip rotations))
  let r := line words rightOrder s ([4, 3, 2, 1, 0].zip (rightConstants.zip rotations))
  ⟨s.b + l.c + r.d, s.c + l.d + r.e, s.d + l.e + r.a, s.e + l.a + r.b, s.a + l.b + r.c⟩

def State.words (s : State) : List UInt32 := [s.a, s.b, s.c, s.d, s.e]

def State.digest (s : State) : FixedBytes 20 :=
  ⟨s.words.flatMap fun word => (Bytes.ofNat 4 word.toNat).reverse, by simp [State.words]⟩

end Ripemd160

def ripemd160 (message : Bytes) : FixedBytes 20 :=
  let lengthField := fun size bits => (Bytes.ofNat size bits).reverse
  ((paddedBlocks 64 8 lengthField message).foldl Ripemd160.compress Ripemd160.initial).digest

def hash160 (message : Bytes) : FixedBytes 20 := ripemd160 (sha256 message).val

/-- The hash that guards base58 texts. -/
def sha256d (message : Bytes) : FixedBytes 32 := sha256 (sha256 message).val

end OutputDescriptor
