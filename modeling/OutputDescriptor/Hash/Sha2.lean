import OutputDescriptor.Hash.Padding

/-! The compression function that SHA-256 and SHA-512 share. -/
namespace OutputDescriptor.Sha2

structure State (Word : Type) where
  a : Word
  b : Word
  c : Word
  d : Word
  e : Word
  f : Word
  g : Word
  h : Word

/-- A member of the family is given by its words, its constants and its four word mixers. -/
class Variant (Word : Type) where
  wordSize : Nat
  ofNat : Nat → Word
  toNat : Word → Nat
  /-- There is one constant for each round. -/
  roundConstants : List Word
  initial : State Word
  mixA : Word → Word
  mixE : Word → Word
  mixOld : Word → Word
  mixRecent : Word → Word

open Variant

variable {Word : Type} [Variant Word] [Inhabited Word] [Add Word] [AndOp Word] [XorOp Word]
  [Complement Word]

def State.add (s t : State Word) : State Word :=
  ⟨s.a + t.a, s.b + t.b, s.c + t.c, s.d + t.d, s.e + t.e, s.f + t.f, s.g + t.g, s.h + t.h⟩

def State.words (s : State Word) : List Word := [s.a, s.b, s.c, s.d, s.e, s.f, s.g, s.h]

@[specialize] def nextWord (window : List Word) : Word :=
  window.headD default + mixOld (window.getD 1 default) + window.getD 9 default +
    mixRecent (window.getD 14 default)

/-- The window slides over the message schedule by one word a round. -/
@[specialize] def rounds (window : List Word) (a b c d e f g h : Word) : List Word → State Word
  | [] => ⟨a, b, c, d, e, f, g, h⟩
  | constant :: rest =>
    let choice := (e &&& f) ^^^ (~~~e &&& g)
    let majority := (a &&& b) ^^^ (a &&& c) ^^^ (b &&& c)
    let t := h + mixE e + choice + constant + window.headD default
    rounds (window.drop 1 ++ [nextWord window]) (t + (mixA a + majority)) a b c (d + t) e f g rest

@[specialize] def compress (s : State Word) (block : Bytes) : State Word :=
  let words := (chunks (wordSize Word) 16 block).map fun bytes => ofNat (Bytes.toNat bytes)
  s.add (rounds words s.a s.b s.c s.d s.e s.f s.g s.h roundConstants)

def State.bytes (s : State Word) : FixedBytes (8 * wordSize Word) :=
  ⟨s.words.flatMap fun word => Bytes.ofNat (wordSize Word) (toNat word), by
    simp [State.words]; omega⟩

@[specialize] def digest (Word : Type) [Variant Word] [Inhabited Word] [Add Word] [AndOp Word]
    [XorOp Word] [Complement Word] (message : Bytes) : FixedBytes (8 * wordSize Word) :=
  let size := wordSize Word
  let blocks := paddedBlocks (16 * size) (2 * size) Bytes.ofNat message
  (blocks.foldl compress (initial : State Word)).bytes

end OutputDescriptor.Sha2
