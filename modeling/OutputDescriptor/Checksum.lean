import OutputDescriptor.Residue

/-!
The checksum of a descriptor: eight symbols that guard the text before them. Each character gives
one symbol, and every three characters give one more for the groups they come from.
-/
namespace OutputDescriptor.Checksum

def length : Nat := 8

/-- Positions of the characters from space to tilde: the symbol in the low five bits, the group in
the others. -/
def positions : List Nat :=
  [94, 59, 92, 91, 28, 29, 50, 15, 10, 11, 17, 51, 14, 52, 53, 16,
    0,  1,  2,  3,  4,  5,  6,  7,  8,  9, 27, 54, 55, 56, 57, 58,
   26, 82, 83, 84, 85, 86, 87, 88, 89, 32, 33, 34, 35, 36, 37, 38,
   39, 40, 41, 42, 43, 44, 45, 46, 47, 48, 49, 12, 93, 13, 60, 61,
   90, 18, 19, 20, 21, 22, 23, 24, 25, 64, 65, 66, 67, 68, 69, 70,
   71, 72, 73, 74, 75, 76, 77, 78, 79, 80, 81, 30, 62, 31, 63]

def position? (c : Char) : Option Nat :=
  if c.toNat < 32 then none else positions[c.toNat - 32]?

def code : ResidueCode 40 where
  rows := [0xf5dee51989, 0xa9fdca3312, 0x1bab10e32d, 0x3706b1677a, 0x644d626ffd]
  target := 1

/-- The remainder so far, and the groups of the last characters that do not fill a triple yet. -/
structure Engine where
  residue : BitVec 40
  pending : List Nat
  deriving DecidableEq, Repr

/-- A character that no descriptor may hold, and the bytes before it. -/
structure InvalidCharacter where
  char : Char
  offset : Nat
  deriving DecidableEq, Repr

/-- Three groups are one number in base three. -/
def groupSymbol (groups : List Nat) : Symbol :=
  BitVec.ofNat 5 (groups.foldl (fun value g => value * 3 + g) 0)

namespace Engine

def initial : Engine := ⟨1, []⟩

def feed (engine : Engine) (symbols : List Symbol) : Engine :=
  { engine with residue := code.run engine.residue symbols }

def push (engine : Engine) (position : Nat) : Engine :=
  let groups := engine.pending ++ [position / 32]
  if groups.length = 3 then
    { engine.feed [BitVec.ofNat 5 position, groupSymbol groups] with pending := [] }
  else
    { engine.feed [BitVec.ofNat 5 position] with pending := groups }

/-- Characters are taken in up to the first invalid one, which is reported. -/
def pushChars (engine : Engine) (offset : Nat) : List Char → Engine × Option InvalidCharacter
  | [] => (engine, none)
  | c :: rest =>
    match position? c with
    | some p => (engine.push p).pushChars (offset + c.utf8Size) rest
    | none => (engine, some ⟨c, offset⟩)

def input (engine : Engine) (text : String) : Engine × Option InvalidCharacter :=
  engine.pushChars 0 text.toList

/-- Reading feeds the unfinished triple, which stays pending, and the symbols of the target, so the
engine moves on. -/
def read (engine : Engine) : Engine × List Char :=
  let flushed := if engine.pending = [] then engine else engine.feed [groupSymbol engine.pending]
  let final := flushed.feed (unpackSymbols code.target)
  (final, (unpackSymbols final.residue).map Symbol.toChar)

end Engine

def compute? (text : String) : Option String :=
  match Engine.initial.input text with
  | (engine, none) => some (String.ofList engine.read.2)
  | (_, some _) => none

/-- The checksum of a text; empty if a character has no place in a descriptor. -/
def compute (text : String) : String := (compute? text).getD ""

def isWellFormed (checksum : String) : Bool :=
  checksum.toList.length = length && checksum.toList.all (Symbol.alphabet.contains ·)

end OutputDescriptor.Checksum
