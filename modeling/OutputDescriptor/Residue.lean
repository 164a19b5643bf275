import OutputDescriptor.Symbol

/-!
Remainders of symbol strings, read as polynomials over the field of 32 elements, modulo the
generator of a checksum code. A remainder of `width / 5` symbols is packed into one word.
-/
namespace OutputDescriptor

/-- What the symbols 1, 2, 4, 8 and 16 leave when shifted out, and the remainder of a text with its
checksum. -/
structure ResidueCode (width : Nat) where
  rows : List (BitVec width)
  target : BitVec width

namespace ResidueCode

variable {width : Nat}

/-- What a symbol leaves when it is shifted out. -/
def feedback (code : ResidueCode width) (top : Symbol) : BitVec width :=
  code.rows.zipIdx.foldl (fun acc (row, i) => if top.getLsbD i then acc ^^^ row else acc) 0

/-- Shift one symbol in, and fold the symbol that falls out back into the remainder. -/
def step (code : ResidueCode width) (residue : BitVec width) (symbol : Symbol) : BitVec width :=
  (residue <<< 5 ^^^ symbol.setWidth width) ^^^
    code.feedback ((residue >>> (width - 5)).setWidth 5)

def run (code : ResidueCode width) (residue : BitVec width) (symbols : List Symbol) :
    BitVec width :=
  symbols.foldl code.step residue

end ResidueCode

def unpackSymbols {width : Nat} (word : BitVec width) : List Symbol :=
  (List.range (width / 5)).map fun i => (word >>> (width - 5 * (i + 1))).setWidth 5

namespace ResidueCode

/-- The symbols that bring a remainder to the target of the code when they are appended. -/
def checkSymbols {width : Nat} (code : ResidueCode width) (residue : BitVec width) : List Symbol :=
  unpackSymbols (code.run residue (unpackSymbols code.target))

end ResidueCode

end OutputDescriptor
