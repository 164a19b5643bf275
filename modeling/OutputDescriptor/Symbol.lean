/-! Five-bit symbols and the alphabet in which checksums and witness addresses write them. -/
namespace OutputDescriptor

abbrev Symbol := BitVec 5

namespace Symbol

def alphabet : List Char := "qpzry9x8gf2tvdw0s3jn54khce6mua7l".toList

def toChar (symbol : Symbol) : Char := alphabet.getD symbol.toNat 'q'

/-- Only the lower-case form of a symbol is read. -/
def ofChar? (c : Char) : Option Symbol :=
  (alphabet.findIdx? (· == c)).map (BitVec.ofNat 5)

theorem ofChar?_toChar : ∀ symbol : Symbol, ofChar? symbol.toChar = some symbol := by
  decide

end Symbol

end OutputDescriptor
