import OutputDescriptor.Bytes

/-! How the hash functions cut a message into blocks. -/
namespace OutputDescriptor

/-- The first `count` pieces of a list, each `width` long. -/
def chunks {α : Type} (width : Nat) : Nat → List α → List (List α)
  | 0, _ => []
  | count + 1, xs => xs.take width :: chunks width count (xs.drop width)

/-- A message is closed by a one bit, zeros up to a whole block, and its length in bits. -/
def paddedBlocks (blockSize lengthSize : Nat) (encodeLength : Nat → Nat → Bytes) (message : Bytes) :
    List Bytes :=
  let used := message.length + 1 + lengthSize
  let zeros := (blockSize - used % blockSize) % blockSize
  let closing := 0x80 :: List.replicate zeros 0 ++ encodeLength lengthSize (8 * message.length)
  chunks blockSize ((used + zeros) / blockSize) (message ++ closing)

end OutputDescriptor
