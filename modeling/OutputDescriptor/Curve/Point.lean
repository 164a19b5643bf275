import OutputDescriptor.Curve.Field

/-! Points of the curve `y² = x³ + 7` other than the point at infinity. -/
namespace OutputDescriptor

structure Point where
  x : Coordinate
  y : Coordinate
  onCurve : y * y = x * x * x + 7
  deriving DecidableEq

namespace Point

def of? (x y : Coordinate) : Option Point :=
  if h : y * y = x * x * x + 7 then some ⟨x, y, h⟩ else none

/-- The point over `x` whose second coordinate has the given parity. -/
def lift? (x : Coordinate) (odd : Bool) : Option Point :=
  let root := (x * x * x + 7).squareRoot
  (of? x (if root.isOdd = odd then root else -root)).filter (·.y.isOdd = odd)

def generator : Point where
  x := 0x79be667ef9dcbbac55a06295ce870b07029bfcdb2dce28d959f2815b16f81798
  y := 0x483ada7726a3c4655da4fbfc0e1108a8fd17b448a68554199c47d08ffb10d4b8
  onCurve := by decide

end Point

/-- The number of points of the curve, the point at infinity included. -/
def groupOrder : Nat := 0xfffffffffffffffffffffffffffffffebaaedce6af48a03bbfd25e8cd0364141

end OutputDescriptor
