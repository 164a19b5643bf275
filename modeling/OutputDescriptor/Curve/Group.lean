import OutputDescriptor.Curve.Point

/-!
Sums and multiples of curve points. They are computed without divisions on points whose coordinates
are scaled: `(x, y, z)` stands for `(x / z², y / z³)`, and `z = 0` for the point at infinity.
-/
namespace OutputDescriptor

structure ScaledPoint where
  x : Coordinate
  y : Coordinate
  z : Coordinate

namespace ScaledPoint

def infinity : ScaledPoint := ⟨1, 1, 0⟩

def ofPoint (p : Point) : ScaledPoint := ⟨p.x, p.y, 1⟩

def double (p : ScaledPoint) : ScaledPoint :=
  let yy := p.y * p.y
  let s := 4 * (p.x * yy)
  let m := 3 * (p.x * p.x)
  let x := m * m - s - s
  ⟨x, m * (s - x) - 8 * (yy * yy), 2 * (p.y * p.z)⟩

def add (p : ScaledPoint) (q : Point) : ScaledPoint :=
  if p.z = 0 then ofPoint q
  else
    let zz := p.z * p.z
    let h := Coordinate.mulSub q.x zz p.x
    let r := Coordinate.mulSub q.y (zz * p.z) p.y
    if h = 0 then
      if r = 0 then p.double else infinity
    else
      let hh := h * h
      let hhh := h * hh
      let v := p.x * hh
      let x := Coordinate.mulSub r r (hhh + v + v)
      ⟨x, Coordinate.mulSub r (v - x) (p.y * hhh), p.z * h⟩

def toPoint? (p : ScaledPoint) : Option Point :=
  if p.z = 0 then none
  else
    let w := p.z.inverse
    let ww := w * w
    Point.of? (p.x * ww) (p.y * (ww * w))

end ScaledPoint

namespace Point

def multiplesFrom (p : Point) (multiple : ScaledPoint) : Nat → List Point
  | 0 => []
  | count + 1 => multiple.toPoint?.toList ++ p.multiplesFrom (multiple.add p) count

/-- The multiples of a point by 1 to 16, then those of its sixteenth multiple, and so on. -/
def windows : Nat → Point → List (List Point)
  | 0, _ => []
  | count + 1, p =>
    let row := p.multiplesFrom (.ofPoint p) 16
    row :: windows count (row.getLast?.getD p)

/-- All that is ever multiplied is the generator, so its multiples are worked out once. -/
def generatorWindows : List (List Point) := windows 64 generator

/-- Add the multiples that the hexadecimal digits of a number select, the lowest digit first. -/
def addSelected (sum : ScaledPoint) : List (List Point) → Nat → ScaledPoint
  | [], _ => sum
  | row :: rest, k =>
    let digit := k % 16
    let selected := if digit = 0 then none else row[digit - 1]?
    addSelected (selected.elim sum sum.add) rest (k / 16)

/-- The multiple of the generator by a number below `2 ^ 256`; nothing at infinity. -/
def ofScalar? (k : Nat) : Option Point :=
  (addSelected .infinity generatorWindows k).toPoint?

/-- The multiple of the generator by `k`, moved by another point; nothing at infinity. -/
def tweak? (p : Point) (k : Nat) : Option Point :=
  (addSelected (.ofPoint p) generatorWindows k).toPoint?

end Point

end OutputDescriptor
