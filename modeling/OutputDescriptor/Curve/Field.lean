/-! The prime field over which the curve of Bitcoin keys is defined. -/
namespace OutputDescriptor

def fieldPrime : Nat := 0xfffffffffffffffffffffffffffffffffffffffffffffffffffffffefffffc2f

instance : @NeZero Nat Zero.ofOfNat0 fieldPrime := ⟨Nat.succ_ne_zero (fieldPrime - 1)⟩

abbrev Coordinate := Fin fieldPrime

namespace Coordinate

def ofNat? (value : Nat) : Option Coordinate :=
  if h : value < fieldPrime then some ⟨value, h⟩ else none

def reduce (value : Nat) : Coordinate := Fin.ofNat fieldPrime value

/-- The difference `a * b - c`, reduced only once. -/
def mulSub (a b c : Coordinate) : Coordinate := reduce (a.val * b.val + (fieldPrime - c.val))

def isOdd (x : Coordinate) : Bool := x.val % 2 = 1

/-- The power to an exponent below `2 ^ bits`. -/
def power (x : Coordinate) : Nat → Nat → Coordinate
  | 0, _ => 1
  | bits + 1, exponent =>
    let root := power x bits (exponent / 2)
    if exponent % 2 = 1 then root * root * x else root * root

/-- A square root of every square, as the prime is three more than a multiple of four. -/
def squareRoot (x : Coordinate) : Coordinate := power x 256 ((fieldPrime + 1) / 4)

/-- Euclid's division of `r` by `s`. The factors `t` and `u` take the number to be inverted to them.
-/
def bezout : Nat → Nat → Nat → Int → Int → Int
  | 0, _, _, t, _ => t
  | divisions + 1, r, s, t, u =>
    if s = 0 then t else bezout divisions s (r % s) u (t - r / s * u)

/-- Numbers below `2 ^ 256` are divided fewer than 400 times. -/
def inverse (x : Coordinate) : Coordinate :=
  reduce (bezout 400 fieldPrime x.val 0 1 % fieldPrime).toNat

end Coordinate

end OutputDescriptor
