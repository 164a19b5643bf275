import Mathlib.Tactic.NormNum.NatFib
import OutputDescriptor.Curve.Field
import OutputDescriptor.Proofs.Key.Bytes

/-! Coordinates are computed with as residues modulo the prime: sums, differences, products, and the
inverse that dividing with remainder gives. -/
namespace OutputDescriptor.Coordinate

instance : Fact fieldPrime.Prime := ⟨prime_fieldPrime⟩

theorem residue_add (x y : Coordinate) : residue (x + y) = residue x + residue y := by
  rw [residue, Fin.val_add, ZMod.natCast_mod, Nat.cast_add]
  rfl

theorem residue_sub (x y : Coordinate) : residue (x - y) = residue x - residue y := by
  rw [Fin.sub_def, residue, ZMod.natCast_mod, Nat.cast_add, Nat.cast_sub y.isLt.le,
    ZMod.natCast_self, zero_sub, neg_add_eq_sub]
  rfl

theorem residue_reduce (value : Nat) : residue (reduce value) = value := by
  rw [residue, reduce, Fin.val_ofNat, ZMod.natCast_mod]

theorem residue_mulSub (a b c : Coordinate) :
    residue (mulSub a b c) = residue a * residue b - residue c := by
  rw [mulSub, residue_reduce, Nat.cast_add, Nat.cast_mul, Nat.cast_sub c.isLt.le,
    ZMod.natCast_self, zero_sub, ← sub_eq_add_neg]
  rfl

theorem residue_ofNat (value : Nat) [value.AtLeastTwo] :
    residue (no_index (OfNat.ofNat value)) = (OfNat.ofNat value : ZMod fieldPrime) :=
  residue_reduce value

theorem residue_zero : residue 0 = 0 := Nat.cast_zero

theorem residue_one : residue 1 = 1 := Nat.cast_one

theorem residue_eq_zero_iff {x : Coordinate} : residue x = 0 ↔ x = 0 := by
  rw [← residue_zero, residue_injective.eq_iff]

/-! ### Inverses -/

/-- Numbers that need more divisions than there are would be as large as those of Fibonacci. -/
theorem cast_bezout_mul {x : ZMod fieldPrime} {divisions r s : Nat} {t u : Int}
    (hcoprime : r.Coprime s) (hlt : s < r)
    (henough : s < Nat.fib (divisions + 1) ∨ r < Nat.fib (divisions + 2))
    (ht : (r : ZMod fieldPrime) = t * x) (hu : (s : ZMod fieldPrime) = u * x) :
    (bezout divisions r s t u : ZMod fieldPrime) * x = 1 := by
  induction divisions generalizing r s t u with
  | zero =>
    have hzero : s = 0 := by
      simp only [Nat.zero_add, Nat.fib_one, Nat.fib_two] at henough
      omega
    rw [hzero, Nat.coprime_zero_right] at hcoprime
    rw [bezout, ← ht, hcoprime, Nat.cast_one]
  | succ divisions ih =>
    rw [bezout]
    split
    · rename_i hzero
      rw [hzero, Nat.coprime_zero_right] at hcoprime
      rw [← ht, hcoprime, Nat.cast_one]
    · rename_i hne
      have hrest : r % s < s := Nat.mod_lt r (Nat.pos_of_ne_zero hne)
      have hdivide := Nat.div_add_mod r s
      refine ih ?_ hrest ?_ hu ?_
      · rwa [Nat.Coprime, Nat.gcd_comm, ← Nat.gcd_rec, Nat.gcd_comm]
      · -- of the two bounds, one holds for the next pair
        have hfib : Nat.fib (divisions + 3) = Nat.fib (divisions + 1) + Nat.fib (divisions + 2) :=
          Nat.fib_add_two
        have hquotient : s ≤ s * (r / s) :=
          Nat.le_mul_of_pos_right s (Nat.div_pos hlt.le (Nat.pos_of_ne_zero hne))
        rw [show divisions + 1 + 1 = divisions + 2 by rfl,
          show divisions + 1 + 2 = divisions + 3 by rfl] at henough
        omega
      · have hcast := congrArg (Nat.cast : Nat → ZMod fieldPrime) hdivide
        rw [Nat.cast_add, Nat.cast_mul, ht, hu] at hcast
        rw [← Int.natCast_ediv, Int.cast_sub, Int.cast_mul, Int.cast_natCast]
        linear_combination hcast

theorem residue_inverse {x : Coordinate} (h : x ≠ 0) : residue x.inverse = (residue x)⁻¹ := by
  have hne : x.val ≠ 0 := fun hzero => h (Fin.ext hzero)
  have hcoprime : fieldPrime.Coprime x.val :=
    Nat.coprime_of_lt_prime hne x.isLt prime_fieldPrime
  have henough : fieldPrime < Nat.fib (400 + 2) := by norm_num [fieldPrime]
  have hzero : (fieldPrime : ZMod fieldPrime) = (0 : Int) * residue x := by simp
  have hone : (x.val : ZMod fieldPrime) = (1 : Int) * residue x := by simp [residue]
  have hfactor := cast_bezout_mul hcoprime x.isLt (.inr henough) hzero hone
  have hpositive : 0 ≤ bezout 400 fieldPrime x.val 0 1 % (fieldPrime : Int) :=
    Int.emod_nonneg _ (by decide)
  rw [inverse, residue_reduce, ZMod.natCast_toNat _ hpositive, ZMod.intCast_mod]
  exact eq_inv_of_mul_eq_one_left hfactor

end OutputDescriptor.Coordinate
