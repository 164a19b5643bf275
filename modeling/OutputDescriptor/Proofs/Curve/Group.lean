import Mathlib.AlgebraicGeometry.EllipticCurve.Affine.Point
import OutputDescriptor.Curve.Group
import OutputDescriptor.Proofs.Curve.Field

/-! The points of the curve are a group, and scaled points are added as its elements. -/
namespace OutputDescriptor

open Coordinate

def curve : WeierstrassCurve.Affine (ZMod fieldPrime) where
  a₁ := 0
  a₂ := 0
  a₃ := 0
  a₄ := 0
  a₆ := 7

namespace curve

theorem equation_iff {x y : ZMod fieldPrime} : curve.Equation x y ↔ y * y = x * x * x + 7 := by
  rw [WeierstrassCurve.Affine.equation_iff]
  simp only [curve, zero_mul, add_zero]
  ring_nf

theorem ofNat_ne_zero {value : Nat} (hpos : 0 < value) (hlt : value < fieldPrime) :
    (value : ZMod fieldPrime) ≠ 0 := by
  intro h
  exact absurd (Nat.le_of_dvd hpos ((ZMod.natCast_eq_zero_iff value fieldPrime).mp h)) (by omega)

theorem two_ne_zero : (2 : ZMod fieldPrime) ≠ 0 := by
  have h := @ofNat_ne_zero 2 (by decide) (by decide)
  exact_mod_cast h

theorem discriminant_ne_zero : curve.Δ ≠ 0 := by
  have h := @ofNat_ne_zero 21168 (by decide) (by decide)
  have hvalue : curve.Δ = -((21168 : Nat) : ZMod fieldPrime) := by
    simp only [WeierstrassCurve.Δ, WeierstrassCurve.b₂, WeierstrassCurve.b₄, WeierstrassCurve.b₆,
      WeierstrassCurve.b₈, curve]
    norm_num
  rw [hvalue]
  exact neg_ne_zero.mpr h

theorem negY_eq (x y : ZMod fieldPrime) : curve.negY x y = -y := by
  simp [WeierstrassCurve.Affine.negY, curve]

theorem addX_eq (x₁ x₂ slope : ZMod fieldPrime) :
    curve.addX x₁ x₂ slope = slope ^ 2 - x₁ - x₂ := by
  simp [WeierstrassCurve.Affine.addX, curve]

theorem addY_eq (x₁ x₂ y₁ slope : ZMod fieldPrime) :
    curve.addY x₁ x₂ y₁ slope = slope * (x₁ - curve.addX x₁ x₂ slope) - y₁ := by
  simp only [WeierstrassCurve.Affine.addY, WeierstrassCurve.Affine.negAddY, negY_eq]
  ring

theorem slope_self {x y : ZMod fieldPrime} (hy : y ≠ 0) :
    curve.slope x x y y = 3 * x ^ 2 / (2 * y) := by
  have hne : y ≠ curve.negY x y := by
    rw [negY_eq, ne_eq, eq_neg_iff_add_eq_zero, ← two_mul]
    exact mul_ne_zero two_ne_zero hy
  rw [WeierstrassCurve.Affine.slope_of_Y_ne rfl hne, negY_eq]
  simp only [curve, mul_zero, zero_mul, add_zero, sub_zero]
  ring_nf

/-- Two points with one first coordinate are opposite. -/
theorem add_eq_zero {x y y' : ZMod fieldPrime} (h : curve.Nonsingular x y)
    (h' : curve.Nonsingular x y') (hne : y ≠ y') :
    (.some x y h : curve.Point) + .some x y' h' = 0 := by
  have hsquares : y * y = y' * y' := (equation_iff.mp h.1).trans (equation_iff.mp h'.1).symm
  have hneg : y = curve.negY x y' := by
    rw [negY_eq]
    exact (mul_self_eq_mul_self_iff.mp hsquares).resolve_left hne
  exact WeierstrassCurve.Affine.Point.add_of_Y_eq rfl hneg

end curve

namespace Point

theorem nonsingular (p : Point) : curve.Nonsingular (residue p.x) (residue p.y) := by
  rw [← curve.equation_iff_nonsingular_of_Δ_ne_zero curve.discriminant_ne_zero, curve.equation_iff]
  have h := congrArg residue p.onCurve
  simpa only [residue_add, residue_mul, residue_ofNat] using h

def toCurve (p : Point) : curve.Point := .some (residue p.x) (residue p.y) p.nonsingular

theorem toCurve_injective : Function.Injective toCurve := by
  intro p q h
  obtain ⟨hx, hy⟩ := WeierstrassCurve.Affine.Point.some.inj h
  obtain ⟨px, py, hp⟩ := p
  obtain ⟨qx, qy, hq⟩ := q
  obtain rfl := residue_injective hx
  obtain rfl := residue_injective hy
  rfl

theorem toCurve_ne_zero (p : Point) : p.toCurve ≠ 0 :=
  WeierstrassCurve.Affine.Point.some_ne_zero p.nonsingular

end Point

namespace ScaledPoint

/-- The scaled point stands for the element of the group. -/
inductive Represents (s : ScaledPoint) : curve.Point → Prop
  | infinity (hz : residue s.z = 0) : Represents s 0
  | affine {x y : ZMod fieldPrime} (h : curve.Nonsingular x y) (hz : residue s.z ≠ 0)
      (hx : residue s.x = x * residue s.z ^ 2) (hy : residue s.y = y * residue s.z ^ 3) :
      Represents s (.some x y h)

theorem represents_infinity : infinity.Represents 0 := .infinity residue_zero

theorem represents_ofPoint (p : Point) : (ofPoint p).Represents p.toCurve := by
  have hz : residue (ofPoint p).z = 1 := residue_one
  refine .affine p.nonsingular ?_ ?_ ?_
  · rw [hz]
    exact one_ne_zero
  · rw [hz, one_pow, mul_one]
    rfl
  · rw [hz, one_pow, mul_one]
    rfl

theorem Represents.double {s : ScaledPoint} {P : curve.Point} (h : s.Represents P) :
    s.double.Represents (P + P) := by
  have hz : residue s.double.z = 2 * (residue s.y * residue s.z) := by
    simp only [ScaledPoint.double, residue_mul, residue_ofNat]
  cases h with
  | infinity h =>
    rw [add_zero]
    exact .infinity (by rw [hz, h, mul_zero, mul_zero])
  | @affine x y hxy hne hx hy =>
    by_cases hzero : y = 0
    · have hself : y = curve.negY x y := by rw [curve.negY_eq, hzero, neg_zero]
      rw [WeierstrassCurve.Affine.Point.add_self_of_Y_eq hself]
      exact .infinity (by rw [hz, hy, hzero, zero_mul, zero_mul, mul_zero])
    · have hself : y ≠ curve.negY x y := by
        rw [curve.negY_eq, ne_eq, eq_neg_iff_add_eq_zero, ← two_mul]
        exact mul_ne_zero curve.two_ne_zero hzero
      have htwo := curve.two_ne_zero
      rw [WeierstrassCurve.Affine.Point.add_self_of_Y_ne hself]
      refine .affine _ ?_ ?_ ?_
      · rw [hz, hy]
        exact mul_ne_zero htwo (mul_ne_zero (mul_ne_zero hzero (pow_ne_zero 3 hne)) hne)
      · rw [hz]
        simp only [ScaledPoint.double, residue_mul, residue_sub, residue_ofNat, hx, hy,
          curve.addX_eq, curve.slope_self hzero]
        field_simp
        ring
      · rw [hz]
        simp only [ScaledPoint.double, residue_mul, residue_sub, residue_ofNat, hx, hy,
          curve.addY_eq, curve.addX_eq, curve.slope_self hzero]
        field_simp
        ring

theorem Represents.add {s : ScaledPoint} {P : curve.Point} (h : s.Represents P) (q : Point) :
    (s.add q).Represents (P + q.toCurve) := by
  cases h with
  | infinity hz =>
    rw [ScaledPoint.add, if_pos (residue_eq_zero_iff.mp hz), zero_add]
    exact represents_ofPoint q
  | @affine x y hxy hne hx hy =>
    have hh : residue (mulSub q.x (s.z * s.z) s.x) = (residue q.x - x) * residue s.z ^ 2 := by
      rw [residue_mulSub, residue_mul, hx]
      ring
    have hr : residue (mulSub q.y (s.z * s.z * s.z) s.y) = (residue q.y - y) * residue s.z ^ 3 := by
      rw [residue_mulSub, residue_mul, residue_mul, hy]
      ring
    have hdifference {a b : ZMod fieldPrime} {n : Nat} :
        (a - b) * residue s.z ^ n = 0 ↔ b = a := by
      rw [mul_eq_zero, or_iff_left (pow_ne_zero n hne), sub_eq_zero, eq_comm]
    rw [ScaledPoint.add, if_neg (mt residue_eq_zero_iff.mpr hne)]
    dsimp only
    split
    · rename_i hzero
      obtain rfl : x = residue q.x := by
        rwa [← residue_eq_zero_iff, hh, hdifference] at hzero
      split
      · rename_i hzero
        obtain rfl : y = residue q.y := by
          rwa [← residue_eq_zero_iff, hr, hdifference] at hzero
        exact (Represents.affine hxy hne hx hy).double
      · rename_i hnonzero
        have hother : y ≠ residue q.y := by
          rwa [← residue_eq_zero_iff, hr, hdifference] at hnonzero
        rw [Point.toCurve, curve.add_eq_zero hxy q.nonsingular hother]
        exact represents_infinity
    · rename_i hnonzero
      have hother : x ≠ residue q.x := by
        rwa [← residue_eq_zero_iff, hh, hdifference] at hnonzero
      have hsub : x - residue q.x ≠ 0 := sub_ne_zero.mpr hother
      have hsub' : residue q.x - x ≠ 0 := sub_ne_zero.mpr hother.symm
      rw [Point.toCurve, WeierstrassCurve.Affine.Point.add_of_X_ne hother]
      refine .affine _ ?_ ?_ ?_
      · rw [residue_mul, hh]
        exact mul_ne_zero hne (mul_ne_zero hsub' (pow_ne_zero 2 hne))
      · simp only [residue_mul, residue_mulSub, residue_add, hx, hy,
          curve.addX_eq, WeierstrassCurve.Affine.slope_of_X_ne hother]
        field_simp
        ring
      · simp only [residue_mul, residue_mulSub, residue_add, residue_sub, hx, hy,
          curve.addY_eq, curve.addX_eq, WeierstrassCurve.Affine.slope_of_X_ne hother]
        field_simp
        ring

theorem Represents.exists_toPoint? {s : ScaledPoint} {P : curve.Point} (h : s.Represents P) :
    (P = 0 ∧ s.toPoint? = none) ∨ ∃ p : Point, P = p.toCurve ∧ s.toPoint? = some p := by
  cases h with
  | infinity hz => exact .inl ⟨rfl, by rw [toPoint?, if_pos (residue_eq_zero_iff.mp hz)]⟩
  | @affine x y hxy hne hx hy =>
    have hz : s.z ≠ 0 := mt residue_eq_zero_iff.mpr hne
    have hfirst : residue (s.x * (s.z.inverse * s.z.inverse)) = x := by
      rw [residue_mul, residue_mul, residue_inverse hz, hx]
      field_simp
    have hsecond : residue (s.y * (s.z.inverse * s.z.inverse * s.z.inverse)) = y := by
      rw [residue_mul, residue_mul, residue_mul, residue_inverse hz, hy]
      field_simp
    have honCurve := curve.equation_iff.mp hxy.1
    rw [← hfirst, ← hsecond] at honCurve
    simp only [← residue_mul, ← residue_ofNat, ← residue_add] at honCurve
    let p : Point := ⟨_, _, residue_injective honCurve⟩
    refine .inr ⟨p, ?_, ?_⟩
    · simp only [Point.toCurve, p, hfirst, hsecond]
    · rw [toPoint?, if_neg hz]
      exact p.of?_eq_some

theorem Represents.toPoint?_eq_some_iff {s : ScaledPoint} {P : curve.Point} (h : s.Represents P)
    {p : Point} : s.toPoint? = some p ↔ p.toCurve = P := by
  obtain ⟨rfl, hnone⟩ | ⟨q, rfl, hsome⟩ := h.exists_toPoint?
  · rw [hnone]
    exact ⟨nofun, fun h => absurd h p.toCurve_ne_zero⟩
  · rw [hsome, Option.some.injEq, Point.toCurve_injective.eq_iff, eq_comm]

end ScaledPoint

end OutputDescriptor
