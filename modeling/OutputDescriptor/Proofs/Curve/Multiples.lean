import OutputDescriptor.Proofs.Curve.Group

/-! Multiples of points, and of the generator in particular: those that are added digit by digit are
the multiples in the group. -/
namespace OutputDescriptor

namespace Point

variable {p : Point}

/-- As long as infinity is not reached, each entry is the sum of the one before it and the point. -/
theorem map_toCurve_multiplesFrom {s : ScaledPoint} {P : curve.Point} (h : s.Represents P)
    {count : Nat} (hne : ∀ j < count, P + j • p.toCurve ≠ 0) :
    (p.multiplesFrom s count).map toCurve =
      (List.range count).map fun j => P + j • p.toCurve := by
  induction count generalizing s P with
  | zero => rfl
  | succ count ih =>
    have hfirst := hne 0 (Nat.succ_pos count)
    rw [zero_nsmul, add_zero] at hfirst
    have hshift (j : Nat) : P + p.toCurve + j • p.toCurve = P + (j + 1) • p.toCurve := by
      rw [succ_nsmul', add_assoc]
    obtain ⟨hzero, -⟩ | ⟨q, rfl, hq⟩ := h.exists_toPoint?
    · exact absurd hzero hfirst
    · have hrest := ih (h.add p) fun j hj => by
        rw [hshift]
        exact hne (j + 1) (Nat.succ_lt_succ hj)
      rw [multiplesFrom, hq, List.range_succ_eq_map, List.map_cons, List.map_map]
      simp only [Option.toList_some, List.singleton_append, List.map_cons, hrest, hshift, zero_nsmul,
        add_zero, Function.comp_def, Nat.succ_eq_add_one]

section Row

variable (hne : ∀ j, 1 ≤ j → j ≤ 16 → j • p.toCurve ≠ 0)
include hne

theorem map_toCurve_row : (p.multiplesFrom (.ofPoint p) 16).map toCurve =
    (List.range 16).map fun j => (j + 1) • p.toCurve := by
  have hshift (j : Nat) : p.toCurve + j • p.toCurve = (j + 1) • p.toCurve :=
    (succ_nsmul' p.toCurve j).symm
  rw [map_toCurve_multiplesFrom (ScaledPoint.represents_ofPoint p)]
  · simp only [hshift]
  · intro j hj
    rw [hshift]
    exact hne (j + 1) (by omega) (by omega)

theorem exists_row_getElem? {j : Nat} (hj : j < 16) :
    ∃ q, (p.multiplesFrom (.ofPoint p) 16)[j]? = some q ∧ q.toCurve = (j + 1) • p.toCurve := by
  have hentry := congrArg (·[j]?) (map_toCurve_row hne)
  simp only [List.getElem?_map, List.getElem?_range hj, Option.map_some] at hentry
  exact Option.map_eq_some_iff.mp hentry

theorem exists_row_getLast? :
    ∃ q, (p.multiplesFrom (.ofPoint p) 16).getLast? = some q ∧ q.toCurve = 16 • p.toCurve := by
  have hlength := congrArg List.length (map_toCurve_row hne)
  simp only [List.length_map, List.length_range] at hlength
  rw [List.getLast?_eq_getElem?, hlength]
  exact exists_row_getElem? hne (by decide)

end Row

/-- Adding the multiples that the digits of a number select adds the multiple by the number. -/
theorem represents_addSelected {count : Nat}
    (hne : ∀ i < count, ∀ j, 1 ≤ j → j ≤ 16 → (j * 16 ^ i) • p.toCurve ≠ 0) {s : ScaledPoint}
    {P : curve.Point} (h : s.Represents P) (k : Nat) :
    (addSelected s (windows count p) k).Represents (P + (k % 16 ^ count) • p.toCurve) := by
  induction count generalizing p s P k with
  | zero => simpa [windows, addSelected, Nat.mod_one] using h
  | succ count ih =>
    have hrow : ∀ j, 1 ≤ j → j ≤ 16 → j • p.toCurve ≠ 0 := by
      simpa using hne 0 (Nat.succ_pos count)
    obtain ⟨next, hnext, hsixteen⟩ := exists_row_getLast? hrow
    have hne' : ∀ i < count, ∀ j, 1 ≤ j → j ≤ 16 → (j * 16 ^ i) • next.toCurve ≠ 0 := by
      intro i hi j hpos hle
      rw [hsixteen, ← mul_nsmul', mul_assoc, ← pow_succ]
      exact hne (i + 1) (Nat.succ_lt_succ hi) j hpos hle
    -- the digit that selects nothing is zero
    have hdigit : ((if k % 16 = 0 then none
        else (p.multiplesFrom (.ofPoint p) 16)[k % 16 - 1]?).elim s s.add).Represents
          (P + (k % 16) • p.toCurve) := by
      split
      · rename_i hzero
        rwa [hzero, zero_nsmul, add_zero]
      · rename_i hnonzero
        obtain ⟨q, hq, hmultiple⟩ := exists_row_getElem? hrow (show k % 16 - 1 < 16 by omega)
        rw [Nat.sub_add_cancel (Nat.pos_of_ne_zero hnonzero)] at hmultiple
        rw [hq, ← hmultiple]
        exact h.add q
    have hsum : P + (k % 16) • p.toCurve + (k / 16 % 16 ^ count) • next.toCurve =
        P + (k % 16 ^ (count + 1)) • p.toCurve := by
      rw [hsixteen, ← mul_nsmul', add_assoc, ← add_nsmul, pow_succ', Nat.mod_mul, mul_comm 16]
    rw [← hsum, windows, hnext]
    exact ih hne' hdigit (k / 16)

end Point

/-! ### The generator -/

namespace ScaledPoint

/-- The multiple of a point by a number below `2 ^ bits`, by doubling and adding. -/
def multiple (p : Point) : Nat → Nat → ScaledPoint
  | 0, _ => infinity
  | bits + 1, k =>
    let half := multiple p bits (k / 2)
    if k % 2 = 1 then half.double.add p else half.double

theorem represents_multiple (p : Point) {bits k : Nat} (h : k < 2 ^ bits) :
    (multiple p bits k).Represents (k • p.toCurve) := by
  induction bits generalizing k with
  | zero =>
    have hzero : k = 0 := by simpa using h
    rw [hzero, zero_nsmul]
    exact represents_infinity
  | succ bits ih =>
    rw [pow_succ] at h
    have hhalf := (ih (show k / 2 < 2 ^ bits by omega)).double
    rw [← add_nsmul] at hhalf
    rw [multiple]
    split
    · rename_i hodd
      have hsum := hhalf.add p
      rwa [← succ_nsmul, show k / 2 + k / 2 + 1 = k by omega] at hsum
    · rename_i heven
      rwa [show k / 2 + k / 2 = k by omega] at hhalf

end ScaledPoint

namespace Point

theorem groupOrder_nsmul_generator : groupOrder • generator.toCurve = 0 := by
  have hinfinity : (ScaledPoint.multiple .generator 256 groupOrder).z = 0 := by decide +kernel
  have hnone : (ScaledPoint.multiple .generator 256 groupOrder).toPoint? = none := by
    rw [ScaledPoint.toPoint?, if_pos hinfinity]
  have horder : groupOrder < 2 ^ 256 := by decide
  obtain ⟨hzero, -⟩ | ⟨p, -, hsome⟩ :=
    (ScaledPoint.represents_multiple .generator horder).exists_toPoint?
  · exact hzero
  · rw [hnone] at hsome
    cases hsome

/-- No multiple by a number that has no factor in common with the order is infinity. -/
theorem nsmul_generator_ne_zero {k : Nat} (h : groupOrder.Coprime k) :
    k • generator.toCurve ≠ 0 := by
  intro hzero
  have hdvd := Nat.dvd_gcd (addOrderOf_dvd_of_nsmul_eq_zero groupOrder_nsmul_generator)
    (addOrderOf_dvd_of_nsmul_eq_zero hzero)
  rw [h, Nat.dvd_one, AddMonoid.addOrderOf_eq_one_iff] at hdvd
  exact generator.toCurve_ne_zero hdvd

theorem coprime_groupOrder {i j : Nat} (hpos : 1 ≤ j) (hle : j ≤ 16) :
    groupOrder.Coprime (j * 16 ^ i) := by
  have hsmall : ∀ j < 17, 1 ≤ j → groupOrder.Coprime j := by decide +kernel
  exact (hsmall j (by omega) hpos).mul_right
    (Nat.Coprime.pow_right i (hsmall 16 (by decide) (by decide)))

theorem represents_addGenerator {s : ScaledPoint} {P : curve.Point} (h : s.Represents P) {k : Nat}
    (hk : k < 16 ^ 64) :
    (addSelected s generatorWindows k).Represents (P + k • generator.toCurve) := by
  have hne : ∀ i < 64, ∀ j, 1 ≤ j → j ≤ 16 → (j * 16 ^ i) • generator.toCurve ≠ 0 :=
    fun i _ j hpos hle => nsmul_generator_ne_zero (coprime_groupOrder hpos hle)
  have hsum := represents_addSelected hne h k
  rwa [Nat.mod_eq_of_lt hk] at hsum

theorem represents_ofScalar {k : Nat} (hk : k < 16 ^ 64) :
    (addSelected .infinity generatorWindows k).Represents (k • generator.toCurve) := by
  have hsum := represents_addGenerator ScaledPoint.represents_infinity hk
  rwa [zero_add] at hsum

/-- A multiple of the generator is that of the group. -/
theorem ofScalar?_eq_some_iff {k : Nat} (hk : k < 16 ^ 64) {q : Point} :
    ofScalar? k = some q ↔ q.toCurve = k • generator.toCurve :=
  (represents_ofScalar hk).toPoint?_eq_some_iff

theorem exists_ofScalar? {k : Nat} (hk : k < 16 ^ 64) (h : groupOrder.Coprime k) :
    ∃ q, ofScalar? k = some q := by
  obtain ⟨hzero, -⟩ | ⟨q, -, hq⟩ := (represents_ofScalar hk).exists_toPoint?
  · exact absurd hzero (nsmul_generator_ne_zero h)
  · exact ⟨q, hq⟩

theorem tweak?_eq_some_iff {p : Point} {k : Nat} (hk : k < 16 ^ 64) {q : Point} :
    p.tweak? k = some q ↔ q.toCurve = p.toCurve + k • generator.toCurve :=
  (represents_addGenerator (ScaledPoint.represents_ofPoint p) hk).toPoint?_eq_some_iff

end Point

end OutputDescriptor
