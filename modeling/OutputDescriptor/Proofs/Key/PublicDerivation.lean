import OutputDescriptor.Proofs.Curve.Multiples
import OutputDescriptor.Proofs.Script.Instantiation

/-! Deriving an unhardened child and dropping the secret can be done in either order. -/
namespace OutputDescriptor

theorem groupOrder_lt : groupOrder < 16 ^ 64 := by decide

namespace SecretKey

theorem map_point_of? {scalar : Nat} (h : scalar < groupOrder) :
    (of? scalar).map point = Point.ofScalar? scalar := by
  unfold of?
  rw [dif_pos h]
  split
  · rename_i p hp
    exact hp.symm
  · rename_i hp
    exact hp.symm

theorem toCurve_point (s : SecretKey) : s.point.toCurve = s.scalar • Point.generator.toCurve :=
  (Point.ofScalar?_eq_some_iff (s.scalar_lt.trans groupOrder_lt)).mp s.multiple

/-- A point is moved by a tweak as its scalar is, which wraps around at the order of the group. -/
theorem tweak?_point (s : SecretKey) {tweak : Nat} (h : tweak < groupOrder) :
    s.point.tweak? tweak = Point.ofScalar? ((tweak + s.scalar) % groupOrder) := by
  have hsum : (tweak + s.scalar) % groupOrder < 16 ^ 64 :=
    (Nat.mod_lt _ (by decide)).trans groupOrder_lt
  have hmultiple : ((tweak + s.scalar) % groupOrder) • Point.generator.toCurve =
      s.point.toCurve + tweak • Point.generator.toCurve := by
    rw [← nsmul_eq_mod_nsmul _ Point.groupOrder_nsmul_generator, add_nsmul, add_comm,
      toCurve_point]
  apply Option.ext
  intro q
  rw [Point.tweak?_eq_some_iff (h.trans groupOrder_lt), Point.ofScalar?_eq_some_iff hsum,
    hmultiple]

end SecretKey

namespace KeyMaterial

def neuter (material : KeyMaterial) : KeyMaterial := .point material.publicPoint

theorem tweak?_neuter (material : KeyMaterial) (tweak : Nat) :
    material.neuter.tweak? tweak = (material.tweak? tweak).map neuter := by
  by_cases h : groupOrder ≤ tweak
  · simp only [tweak?, if_pos h, Option.map_none]
  · simp only [tweak?, if_neg h]
    cases material with
    | point p =>
      rw [Option.map_map]
      rfl
    | secret s =>
      have hlt : (tweak + s.scalar) % groupOrder < groupOrder := Nat.mod_lt _ (by decide)
      have hpoint := SecretKey.map_point_of? hlt
      rw [← s.tweak?_point (Nat.lt_of_not_le h)] at hpoint
      change (s.point.tweak? tweak).map KeyMaterial.point = _
      rw [← hpoint, Option.map_map, Option.map_map]
      rfl

end KeyMaterial

namespace ExtendedKey

variable {parent : ExtendedKey}

@[simp] theorem publicKey_neuter (key : ExtendedKey) : key.neuter.publicKey = key.publicKey := rfl

theorem childSeed_neuter {number : ChildNumber} (h : number.hardened = false) :
    parent.neuter.childSeed number = parent.childSeed number := by
  simp only [childSeed, h, Bool.false_eq_true, if_false, publicKey_neuter]
  rfl

theorem child?_neuter {number : ChildNumber} (h : number.hardened = false) :
    parent.neuter.child? number = (parent.child? number).map (Option.map neuter) := by
  have hplain (key : ExtendedKey) : ¬(number.hardened = true ∧ ¬key.isPrivate = true) := by
    simp [h]
  unfold child?
  rw [if_neg (hplain _), if_neg (hplain _)]
  change (if parent.depth = 255 then _ else _) = _
  by_cases hdepth : parent.depth = 255
  · rw [if_pos hdepth, if_pos hdepth]
    rfl
  · rw [if_neg hdepth, if_neg hdepth]
    have htweak := parent.material.tweak?_neuter
      (Bytes.toNat ((parent.childSeed number).val.take 32))
    have hmaterial : parent.neuter.material = parent.material.neuter := rfl
    simp only [childSeed_neuter h, hmaterial, htweak, Except.map, Option.map_map]
    rfl

/-- The child of the public key is the public key of the child, at the same number. -/
theorem deriveChild_neuter (parent : ExtendedKey) (index : Nat) :
    parent.neuter.deriveChild index false =
      (parent.deriveChild index false).map fun child => ⟨child.key.neuter, child.childNumber⟩ := by
  fun_induction deriveChild parent index false with
  | case1 index hindex error herror =>
    have hchild := @child?_neuter parent ⟨index, false, hindex⟩ rfl
    rw [herror] at hchild
    rw [deriveChild, dif_pos hindex, hchild]
    rfl
  | case2 index hindex key hkey =>
    have hchild := @child?_neuter parent ⟨index, false, hindex⟩ rfl
    rw [hkey] at hchild
    rw [deriveChild, dif_pos hindex, hchild]
    rfl
  | case3 index hindex hnone ih =>
    have hchild := @child?_neuter parent ⟨index, false, hindex⟩ rfl
    rw [hnone] at hchild
    rw [deriveChild, dif_pos hindex, hchild]
    exact ih
  | case4 index hindex =>
    rw [deriveChild, dif_neg hindex]
    rfl

end ExtendedKey

end OutputDescriptor
