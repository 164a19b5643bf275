import Mathlib.NumberTheory.LucasPrimality
import Mathlib.Tactic.NormNum.Prime
import OutputDescriptor.Curve.Field

/-! The field of the curve has a prime number of elements, by the test of Lucas. -/
namespace OutputDescriptor

theorem pow_halve {M : Type} [Monoid M] (x : M) (exponent : Nat) :
    x ^ exponent = if exponent % 2 = 1 then x ^ (exponent / 2) * x ^ (exponent / 2) * x
      else x ^ (exponent / 2) * x ^ (exponent / 2) := by
  have hsum := Nat.div_add_mod exponent 2
  split
  · rename_i hodd
    rw [← pow_add, ← pow_succ]
    congr 1
    omega
  · rename_i heven
    rw [← pow_add]
    congr 1
    omega

/-- What squares and multiplies by the bits of the exponent is the power. -/
theorem eq_pow_of_halve {M : Type} [Monoid M] {x : M} {f : Nat → Nat → M}
    (hzero : ∀ exponent, f 0 exponent = 1)
    (hsucc : ∀ bits exponent, f (bits + 1) exponent = if exponent % 2 = 1 then
      f bits (exponent / 2) * f bits (exponent / 2) * x
      else f bits (exponent / 2) * f bits (exponent / 2))
    {bits exponent : Nat} (h : exponent < 2 ^ bits) : f bits exponent = x ^ exponent := by
  induction bits generalizing exponent with
  | zero =>
    rw [hzero, show exponent = 0 by simpa using h, pow_zero]
  | succ bits ih =>
    rw [pow_succ] at h
    have hroot := ih (show exponent / 2 < 2 ^ bits by omega)
    rw [hsucc, hroot, ← pow_halve]

/-- The power modulo a number, to an exponent below `2 ^ bits`. -/
def powerMod (modulus base : Nat) : Nat → Nat → Nat
  | 0, _ => 1 % modulus
  | bits + 1, exponent =>
    let root := powerMod modulus base bits (exponent / 2)
    if exponent % 2 = 1 then root * root % modulus * base % modulus else root * root % modulus

theorem natCast_powerMod (modulus base : Nat) {bits exponent : Nat} (h : exponent < 2 ^ bits) :
    (powerMod modulus base bits exponent : ZMod modulus) = (base : ZMod modulus) ^ exponent := by
  apply eq_pow_of_halve (f := fun bits exponent => (powerMod modulus base bits exponent : ZMod modulus))
  · intro exponent
    rw [powerMod, ZMod.natCast_mod, Nat.cast_one]
  · intro bits exponent
    rw [powerMod]
    split
    · simp only [ZMod.natCast_mod, Nat.cast_mul]
    · simp only [ZMod.natCast_mod, Nat.cast_mul]
  · exact h

theorem powerMod_lt {modulus : Nat} (h : 0 < modulus) (base bits exponent : Nat) :
    powerMod modulus base bits exponent < modulus := by
  cases bits with
  | zero => exact Nat.mod_lt _ h
  | succ bits =>
    rw [powerMod]
    split
    · exact Nat.mod_lt _ h
    · exact Nat.mod_lt _ h

theorem powerMod_eq_one_iff {modulus base bits exponent : Nat} (hmodulus : 1 < modulus)
    (h : exponent < 2 ^ bits) :
    powerMod modulus base bits exponent = 1 ↔ (base : ZMod modulus) ^ exponent = 1 := by
  have hlt := powerMod_lt (Nat.zero_lt_of_lt hmodulus) base bits exponent
  have hcast : (powerMod modulus base bits exponent : ZMod modulus) = (1 : Nat) ↔
      powerMod modulus base bits exponent = 1 := by
    rw [ZMod.natCast_eq_natCast_iff', Nat.mod_eq_of_lt hlt, Nat.mod_eq_of_lt hmodulus]
  rw [← hcast, natCast_powerMod modulus base h, Nat.cast_one]

/-- The base generates all units: its order is `p - 1`, and `factors` are the prime factors of
that. -/
def generatesUnits (p base : Nat) (factors : List Nat) : Bool :=
  1 < p && p ≤ 2 ^ 256 && factors.prod = p - 1 && powerMod p base 256 (p - 1) = 1 &&
    factors.all fun q => powerMod p base 256 ((p - 1) / q) ≠ 1

theorem prime_of_generatesUnits {p : Nat} (base : Nat) (factors : List Nat)
    (hfactors : ∀ q ∈ factors, q.Prime) (h : generatesUnits p base factors) : p.Prime := by
  simp only [generatesUnits, Bool.and_eq_true, decide_eq_true_eq, List.all_eq_true] at h
  obtain ⟨⟨⟨⟨hp, hbits⟩, hprod⟩, hone⟩, hne⟩ := h
  have hexponent {exponent : Nat} (hle : exponent ≤ p - 1) : exponent < 2 ^ 256 := by omega
  refine lucas_primality p base ?_ fun q hq hdvd => ?_
  · exact (powerMod_eq_one_iff hp (hexponent le_rfl)).mp hone
  · rw [← hprod] at hdvd
    obtain ⟨factor, hfactor, hdvd⟩ := (Prime.dvd_prod_iff hq.prime).mp hdvd
    obtain rfl := (Nat.prime_dvd_prime_iff_eq hq (hfactors factor hfactor)).mp hdvd
    have hdiv := hexponent (Nat.div_le_self (p - 1) q)
    exact fun hpow => hne q hfactor ((powerMod_eq_one_iff hp hdiv).mpr hpow)


theorem prime_fieldPrime : fieldPrime.Prime := by
  have h₁ : Nat.Prime 173378833005251801 :=
    prime_of_generatesUnits 6 [2, 2, 2, 5, 5, 2621, 24809, 13331831] (by norm_num)
      (by decide +kernel)
  have h₂ : Nat.Prime 22149492674086928081353 :=
    prime_of_generatesUnits 5 ([2, 2, 2, 3, 5323] ++ [173378833005251801])
      (List.forall_mem_append.mpr ⟨by norm_num, List.forall_mem_singleton.mpr h₁⟩)
      (by decide +kernel)
  have h₃ : Nat.Prime 132896956044521568488119 :=
    prime_of_generatesUnits 6 ([2, 3] ++ [22149492674086928081353])
      (List.forall_mem_append.mpr ⟨by norm_num, List.forall_mem_singleton.mpr h₂⟩)
      (by decide +kernel)
  have h₄ : Nat.Prime 255515944373312847190720520512484175977 :=
    prime_of_generatesUnits 3 [2, 2, 2, 7, 7, 11, 1627, 2657, 4423, 41201, 96557, 7240687,
      107590001] (by norm_num) (by decide +kernel)
  have h₅ : Nat.Prime 205115282021455665897114700593932402728804164701536103180137503955397371 :=
    prime_of_generatesUnits 10 ([2, 3, 5, 29, 29, 31, 7723] ++
      [132896956044521568488119, 255515944373312847190720520512484175977])
      (List.forall_mem_append.mpr
        ⟨by norm_num, List.forall_mem_cons.mpr ⟨h₃, List.forall_mem_singleton.mpr h₄⟩⟩)
      (by decide +kernel)
  exact prime_of_generatesUnits 3 ([2, 3, 7, 13441] ++
    [205115282021455665897114700593932402728804164701536103180137503955397371])
    (List.forall_mem_append.mpr ⟨by norm_num, List.forall_mem_singleton.mpr h₅⟩)
    (by decide +kernel)

end OutputDescriptor
