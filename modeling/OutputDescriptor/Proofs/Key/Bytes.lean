import Mathlib.FieldTheory.Finite.Basic
import OutputDescriptor.Key.Single
import OutputDescriptor.Proofs.Curve.Primality
import OutputDescriptor.Proofs.Text.Digits

/-! Public keys are known from their bytes: the field has a square root for every square, and the
two roots differ in their parity. -/
namespace OutputDescriptor

namespace Coordinate

def residue (x : Coordinate) : ZMod fieldPrime := (x.val : ZMod fieldPrime)

theorem residue_injective : Function.Injective residue := by
  intro x y h
  have hmod := (ZMod.natCast_eq_natCast_iff' x.val y.val fieldPrime).mp h
  rw [Nat.mod_eq_of_lt x.isLt, Nat.mod_eq_of_lt y.isLt] at hmod
  exact Fin.ext hmod

theorem residue_mul (x y : Coordinate) : residue (x * y) = residue x * residue y := by
  rw [residue, Fin.val_mul, ZMod.natCast_mod, Nat.cast_mul]
  rfl

theorem val_neg (x : Coordinate) : (-x).val = (fieldPrime - x.val) % fieldPrime := by
  rw [Fin.neg_def]

theorem residue_neg (x : Coordinate) : residue (-x) = -residue x := by
  rw [residue, val_neg, ZMod.natCast_mod, Nat.cast_sub (Nat.le_of_lt x.isLt), ZMod.natCast_self,
    zero_sub]
  rfl

theorem residue_power (x : Coordinate) {bits exponent : Nat} (h : exponent < 2 ^ bits) :
    residue (power x bits exponent) = residue x ^ exponent := by
  apply eq_pow_of_halve (f := fun bits exponent => residue (power x bits exponent))
  · exact fun exponent => rfl
  · intro bits exponent
    rw [power]
    split
    · simp only [residue_mul]
    · simp only [residue_mul]
  · exact h

/-- What is taken for the root of a square is one of its two roots. -/
theorem squareRoot_mul_self (y : Coordinate) :
    squareRoot (y * y) = y ∨ squareRoot (y * y) = -y := by
  have : Fact fieldPrime.Prime := ⟨prime_fieldPrime⟩
  have hroot : residue (squareRoot (y * y)) = (residue y * residue y) ^ ((fieldPrime + 1) / 4) := by
    rw [squareRoot, residue_power _ (by decide), residue_mul]
  have hsquare : residue (squareRoot (y * y)) * residue (squareRoot (y * y)) =
      residue y * residue y := by
    rw [hroot, ← pow_two (residue y), ← pow_mul, ← pow_add]
    have hexponent : 2 * ((fieldPrime + 1) / 4) + 2 * ((fieldPrime + 1) / 4) = fieldPrime + 1 := by
      decide
    rw [hexponent, pow_succ, ZMod.pow_card, pow_two]
  rcases mul_self_eq_mul_self_iff.mp hsquare with h | h
  · exact .inl (residue_injective h)
  · rw [← residue_neg] at h
    exact .inr (residue_injective h)

/-- Only zero has the parity of its negative, as the prime is odd. -/
theorem neg_eq_self_of_isOdd {y : Coordinate} (h : (-y).isOdd = y.isOdd) : -y = y := by
  have hlt := y.isLt
  have hprime : fieldPrime % 2 = 1 := by decide
  by_cases hzero : y.val = 0
  · apply Fin.ext
    rw [val_neg, hzero, Nat.sub_zero, Nat.mod_self]
  · have hval : (-y).val = fieldPrime - y.val := by
      rw [val_neg]
      exact Nat.mod_eq_of_lt (by omega)
    simp only [isOdd, hval, decide_eq_decide] at h
    omega

theorem ofNat?_val (x : Coordinate) : ofNat? x.val = some x := by
  rw [ofNat?, dif_pos x.isLt]

theorem val_of_ofNat? {value : Nat} {x : Coordinate} (h : ofNat? value = some x) :
    x.val = value := by
  unfold ofNat? at h
  split at h
  · rw [← Option.some.inj h]
  · cases h

end Coordinate

namespace Point

theorem of?_eq_some (p : Point) : of? p.x p.y = some p := by
  rw [of?, dif_pos p.onCurve]

theorem eq_of_of? {x y : Coordinate} {p : Point} (h : of? x y = some p) : p.x = x ∧ p.y = y := by
  unfold of? at h
  split at h
  · rw [← Option.some.inj h]
    exact ⟨rfl, rfl⟩
  · cases h

theorem eq_of_lift? {x : Coordinate} {odd : Bool} {p : Point} (h : lift? x odd = some p) :
    p.x = x ∧ p.y.isOdd = odd := by
  unfold lift? at h
  obtain ⟨hpoint, hodd⟩ := Option.filter_eq_some_iff.mp h
  exact ⟨(eq_of_of? hpoint).1, of_decide_eq_true hodd⟩

/-- A point is known from its first coordinate and the parity of the second. -/
theorem lift?_eq_some (p : Point) : lift? p.x p.y.isOdd = some p := by
  have hroot : (if (p.y * p.y).squareRoot.isOdd = p.y.isOdd then (p.y * p.y).squareRoot
      else -(p.y * p.y).squareRoot) = p.y := by
    rcases Coordinate.squareRoot_mul_self p.y with h | h
    · rw [h, if_pos rfl]
    · rw [h]
      split
      · rename_i hodd
        exact Coordinate.neg_eq_self_of_isOdd hodd
      · apply Coordinate.residue_injective
        rw [Coordinate.residue_neg, Coordinate.residue_neg, neg_neg]
  rw [lift?, ← p.onCurve, hroot, of?_eq_some, Option.filter_some, if_pos (decide_eq_true rfl)]

end Point

namespace PublicKey

theorem length_toBytes (key : PublicKey) :
    key.toBytes.length = if key.compressed then 33 else 65 := by
  unfold toBytes
  cases key.compressed with
  | true => simp
  | false => simp

theorem length_toBytes_le (key : PublicKey) : key.toBytes.length ≤ 65 := by
  rw [length_toBytes]
  split <;> decide

theorem ofBytes?_toBytes (key : PublicKey) : ofBytes? key.toBytes = some key := by
  obtain ⟨point, compressed⟩ := key
  have hcoordinate (x : Coordinate) :
      Coordinate.ofNat? (Bytes.toNat (Bytes.ofNat 32 x.val)) = some x := by
    have hlt : x.val < 256 ^ 32 := Nat.lt_trans x.isLt (by decide)
    rw [Bytes.toNat_ofNat, Nat.mod_eq_of_lt hlt, Coordinate.ofNat?_val]
  have hx : (Bytes.ofNat 32 point.x.val).take 32 = Bytes.ofNat 32 point.x.val :=
    List.take_of_length_le (Nat.le_of_eq (Bytes.length_ofNat _ _))
  cases compressed with
  | true =>
    have hlift := Point.lift?_eq_some point
    cases hodd : point.y.isOdd with
    | true =>
      rw [hodd] at hlift
      simp [ofBytes?, toBytes, hodd, hx, hcoordinate, hlift]
    | false =>
      rw [hodd] at hlift
      simp [ofBytes?, toBytes, hodd, hx, hcoordinate, hlift]
  | false =>
    have hboth : (Bytes.ofNat 32 point.x.val ++ Bytes.ofNat 32 point.y.val).take 32 =
        Bytes.ofNat 32 point.x.val := by
      rw [List.take_append_of_le_length (Nat.le_of_eq (Bytes.length_ofNat _ _).symm), hx]
    have hy : (Bytes.ofNat 32 point.x.val ++ Bytes.ofNat 32 point.y.val).drop 32 =
        Bytes.ofNat 32 point.y.val := List.drop_left' (Bytes.length_ofNat _ _)
    simp [ofBytes?, toBytes, hboth, hy, hcoordinate, Point.of?_eq_some]

/-- No other bytes are read as a key than those that it is written as. -/
theorem ofBytes?_eq_some_iff {bytes : Bytes} {key : PublicKey} :
    ofBytes? bytes = some key ↔ bytes = key.toBytes := by
  constructor
  · intro h
    obtain ⟨tag, htag, h⟩ := Option.bind_eq_some_iff.mp h
    obtain ⟨x, hread, h⟩ := Option.bind_eq_some_iff.mp h
    have hx := Coordinate.val_of_ofNat? hread
    obtain ⟨rest, rfl⟩ := List.head?_eq_some_iff.mp htag
    rw [List.drop_one, List.tail_cons] at hx
    split at h
    · rename_i hform
      obtain ⟨hlength, htag⟩ := hform
      obtain ⟨point, hpoint, h⟩ := Option.bind_eq_some_iff.mp h
      obtain rfl := Option.some.inj h
      obtain ⟨rfl, hodd⟩ := Point.eq_of_lift? hpoint
      have hrest : rest.length = 32 := by simpa using hlength
      rw [List.take_of_length_le (Nat.le_of_eq hrest)] at hx
      have htag : (if point.y.isOdd then 3 else 2) = tag := by
        rw [hodd]
        rcases htag with rfl | rfl <;> rfl
      simp only [toBytes, Bytes.ofNat_eq_of_toNat hrest hx, htag, if_true]
    · obtain ⟨⟨hlength, rfl⟩, h⟩ := Option.ite_none_right_eq_some.mp h
      obtain ⟨y, hread, h⟩ := Option.bind_eq_some_iff.mp h
      have hy : y.val = Bytes.toNat (rest.drop 32) := Coordinate.val_of_ofNat? hread
      obtain ⟨point, hpoint, h⟩ := Option.bind_eq_some_iff.mp h
      obtain rfl := Option.some.inj h
      obtain ⟨rfl, rfl⟩ := Point.eq_of_of? hpoint
      have hrest : rest.length = 64 := by simpa using hlength
      have hfirst : Bytes.ofNat 32 point.x.val = rest.take 32 :=
        Bytes.ofNat_eq_of_toNat (by simp [hrest]) hx
      have hsecond : Bytes.ofNat 32 point.y.val = rest.drop 32 :=
        Bytes.ofNat_eq_of_toNat (by simp [hrest]) hy
      simp [toBytes, hfirst, hsecond]
  · rintro rfl
    exact ofBytes?_toBytes key

end PublicKey

namespace SecretKey

theorem of?_scalar (secret : SecretKey) : of? secret.scalar = some secret := by
  obtain ⟨scalar, point, hlt, hmultiple⟩ := secret
  rw [of?, dif_pos hlt]
  split
  · rename_i found hfound
    obtain rfl : found = point := Option.some.inj (hfound.symm.trans hmultiple)
    rfl
  · rename_i hnone
    rw [hmultiple] at hnone
    cases hnone

theorem of?_eq_some_iff {scalar : Nat} {secret : SecretKey} :
    of? scalar = some secret ↔ scalar = secret.scalar := by
  constructor
  · intro h
    unfold of? at h
    split at h
    · split at h
      · rw [← Option.some.inj h]
      · cases h
    · cases h
  · rintro rfl
    exact of?_scalar secret

@[simp] theorem length_toBytes (secret : SecretKey) : secret.toBytes.length = 32 :=
  Bytes.length_ofNat 32 secret.scalar

theorem of?_toNat_eq_some_iff {bytes : Bytes} {secret : SecretKey} (h : bytes.length = 32) :
    of? (Bytes.toNat bytes) = some secret ↔ bytes = secret.toBytes := by
  rw [of?_eq_some_iff]
  constructor
  · intro hvalue
    exact (Bytes.ofNat_eq_of_toNat h hvalue.symm).symm
  · rintro rfl
    have hlt : secret.scalar < 256 ^ 32 := Nat.lt_trans secret.scalar_lt (by decide)
    rw [toBytes, Bytes.toNat_ofNat, Nat.mod_eq_of_lt hlt]

end SecretKey

end OutputDescriptor
