import Mathlib.Algebra.Group.Nat.Defs
import Mathlib.Data.List.Basic
import Mathlib.Data.List.Induction
import OutputDescriptor.Bytes

/-! Digit sequences of a fixed length and the numbers that they write determine each other. -/
namespace OutputDescriptor

theorem ofDigits_lt {base : Nat} {ds : List Nat} (h : ∀ d ∈ ds, d < base) :
    ofDigits base ds < base ^ ds.length := by
  induction ds using List.reverseRecOn with
  | nil => exact Nat.one_pos
  | append_singleton ds d ih =>
    have hd : d < base := h d (by simp)
    have hds := ih fun e he => h e (List.mem_append_left _ he)
    rw [ofDigits_append_singleton, List.length_append, List.length_singleton, Nat.pow_succ]
    have := Nat.mul_le_mul_right base (Nat.succ_le_of_lt hds)
    rw [Nat.succ_mul] at this
    omega

theorem ofDigits_append (base : Nat) (ds es : List Nat) :
    ofDigits base (ds ++ es) = ofDigits base ds * base ^ es.length + ofDigits base es := by
  induction es using List.reverseRecOn with
  | nil => simp [ofDigits]
  | append_singleton es e ih =>
    rw [← List.append_assoc, ofDigits_append_singleton, ofDigits_append_singleton, ih,
      List.length_append, List.length_singleton, Nat.pow_succ, Nat.add_mul, Nat.mul_assoc,
      Nat.add_assoc]

/-- A number has one digit sequence of each length. -/
theorem ofDigits_injective {base : Nat} {a b : List Nat} (hlen : a.length = b.length)
    (ha : ∀ d ∈ a, d < base) (hb : ∀ d ∈ b, d < base) (h : ofDigits base a = ofDigits base b) :
    a = b := by
  induction a using List.reverseRecOn generalizing b with
  | nil => exact (List.eq_nil_of_length_eq_zero hlen.symm).symm
  | append_singleton a d ih =>
    obtain rfl | ⟨b, e, rfl⟩ := List.eq_nil_or_concat' b
    · simp at hlen
    have hd : d < base := ha d (by simp)
    have he : e < base := hb e (by simp)
    have hbase : 0 < base := by omega
    rw [ofDigits_append_singleton, ofDigits_append_singleton] at h
    have hlast : d = e := by
      have := congrArg (· % base) h
      simpa [Nat.add_mod, Nat.mod_eq_of_lt hd, Nat.mod_eq_of_lt he] using this
    have hrest : ofDigits base a = ofDigits base b :=
      Nat.eq_of_mul_eq_mul_right hbase (by omega)
    rw [hlast, ih (by simpa using hlen) (fun x hx => ha x (List.mem_append_left _ hx))
      (fun x hx => hb x (List.mem_append_left _ hx)) hrest]

theorem ofDigits_digits (base count value : Nat) :
    ofDigits base (digits base count value) = value % base ^ count := by
  induction count generalizing value with
  | zero => simp [digits, digitsOnto, ofDigits, Nat.mod_one]
  | succ count ih =>
    rw [digits_succ, ofDigits_append_singleton, ih, Nat.pow_succ', Nat.mod_mul]
    rw [Nat.mul_comm, Nat.add_comm]

theorem lt_of_mem_digits {base count value d : Nat} (hbase : 0 < base)
    (h : d ∈ digits base count value) : d < base := by
  induction count generalizing value with
  | zero => cases h
  | succ count ih =>
    rw [digits_succ, List.mem_append, List.mem_singleton] at h
    rcases h with h | rfl
    · exact ih h
    · exact Nat.mod_lt value hbase

theorem digits_ofDigits {base : Nat} {ds : List Nat} (h : ∀ d ∈ ds, d < base) :
    digits base ds.length (ofDigits base ds) = ds := by
  induction ds using List.reverseRecOn with
  | nil => rfl
  | append_singleton ds d ih =>
    have hd : d < base := h d (by simp)
    have hbase : 0 < base := by omega
    have hds := ih fun e he => h e (List.mem_append_left _ he)
    rw [ofDigits_append_singleton, List.length_append, List.length_singleton, digits_succ]
    have hdiv : (ofDigits base ds * base + d) / base = ofDigits base ds := by
      rw [Nat.mul_comm, Nat.mul_add_div hbase, Nat.div_eq_of_lt hd, Nat.add_zero]
    have hmod : (ofDigits base ds * base + d) % base = d := by
      rw [Nat.mul_comm, Nat.mul_add_mod, Nat.mod_eq_of_lt hd]
    rw [hdiv, hmod, hds]

/-- Each digit alone. -/
theorem digits_eq_map_range (base count value : Nat) :
    digits base count value =
      (List.range count).map fun i => value / base ^ (count - 1 - i) % base := by
  induction count generalizing value with
  | zero => rfl
  | succ count ih =>
    rw [digits_succ, ih, List.range_succ, List.map_append]
    congr 1
    · refine List.map_congr_left fun i hi => ?_
      have hi := List.mem_range.mp hi
      have hexp : (count - 1 - i).succ = count + 1 - 1 - i := by omega
      rw [Nat.div_div_eq_div_mul, ← Nat.pow_succ', hexp]
    · simp

/-- Zeros in front do not count. -/
theorem ofDigits_replicate_zero_append (base count : Nat) (ds : List Nat) :
    ofDigits base (List.replicate count 0 ++ ds) = ofDigits base ds := by
  induction count with
  | zero => rfl
  | succ count ih =>
    rw [← ih, List.replicate_succ, List.cons_append]
    simp [ofDigits]

namespace Bytes

theorem lt_of_mem_map_toNat (bytes : Bytes) : ∀ d ∈ bytes.map UInt8.toNat, d < 256 := by
  intro d hd
  obtain ⟨byte, -, rfl⟩ := List.mem_map.mp hd
  exact byte.toNat_lt

theorem map_toNat_map_ofNat {ds : List Nat} (h : ∀ d ∈ ds, d < 256) :
    (ds.map UInt8.ofNat).map UInt8.toNat = ds := by
  rw [List.map_map]
  exact (List.map_congr_left fun d hd => UInt8.toNat_ofNat_of_lt (h d hd)).trans (List.map_id ds)

theorem map_ofNat_map_toNat (bytes : Bytes) :
    (bytes.map UInt8.toNat).map UInt8.ofNat = bytes := by
  rw [List.map_map]
  exact (List.map_congr_left fun byte _ => UInt8.ofNat_toNat).trans (List.map_id bytes)

theorem toNat_lt (bytes : Bytes) : toNat bytes < 256 ^ bytes.length := by
  have h := ofDigits_lt (lt_of_mem_map_toNat bytes)
  rwa [List.length_map] at h

theorem toNat_append (a b : Bytes) : toNat (a ++ b) = toNat a * 256 ^ b.length + toNat b := by
  rw [toNat, List.map_append, ofDigits_append, List.length_map]
  rfl

theorem toNat_ofNat (count value : Nat) : toNat (ofNat count value) = value % 256 ^ count := by
  have hbytes : (ofNat count value).map UInt8.toNat = digits 256 count value :=
    map_toNat_map_ofNat fun d hd => lt_of_mem_digits (by decide) hd
  rw [toNat, hbytes, ofDigits_digits]

theorem ofNat_toNat (bytes : Bytes) : ofNat bytes.length (toNat bytes) = bytes := by
  have hdigits := digits_ofDigits (lt_of_mem_map_toNat bytes)
  rw [List.length_map] at hdigits
  rw [ofNat, toNat, hdigits, map_ofNat_map_toNat]

/-- The number of a byte string lies in the range that its first bytes set. -/
theorem toNat_append_bounds (front rest : Bytes) :
    toNat front * 256 ^ rest.length ≤ toNat (front ++ rest) ∧
      toNat (front ++ rest) < (toNat front + 1) * 256 ^ rest.length := by
  have hrest := toNat_lt rest
  rw [toNat_append, Nat.succ_mul]
  omega

/-- A byte string of the right length is the one that its number is written as. -/
theorem ofNat_eq_of_toNat {bytes : Bytes} {count value : Nat} (hlen : bytes.length = count)
    (h : value = toNat bytes) : ofNat count value = bytes := by
  rw [h, ← hlen, ofNat_toNat]

end Bytes

end OutputDescriptor
