import Mathlib.Tactic.Common
import OutputDescriptor.Proofs.Text.Digits
import OutputDescriptor.Residue

/-! Remainders are linear in the symbols and in the remainder before them, so two symbol strings
that differ in a short stretch never leave the same remainder, and a string is completed to the
target of a code by its check symbols alone. -/
namespace OutputDescriptor

namespace Symbol

theorem lt_of_mem_map_toNat (symbols : List Symbol) : ∀ d ∈ symbols.map BitVec.toNat, d < 32 := by
  intro d hd
  obtain ⟨s, -, rfl⟩ := List.mem_map.mp hd
  exact s.isLt

theorem map_toNat_map_ofNat {ds : List Nat} (h : ∀ d ∈ ds, d < 32) :
    (ds.map (BitVec.ofNat 5)).map BitVec.toNat = ds := by
  rw [List.map_map]
  refine (List.map_congr_left fun d hd => ?_).trans (List.map_id ds)
  exact Nat.mod_eq_of_lt (h d hd)

theorem map_ofNat_map_toNat (symbols : List Symbol) :
    (symbols.map BitVec.toNat).map (BitVec.ofNat 5) = symbols := by
  rw [List.map_map]
  exact (List.map_congr_left fun s _ => BitVec.ofNat_toNat 5 s).trans
    ((List.map_congr_left fun s _ => BitVec.setWidth_eq s).trans (List.map_id symbols))

end Symbol

theorem length_unpackSymbols {width : Nat} (word : BitVec width) :
    (unpackSymbols word).length = width / 5 := by
  simp [unpackSymbols]

section Unpack

variable {width : Nat} (hwidth : 5 ∣ width)
include hwidth

theorem map_toNat_unpackSymbols (word : BitVec width) :
    (unpackSymbols word).map BitVec.toNat = digits 32 (width / 5) word.toNat := by
  rw [unpackSymbols, digits_eq_map_range, List.map_map]
  refine List.map_congr_left fun i hi => ?_
  have hi := List.mem_range.mp hi
  have hshift : 2 ^ (width - 5 * (i + 1)) = 32 ^ (width / 5 - 1 - i) := by
    rw [show 32 = 2 ^ 5 by rfl, ← Nat.pow_mul]
    congr 1
    omega
  simp [Nat.shiftRight_eq_div_pow, hshift]

theorem ofDigits_unpackSymbols (word : BitVec width) :
    ofDigits 32 ((unpackSymbols word).map BitVec.toNat) = word.toNat := by
  have hpow : 32 ^ (width / 5) = 2 ^ width := by
    rw [show 32 = 2 ^ 5 by rfl, ← Nat.pow_mul, Nat.mul_div_cancel' hwidth]
  rw [map_toNat_unpackSymbols hwidth, ofDigits_digits, hpow, Nat.mod_eq_of_lt word.isLt]

/-- A word that is made of whole symbols is known from them. -/
theorem unpackSymbols_injective {a b : BitVec width} (h : unpackSymbols a = unpackSymbols b) :
    a = b := by
  apply BitVec.eq_of_toNat_eq
  rw [← ofDigits_unpackSymbols hwidth, h, ofDigits_unpackSymbols hwidth]

end Unpack

namespace ResidueCode

variable {width : Nat} (code : ResidueCode width)

private theorem foldl_rows_xor (rows : List (BitVec width × Nat)) (a b : Symbol)
    (x y : BitVec width) :
    rows.foldl (fun acc (row, i) => if (a ^^^ b).getLsbD i then acc ^^^ row else acc) (x ^^^ y) =
      rows.foldl (fun acc (row, i) => if a.getLsbD i then acc ^^^ row else acc) x ^^^
        rows.foldl (fun acc (row, i) => if b.getLsbD i then acc ^^^ row else acc) y := by
  induction rows generalizing x y with
  | nil => rfl
  | cons entry rest ih =>
    obtain ⟨row, i⟩ := entry
    simp only [List.foldl_cons, BitVec.getLsbD_xor, ← ih]
    congr 1
    cases a.getLsbD i <;> cases b.getLsbD i <;> simp
    · ac_rfl
    · ac_rfl
    · rw [BitVec.xor_assoc, ← BitVec.xor_assoc row, BitVec.xor_comm row, BitVec.xor_assoc y,
        BitVec.xor_self, BitVec.xor_zero]

theorem feedback_xor (a b : Symbol) :
    code.feedback (a ^^^ b) = code.feedback a ^^^ code.feedback b := by
  simpa [feedback] using foldl_rows_xor code.rows.zipIdx a b 0 0

theorem step_xor (r r' : BitVec width) (s s' : Symbol) :
    code.step (r ^^^ r') (s ^^^ s') = code.step r s ^^^ code.step r' s' := by
  simp only [step, BitVec.shiftLeft_xor_distrib, BitVec.ushiftRight_xor_distrib,
    BitVec.setWidth_xor, feedback_xor]
  ac_rfl

theorem run_append (r : BitVec width) (a b : List Symbol) :
    code.run r (a ++ b) = code.run (code.run r a) b :=
  List.foldl_append

theorem run_xor (r r' : BitVec width) {a b : List Symbol} (h : a.length = b.length) :
    code.run (r ^^^ r') (List.zipWith (· ^^^ ·) a b) = code.run r a ^^^ code.run r' b := by
  induction a generalizing b r r' with
  | nil =>
    cases b with
    | nil => rfl
    | cons => simp at h
  | cons s a ih =>
    cases b with
    | nil => simp at h
    | cons s' b =>
      have hlen : a.length = b.length := by simpa using h
      have := ih (code.step r s) (code.step r' s') hlen
      rw [← step_xor] at this
      exact this

/-- No symbol but zero leaves a remainder without a last symbol. -/
def Invertible : Prop := ∀ top : Symbol, (code.feedback top).setWidth 5 = 0 → top = 0

theorem feedback_zero : code.feedback 0 = 0 := by
  have h := code.feedback_xor 0 0
  rw [BitVec.xor_self, BitVec.xor_self] at h
  exact h

private theorem eq_zero_of_shift {r : BitVec width} (hlow : r <<< 5 = 0)
    (htop : (r >>> (width - 5)).setWidth 5 = 0) : r = 0 := by
  apply BitVec.eq_of_getLsbD_eq
  intro i hi
  refine Eq.trans ?_ BitVec.getLsbD_zero.symm
  by_cases hshift : i + 5 < width
  · have h : (r <<< 5).getLsbD (i + 5) = false := by rw [hlow]; exact BitVec.getLsbD_zero
    simpa [hshift, ← BitVec.getLsbD_eq_getElem] using h
  · have h : ((r >>> (width - 5)).setWidth 5).getLsbD (i - (width - 5)) = false := by
      rw [htop]
      exact BitVec.getLsbD_zero
    rw [BitVec.getLsbD_setWidth, BitVec.getLsbD_ushiftRight,
      show width - 5 + (i - (width - 5)) = i by omega] at h
    simpa [show i - (width - 5) < 5 by omega] using h

/-- The last symbol of a shifted remainder is that of the feedback alone. -/
theorem eq_zero_of_step {r : BitVec width} (hcode : code.Invertible) (h : code.step r 0 = 0) :
    r = 0 := by
  have hfeed : r <<< 5 = code.feedback ((r >>> (width - 5)).setWidth 5) := by
    simpa [step, BitVec.xor_eq_zero_iff] using h
  have htop : (r >>> (width - 5)).setWidth 5 = (0 : Symbol) := by
    apply hcode
    rw [← hfeed]
    ext i hi
    simp [hi]
  refine eq_zero_of_shift ?_ htop
  rw [hfeed, htop, feedback_zero]

theorem step_injective (hcode : code.Invertible) {r r' : BitVec width} {s : Symbol}
    (h : code.step r s = code.step r' s) : r = r' := by
  apply BitVec.xor_eq_zero_iff.mp
  apply code.eq_zero_of_step hcode
  have hxor := code.step_xor r r' s s
  rw [h, BitVec.xor_self, BitVec.xor_self] at hxor
  exact hxor

theorem run_injective (hcode : code.Invertible) {r r' : BitVec width} (symbols : List Symbol)
    (h : code.run r symbols = code.run r' symbols) : r = r' := by
  induction symbols generalizing r r' with
  | nil => exact h
  | cons s rest ih => exact code.step_injective hcode (ih h)

/-- A symbol fills the bits that shifting by its width frees. -/
theorem shiftLeft_xor_setWidth (r : BitVec width) (s : Symbol) :
    r <<< 5 ^^^ s.setWidth width = r <<< 5 + s.setWidth width := by
  have hdisjoint : ∀ i, i < width → ¬((r <<< 5).getLsbD i ∧ (s.setWidth width).getLsbD i) := by
    intro i hi
    by_cases hlow : i < 5
    · simp [hlow]
    · simp [hlow, BitVec.getLsbD_of_ge s i (by omega)]
  rw [BitVec.add_eq_or_of_and_eq_zero]
  · apply BitVec.eq_of_getLsbD_eq
    intro i hi
    have hnot := hdisjoint i hi
    revert hnot
    rw [BitVec.getLsbD_xor, BitVec.getLsbD_or]
    cases (r <<< 5).getLsbD i <;> cases (s.setWidth width).getLsbD i <;> simp
  · apply BitVec.eq_of_getLsbD_eq
    intro i hi
    rw [BitVec.getLsbD_and, BitVec.getLsbD_zero]
    simpa using hdisjoint i hi

theorem toNat_step {r : BitVec width} (s : Symbol) (h : r.toNat * 32 + 31 < 2 ^ width) :
    (code.step r s).toNat = r.toNat * 32 + s.toNat := by
  have hs := s.isLt
  have hfive : 5 ≤ width := by
    by_contra hlt
    have := Nat.pow_lt_pow_right (a := 2) (by decide) (show width < 5 by omega)
    omega
  have hpow : 2 ^ width = 2 ^ (width - 5) * 32 := by
    rw [show 32 = 2 ^ 5 by rfl, ← Nat.pow_add]
    congr 1
    omega
  have htop : (r >>> (width - 5)).setWidth 5 = (0 : Symbol) := by
    apply BitVec.eq_of_toNat_eq
    have : r.toNat < 2 ^ (width - 5) := by omega
    simp [Nat.shiftRight_eq_div_pow, Nat.div_eq_of_lt this]
  have hshift : (r <<< 5 : BitVec width).toNat = r.toNat <<< 5 := by
    rw [BitVec.toNat_shiftLeft, Nat.shiftLeft_eq, Nat.mod_eq_of_lt (by omega)]
  have hsymbol : (s.setWidth width).toNat = s.toNat := by
    rw [BitVec.toNat_setWidth, Nat.mod_eq_of_lt (by omega)]
  have hstep : code.step r s = r <<< 5 + s.setWidth width := by
    rw [step, htop, feedback_zero, shiftLeft_xor_setWidth]
    exact BitVec.xor_zero
  rw [hstep, BitVec.toNat_add, hshift, hsymbol, Nat.shiftLeft_eq]
  exact Nat.mod_eq_of_lt (by omega)

/-- As long as no symbol falls out, the remainder is the number that the symbols write. -/
theorem toNat_run {symbols : List Symbol} (h : 5 * symbols.length ≤ width) :
    (code.run 0 symbols).toNat = ofDigits 32 (symbols.map BitVec.toNat) := by
  induction symbols using List.reverseRecOn with
  | nil => rfl
  | append_singleton init s ih =>
    rw [List.length_append, List.length_singleton] at h
    have hinit := ih (by omega)
    have hbound : ofDigits 32 (init.map BitVec.toNat) < 32 ^ init.length := by
      rw [← List.length_map (f := BitVec.toNat)]
      exact ofDigits_lt (Symbol.lt_of_mem_map_toNat _)
    have hroom : 32 ^ init.length * 32 ≤ 2 ^ width := by
      rw [← Nat.pow_succ, show 32 = 2 ^ 5 by rfl, ← Nat.pow_mul]
      exact Nat.pow_le_pow_right (by decide) (by omega)
    have hlast : code.run 0 (init ++ [s]) = code.step (code.run 0 init) s :=
      code.run_append 0 init [s]
    rw [hlast, code.toNat_step s (by omega), hinit, List.map_append]
    exact (ofDigits_append_singleton _ _ _).symm

private theorem eq_of_xor_eq_zero {a b : List Symbol} (hlen : a.length = b.length)
    (h : ∀ s ∈ List.zipWith (· ^^^ ·) a b, s = 0) : a = b := by
  induction a generalizing b with
  | nil => exact (List.eq_nil_of_length_eq_zero hlen.symm).symm
  | cons s a ih =>
    cases b with
    | nil => simp at hlen
    | cons s' b =>
      rw [List.zipWith_cons_cons, List.forall_mem_cons] at h
      rw [BitVec.xor_eq_zero_iff.mp h.1, ih (by simpa using hlen) h.2]

/-- A short string leaves zero only if all of its symbols are zero. -/
theorem eq_zero_of_run {symbols : List Symbol} (h : 5 * symbols.length ≤ width)
    (hzero : code.run 0 symbols = 0) : ∀ s ∈ symbols, s = 0 := by
  have hzeros (n : Nat) : ofDigits 32 (List.replicate n 0) = 0 := by
    induction n with
    | zero => rfl
    | succ n ih => rw [List.replicate_succ', ofDigits_append_singleton, ih]
  have hvalue : ofDigits 32 (symbols.map BitVec.toNat) =
      ofDigits 32 (List.replicate symbols.length 0) := by
    rw [← code.toNat_run h, hzero, hzeros]
    rfl
  have hdigits := ofDigits_injective (by simp) (Symbol.lt_of_mem_map_toNat _)
    (by simp) hvalue
  intro s hs
  have hs := List.mem_map_of_mem (f := BitVec.toNat) hs
  rw [hdigits] at hs
  exact BitVec.eq_of_toNat_eq (List.eq_of_mem_replicate hs)

/-- Symbol strings that differ within the width of the remainder leave different remainders,
whatever stands before and after them. -/
theorem run_append_ne (hcode : code.Invertible) (r : BitVec width) {a b : List Symbol}
    (rest : List Symbol) (hlen : a.length = b.length) (hshort : 5 * a.length ≤ width)
    (hne : a ≠ b) : code.run r (a ++ rest) ≠ code.run r (b ++ rest) := by
  intro heq
  rw [run_append, run_append] at heq
  have hrun : code.run r a = code.run r b := code.run_injective hcode rest heq
  have hzero := code.run_xor r r hlen
  rw [hrun, BitVec.xor_self, BitVec.xor_self] at hzero
  refine hne (eq_of_xor_eq_zero hlen (code.eq_zero_of_run ?_ hzero))
  rwa [List.length_zipWith, ← hlen, Nat.min_self]

theorem checkSymbols_injective (hcode : code.Invertible) (hwidth : 5 ∣ width) {r r' : BitVec width}
    (h : code.checkSymbols r = code.checkSymbols r') : r = r' :=
  code.run_injective hcode _ (unpackSymbols_injective hwidth h)

/-- What a string leaves, apart from what the remainder before it leaves. -/
theorem run_eq_xor (r : BitVec width) (symbols : List Symbol) :
    code.run r symbols =
      code.run r (List.replicate symbols.length 0) ^^^ code.run 0 symbols := by
  have hzip : List.zipWith (· ^^^ ·) (List.replicate symbols.length 0) symbols = symbols := by
    induction symbols with
    | nil => rfl
    | cons s symbols ih =>
      rw [List.length_cons, List.replicate_succ, List.zipWith_cons_cons, ih]
      exact congrArg (· :: symbols) BitVec.zero_xor
  have hlen : (List.replicate symbols.length (0 : Symbol)).length = symbols.length :=
    List.length_replicate
  have h := code.run_xor r 0 hlen
  rw [hzip] at h
  rwa [show r ^^^ 0 = r from BitVec.xor_zero] at h

section CheckSymbols

variable (hwidth : 5 ∣ width)
include hwidth

theorem run_unpackSymbols (word : BitVec width) : code.run 0 (unpackSymbols word) = word := by
  apply BitVec.eq_of_toNat_eq
  have hlen : 5 * (unpackSymbols word).length = width := by
    rw [length_unpackSymbols, Nat.mul_div_cancel' hwidth]
  rw [code.toNat_run (Nat.le_of_eq hlen), ofDigits_unpackSymbols hwidth]

theorem unpackSymbols_run {symbols : List Symbol} (h : symbols.length = width / 5) :
    unpackSymbols (code.run 0 symbols) = symbols := by
  have hdigits := digits_ofDigits (Symbol.lt_of_mem_map_toNat symbols)
  rw [List.length_map, h] at hdigits
  have hmap := map_toNat_unpackSymbols hwidth (code.run 0 symbols)
  rw [code.toNat_run (by omega), hdigits] at hmap
  exact List.map_injective_iff.mpr (fun _ _ => BitVec.eq_of_toNat_eq) hmap

/-- No other symbols than the check symbols complete a string. -/
theorem run_eq_target_iff {r : BitVec width} {symbols : List Symbol}
    (h : symbols.length = width / 5) :
    code.run r symbols = code.target ↔ symbols = code.checkSymbols r := by
  have hcheck : code.checkSymbols r =
      unpackSymbols (code.run r (List.replicate symbols.length 0) ^^^ code.target) := by
    rw [checkSymbols, run_eq_xor, run_unpackSymbols code hwidth, length_unpackSymbols, h]
  rw [hcheck, run_eq_xor]
  generalize code.run r (List.replicate symbols.length 0) = before
  constructor
  · intro htarget
    rw [← htarget, ← BitVec.xor_assoc, BitVec.xor_self, BitVec.zero_xor,
      code.unpackSymbols_run hwidth h]
  · intro hsymbols
    rw [hsymbols, run_unpackSymbols code hwidth, ← BitVec.xor_assoc, BitVec.xor_self,
      BitVec.zero_xor]

end CheckSymbols

end ResidueCode

end OutputDescriptor
