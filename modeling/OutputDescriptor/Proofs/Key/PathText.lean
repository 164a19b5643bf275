import Mathlib.Data.List.Induction
import OutputDescriptor.Proofs.Key.Text

/-! How path terms are spelled: zeros may stand before an index, and one of two marks after it. -/
namespace OutputDescriptor

section Decimal

variable {text : List Char}

theorem decimal?_toDigits (index : Nat) : decimal? (Nat.toDigits 10 index) = some index := by
  have hdigits : ∀ c ∈ Nat.toDigits 10 index, c.isDigit := fun c hc =>
    Nat.isDigit_of_mem_toDigits (by decide) (by decide) hc
  have hvalue : (Nat.toDigits 10 index).foldl (fun value c => value * 10 + (c.toNat - 48)) 0 =
      index := by
    have h := @Nat.ofDigitChars_ten_toDigits index
    simp only [Nat.ofDigitChars_eq_foldl, Nat.mul_comm 10] at h
    exact h
  rw [decimal?, if_pos ⟨Nat.toDigits_ne_nil, List.all_eq_true.mpr hdigits⟩, hvalue]

theorem decimal?_cons_zero (h : text ≠ []) : decimal? ('0' :: text) = decimal? text := by
  have hdigits : ('0' :: text ≠ [] ∧ ('0' :: text).all Char.isDigit) ↔
      (text ≠ [] ∧ text.all Char.isDigit) := by
    simp [h, show '0'.isDigit = true from by decide]
  simp only [decimal?, hdigits, List.foldl_cons]
  rfl

theorem decimal?_replicate_zero (h : text ≠ []) (zeros : Nat) :
    decimal? (List.replicate zeros '0' ++ text) = decimal? text := by
  induction zeros with
  | zero => rfl
  | succ zeros ih =>
    rw [List.replicate_succ, List.cons_append,
      decimal?_cons_zero (List.append_ne_nil_of_right_ne_nil _ h), ih]

theorem decimal?_concat {value digit : Nat} (h : decimal? text = some value) (hdigit : digit < 10) :
    decimal? (text ++ [digit.digitChar]) = some (10 * value + digit) := by
  unfold decimal? at h ⊢
  obtain ⟨⟨hne, hdigits⟩, hvalue⟩ := Option.ite_none_right_eq_some.mp h
  have hlast : digit.digitChar.isDigit := by rw [Nat.isDigit_digitChar, decide_eq_true hdigit]
  rw [if_pos ⟨by simp, by simp [hlast] at hdigits ⊢; exact hdigits⟩, List.foldl_append,
    Option.some.inj hvalue, List.foldl_cons, List.foldl_nil,
    Nat.toNat_digitChar_sub_48_of_lt_ten hdigit, Nat.mul_comm]

theorem exists_digitChar_of_isDigit {c : Char} (h : c.isDigit) :
    ∃ digit < 10, c = digit.digitChar := by
  have hbounds : 48 ≤ c.toNat ∧ c.toNat ≤ 57 := by
    simpa [Char.isDigit, UInt32.le_iff_toNat_le] using h
  refine ⟨c.toNat - 48, by omega, ?_⟩
  apply Char.toNat_inj.mp
  rw [Nat.toNat_digitChar_of_lt_ten (by omega)]
  omega

/-- A number may be written with zeros in front, and in no other way. -/
theorem decimal?_eq_some_iff {value : Nat} :
    decimal? text = some value ↔
      ∃ zeros, text = List.replicate zeros '0' ++ Nat.toDigits 10 value := by
  constructor
  · intro h
    induction text using List.reverseRecOn generalizing value with
    | nil => exact absurd rfl (decimal?_eq_some h).1
    | append_singleton init c ih =>
      have hdigits := (decimal?_eq_some h).2
      rw [List.forall_mem_append, List.forall_mem_singleton] at hdigits
      obtain ⟨digit, hdigit, rfl⟩ := exists_digitChar_of_isDigit hdigits.2
      by_cases hinit : init = []
      · rw [hinit, List.nil_append, ← Nat.toDigits_of_lt_base hdigit, decimal?_toDigits] at h
        obtain rfl := Option.some.inj h
        exact ⟨0, by rw [hinit, Nat.toDigits_of_lt_base hdigit]; rfl⟩
      · obtain ⟨front, hfront⟩ : ∃ front, decimal? init = some front :=
          ⟨_, if_pos ⟨hinit, List.all_eq_true.mpr hdigits.1⟩⟩
        obtain rfl := Option.some.inj (h.symm.trans (decimal?_concat hfront hdigit))
        obtain ⟨zeros, hzeros⟩ := ih hfront
        -- the only digit of zero becomes one of the zeros in front
        rcases Nat.eq_zero_or_pos front with rfl | hpos
        · refine ⟨zeros + 1, ?_⟩
          rw [hzeros, Nat.toDigits_zero, List.replicate_succ', Nat.mul_zero, Nat.zero_add,
            Nat.toDigits_of_lt_base hdigit]
        · refine ⟨zeros, ?_⟩
          rw [hzeros, ← Nat.toDigits_append_toDigits (by decide) hpos hdigit,
            Nat.toDigits_of_lt_base hdigit, List.append_assoc]
  · rintro ⟨zeros, rfl⟩
    rw [decimal?_replicate_zero Nat.toDigits_ne_nil, decimal?_toDigits]

end Decimal

theorem unmark_of_isDigit {term : List Char} (h : ∀ c ∈ term, c.isDigit) :
    unmark term = (term, false) := by
  refine unmark_of_getLast? fun c hc hmark => ?_
  have hdigit := h c (List.mem_of_getLast? hc)
  simp only [isHardenedMark, Bool.or_eq_true, decide_eq_true_iff] at hmark
  rcases hmark with rfl | rfl <;> exact absurd hdigit (by decide)

theorem unmark_append (front : List Char) {term : List Char} (h : term ≠ []) :
    unmark (front ++ term) = (front ++ (unmark term).1, (unmark term).2) := by
  unfold unmark
  rw [List.getLast?_append_of_ne_nil _ h, List.dropLast_append_of_ne_nil h]
  split <;> rfl

namespace PathStep

inductive Spelled : PathStep → List Char → Prop
  | plain (zeros index : Nat) :
      Spelled ⟨index, false⟩ (List.replicate zeros '0' ++ Nat.toDigits 10 index)
  | hardened (zeros index : Nat) {mark : Char} (hmark : isHardenedMark mark) :
      Spelled ⟨index, true⟩ (List.replicate zeros '0' ++ Nat.toDigits 10 index ++ [mark])

theorem Spelled.slash_not_mem {step : PathStep} {term : List Char} (h : step.Spelled term) :
    '/' ∉ term := by
  have hdigits (zeros index : Nat) :
      '/' ∉ List.replicate zeros '0' ++ Nat.toDigits 10 index := fun hmem =>
    absurd ((decimal?_eq_some (decimal?_eq_some_iff.mpr ⟨zeros, rfl⟩)).2 '/' hmem) (by decide)
  cases h with
  | plain zeros index => exact hdigits zeros index
  | hardened zeros index hmark =>
    rw [List.mem_append, List.mem_singleton]
    rintro (hmem | rfl)
    · exact hdigits zeros index hmem
    · exact absurd hmark (by decide)

theorem ofChars?_eq_some_iff {term : List Char} {step : PathStep} :
    ofChars? term = some step ↔ step.Spelled term := by
  constructor
  · intro h
    obtain ⟨index, hindex, rfl⟩ := Option.map_eq_some_iff.mp h
    obtain ⟨zeros, hzeros⟩ := decimal?_eq_some_iff.mp hindex
    obtain hunmark | ⟨init, mark, hmark, hterm, hunmark⟩ := unmark_cases term
    · rw [hunmark] at hzeros ⊢
      obtain rfl : term = _ := hzeros
      exact .plain zeros index
    · rw [hunmark] at hzeros ⊢
      obtain rfl : init = _ := hzeros
      rw [hterm]
      exact .hardened zeros index hmark
  · intro h
    cases h with
    | plain zeros index =>
      have hread : decimal? (List.replicate zeros '0' ++ Nat.toDigits 10 index) = some index :=
        decimal?_eq_some_iff.mpr ⟨zeros, rfl⟩
      rw [ofChars?, unmark_of_isDigit (decimal?_eq_some hread).2, hread, Option.map_some]
    | hardened zeros index hmark =>
      rw [ofChars?, unmark_concat hmark, decimal?_eq_some_iff.mpr ⟨zeros, rfl⟩, Option.map_some]

end PathStep

/-- The terms that say the wildcard, which is the last one of its path. -/
inductive Wildcard.Spelled : Wildcard → List (List Char) → Prop
  | none : Spelled .none []
  | unhardened : Spelled .unhardened [['*']]
  | hardened {mark : Char} (hmark : isHardenedMark mark) : Spelled .hardened [['*', mark]]

namespace KeyText

theorem stepsOf?_singleton {term : List Char} {step : PathStep}
    (h : PathStep.ofChars? term = some step) : stepsOf? [term] = some ([step], .none) := by
  have hwildcard : wildcardOf? term = none := by
    obtain ⟨value, hvalue, -⟩ := Option.map_eq_some_iff.mp h
    rw [wildcardOf?, if_neg]
    intro hstar
    rw [hstar] at hvalue
    exact absurd ((decimal?_eq_some hvalue).2 '*' (by simp)) (by decide)
  simp only [stepsOf?, hwildcard, h, Option.map_some]

theorem stepsOf?_cons {term : List Char} {rest : List (List Char)} (hrest : rest ≠ []) :
    stepsOf? (term :: rest) = (PathStep.ofChars? term).bind fun step =>
      (stepsOf? rest).map fun parts => (step :: parts.1, parts.2) := by
  rw [stepsOf?]
  · cases PathStep.ofChars? term with
    | none => rfl
    | some step => cases stepsOf? rest <;> rfl
  · exact fun h => hrest h

theorem stepsOf?_of_spelled {wildcard : Wildcard} {star : List (List Char)}
    (h : wildcard.Spelled star) : stepsOf? star = some ([], wildcard) := by
  cases h with
  | none => rfl
  | unhardened => rfl
  | @hardened mark hmark =>
    have hread : wildcardOf? (['*'] ++ [mark]) = some .hardened := by
      rw [wildcardOf?, unmark_concat hmark]
      rfl
    change stepsOf? [['*'] ++ [mark]] = _
    simp only [stepsOf?, hread]

/-- Fixed terms are read one after the other, whatever follows them. -/
theorem stepsOf?_append {steps : List PathStep} {fixed : List (List Char)}
    (h : List.Forall₂ PathStep.Spelled steps fixed) (rest : List (List Char)) :
    stepsOf? (fixed ++ rest) = (stepsOf? rest).map fun parts => (steps ++ parts.1, parts.2) := by
  induction h with
  | nil => simp
  | @cons step term steps fixed hterm _ ih =>
    have hterm := PathStep.ofChars?_eq_some_iff.mpr hterm
    by_cases hnil : fixed ++ rest = []
    · obtain ⟨rfl, rfl⟩ := List.append_eq_nil_iff.mp hnil
      cases steps with
      | nil => exact stepsOf?_singleton hterm
      | cons => contradiction
    · rw [List.cons_append, stepsOf?_cons hnil, hterm, Option.bind_some, ih, Option.map_map]
      rfl

/-- A path is a list of fixed terms, and a wildcard at most at its end. -/
theorem stepsOf?_eq_some_iff {terms : List (List Char)} {steps : List PathStep}
    {wildcard : Wildcard} : stepsOf? terms = some (steps, wildcard) ↔
      ∃ fixed star, terms = fixed ++ star ∧ List.Forall₂ PathStep.Spelled steps fixed ∧
        wildcard.Spelled star := by
  constructor
  · intro h
    fun_induction stepsOf? terms generalizing steps wildcard with
    | case1 =>
      cases h
      exact ⟨[], [], rfl, .nil, .none⟩
    | case2 term found hfound =>
      cases h
      refine ⟨[], [term], rfl, .nil, ?_⟩
      obtain ⟨rfl, rfl⟩ | ⟨mark, hmark, rfl, rfl⟩ := wildcardOf?_eq_some hfound
      · exact .unhardened
      · exact .hardened hmark
    | case3 term _ =>
      obtain ⟨step, hstep, hparts⟩ := Option.map_eq_some_iff.mp h
      cases hparts
      exact ⟨[term], [], rfl, .cons (PathStep.ofChars?_eq_some_iff.mp hstep) .nil, .none⟩
    | case4 term rest _ ih =>
      obtain ⟨step, hstep, h⟩ := Option.bind_eq_some_iff.mp h
      obtain ⟨⟨others, found⟩, hothers, hparts⟩ := Option.bind_eq_some_iff.mp h
      cases hparts
      obtain ⟨fixed, star, rfl, hfixed, hstar⟩ := ih hothers
      exact ⟨term :: fixed, star, rfl, .cons (PathStep.ofChars?_eq_some_iff.mp hstep) hfixed, hstar⟩
  · rintro ⟨fixed, star, rfl, hfixed, hstar⟩
    rw [stepsOf?_append hfixed, stepsOf?_of_spelled hstar, Option.map_some, List.append_nil]

end KeyText

end OutputDescriptor
