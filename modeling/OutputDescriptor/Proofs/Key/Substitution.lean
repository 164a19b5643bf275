import OutputDescriptor.Key.Parser
import OutputDescriptor.Proofs.Key.PathText

/-! Putting an index in the place of the wildcards of a text. -/
namespace OutputDescriptor

/-- What stands for a character once the wildcards are replaced by an index. -/
def starTo (index : Nat) (c : Char) : List Char :=
  if c = '*' then Nat.toDigits 10 index else [c]

def substituteChars (index : Nat) (text : List Char) : List Char := text.flatMap (starTo index)

/-- The text with every wildcard replaced by the index in decimal. -/
def substituteIndex (index : Nat) (text : String) : String :=
  String.ofList (substituteChars index text.toList)

@[simp] theorem toList_substituteIndex (index : Nat) (text : String) :
    (substituteIndex index text).toList = substituteChars index text.toList :=
  String.toList_ofList

section Characters

variable {index : Nat}

theorem isDigit_of_mem_starTo {c d : Char} (hc : c = '*') (hd : d ∈ starTo index c) :
    d.isDigit := by
  rw [starTo, if_pos hc] at hd
  exact Nat.isDigit_of_mem_toDigits (by decide) (by decide) hd

theorem starTo_of_ne {c : Char} (hc : c ≠ '*') : starTo index c = [c] := if_neg hc

theorem starTo_ne_nil (c : Char) : starTo index c ≠ [] := by
  unfold starTo
  split
  · exact Nat.toDigits_ne_nil
  · exact List.cons_ne_nil c []

theorem substituteChars_of_not_mem {text : List Char} (h : '*' ∉ text) :
    substituteChars index text = text := by
  induction text with
  | nil => rfl
  | cons c rest ih =>
    rw [List.mem_cons, not_or] at h
    rw [substituteChars, List.flatMap_cons, starTo_of_ne (Ne.symm h.1)]
    exact congrArg (c :: ·) (ih h.2)

theorem substituteChars_append (a b : List Char) :
    substituteChars index (a ++ b) = substituteChars index a ++ substituteChars index b :=
  List.flatMap_append

/-- A property of characters that digits have is kept by the substitution. -/
theorem forall_mem_substituteChars {p : Char → Bool} (hdigit : ∀ c, c.isDigit → p c)
    {text : List Char} (h : ∀ c ∈ text, p c) : ∀ c ∈ substituteChars index text, p c := by
  intro d hd
  obtain ⟨c, hc, hd⟩ := List.mem_flatMap.mp hd
  by_cases hstar : c = '*'
  · exact hdigit d (isDigit_of_mem_starTo hstar hd)
  · rw [starTo_of_ne hstar, List.mem_singleton] at hd
    exact hd ▸ h c hc

theorem substituteChars_ne_nil {text : List Char} (h : text ≠ []) :
    substituteChars index text ≠ [] := by
  obtain ⟨c, rest, rfl⟩ := List.exists_cons_of_ne_nil h
  rw [substituteChars, List.flatMap_cons]
  exact List.append_ne_nil_of_left_ne_nil (starTo_ne_nil c) _

theorem not_mem_starTo {sep c : Char} (hsep : sep.isDigit = false) (hc : c ≠ sep) :
    sep ∉ starTo index c := by
  intro hmem
  by_cases hstar : c = '*'
  · rw [isDigit_of_mem_starTo hstar hmem] at hsep
    cases hsep
  · rw [starTo_of_ne hstar, List.mem_singleton] at hmem
    exact hc hmem.symm

end Characters

/-- The fixed term that a wildcard stands for at an index. -/
def Wildcard.stepAt (index : Nat) : Wildcard → List PathStep
  | .none => []
  | .unhardened => [⟨index, false⟩]
  | .hardened => [⟨index, true⟩]

namespace KeyText

/-- The parts of a key text whose wildcard is replaced by an index. -/
def atIndex (index : Nat) (parts : KeyText) : KeyText :=
  { parts with steps := parts.steps ++ parts.wildcard.stepAt index, wildcard := .none }

theorem star_not_mem_of_isPathChar {text : List Char} (h : ∀ c ∈ text, isPathChar c) :
    '*' ∉ text := fun hmem => absurd (h _ hmem) (by decide)

theorem star_not_mem_of_step {term : List Char} {step : PathStep}
    (h : PathStep.ofChars? term = some step) : '*' ∉ term :=
  star_not_mem_of_isPathChar (PathStep.isPathChar_of_ofChars? h)

theorem OriginText.star_not_mem {origin : Option KeyOrigin} {front : List Char}
    (h : OriginText origin front) : '*' ∉ front := by
  cases origin with
  | none =>
    obtain rfl : front = [] := h
    exact List.not_mem_nil
  | some origin =>
    obtain ⟨inside, hinside, rfl⟩ := h
    have hpath := star_not_mem_of_isPathChar (isPathChar_of_originOf? hinside)
    simpa using hpath

variable {index : Nat}

theorem stepsOf?_wildcard {term : List Char} {wildcard : Wildcard}
    (h : wildcardOf? term = some wildcard) :
    stepsOf? [substituteChars index term] = some (wildcard.stepAt index, .none) := by
  obtain ⟨rfl, rfl⟩ | ⟨mark, hmark, rfl, rfl⟩ := wildcardOf?_eq_some h
  · have hterm : substituteChars index ['*'] = Nat.toDigits 10 index := List.append_nil _
    rw [hterm]
    exact stepsOf?_singleton (PathStep.ofChars?_eq_some_iff.mpr (.plain 0 index))
  · have hne : mark ≠ '*' := by
      rintro rfl
      exact absurd hmark (by decide)
    have hterm : substituteChars index ['*', mark] = Nat.toDigits 10 index ++ [mark] := by
      change starTo index '*' ++ (starTo index mark ++ []) = _
      rw [starTo_of_ne hne]
      rfl
    rw [hterm]
    exact stepsOf?_singleton (PathStep.ofChars?_eq_some_iff.mpr (.hardened 0 index hmark))

theorem stepsOf?_substitute {terms : List (List Char)} {steps : List PathStep}
    {wildcard : Wildcard} (h : stepsOf? terms = some (steps, wildcard)) :
    stepsOf? (terms.map (substituteChars index)) =
      some (steps ++ wildcard.stepAt index, .none) := by
  fun_induction stepsOf? terms generalizing steps wildcard with
  | case1 =>
    cases h
    rfl
  | case2 term found hfound =>
    cases h
    exact stepsOf?_wildcard hfound
  | case3 term _ =>
    obtain ⟨step, hstep, hparts⟩ := Option.map_eq_some_iff.mp h
    cases hparts
    rw [List.map_singleton, substituteChars_of_not_mem (star_not_mem_of_step hstep)]
    exact stepsOf?_singleton hstep
  | case4 term rest hrest ih =>
    obtain ⟨step, hstep, h⟩ := Option.bind_eq_some_iff.mp h
    obtain ⟨⟨others, found⟩, hothers, hparts⟩ := Option.bind_eq_some_iff.mp h
    cases hparts
    have hne : rest.map (substituteChars index) ≠ [] := fun hnil =>
      hrest (List.map_eq_nil_iff.mp hnil)
    rw [List.map_cons, stepsOf?_cons hne, ih hothers,
      substituteChars_of_not_mem (star_not_mem_of_step hstep), hstep]
    rfl

theorem substituteChars_pathChars (terms : List (List Char)) :
    substituteChars index (pathChars terms) = pathChars (terms.map (substituteChars index)) := by
  induction terms with
  | nil => rfl
  | cons term rest ih =>
    rw [pathChars, List.flatMap_cons, substituteChars_append, List.map_cons, pathChars,
      List.flatMap_cons]
    exact congrArg₂ (· ++ ·) rfl ih

theorem ofKeyAndPath?_substitute {origin : Option KeyOrigin} {text : List Char}
    {parts : KeyText} (h : ofKeyAndPath? origin text = some parts) :
    ofKeyAndPath? origin (substituteChars index text) = some (parts.atIndex index) := by
  obtain ⟨terms, rfl, halnum, hslash, hsteps, hlen, horigin⟩ := ofKeyAndPath?_eq_some_iff.mp h
  refine ofKeyAndPath?_eq_some_iff.mpr
    ⟨terms.map (substituteChars index), ?_, halnum, ?_, stepsOf?_substitute hsteps, hlen, horigin⟩
  · have hkey : '*' ∉ parts.key := star_not_mem_of_isPathChar fun c hc =>
      isPathChar_of_isAlphanum (halnum c hc)
    rw [substituteChars_append, substituteChars_of_not_mem hkey, substituteChars_pathChars]
    rfl
  · rw [List.forall_mem_map]
    intro term hterm hmem
    obtain ⟨c, hc, hmem⟩ := List.mem_flatMap.mp hmem
    have hne : c ≠ '/' := fun heq => hslash term hterm (heq ▸ hc)
    exact not_mem_starTo (by decide) hne hmem

theorem ofChars?_substitute {text : List Char} {parts : KeyText} (h : ofChars? text = some parts) :
    ofChars? (substituteChars index text) = some (parts.atIndex index) := by
  obtain ⟨front, rest, rfl, hfront, hrest⟩ := ofChars?_eq_some_iff.mp h
  refine ofChars?_eq_some_iff.mpr ⟨front, substituteChars index rest, ?_, hfront,
    ofKeyAndPath?_substitute hrest⟩
  rw [substituteChars_append, substituteChars_of_not_mem hfront.star_not_mem]

end KeyText

end OutputDescriptor
