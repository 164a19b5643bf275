import Mathlib.Data.List.TakeWhile
import OutputDescriptor.Key.Parser
import OutputDescriptor.Proofs.Traversal
import OutputDescriptor.Script.Leaf
import OutputDescriptor.Text.Splitting

/-! The characters of a key text that can be taken apart. -/
namespace OutputDescriptor

theorem unmark_concat {c : Char} (hc : isHardenedMark c) (term : List Char) :
    unmark (term ++ [c]) = (term, true) := by
  simp [unmark, hc]

theorem unmark_of_getLast? {term : List Char} (h : ∀ c ∈ term.getLast?, ¬isHardenedMark c) :
    unmark term = (term, false) := by
  unfold unmark
  cases hlast : term.getLast? with
  | none => rfl
  | some c => simp [h c hlast]

/-- A term ends with the mark that is taken off. -/
theorem unmark_cases (term : List Char) :
    unmark term = (term, false) ∨
      ∃ init c, isHardenedMark c ∧ term = init ++ [c] ∧ unmark term = (init, true) := by
  by_cases h : ∀ c ∈ term.getLast?, ¬isHardenedMark c
  · exact .inl (unmark_of_getLast? h)
  · push Not at h
    obtain ⟨c, hlast, hc⟩ := h
    have hterm := List.dropLast_append_getLast? c hlast
    exact .inr ⟨term.dropLast, c, hc, hterm.symm, by rw [← hterm, unmark_concat hc]; simp⟩

theorem isPathChar_of_isHardenedMark {c : Char} (h : isHardenedMark c) : isPathChar c := by
  simp only [isHardenedMark, Bool.or_eq_true, decide_eq_true_iff] at h
  rcases h with rfl | rfl <;> decide

theorem PathStep.isPathChar_of_ofChars? {term : List Char} {step : PathStep}
    (h : PathStep.ofChars? term = some step) : ∀ c ∈ term, isPathChar c := by
  obtain ⟨value, hvalue, -⟩ := Option.map_eq_some_iff.mp h
  have hdigits : ∀ c ∈ (unmark term).1, isPathChar c := fun c hc =>
    isPathChar_of_isAlphanum (isAlphanum_of_isDigit ((decimal?_eq_some hvalue).2 c hc))
  obtain hunmark | ⟨init, mark, hmark, hterm, hunmark⟩ := unmark_cases term
  · rwa [hunmark] at hdigits
  · rw [hunmark] at hdigits
    rw [hterm, List.forall_mem_append]
    exact ⟨hdigits, by simpa using isPathChar_of_isHardenedMark hmark⟩

namespace KeyText

/-- A wildcard term is a star, alone or with a mark. -/
theorem wildcardOf?_eq_some {term : List Char} {wildcard : Wildcard}
    (h : wildcardOf? term = some wildcard) :
    (term = ['*'] ∧ wildcard = .unhardened) ∨
      ∃ mark, isHardenedMark mark ∧ term = ['*', mark] ∧ wildcard = .hardened := by
  unfold wildcardOf? at h
  split at h
  · rename_i hstar
    obtain hunmark | ⟨init, mark, hmark, hterm, hunmark⟩ := unmark_cases term
    · rw [hunmark] at h hstar
      exact .inl ⟨hstar, (Option.some.inj h).symm⟩
    · rw [hunmark] at h hstar
      have hinit : init = ['*'] := hstar
      exact .inr ⟨mark, hmark, by rw [hterm, hinit]; rfl, (Option.some.inj h).symm⟩
  · cases h

/-- Path terms as they are written, each after a slash. -/
def pathChars (terms : List (List Char)) : List Char := terms.flatMap ('/' :: ·)

theorem pathChars_eq_intercalate {terms : List (List Char)} (h : terms ≠ []) :
    pathChars terms = '/' :: ['/'].intercalate terms := by
  induction terms with
  | nil => exact absurd rfl h
  | cons term rest ih =>
    cases rest with
    | nil => simp [pathChars]
    | cons next rest =>
      rw [List.intercalate_cons_cons, List.append_assoc, List.singleton_append, ← ih (by simp)]
      rfl

theorem terms?_eq_some_iff {path : List Char} {terms : List (List Char)} :
    terms? path = some terms ↔ path = pathChars terms ∧ ∀ term ∈ terms, '/' ∉ term := by
  constructor
  · intro h
    unfold terms? at h
    split at h
    · cases h
      exact ⟨rfl, by simp⟩
    · rename_i rest
      cases h
      rw [pathChars_eq_intercalate (List.splitOn_ne_nil '/' rest), List.intercalate_splitOn]
      exact ⟨rfl, fun term hterm => not_mem_of_mem_splitOn hterm⟩
    · cases h
  · rintro ⟨rfl, h⟩
    by_cases hnil : terms = []
    · rw [hnil]
      rfl
    · rw [pathChars_eq_intercalate hnil]
      exact congrArg some (List.splitOn_intercalate '/' h hnil)

theorem isLeafChar_of_stepsOf? {terms : List (List Char)} {parts : List PathStep × Wildcard}
    (h : stepsOf? terms = some parts) : ∀ term ∈ terms, ∀ c ∈ term, isLeafChar c := by
  fun_induction stepsOf? terms generalizing parts with
  | case1 => simp
  | case2 term wildcard hwildcard =>
    rw [List.forall_mem_singleton]
    obtain ⟨rfl, -⟩ | ⟨mark, hmark, rfl, -⟩ := wildcardOf?_eq_some hwildcard
    · exact List.forall_mem_singleton.mpr (by decide)
    · rw [List.forall_mem_cons, List.forall_mem_singleton]
      exact ⟨by decide, isLeafChar_of_isPathChar (isPathChar_of_isHardenedMark hmark)⟩
  | case3 term _ =>
    obtain ⟨step, hstep, -⟩ := Option.map_eq_some_iff.mp h
    rw [List.forall_mem_singleton]
    exact fun c hc => isLeafChar_of_isPathChar (PathStep.isPathChar_of_ofChars? hstep c hc)
  | case4 term rest _ ih =>
    obtain ⟨step, hstep, h⟩ := Option.bind_eq_some_iff.mp h
    obtain ⟨others, hothers, -⟩ := Option.bind_eq_some_iff.mp h
    rw [List.forall_mem_cons]
    exact ⟨fun c hc => isLeafChar_of_isPathChar (PathStep.isPathChar_of_ofChars? hstep c hc),
      ih hothers⟩

theorem forall_mem_pathChars {p : Char → Bool} (hslash : p '/') {terms : List (List Char)}
    (h : ∀ term ∈ terms, ∀ c ∈ term, p c) : ∀ c ∈ pathChars terms, p c := by
  intro c hc
  obtain ⟨term, hterm, hc⟩ := List.mem_flatMap.mp hc
  rcases List.mem_cons.mp hc with rfl | hc
  · exact hslash
  · exact h term hterm c hc

theorem takeWhile_append_pathChars {key : List Char} (h : ∀ c ∈ key, c.isAlphanum)
    (terms : List (List Char)) : (key ++ pathChars terms).takeWhile Char.isAlphanum = key := by
  rw [List.takeWhile_append_of_pos h]
  cases terms with
  | nil => simp [pathChars]
  | cons term rest =>
    rw [pathChars, List.flatMap_cons, List.cons_append, List.takeWhile_cons_of_neg (by decide),
      List.append_nil]

theorem ofKeyAndPath?_append_pathChars {origin : Option KeyOrigin} {key : List Char}
    {terms : List (List Char)} (halnum : ∀ c ∈ key, c.isAlphanum) (hlen : 4 ≤ key.length)
    (hslash : ∀ term ∈ terms, '/' ∉ term) : ofKeyAndPath? origin (key ++ pathChars terms) =
      (stepsOf? terms).map fun parts => ⟨origin, key, parts.1, parts.2⟩ := by
  have hterms : terms? (pathChars terms) = some terms := terms?_eq_some_iff.mpr ⟨rfl, hslash⟩
  simp only [ofKeyAndPath?, takeWhile_append_pathChars halnum, List.drop_left, hterms, if_pos hlen,
    Option.bind_eq_bind, Option.bind_some]
  exact Option.map_eq_bind.symm

/-- A key text without its origin is a key of four characters or more and a path. -/
theorem ofKeyAndPath?_eq_some_iff {origin : Option KeyOrigin} {text : List Char}
    {parts : KeyText} :
    ofKeyAndPath? origin text = some parts ↔
      ∃ terms, text = parts.key ++ pathChars terms ∧ (∀ c ∈ parts.key, c.isAlphanum) ∧
        (∀ term ∈ terms, '/' ∉ term) ∧ stepsOf? terms = some (parts.steps, parts.wildcard) ∧
        4 ≤ parts.key.length ∧ parts.origin = origin := by
  constructor
  · intro h
    obtain ⟨terms, hterms, h⟩ := Option.bind_eq_some_iff.mp h
    obtain ⟨⟨steps, wildcard⟩, hsteps, h⟩ := Option.bind_eq_some_iff.mp h
    obtain ⟨hpath, hslash⟩ := terms?_eq_some_iff.mp hterms
    simp only [Option.ite_none_right_eq_some, Option.some.injEq] at h
    obtain ⟨hlen, rfl⟩ := h
    · refine ⟨terms, ?_, ?_, hslash, hsteps, hlen, rfl⟩
      · rw [← hpath]
        exact (List.prefix_iff_eq_append.mp (List.takeWhile_prefix _)).symm
      · exact fun c hc => List.mem_takeWhile_imp hc
  · rintro ⟨terms, rfl, halnum, hslash, hsteps, hlen, rfl⟩
    rw [ofKeyAndPath?_append_pathChars halnum hlen hslash, hsteps, Option.map_some]

/-- The texts before the key that stand for an origin, or for none. -/
def OriginText (origin : Option KeyOrigin) (front : List Char) : Prop :=
  match origin with
  | none => front = []
  | some o => ∃ inside, originOf? inside = some o ∧ front = '[' :: (inside ++ [']'])

theorem isPathChar_of_originOf? {inside : List Char} {origin : KeyOrigin}
    (h : originOf? inside = some origin) : ∀ c ∈ inside, isPathChar c := by
  obtain ⟨bytes, hbytes, h⟩ := Option.bind_eq_some_iff.mp h
  obtain ⟨fingerprint, -, h⟩ := Option.bind_eq_some_iff.mp h
  obtain ⟨terms, hterms, h⟩ := Option.bind_eq_some_iff.mp h
  obtain ⟨steps, hsteps, -⟩ := Option.bind_eq_some_iff.mp h
  rw [← List.take_append_drop 8 inside, List.forall_mem_append]
  constructor
  · exact fun c hc => isPathChar_of_isAlphanum (Hex.isAlphanum_of_decodeChars hbytes c hc)
  · rw [(terms?_eq_some_iff.mp hterms).1]
    refine forall_mem_pathChars (by decide) ?_
    intro term hterm
    obtain ⟨step, -, hstep⟩ := exists_of_mapM_eq_some hsteps hterm
    exact PathStep.isPathChar_of_ofChars? hstep

theorem OriginText.isLeafChar {origin : Option KeyOrigin} {front : List Char}
    (h : OriginText origin front) : ∀ c ∈ front, isLeafChar c := by
  cases origin with
  | none =>
    cases h
    simp
  | some origin =>
    obtain ⟨inside, hinside, rfl⟩ := h
    rw [List.forall_mem_cons, List.forall_mem_append, List.forall_mem_singleton]
    exact ⟨by decide, fun c hc => isLeafChar_of_isPathChar (isPathChar_of_originOf? hinside c hc),
      by decide⟩

theorem origin_of_ofKeyAndPath? {origin : Option KeyOrigin} {text : List Char} {parts : KeyText}
    (h : ofKeyAndPath? origin text = some parts) : parts.origin = origin := by
  obtain ⟨_, -, -, -, -, -, horigin⟩ := ofKeyAndPath?_eq_some_iff.mp h
  exact horigin

theorem head?_ne_of_ofKeyAndPath? {origin : Option KeyOrigin} {text : List Char} {parts : KeyText}
    (h : ofKeyAndPath? origin text = some parts) : text.head? ≠ some '[' := by
  obtain ⟨terms, rfl, halnum, -, -, hlen, -⟩ := ofKeyAndPath?_eq_some_iff.mp h
  obtain ⟨c, key, hkey⟩ := List.exists_cons_of_length_pos (by omega : 0 < parts.key.length)
  rw [hkey] at halnum ⊢
  intro hc
  obtain rfl := Option.some.inj hc
  exact absurd (halnum _ List.mem_cons_self) (by decide)

theorem ofChars?_of_origin {inside rest : List Char} {origin : KeyOrigin}
    (hinside : originOf? inside = some origin) :
    ofChars? ('[' :: (inside ++ ']' :: rest)) = ofKeyAndPath? (some origin) rest := by
  have hbracket : ∀ c ∈ inside, decide (c ≠ ']') = true := by
    intro c hc
    have hpath := isPathChar_of_originOf? hinside c hc
    rw [decide_eq_true_iff]
    rintro rfl
    exact absurd hpath (by decide)
  have htake : (inside ++ ']' :: rest).takeWhile (· ≠ ']') = inside := by
    rw [List.takeWhile_append_of_pos hbracket, List.takeWhile_cons_of_neg (by decide),
      List.append_nil]
  simp only [ofChars?, htake, hinside, List.drop_left, Option.bind_eq_bind, Option.bind_some]

theorem ofChars?_append {origin : Option KeyOrigin} {front rest : List Char}
    (hfront : OriginText origin front) (hrest : rest.head? ≠ some '[') :
    ofChars? (front ++ rest) = ofKeyAndPath? origin rest := by
  cases origin with
  | none =>
    obtain rfl : front = [] := hfront
    rw [List.nil_append, ofChars?]
    rintro rest rfl
    exact hrest rfl
  | some origin =>
    obtain ⟨inside, hinside, rfl⟩ := hfront
    rw [List.cons_append, List.append_assoc, List.singleton_append, ofChars?_of_origin hinside]

theorem ofChars?_of_plain {text : List Char} {parts : KeyText}
    (h : ofKeyAndPath? none text = some parts) : ofChars? text = some parts := by
  have hread := ofChars?_append (show OriginText none [] from rfl) (head?_ne_of_ofKeyAndPath? h)
  exact hread.trans h

/-- A key text is an origin in brackets, if any, then a key and its path. -/
theorem ofChars?_eq_some_iff {text : List Char} {parts : KeyText} :
    ofChars? text = some parts ↔ ∃ front rest, text = front ++ rest ∧
      OriginText parts.origin front ∧ ofKeyAndPath? parts.origin rest = some parts := by
  constructor
  · intro h
    unfold ofChars? at h
    split at h
    · rename_i rest
      obtain ⟨origin, hinside, h⟩ := Option.bind_eq_some_iff.mp h
      split at h
      · rename_i text hrest
        have hrest' : rest = rest.takeWhile (· ≠ ']') ++ ']' :: text := by
          rw [← hrest]
          exact (List.prefix_iff_eq_append.mp (List.takeWhile_prefix _)).symm
        have horigin := origin_of_ofKeyAndPath? h
        refine ⟨'[' :: (rest.takeWhile (· ≠ ']') ++ [']']), text, ?_, ?_, horigin ▸ h⟩
        · rw [List.cons_append, List.append_assoc, List.singleton_append, ← hrest']
        · rw [horigin]
          exact ⟨_, hinside, rfl⟩
      · cases h
    · have horigin := origin_of_ofKeyAndPath? h
      exact ⟨[], text, rfl, by rw [horigin]; rfl, horigin ▸ h⟩
  · rintro ⟨front, rest, rfl, hfront, h⟩
    rw [ofChars?_append hfront (head?_ne_of_ofKeyAndPath? h), h]

theorem isLeafChar_of_ofKeyAndPath? {origin : Option KeyOrigin} {text : List Char}
    {parts : KeyText} (h : ofKeyAndPath? origin text = some parts) :
    text ≠ [] ∧ ∀ c ∈ text, isLeafChar c := by
  obtain ⟨terms, rfl, halnum, -, hsteps, hlen, -⟩ := ofKeyAndPath?_eq_some_iff.mp h
  constructor
  · intro hnil
    rw [(List.append_eq_nil_iff.mp hnil).1, List.length_nil] at hlen
    omega
  · rw [List.forall_mem_append]
    exact ⟨fun c hc => isLeafChar_of_isPathChar (isPathChar_of_isAlphanum (halnum c hc)),
      forall_mem_pathChars (by decide) (isLeafChar_of_stepsOf? hsteps)⟩

theorem isLeafChar_of_ofChars? {text : List Char} {parts : KeyText}
    (h : ofChars? text = some parts) : text ≠ [] ∧ ∀ c ∈ text, isLeafChar c := by
  obtain ⟨front, rest, rfl, hfront, hrest⟩ := ofChars?_eq_some_iff.mp h
  obtain ⟨hne, hleaf⟩ := isLeafChar_of_ofKeyAndPath? hrest
  constructor
  · exact fun hnil => hne (List.append_eq_nil_iff.mp hnil).2
  · rw [List.forall_mem_append]
    exact ⟨hfront.isLeafChar, hleaf⟩

end KeyText

theorem KeyExpr.isLeafChar_of_parse {ctx : Context} {network : Network} {text : String}
    {key : KeyExpr} (h : parse ctx network text = .ok key) :
    text.toList ≠ [] ∧ ∀ c ∈ text.toList, isLeafChar c := by
  unfold parse at h
  split at h
  · cases h
  · rename_i parts hparts
    exact KeyText.isLeafChar_of_ofChars? hparts

end OutputDescriptor
