import Mathlib.Logic.Relation
import OutputDescriptor.Proofs.Key.Dispatch

/-! What the notation of a key text leaves alone: the origin before the key, the hardened marks and
the zeros in front of the indices of its paths can be written otherwise, and the key is the same. -/
namespace OutputDescriptor

/-! ### Terms with the same meaning -/

/-- Two terms are both read as the same step or wildcard, or both not read. -/
def SameTerm (term term' : List Char) : Prop :=
  PathStep.ofChars? term = PathStep.ofChars? term' ∧
    KeyText.wildcardOf? term = KeyText.wildcardOf? term'

theorem SameTerm.symm {term term' : List Char} (h : SameTerm term term') : SameTerm term' term :=
  ⟨h.1.symm, h.2.symm⟩

/-- A mark before the end of a term is out of place. -/
theorem not_term_of_mark {mark : Char} (hmark : isHardenedMark mark) (front : List Char)
    {rest : List Char} (hrest : rest ≠ []) : PathStep.ofChars? (front ++ mark :: rest) = none ∧
      KeyText.wildcardOf? (front ++ mark :: rest) = none := by
  have hunmark := unmark_append (front ++ [mark]) hrest
  rw [List.append_assoc, List.singleton_append] at hunmark
  have hmem : mark ∈ (unmark (front ++ mark :: rest)).1 := by simp [hunmark]
  have hdigit : ¬mark.isDigit ∧ mark ≠ '*' := by
    simp only [isHardenedMark, Bool.or_eq_true, decide_eq_true_iff] at hmark
    rcases hmark with rfl | rfl <;> decide
  constructor
  · rw [PathStep.ofChars?, Option.map_eq_none_iff, Option.eq_none_iff_forall_ne_some]
    exact fun value hvalue => hdigit.1 ((decimal?_eq_some hvalue).2 mark hmem)
  · rw [KeyText.wildcardOf?, if_neg]
    intro hstar
    rw [hstar, List.mem_singleton] at hmem
    exact hdigit.2 hmem

theorem sameTerm_mark {mark mark' : Char} (hmark : isHardenedMark mark)
    (hmark' : isHardenedMark mark') (front rest : List Char) :
    SameTerm (front ++ mark :: rest) (front ++ mark' :: rest) := by
  by_cases hrest : rest = []
  · rw [hrest, SameTerm, PathStep.ofChars?, PathStep.ofChars?, KeyText.wildcardOf?,
      KeyText.wildcardOf?, unmark_concat hmark, unmark_concat hmark']
    exact ⟨rfl, rfl⟩
  · obtain ⟨hstep, hwildcard⟩ := not_term_of_mark hmark front hrest
    obtain ⟨hstep', hwildcard'⟩ := not_term_of_mark hmark' front hrest
    exact ⟨hstep.trans hstep'.symm, hwildcard.trans hwildcard'.symm⟩

theorem sameTerm_zero {c : Char} (hc : c.isDigit) (rest : List Char) :
    SameTerm (c :: rest) ('0' :: c :: rest) := by
  have hzero := unmark_append ['0'] (List.cons_ne_nil c rest)
  rw [List.singleton_append] at hzero
  obtain ⟨others, hothers⟩ : ∃ others, (unmark (c :: rest)).1 = c :: others := by
    by_cases hrest : rest = []
    · exact ⟨[], by rw [hrest, unmark_of_isDigit (by simpa using hc)]⟩
    · exact ⟨_, congrArg Prod.fst (unmark_append [c] hrest)⟩
  have hstar : c ≠ '*' := by
    rintro rfl
    exact absurd hc (by decide)
  constructor
  · rw [PathStep.ofChars?, PathStep.ofChars?, hzero, hothers, List.singleton_append,
      decimal?_cons_zero (List.cons_ne_nil c others)]
  · rw [KeyText.wildcardOf?, KeyText.wildcardOf?, hzero, hothers, if_neg (by simp [hstar]),
      if_neg (by simp)]

/-! ### Texts with the same key -/

/-- One place of a path is spelled in another way: with the other hardened mark, or with a zero in
front of an index. -/
inductive Respelled : List Char → List Char → Prop
  | mark {mark mark' : Char} (hmark : isHardenedMark mark) (hmark' : isHardenedMark mark')
      (front rest : List Char) {term : List Char} (hterm : ∀ c ∈ term, c ≠ '/' ∧ c ≠ ']') :
      Respelled (front ++ '/' :: (term ++ mark :: rest)) (front ++ '/' :: (term ++ mark' :: rest))
  | zero {c : Char} (hc : c.isDigit) (front rest : List Char) :
      Respelled (front ++ '/' :: c :: rest) (front ++ '/' :: '0' :: c :: rest)

/-- Two beginnings of a term mean the same, whatever follows them. -/
structure SameStart (start start' : List Char) : Prop where
  left : ∀ c ∈ start, c ≠ '/' ∧ c ≠ ']'
  right : ∀ c ∈ start', c ≠ '/' ∧ c ≠ ']'
  same : ∀ rest, SameTerm (start ++ rest) (start' ++ rest)

theorem Respelled.exists_start {text text' : List Char} (h : Respelled text text') :
    ∃ front start start' rest, SameStart start start' ∧ text = front ++ '/' :: (start ++ rest) ∧
      text' = front ++ '/' :: (start' ++ rest) := by
  cases h with
  | @mark mark mark' hmark hmark' front rest term hterm =>
    have hplain {mark : Char} (hmark : isHardenedMark mark) :
        ∀ c ∈ term ++ [mark], c ≠ '/' ∧ c ≠ ']' := by
      rw [List.forall_mem_append, List.forall_mem_singleton]
      refine ⟨hterm, ?_⟩
      constructor <;> rintro rfl <;> exact absurd hmark (by decide)
    refine ⟨front, term ++ [mark], term ++ [mark'], rest, ⟨hplain hmark, hplain hmark', ?_⟩, ?_, ?_⟩
    · intro rest
      rw [List.append_assoc, List.append_assoc]
      exact sameTerm_mark hmark hmark' term rest
    · rw [List.append_assoc, List.singleton_append]
    · rw [List.append_assoc, List.singleton_append]
  | @zero c hc front rest =>
    have hplain : c ≠ '/' ∧ c ≠ ']' := by
      constructor <;> rintro rfl <;> exact absurd hc (by decide)
    refine ⟨front, [c], ['0', c], rest, ⟨?_, ?_, sameTerm_zero hc⟩, rfl, rfl⟩
    · simpa using hplain
    · simpa using hplain

theorem SameStart.symm {start start' : List Char} (h : SameStart start start') :
    SameStart start' start := ⟨h.right, h.left, fun rest => (h.same rest).symm⟩

namespace KeyText

/-- What stands after a slash starts a new term, if the text is a path at all. -/
theorem terms?_append_slash (front : List Char) :
    (∀ rest, terms? (front ++ '/' :: rest) = none) ∨
      ∃ terms, ∀ rest, terms? (front ++ '/' :: rest) = some (terms ++ rest.splitOn '/') := by
  cases front with
  | nil => exact .inr ⟨[], fun _ => rfl⟩
  | cons c front =>
    by_cases hc : c = '/'
    · refine .inr ⟨front.splitOn '/', fun rest => ?_⟩
      rw [hc, ← List.splitOn_append_cons_self]
      rfl
    · refine .inl fun rest => ?_
      rw [List.cons_append, terms?]
      · simp
      · exact fun _ h => hc (List.cons.inj h).1

theorem stepsOf?_append_cons {term term' : List Char} (h : SameTerm term term')
    (before others : List (List Char)) :
    stepsOf? (before ++ term :: others) = stepsOf? (before ++ term' :: others) := by
  induction before with
  | nil =>
    by_cases hothers : others = []
    · rw [hothers, List.nil_append, List.nil_append, stepsOf?, stepsOf?, h.1, h.2]
    · rw [List.nil_append, List.nil_append, stepsOf?_cons hothers, stepsOf?_cons hothers, h.1]
  | cons first before ih =>
    rw [List.cons_append, List.cons_append, stepsOf?_cons (by simp), stepsOf?_cons (by simp), ih]

theorem takeWhile_append_slash (front rest : List Char) :
    (front ++ '/' :: rest).takeWhile Char.isAlphanum = front.takeWhile Char.isAlphanum := by
  induction front with
  | nil => rw [List.nil_append, List.takeWhile_cons_of_neg (by decide)]; rfl
  | cons c front ih => rw [List.cons_append, List.takeWhile_cons, List.takeWhile_cons, ih]

/-- An origin path, and whatever else is a list of fixed terms. -/
def IsFixedPath (path : List Char) : Prop :=
  ∃ terms steps, terms? path = some terms ∧ terms.mapM PathStep.ofChars? = some steps

/-- An origin is written with eight figures in either case, and keeps its path as it is. -/
theorem originOf?_eq_some_iff {inside : List Char} {origin : KeyOrigin} :
    originOf? inside = some origin ↔ ∃ figures path, inside = figures ++ path ∧
      figures.map Char.toLower = Hex.encodeChars origin.fingerprint.val ∧ IsFixedPath path ∧
        origin.path = if path = [] then none else some (String.ofList path) := by
  constructor
  · intro h
    obtain ⟨bytes, hbytes, h⟩ := Option.bind_eq_some_iff.mp h
    obtain ⟨fingerprint, hfingerprint, h⟩ := Option.bind_eq_some_iff.mp h
    obtain ⟨terms, hterms, h⟩ := Option.bind_eq_some_iff.mp h
    obtain ⟨steps, hsteps, h⟩ := Option.bind_eq_some_iff.mp h
    cases h
    have hlower := Hex.decodeChars_eq_some_iff.mp hbytes
    refine ⟨inside.take 8, inside.drop 8, (List.take_append_drop 8 inside).symm, ?_,
      ⟨terms, steps, hterms, hsteps⟩, rfl⟩
    have hlength := congrArg List.length hlower
    rw [List.length_map, Hex.length_encodeChars, List.length_take] at hlength
    have hfour : bytes.length ≤ 4 := by omega
    rw [hlower, FixedBytes.val_of_take? hfingerprint, List.take_of_length_le hfour]
  · rintro ⟨figures, path, rfl, hlower, ⟨terms, steps, hterms, hsteps⟩, hpath⟩
    obtain ⟨fingerprint, path'⟩ := origin
    have hlength := congrArg List.length hlower
    rw [List.length_map, Hex.length_encodeChars, fingerprint.property] at hlength
    have hfingerprint : FixedBytes.take? 4 fingerprint.val = some fingerprint := by
      have h := FixedBytes.take?_append fingerprint []
      rwa [List.append_nil] at h
    obtain rfl : path' = _ := hpath
    simp only [originOf?, List.take_left' hlength, List.drop_left' hlength,
      Hex.decodeChars_eq_some_iff.mpr hlower, hfingerprint, hterms, hsteps, Option.bind_eq_bind,
      Option.bind_some]
    rfl

/-- An origin is printed as it is written, but for the case of its figures, and read back. -/
theorem exists_figures_of_originOf? {inside : List Char} {origin : KeyOrigin}
    (h : originOf? inside = some origin) : ∃ figures path, inside = figures ++ path ∧
      figures.length = 8 ∧ originOf? (figures.map Char.toLower ++ path) = some origin ∧
        origin.text.toList = '[' :: (figures.map Char.toLower ++ path) ++ [']'] := by
  obtain ⟨figures, path, rfl, hlower, hpath, horigin⟩ := originOf?_eq_some_iff.mp h
  have hlength := congrArg List.length hlower
  rw [List.length_map, Hex.length_encodeChars, origin.fingerprint.property] at hlength
  refine ⟨figures, path, rfl, hlength,
    originOf?_eq_some_iff.mpr ⟨_, path, rfl, ?_, hpath, horigin⟩, ?_⟩
  · rw [hlower]
    exact Hex.decodeChars_eq_some_iff.mp (Hex.decodeChars_encodeChars _)
  · have hwritten : (origin.path.getD "").toList = path := by
      rw [horigin]
      split
      · rename_i hnil
        rw [hnil]
        rfl
      · exact String.toList_ofList
    simp [KeyOrigin.text, Hex.encode, hwritten, hlower]

section SameStart

variable {start start' : List Char} (h : SameStart start start')
include h

theorem exists_terms (rest : List Char) : ∃ term others,
    (start ++ rest).splitOn '/' = (start ++ term) :: others ∧
      (start' ++ rest).splitOn '/' = (start' ++ term) :: others := by
  obtain ⟨term, others, hrest⟩ := exists_splitOn_eq_cons '/' rest
  refine ⟨term, others, ?_, ?_⟩
  · rw [splitOn_append_left fun hmem => (h.left _ hmem).1 rfl, hrest, List.modifyHead_cons]
  · rw [splitOn_append_left fun hmem => (h.right _ hmem).1 rfl, hrest, List.modifyHead_cons]

theorem ofKeyAndPath?_sameStart (origin : Option KeyOrigin) (front rest : List Char) :
    ofKeyAndPath? origin (front ++ '/' :: (start ++ rest)) =
      ofKeyAndPath? origin (front ++ '/' :: (start' ++ rest)) := by
  obtain ⟨term, others, hstart, hstart'⟩ := exists_terms h rest
  have hle : (front.takeWhile Char.isAlphanum).length ≤ front.length :=
    (List.takeWhile_prefix _).length_le
  unfold ofKeyAndPath?
  simp only [takeWhile_append_slash, List.drop_append_of_le_length hle]
  obtain hnone | ⟨terms, hterms⟩ :=
    terms?_append_slash (front.drop (front.takeWhile Char.isAlphanum).length)
  · rw [hnone, hnone]
  · rw [hterms, hterms, hstart, hstart', Option.bind_eq_bind, Option.bind_eq_bind,
      Option.bind_some, Option.bind_some, stepsOf?_append_cons (h.same term)]

theorem isFixedPath_sameStart {front rest : List Char}
    (hpath : IsFixedPath (front ++ '/' :: (start ++ rest))) :
    IsFixedPath (front ++ '/' :: (start' ++ rest)) := by
  obtain ⟨term, others, hstart, hstart'⟩ := exists_terms h rest
  obtain ⟨terms, steps, hterms, hsteps⟩ := hpath
  obtain hnone | ⟨before, hbefore⟩ := terms?_append_slash front
  · rw [hnone] at hterms
    cases hterms
  · rw [hbefore, hstart] at hterms
    cases hterms
    refine ⟨_, steps, hbefore _, ?_⟩
    rw [hstart', ← hsteps, List.mapM_append, List.mapM_append, List.mapM_cons, List.mapM_cons,
      (h.same term).1]

theorem exists_originOf?_sameStart {front rest : List Char} {origin : KeyOrigin}
    (horigin : originOf? (front ++ '/' :: (start ++ rest)) = some origin) :
    ∃ origin', originOf? (front ++ '/' :: (start' ++ rest)) = some origin' := by
  obtain ⟨figures, path, hinside, hlower, hpath, -⟩ := originOf?_eq_some_iff.mp horigin
  -- the figures hold no slash, so that the term is in the path after them
  have hslash : '/' ∉ figures := fun hmem => absurd
    (Hex.isAlphanum_of_decodeChars (Hex.decodeChars_eq_some_iff.mpr hlower) '/' hmem) (by decide)
  obtain ⟨others, rfl, hrest⟩ : ∃ others, front = figures ++ others ∧
      path = others ++ '/' :: (start ++ rest) := by
    obtain ⟨others, hfront, hpath⟩ | ⟨others, hfigures, hpath⟩ :=
      List.append_eq_append_iff.mp hinside
    · cases others with
      | nil => exact ⟨[], by simpa using hfront.symm, by simpa using hpath.symm⟩
      | cons c others =>
        obtain ⟨rfl, -⟩ := List.cons.inj hpath
        exact absurd (hfront ▸ by simp) hslash
    · exact ⟨others, hfigures, hpath⟩
  rw [hrest] at hpath
  have hpath' := isFixedPath_sameStart h hpath
  rw [List.append_assoc]
  exact ⟨⟨origin.fingerprint, some (String.ofList (others ++ '/' :: (start' ++ rest)))⟩,
    originOf?_eq_some_iff.mpr ⟨figures, _, rfl, hlower, hpath', (if_neg (by simp)).symm⟩⟩

end SameStart

/-- What a key text says beside the origin. -/
def afterOrigin? (text : List Char) : Option KeyText :=
  (ofChars? text).map ({ · with origin := none })

theorem map_ofKeyAndPath? (origin : Option KeyOrigin) (text : List Char) :
    (ofKeyAndPath? origin text).map ({ · with origin := none }) = ofKeyAndPath? none text := by
  simp only [ofKeyAndPath?, Option.bind_eq_bind, Option.map_bind, Function.comp_def]
  refine Option.bind_congr fun terms _ => Option.bind_congr fun parts _ => ?_
  split <;> rfl

theorem afterOrigin?_plain {text : List Char} (h : text.head? ≠ some '[') :
    afterOrigin? text = ofKeyAndPath? none text := by
  rw [afterOrigin?, ofChars?, map_ofKeyAndPath?]
  rintro rest rfl
  exact h rfl

theorem afterOrigin?_bracket {inside : List Char} (h : ']' ∉ inside) (rest : List Char) :
    afterOrigin? ('[' :: (inside ++ ']' :: rest)) =
      if (originOf? inside).isSome then ofKeyAndPath? none rest else none := by
  have htake : (inside ++ ']' :: rest).takeWhile (· ≠ ']') = inside := by
    rw [List.takeWhile_append_of_pos, List.takeWhile_cons_of_neg (by decide), List.append_nil]
    exact fun c hc => decide_eq_true fun heq => h (heq ▸ hc)
  simp only [afterOrigin?, ofChars?, htake, List.drop_left]
  cases originOf? inside with
  | none => rfl
  | some origin => exact map_ofKeyAndPath? (some origin) rest

theorem afterOrigin?_unclosed {rest : List Char} (h : ']' ∉ rest) :
    afterOrigin? ('[' :: rest) = none := by
  have htake : rest.takeWhile (· ≠ ']') = rest :=
    List.takeWhile_eq_self_iff.mpr fun c hc => decide_eq_true fun heq => h (heq ▸ hc)
  simp only [afterOrigin?, ofChars?, htake, List.drop_length]
  cases originOf? rest <;> rfl

theorem isSome_originOf?_sameStart {start start' : List Char} (h : SameStart start start')
    (front rest : List Char) : (originOf? (front ++ '/' :: (start ++ rest))).isSome =
      (originOf? (front ++ '/' :: (start' ++ rest))).isSome := by
  rw [Bool.eq_iff_iff, Option.isSome_iff_exists, Option.isSome_iff_exists]
  constructor
  · rintro ⟨origin, horigin⟩
    exact exists_originOf?_sameStart h horigin
  · rintro ⟨origin, horigin⟩
    exact exists_originOf?_sameStart h.symm horigin

/-- The other spelling is in the path of the key, or in the path of the origin. -/
theorem afterOrigin?_respelled {text text' : List Char} (h : Respelled text text') :
    afterOrigin? text = afterOrigin? text' := by
  obtain ⟨front, start, start', rest, hstart, rfl, rfl⟩ := h.exists_start
  by_cases hfront : front.head? = some '['
  · obtain ⟨front, rfl⟩ := List.head?_eq_some_iff.mp hfront
    rw [List.cons_append, List.cons_append]
    by_cases hclosed : ']' ∈ front
    -- the origin ends before the term, which belongs to the path of the key
    · obtain ⟨inside, after, rfl, hinside⟩ := List.eq_append_cons_of_mem hclosed
      rw [List.append_assoc, List.append_assoc, List.cons_append, List.cons_append,
        afterOrigin?_bracket hinside, afterOrigin?_bracket hinside,
        ofKeyAndPath?_sameStart hstart none after rest]
    -- the term belongs to the path of the origin, if the origin ends at all
    · have hopen {start others : List Char} (hstart : ∀ c ∈ start, c ≠ '/' ∧ c ≠ ']')
          (hothers : ']' ∉ others) : ']' ∉ front ++ '/' :: (start ++ others) := by
        simp only [List.mem_append, List.mem_cons, not_or]
        exact ⟨hclosed, by decide, fun hmem => (hstart _ hmem).2 rfl, hothers⟩
      by_cases hrest : ']' ∈ rest
      · obtain ⟨inside, after, rfl, hinside⟩ := List.eq_append_cons_of_mem hrest
        have hregroup (start : List Char) : front ++ '/' :: (start ++ (inside ++ ']' :: after)) =
            (front ++ '/' :: (start ++ inside)) ++ ']' :: after := by simp
        rw [hregroup, hregroup, afterOrigin?_bracket (hopen hstart.left hinside),
          afterOrigin?_bracket (hopen hstart.right hinside), isSome_originOf?_sameStart hstart]
      · rw [afterOrigin?_unclosed (hopen hstart.left hrest),
          afterOrigin?_unclosed (hopen hstart.right hrest)]
  · have hplain (others : List Char) : (front ++ '/' :: others).head? ≠ some '[' := by
      cases front with
      | nil => simp
      | cons c front => exact hfront
    rw [afterOrigin?_plain (hplain _), afterOrigin?_plain (hplain _),
      ofKeyAndPath?_sameStart hstart]

theorem afterOrigin?_eqvGen {text text' : List Char} (h : Relation.EqvGen Respelled text text') :
    afterOrigin? text = afterOrigin? text' := by
  induction h with
  | rel _ _ h => exact afterOrigin?_respelled h
  | refl _ => rfl
  | symm _ _ _ ih => exact ih.symm
  | trans _ _ _ _ _ ih ih' => exact ih.trans ih'

end KeyText

/-! ### The key of a text -/

def Wildcard.tail : Wildcard → KeyTail
  | .none => .itself
  | .unhardened => .children false .standard
  | .hardened => .children true .standard

theorem KeyText.tail_eq (parts : KeyText) : parts.tail = parts.wildcard.tail := by
  unfold tail Wildcard.tail
  cases parts.wildcard <;> rfl

namespace KeyExpr

variable {ctx : Context} {network : Network} {text : String}

/-- What a token and the terms after it stand for. Only an extended key has a path. -/
inductive Follows (ctx : Context) (network : Network) (text token : String) :
    List (List Char) → KeyPair → Prop
  | extended {base k : ExtendedKey} {steps : List PathStep} {fixed star : List (List Char)}
      {wildcard : Wildcard} (hbase : ctx.scheme.decodeExtendedKey token network = .ok base)
      (hfixed : List.Forall₂ PathStep.Spelled steps fixed)
      (hsteps : steps.foldlM (descend ctx text) base = .ok k) (hstar : wildcard.Spelled star) :
      Follows ctx network text token (fixed ++ star) (.extended k wildcard.tail)
  | publicOnly {key : PublicKey} (hkey : ctx.scheme.decodePublicKey token = .ok key) :
      Follows ctx network text token [] (.publicOnly key)
  | withPrivate {key : PrivateKey} (hkey : ctx.scheme.decodePrivateKey token network = .ok key) :
      Follows ctx network text token [] (.withPrivate key)

theorem follows_of_decodePair {parts : KeyText} {terms : List (List Char)} {pair : KeyPair}
    (hterms : KeyText.stepsOf? terms = some (parts.steps, parts.wildcard))
    (h : decodePair ctx network text parts = .ok pair) :
    Follows ctx network text (String.ofList parts.key) terms pair := by
  obtain ⟨fixed, star, rfl, hfixed, hstar⟩ := KeyText.stepsOf?_eq_some_iff.mp hterms
  have hnil (hpath : parts.steps = [] ∧ parts.wildcard = .none) : fixed ++ star = [] := by
    rw [hpath.1] at hfixed
    rw [hpath.2] at hstar
    cases hfixed
    cases hstar
    rfl
  cases decodePair_eq_ok_iff.mp h with
  | extended _ hbase hsteps =>
    rw [KeyText.tail_eq]
    exact .extended hbase hfixed hsteps hstar
  | publicOnly _ hpath _ hkey =>
    rw [hnil hpath]
    exact .publicOnly hkey
  | withPrivate _ hpath _ hkey =>
    rw [hnil hpath]
    exact .withPrivate hkey

/-- The origin and the text itself are not looked at when the key is decoded. -/
theorem decodePair_beside_origin {text' : String} {parts parts' : KeyText} {pair : KeyPair}
    (hparts : { parts with origin := none } = { parts' with origin := none })
    (h : decodePair ctx network text parts = .ok pair) :
    decodePair ctx network text' parts' = .ok pair := by
  obtain ⟨origin, key, steps, wildcard⟩ := parts
  obtain ⟨origin', key', steps', wildcard'⟩ := parts'
  cases hparts
  apply decodePair_eq_ok_iff.mpr
  cases decodePair_eq_ok_iff.mp h with
  | extended hextended hbase hsteps =>
    exact .extended hextended hbase (foldlM_descend_text hsteps)
  | publicOnly hextended hpath hpublic hkey => exact .publicOnly hextended hpath hpublic hkey
  | withPrivate hextended hpath hpublic hkey => exact .withPrivate hextended hpath hpublic hkey

/-- Another text with the same parts, but for the origin, is read as the same key. -/
theorem parse_beside_origin {text' : String} {parts parts' : KeyText} {pair : KeyPair}
    (hpair : decodePair ctx network text parts = .ok pair)
    (hparts : { parts with origin := none } = { parts' with origin := none })
    (htext : KeyText.ofChars? text'.toList = some parts') :
    parse ctx network text' = .ok ⟨network, text', parts'.origin, pair⟩ :=
  parse_eq_ok_iff.mpr ⟨parts', pair, htext, decodePair_beside_origin hparts hpair, rfl⟩

section Parse

variable {key : KeyExpr} (h : parse ctx network text = .ok key)
include h

theorem isSome_origin_iff : key.origin.isSome ↔ text.toList.head? = some '[' := by
  obtain ⟨parts, pair, hparts, -, rfl⟩ := parse_eq_ok_iff.mp h
  obtain ⟨front, rest, htext, hfront, hrest⟩ := KeyText.ofChars?_eq_some_iff.mp hparts
  cases horigin : parts.origin with
  | none =>
    rw [horigin] at hfront
    obtain rfl : front = [] := hfront
    have hhead := KeyText.head?_ne_of_ofKeyAndPath? hrest
    rw [htext, List.nil_append]
    simpa using hhead
  | some origin =>
    rw [horigin] at hfront
    obtain ⟨inside, -, rfl⟩ := hfront
    simp [htext]

theorem exists_origin_text {origin : KeyOrigin} (horigin : key.origin = some origin) :
    ∃ figures path rest : String, text = "[" ++ figures ++ path ++ "]" ++ rest ∧
      figures.length = 8 ∧ ']' ∉ figures.toList ++ path.toList ∧
      origin.text = "[" ++ figures.toLower ++ path ++ "]" ∧
      parse ctx network rest = .ok ⟨network, rest, none, key.pair⟩ ∧
      parse ctx network (origin.text ++ rest) =
        .ok ⟨network, origin.text ++ rest, some origin, key.pair⟩ := by
  obtain ⟨parts, pair, hparts, hpair, rfl⟩ := parse_eq_ok_iff.mp h
  obtain ⟨front, rest, htext, hfront, hrest⟩ := KeyText.ofChars?_eq_some_iff.mp hparts
  have horigin : parts.origin = some origin := horigin
  rw [horigin] at hfront hrest
  obtain ⟨inside, hinside, rfl⟩ := hfront
  have hbracket : ']' ∉ inside := fun hmem =>
    absurd (KeyText.isPathChar_of_originOf? hinside _ hmem) (by decide)
  obtain ⟨figures, path, rfl, hlength, hback, hprinted⟩ :=
    KeyText.exists_figures_of_originOf? hinside
  have hplain := (KeyText.map_ofKeyAndPath? (some origin) rest).symm
  rw [hrest, Option.map_some] at hplain
  refine ⟨.ofList figures, .ofList path, .ofList rest, ?_, ?_, ?_, ?_, ?_, ?_⟩
  · rw [← String.toList_inj, htext]
    simp
  · rw [String.length_ofList, hlength]
  · rwa [String.toList_ofList, String.toList_ofList]
  · have hlower : (String.ofList figures).toLower = (String.ofList figures).map Char.toLower := rfl
    rw [← String.toList_inj, hprinted, hlower]
    simp
  · have hread : KeyText.ofChars? (String.ofList rest).toList =
        some { parts with origin := none } := by
      rw [String.toList_ofList]
      exact KeyText.ofChars?_of_plain hplain
    refine parse_beside_origin hpair ?_ hread
    rfl
  · have hread : KeyText.ofChars? (origin.text ++ String.ofList rest).toList = some parts := by
      rw [String.toList_append, String.toList_ofList, hprinted, List.append_assoc, List.cons_append,
        List.singleton_append, KeyText.ofChars?_of_origin hback, hrest]
    rw [← horigin]
    exact parse_beside_origin hpair rfl hread

theorem parse_respelled {text' : String}
    (hrespelled : Relation.EqvGen Respelled text.toList text'.toList) :
    ∃ key', parse ctx network text' = .ok key' ∧ key'.pair = key.pair := by
  obtain ⟨parts, pair, hparts, hpair, rfl⟩ := parse_eq_ok_iff.mp h
  have hbeside := KeyText.afterOrigin?_eqvGen hrespelled
  rw [KeyText.afterOrigin?, hparts, Option.map_some] at hbeside
  obtain ⟨parts', hparts', hsame⟩ := Option.map_eq_some_iff.mp hbeside.symm
  exact ⟨_, parse_beside_origin hpair hsame.symm hparts', rfl⟩

theorem exists_follows : ∃ front token terms,
    text.toList = front ++ token ++ KeyText.pathChars terms ∧
      KeyText.OriginText key.origin front ∧ (∀ c ∈ token, c.isAlphanum) ∧
      (∀ term ∈ terms, '/' ∉ term) ∧
      Follows ctx network text (String.ofList token) terms key.pair := by
  obtain ⟨parts, pair, hparts, hpair, rfl⟩ := parse_eq_ok_iff.mp h
  obtain ⟨front, rest, htext, hfront, hrest⟩ := KeyText.ofChars?_eq_some_iff.mp hparts
  obtain ⟨terms, rfl, halnum, hslash, hsteps, -, -⟩ := KeyText.ofKeyAndPath?_eq_some_iff.mp hrest
  exact ⟨front, parts.key, terms, by rw [htext, List.append_assoc], hfront, halnum, hslash,
    follows_of_decodePair hsteps hpair⟩

end Parse

end KeyExpr

/-- The origin, the marks and the zeros of a key text can be written otherwise without changing the
key. -/
theorem key_notation {ctx : Context} {network : Network} {text : String} {key : KeyExpr}
    (h : KeyExpr.parse ctx network text = .ok key) :
    (key.origin.isSome ↔ text.toList.head? = some '[') ∧
    (∀ origin, key.origin = some origin → ∃ figures path rest : String,
      text = "[" ++ figures ++ path ++ "]" ++ rest ∧ figures.length = 8 ∧
      ']' ∉ figures.toList ++ path.toList ∧ origin.text = "[" ++ figures.toLower ++ path ++ "]" ∧
      KeyExpr.parse ctx network rest = .ok ⟨network, rest, none, key.pair⟩ ∧
      KeyExpr.parse ctx network (origin.text ++ rest) =
        .ok ⟨network, origin.text ++ rest, some origin, key.pair⟩) ∧
    (∀ text' : String, Relation.EqvGen Respelled text.toList text'.toList →
      ∃ key', KeyExpr.parse ctx network text' = .ok key' ∧ key'.pair = key.pair) ∧
    ∃ front token terms, text.toList = front ++ token ++ KeyText.pathChars terms ∧
      KeyText.OriginText key.origin front ∧ (∀ c ∈ token, c.isAlphanum) ∧
      (∀ term ∈ terms, '/' ∉ term) ∧
      KeyExpr.Follows ctx network text (String.ofList token) terms key.pair :=
  ⟨KeyExpr.isSome_origin_iff h, fun _ => KeyExpr.exists_origin_text h,
    fun _ => KeyExpr.parse_respelled h, KeyExpr.exists_follows h⟩

def KeyScheme.still : KeyScheme :=
  { KeyScheme.standard with
    deriveChild := fun key index hardened =>
      (ChildNumber.ofIndex index hardened).map (⟨key, ·⟩) }

/-- A key with all parts, the same key in another notation, and without its origin. -/
theorem key_notation_all_parts : ∃ key,
    KeyExpr.parse ⟨{}, .still⟩ .testnet ("[D34DB33F/49h]" ++ ExtendedKey.rootText ++ "/07'/*h") =
      .ok key ∧
    key.pair = .extended .root (.children true .standard) ∧ key.origin.isSome ∧
    (∃ key', KeyExpr.parse ⟨{}, .still⟩ .testnet
        ("[D34DB33F/49']" ++ ExtendedKey.rootText ++ "/7'/*h") = .ok key' ∧ key'.pair = key.pair) ∧
    ∃ rest, KeyExpr.parse ⟨{}, .still⟩ .testnet rest = .ok ⟨.testnet, rest, none, key.pair⟩ := by
  have hbase := ExtendedKey.decode_rootText
  obtain ⟨⟨halnum, hlength⟩, hextended⟩ := KeyScheme.isToken_of_extended hbase
  generalize ExtendedKey.rootText = token at hbase halnum hlength hextended
  let origin : KeyOrigin := ⟨⟨[0xd3, 0x4d, 0xb3, 0x3f], rfl⟩, some "/49h"⟩
  let parts : KeyText := ⟨some origin, token.toList, [⟨7, true⟩], .hardened⟩
  have hparts : KeyText.ofChars? ("[D34DB33F/49h]" ++ token ++ "/07'/*h").toList = some parts := by
    have hinside : KeyText.originOf? "D34DB33F/49h".toList = some origin := by decide
    have hsteps : KeyText.stepsOf? ["07'".toList, "*h".toList] = some ([⟨7, true⟩], .hardened) := by
      decide
    have htext : ("[D34DB33F/49h]" ++ token ++ "/07'/*h").toList =
        '[' :: ("D34DB33F/49h".toList ++ ']' :: (token.toList ++
          KeyText.pathChars ["07'".toList, "*h".toList])) := by simp [KeyText.pathChars]
    rw [htext, KeyText.ofChars?_of_origin hinside]
    exact KeyText.ofKeyAndPath?_eq_some_iff.mpr
      ⟨_, rfl, halnum, by decide, hsteps, hlength, rfl⟩
  have hpair : KeyExpr.decodePair ⟨{}, .still⟩ .testnet
      ("[D34DB33F/49h]" ++ token ++ "/07'/*h") parts =
        .ok (.extended .root (.children true .standard)) := by
    have hextended' : parts.isExtended := hextended
    rw [KeyExpr.decodePair_of_extended hextended', String.ofList_toList]
    exact Except.bind_eq_ok_iff.mpr ⟨.root, hbase, rfl⟩
  have hread := KeyExpr.parse_eq_ok_iff.mpr ⟨parts, _, hparts, hpair, rfl⟩
  obtain ⟨-, horigin, hrespelled, -⟩ := key_notation hread
  obtain ⟨_, _, rest, -, -, -, -, hrest, -⟩ := horigin origin rfl
  have hmark : Respelled ("[D34DB33F/49h]" ++ token ++ "/07'/*h").toList
      ("[D34DB33F/49']" ++ token ++ "/07'/*h").toList := by
    simpa using @Respelled.mark 'h' '\x27' (by decide) (by decide) "[D34DB33F".toList
      ("]" ++ token ++ "/07'/*h").toList "49".toList (by simp)
  have hzero : Respelled ("[D34DB33F/49']" ++ token ++ "/7'/*h").toList
      ("[D34DB33F/49']" ++ token ++ "/07'/*h").toList := by
    simpa using
      @Respelled.zero '7' (by decide) ("[D34DB33F/49']" ++ token).toList "'/*h".toList
  exact ⟨_, hread, rfl, rfl,
    hrespelled _ (.trans _ _ _ (.rel _ _ hmark) (.symm _ _ (.rel _ _ hzero))), rest, hrest⟩

end OutputDescriptor
