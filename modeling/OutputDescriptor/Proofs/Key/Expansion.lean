import OutputDescriptor.Proofs.Evaluation.Policies

/-! The keys of a range are those of the texts in which each of its indices stands in place of the
wildcard: as many, in the same order, and with the same errors. -/
namespace OutputDescriptor

/-! ### The wildcard of a key text -/

namespace KeyText

theorem count_star_of_stepsOf? {terms : List (List Char)} {steps : List PathStep}
    {wildcard : Wildcard} (h : stepsOf? terms = some (steps, wildcard)) :
    (pathChars terms).count '*' = if wildcard = .none then 0 else 1 := by
  fun_induction stepsOf? terms generalizing steps wildcard with
  | case1 =>
    cases h
    rfl
  | case2 term found hfound =>
    cases h
    obtain ⟨rfl, rfl⟩ | ⟨mark, hmark, rfl, rfl⟩ := wildcardOf?_eq_some hfound
    · rfl
    · have hne : mark ≠ '*' := by
        rintro rfl
        exact absurd hmark (by decide)
      simp [pathChars, hne]
  | case3 term _ =>
    obtain ⟨step, hstep, hparts⟩ := Option.map_eq_some_iff.mp h
    cases hparts
    have hterm : term.count '*' = 0 := List.count_eq_zero.mpr (star_not_mem_of_step hstep)
    simp [pathChars, hterm]
  | case4 term rest hrest ih =>
    obtain ⟨step, hstep, h⟩ := Option.bind_eq_some_iff.mp h
    obtain ⟨⟨others, found⟩, hothers, hparts⟩ := Option.bind_eq_some_iff.mp h
    cases hparts
    have hterm : term.count '*' = 0 := List.count_eq_zero.mpr (star_not_mem_of_step hstep)
    rw [← ih hothers]
    simp [pathChars, hterm]

/-- There is at most one wildcard in a key text, at its end. -/
theorem count_star_of_ofChars? {text : List Char} {parts : KeyText}
    (h : ofChars? text = some parts) :
    text.count '*' = if parts.wildcard = .none then 0 else 1 := by
  obtain ⟨front, rest, rfl, hfront, hrest⟩ := ofChars?_eq_some_iff.mp h
  obtain ⟨terms, rfl, halnum, -, hsteps, -, -⟩ := ofKeyAndPath?_eq_some_iff.mp hrest
  have horigin : front.count '*' = 0 :=
    List.count_eq_zero.mpr hfront.star_not_mem
  have hkey : parts.key.count '*' = 0 := by
    refine List.count_eq_zero.mpr (star_not_mem_of_isPathChar fun c hc => ?_)
    exact isPathChar_of_isAlphanum (halnum c hc)
  rw [List.count_append, List.count_append, horigin, hkey, count_star_of_stepsOf? hsteps]
  omega

end KeyText

/-- A key scheme answers with another child where there is none, and leaves it to its callers to
report that. -/
def KeyScheme.LeavesReporting (scheme : KeyScheme) : Prop :=
  ∀ k index hardened missing mark,
    scheme.deriveChild k index hardened ≠ .error (.nonexistentIndex missing mark)

theorem ExtendedKey.deriveChild_ne_nonexistentIndex (k : ExtendedKey) (index : Nat)
    (hardened : Bool) (missing : Nat) (mark : Bool) :
    k.deriveChild index hardened ≠ .error (.nonexistentIndex missing mark) := by
  fun_induction k.deriveChild index hardened with
  | case1 index h error herror =>
    unfold child? at herror
    split at herror
    · simp [← Except.error.inj herror]
    · split at herror
      · simp [← Except.error.inj herror]
      · cases herror
  | case2 => simp
  | case3 index h hnone ih => exact ih
  | case4 => simp

/-- The standard derivation goes on to the next index by itself, and fails for other reasons only. -/
theorem KeyScheme.leavesReporting_standard : standard.LeavesReporting :=
  ExtendedKey.deriveChild_ne_nonexistentIndex

theorem KeyScheme.leavesReporting_sparse : sparse.LeavesReporting := by
  intro k index hardened missing mark h
  change (ChildNumber.ofIndex (index + index % 2) hardened >>= _) = _ at h
  unfold ChildNumber.ofIndex at h
  split at h <;> cases h

namespace KeyExpr

variable {ctx : Context} {network : Network} {key : KeyExpr} {text : String} {index : Nat}
  {range : KeyRange}

theorem isRanged_of_parse (h : parse ctx network text = .ok key) (hstar : '*' ∈ text.toList) :
    key.isRanged := by
  obtain ⟨parts, pair, hparts, hpair, rfl⟩ := parse_eq_ok_iff.mp h
  have hwildcard : parts.wildcard ≠ .none := by
    intro hnone
    have hcount := KeyText.count_star_of_ofChars? hparts
    rw [if_pos hnone, List.count_eq_zero] at hcount
    exact hcount hstar
  cases decodePair_eq_ok_iff.mp hpair with
  | extended =>
    cases hmark : parts.wildcard with
    | none => exact absurd hmark hwildcard
    | unhardened => simp [isRanged, range?, KeyText.tail, hmark]
    | hardened => simp [isRanged, range?, KeyText.tail, hmark]
  | publicOnly _ hpath => exact absurd hpath.2 hwildcard
  | withPrivate _ hpath => exact absurd hpath.2 hwildcard

theorem setRange_of_isRanged (h : key.isRanged) : key.setRange range = .ok (key.ranged range) := by
  unfold isRanged range? at h
  split at h
  · rename_i k hardened old hpair
    simp [setRange, ranged, withRange?, hpair]
  · cases h

/-! ### The text of an index -/

/-- A key text with an index where its front was followed by a wildcard. -/
def textAt (front mark : String) (index : Nat) : String := front ++ "/" ++ toString index ++ mark

/-- Only the wildcard is replaced by the index, as there is no other in front of it. -/
theorem substituteIndex_of_parse {front mark : String} (hmark : mark ∈ ["", "'", "h"])
    (h : parse ctx network (front ++ "/*" ++ mark) = .ok key) :
    substituteIndex index (front ++ "/*" ++ mark) = textAt front mark index := by
  have hmark : '*' ∉ mark.toList := by
    simp only [List.mem_cons, List.not_mem_nil, or_false] at hmark
    rcases hmark with rfl | rfl | rfl <;> decide
  have hfront : '*' ∉ front.toList := by
    obtain ⟨parts, pair, hparts, -, -⟩ := parse_eq_ok_iff.mp h
    have hcount := KeyText.count_star_of_ofChars? hparts
    have hle : (if parts.wildcard = .none then 0 else 1) ≤ 1 := by split <;> omega
    simp only [String.toList_append, List.count_append] at hcount
    have hone : "/*".toList.count '*' = 1 := by decide
    exact List.count_eq_zero.mp (by omega)
  have hstar : substituteChars index "/*".toList = '/' :: Nat.toDigits 10 index := by
    simp [substituteChars, starTo]
  apply String.toList_injective
  rw [toList_substituteIndex, String.toList_append, String.toList_append, substituteChars_append,
    substituteChars_append, substituteChars_of_not_mem hfront, substituteChars_of_not_mem hmark,
    hstar]
  simp [textAt]

/-! ### The entry of an index -/

/-- What a range lists for an index whose text was read: the public key, or nothing if the key does
not exist. -/
def entry : Except Error KeyExpr → Except Error (Option PublicKey)
  | .ok key => .ok (some key.publicKey)
  | .error (.nonexistentIndex _ _) => .ok none
  | .error error => .error error

def MissesChild (read : Except Error KeyExpr) : Prop :=
  ∃ index hardened, read = .error (.nonexistentIndex index hardened)

section Entry

variable {read : Except Error KeyExpr}

theorem entry_eq_ok_some_iff {found : PublicKey} :
    entry read = .ok (some found) ↔ ∃ child, read = .ok child ∧ child.publicKey = found := by
  unfold entry
  split <;> simp

theorem entry_eq_ok_none_iff : entry read = .ok none ↔ MissesChild read := by
  unfold entry MissesChild
  split
  · simp
  · simp
  · rename_i hne
    simpa using hne

theorem entry_eq_error_iff {error : Error} :
    entry read = .error error ↔ read = .error error ∧ ¬MissesChild read := by
  unfold entry MissesChild
  split
  · simp
  · simp
  · rename_i hne
    simpa using fun _ => hne

theorem exists_entry_eq_ok_iff :
    (∃ found, entry read = .ok found) ↔ (∃ child, read = .ok child) ∨ MissesChild read := by
  unfold entry MissesChild
  split
  · simp
  · simp
  · rename_i hne
    simpa using hne

end Entry

/-- Where the scheme fails, both the range and the path fail with its error. -/
theorem childPublicKey_eq_error {k : ExtendedKey} {hardened : Bool} {error : Error}
    (hindex : index < hardenedBase) (h : childPublicKey ctx k hardened index = .error error)
    (text : String) : ctx.scheme.deriveChild k index hardened = .error error ∧
      descend ctx text k ⟨index, hardened⟩ = .error error := by
  rw [childPublicKey_of_lt hindex] at h
  rw [descend_of_lt hindex]
  cases hchild : ctx.scheme.deriveChild k index hardened with
  | error found =>
    rw [hchild] at h
    obtain rfl : found = error := Except.error.inj h
    exact ⟨rfl, rfl⟩
  | ok child =>
    rw [hchild] at h
    cases h

theorem instantiate_of_publicKeyAt_error (hscheme : ctx.scheme.LeavesReporting)
    (hindex : index < hardenedBase) {error : Error}
    (h : key.publicKeyAt ctx index = .error error) :
    key.instantiate ctx index = .error error ∧
      ∀ missing mark, error ≠ .nonexistentIndex missing mark := by
  obtain ⟨network, text, origin, pair⟩ := key
  unfold publicKeyAt at h
  split at h
  · rename_i k hardened range hkey
    cases hkey
    obtain ⟨hderived, hchild⟩ := childPublicKey_eq_error hindex h (substituteIndex index text)
    constructor
    · rw [instantiate, pairAt, hchild]
      rfl
    · rintro missing mark rfl
      exact hscheme k index hardened missing mark hderived
  · cases h

theorem publicKeyAt_eq_entry (hscheme : ctx.scheme.LeavesReporting) (hindex : index < hardenedBase) :
    key.publicKeyAt ctx index = entry (key.instantiate ctx index) := by
  cases hkey : key.publicKeyAt ctx index with
  | error error =>
    obtain ⟨hinstance, hne⟩ := instantiate_of_publicKeyAt_error hscheme hindex hkey
    rw [hinstance]
    unfold entry
    split
    · cases ‹_ = Except.ok _›
    · rename_i missing mark herror
      exact absurd (Except.error.inj herror) (hne missing mark)
    · rename_i found _ herror
      rw [Except.error.inj herror]
  | ok found =>
    cases found with
    | none =>
      obtain ⟨-, hardened, hinstance⟩ := instantiate_of_publicKeyAt_none hkey
      rw [hinstance]
      rfl
    | some found =>
      obtain ⟨child, hinstance, rfl⟩ := instantiate_of_publicKeyAt hkey
      rw [hinstance]
      rfl

theorem ignoreNonexistentIndex_of_missesChild (hscheme : ctx.scheme.LeavesReporting)
    (hindex : index < hardenedBase) (h : MissesChild (key.instantiate ctx index)) :
    ctx.options.ignoreNonexistentIndex = false := by
  rw [← entry_eq_ok_none_iff, ← publicKeyAt_eq_entry hscheme hindex] at h
  exact (instantiate_of_publicKeyAt_none h).1

/-- Expanding a range is reading the texts of its indices one after the other. -/
theorem publicKeys_eq_mapM_entry (hscheme : ctx.scheme.LeavesReporting)
    (hparse : parse ctx network text = .ok key) (hranged : key.isRanged) :
    (key.ranged range).publicKeys ctx = range.indices.mapM fun index =>
      entry (parse ctx network (substituteIndex index text)) := by
  rw [publicKeys_ranged hranged]
  apply mapM_congr
  intro index hindex
  rw [parse_substituteIndex hparse]
  exact publicKeyAt_eq_entry hscheme (KeyRange.lt_hardenedBase_of_mem hindex)

section Entries

variable {read : Nat → Except Error KeyExpr} {found : List (Option PublicKey)}

theorem exists_entries_iff : (∃ found, range.indices.mapM (entry <| read ·) = .ok found) ↔
    ∀ index ∈ range.indices, (∃ child, read index = .ok child) ∨ MissesChild (read index) := by
  simp only [← exists_entry_eq_ok_iff]
  exact exists_mapM_eq_ok_iff

theorem length_entries (h : range.indices.mapM (entry <| read ·) = .ok found) :
    found.length = range.count := by
  rw [← (mapM_eq_ok_iff.mp h).length_eq, range.length_indices]

theorem getElem?_entries (h : range.indices.mapM (entry <| read ·) = .ok found) {position : Nat}
    (hposition : position < range.count) {x : Option PublicKey} :
    found[position]? = some x ↔ entry (read (range.start + position)) = .ok x := by
  have hfound : position < found.length := by
    rw [length_entries h]
    exact hposition
  have hvalue := (mapM_eq_ok_iff.mp h).get (by rwa [range.length_indices]) hfound
  simp only [KeyRange.indices_eq, List.get_eq_getElem, List.getElem_range', Nat.one_mul] at hvalue
  rw [List.getElem?_eq_getElem hfound, hvalue, Option.some.injEq, Except.ok.injEq]

theorem exists_first_of_entries_eq_error {error : Error}
    (h : range.indices.mapM (entry <| read ·) = .error error) :
    ∃ index ∈ range.indices, read index = .error error ∧ ¬MissesChild (read index) ∧
      ∀ earlier ∈ range.indices, earlier < index →
        (∃ child, read earlier = .ok child) ∨ MissesChild (read earlier) := by
  rw [range.indices_eq] at h ⊢
  obtain ⟨index, hindex, hfirst, hbefore⟩ := exists_first_of_mapM_eq_error h
  rw [entry_eq_error_iff] at hfirst
  refine ⟨index, hindex, hfirst.1, hfirst.2, fun earlier hearlier hlt => ?_⟩
  exact exists_entry_eq_ok_iff.mp (hbefore earlier hearlier hlt)

end Entries

/-- A wildcard key has the keys of the texts of its indices, and fails as the first of them that
fails. -/
theorem publicKeys_setRange {front mark : String} (hscheme : ctx.scheme.LeavesReporting)
    (hmark : mark ∈ ["", "'", "h"]) (hparse : parse ctx network (front ++ "/*" ++ mark) = .ok key)
    (range : KeyRange) :
    let read (index : Nat) := parse ctx network (textAt front mark index)
    ∃ ranged, key.setRange range = .ok ranged ∧
      ((∃ found, ranged.publicKeys ctx = .ok found) ↔
        ∀ index ∈ range.indices, (∃ child, read index = .ok child) ∨ MissesChild (read index)) ∧
      (∀ found, ranged.publicKeys ctx = .ok found →
        found.length = range.count ∧ ∀ position < range.count,
          (∀ key, found[position]? = some (some key) ↔
            ∃ child, read (range.start + position) = .ok child ∧ child.publicKey = key) ∧
          (found[position]? = some none ↔ MissesChild (read (range.start + position))) ∧
          (ctx.options.ignoreNonexistentIndex → found[position]? ≠ some none)) ∧
      ∀ error, ranged.publicKeys ctx = .error error →
        ∃ index ∈ range.indices, read index = .error error ∧ ¬MissesChild (read index) ∧
          ∀ earlier ∈ range.indices, earlier < index →
            (∃ child, read earlier = .ok child) ∨ MissesChild (read earlier) := by
  intro read
  have hranged : key.isRanged := isRanged_of_parse hparse (by simp)
  have hread : ∀ index, read index = key.instantiate ctx index := by
    intro index
    rw [← parse_substituteIndex hparse, substituteIndex_of_parse hmark hparse]
  have hkeys : (key.ranged range).publicKeys ctx = range.indices.mapM (entry <| read ·) := by
    rw [publicKeys_eq_mapM_entry hscheme hparse hranged]
    simp only [substituteIndex_of_parse hmark hparse, read]
  refine ⟨key.ranged range, setRange_of_isRanged hranged, ?_⟩
  rw [hkeys]
  refine ⟨exists_entries_iff, fun found hfound => ⟨length_entries hfound, fun position hlt => ?_⟩,
    fun error => exists_first_of_entries_eq_error⟩
  refine ⟨fun k => ?_, ?_, fun hignore hnone => ?_⟩
  · rw [getElem?_entries hfound hlt, entry_eq_ok_some_iff]
  · rw [getElem?_entries hfound hlt, entry_eq_ok_none_iff]
  · rw [getElem?_entries hfound hlt, entry_eq_ok_none_iff, hread] at hnone
    have hindex : range.start + position < hardenedBase := by
      have := range.fits
      omega
    rw [ignoreNonexistentIndex_of_missesChild hscheme hindex hnone] at hignore
    cases hignore

/-- The second index of the range has no key, and the text that names it is refused for that. -/
theorem publicKeys_setRange_sparse :
    let k : ExtendedKey := ⟨.test, 0, ⟨[0, 0, 0, 0], rfl⟩, ⟨0, false, by decide⟩,
      ⟨List.replicate 32 0, rfl⟩, .point .generator⟩
    let ctx : Context :=
      ⟨⟨false⟩, { KeyScheme.sparse with decodeExtendedKey := fun _ _ => .ok k }⟩
    let key : KeyExpr := ⟨.testnet, "tpub/*'", none, .extended k (.children true .standard)⟩
    let range : KeyRange := ⟨0, 2, by decide, by decide⟩
    parse ctx .testnet "tpub/*'" = .ok key ∧
      parse ctx .testnet "tpub/1'" = .error (.nonexistentIndex 1 true) ∧
      ∃ ranged found, key.setRange range = .ok ranged ∧ ranged.publicKeys ctx = .ok found ∧
        found.length = 2 ∧ found[1]? = some none := by
  intro k ctx key range
  have hparse : parse ctx .testnet ("tpub" ++ "/*" ++ "'") = .ok key := by decide +kernel
  have hfirst : ∃ child, parse ctx .testnet (textAt "tpub" "'" 0) = .ok child :=
    ⟨_, (by decide +kernel : parse ctx .testnet "tpub/0'" =
      .ok ⟨.testnet, "tpub/0'", none, .extended k .itself⟩)⟩
  have hsecond : parse ctx .testnet (textAt "tpub" "'" 1) = .error (.nonexistentIndex 1 true) := by
    decide +kernel
  obtain ⟨ranged, hranged, hsuccess, hlist, -⟩ := publicKeys_setRange
    KeyScheme.leavesReporting_sparse (by decide) hparse range
  obtain ⟨found, hfound⟩ := hsuccess.mpr fun index hindex => by
    have hlt : index < 2 := by simpa [range, KeyRange.indices_eq] using hindex
    obtain rfl | rfl : index = 0 ∨ index = 1 := by omega
    · exact .inl hfirst
    · exact .inr ⟨1, true, hsecond⟩
  obtain ⟨hlength, hentries⟩ := hlist found hfound
  refine ⟨hparse, hsecond, ranged, found, hranged, hfound, hlength, ?_⟩
  exact (hentries 1 (by decide)).2.1.mpr ⟨1, true, hsecond⟩

end KeyExpr

end OutputDescriptor
