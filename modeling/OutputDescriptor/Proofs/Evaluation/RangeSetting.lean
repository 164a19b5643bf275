import OutputDescriptor.Proofs.Evaluation.KeyPresence
import OutputDescriptor.Proofs.Key.Expansion

/-! Setting the range of the wildcard keys in place, and reading it back: what changes, what stays,
and when keys disagree. -/
namespace OutputDescriptor

/-! ### Single keys -/

namespace KeyExpr

variable {key : KeyExpr}

/-- Keys that differ at most in the range, and not at all without wildcard. -/
inductive SameButRange : KeyExpr → KeyExpr → Prop
  | fixed {key : KeyExpr} (h : key.wildcard = .none) : SameButRange key key
  | ranged {network : Network} {text : String} {origin : Option KeyOrigin} {k : ExtendedKey}
      {hardened : Bool} (range range' : KeyRange) :
      SameButRange ⟨network, text, origin, .extended k (.children hardened range)⟩
        ⟨network, text, origin, .extended k (.children hardened range')⟩

theorem wildcard_eq_none_iff : key.wildcard = .none ↔ key.isRanged = false := by
  have h := key.isSome_range?_iff
  rw [← not_iff_not, ← Ne, ← h, Bool.not_eq_false]
  rfl

theorem setRange_of_wildcard_eq_none (h : key.wildcard = .none) (range : KeyRange) :
    key.setRange range = .error (.notRanged key.text) := by
  unfold setRange withRange?
  split
  · rename_i found hfound
    split at hfound
    · rename_i k hardened old hpair
      exact absurd hpair (pair_of_isRanged_eq_false (wildcard_eq_none_iff.mp h) k hardened old)
    · cases hfound
  · rfl

theorem assignRange_of_wildcard_eq_none (h : key.wildcard = .none) (range : KeyRange) :
    key.assignRange range = (key, .error (.notRanged key.text)) := by
  rw [assignRange, setRange_of_wildcard_eq_none h range]

/-- The check that passes over fixed keys leaves no key that could refuse a range. -/
theorem assignIfRanged_eq (range : KeyRange) (key : KeyExpr) :
    key.assignIfRanged range = (key.ranged range, .ok ()) := by
  unfold assignIfRanged
  split
  · rename_i h
    rw [ranged_of_isRanged_eq_false (wildcard_eq_none_iff.mp h)]
  · rename_i h
    have hranged : key.isRanged := by
      rw [wildcard_eq_none_iff, Bool.not_eq_false] at h
      exact h
    rw [assignRange, setRange_of_isRanged hranged]

theorem sameButRange_ranged (range : KeyRange) (key : KeyExpr) :
    key.SameButRange (key.ranged range) := by
  obtain ⟨network, text, origin, pair⟩ := key
  unfold ranged withRange?
  split
  · rename_i k hardened old hpair
    cases hpair
    exact .ranged old range
  · rename_i hfixed
    refine .fixed ?_
    unfold wildcard
    split
    · rename_i k hardened old hpair
      exact absurd hpair (hfixed k hardened old)
    · rfl

theorem ranged_ranged (range range' : KeyRange) (key : KeyExpr) :
    (key.ranged range).ranged range' = key.ranged range' := by
  obtain ⟨network, text, origin, pair⟩ := key
  cases pair with
  | extended k tail => cases tail <;> rfl
  | _ => rfl

theorem range?_of_parse {ctx : Context} {network : Network} {text : String}
    (h : parse ctx network text = .ok key) : ∀ found, key.range? = some found →
      found = KeyRange.standard := by
  intro found hfound
  obtain ⟨k, hardened, hpair⟩ := exists_pair_of_range? hfound
  obtain ⟨parts, pair, -, hdecode, rfl⟩ := parse_eq_ok_iff.mp h
  obtain rfl : pair = .extended k (.children hardened found) := hpair
  obtain ⟨-, _, -, -, htail⟩ := decodePair_eq_extended_iff.mp hdecode
  unfold KeyText.tail at htail
  split at htail
  · cases htail
  · cases htail
    rfl
  · cases htail
    rfl

end KeyExpr

/-! ### Lists of keys -/

theorem assignRanges_eq (range : KeyRange) (keys : List KeyExpr) :
    assignRanges range keys = (keys.map (·.ranged range), .ok ()) := by
  induction keys with
  | nil => rfl
  | cons key rest ih =>
    rw [assignRanges, KeyExpr.assignIfRanged_eq]
    change (assignRanges range rest).map (key.ranged range :: ·) id = _
    rw [ih]
    rfl

theorem exists_commonRange_eq_error_iff {keys : List KeyExpr} :
    (∃ error, commonRange keys = .error error) ↔ RangesDiffer keys := by
  constructor
  · rintro ⟨error, herror⟩
    obtain ⟨first, index, other, hdifference, -⟩ := commonRange_eq_error_iff.mp herror
    obtain ⟨a, ha, hfirst⟩ := List.mem_filterMap.mp (List.mem_of_getElem? hdifference.head)
    obtain ⟨b, hb, hother⟩ := List.mem_filterMap.mp (List.mem_of_getElem? hdifference.found)
    exact ⟨b, hb, a, ha, other, first, hother, hfirst, hdifference.differs⟩
  · intro h
    obtain ⟨first, position, other, herror⟩ := commonRange_of_rangesDiffer h
    exact ⟨_, herror⟩

/-! ### Script expressions -/

namespace ScriptExpr

variable {e : ScriptExpr}

/-- Expressions that differ at most in the ranges of wildcard keys. -/
inductive SameButRanges : ScriptExpr → ScriptExpr → Prop
  | wrapped (label : Label) (wrapper : Wrapper) {inner inner' : ScriptExpr}
      (h : SameButRanges inner inner') :
      SameButRanges (.wrapped label wrapper inner) (.wrapped label wrapper inner')
  | keyed (label : Label) (form : KeyForm) {key key' : KeyExpr} (h : key.SameButRange key') :
      SameButRanges (.keyed label form key) (.keyed label form key')
  | multisig (label : Label) (sorted : Bool) (threshold : NumberExpr) {keys keys' : List KeyExpr}
      (h : List.Forall₂ KeyExpr.SameButRange keys keys') :
      SameButRanges (.multisig label sorted threshold keys) (.multisig label sorted threshold keys')
  | addr (label : Label) (address : AddrExpr) :
      SameButRanges (.addr label address) (.addr label address)
  | raw (label : Label) (hex : HexExpr) : SameButRanges (.raw label hex) (.raw label hex)

/-- Setting the range in place goes through, and so is never left half done. -/
theorem assignRange_eq (range : KeyRange) (e : ScriptExpr) :
    e.assignRange range = (e.withRange range, .ok ()) := by
  induction e with
  | wrapped label w inner ih =>
    rw [assignRange, ih]
    rfl
  | keyed label form key =>
    rw [assignRange, KeyExpr.assignIfRanged_eq]
    rfl
  | multisig label sorted threshold keys =>
    rw [assignRange, assignRanges_eq]
    rfl
  | addr => rfl
  | raw => rfl

theorem sameButRanges_withRange (range : KeyRange) (e : ScriptExpr) :
    e.SameButRanges (e.withRange range) := by
  induction e with
  | wrapped label w inner ih => exact .wrapped label w ih
  | keyed label form key => exact .keyed label form (key.sameButRange_ranged range)
  | multisig label sorted threshold keys =>
    refine .multisig label sorted threshold ?_
    rw [List.forall₂_map_right_iff, List.forall₂_same]
    exact fun key _ => key.sameButRange_ranged range
  | addr label address => exact .addr label address
  | raw label hex => exact .raw label hex

theorem withRange_withRange (range range' : KeyRange) (e : ScriptExpr) :
    (e.withRange range).withRange range' = e.withRange range' := by
  induction e with
  | wrapped label w inner ih => exact congrArg (wrapped label w) ih
  | keyed label form key => exact congrArg (keyed label form) (key.ranged_ranged range range')
  | multisig label sorted threshold keys =>
    refine congrArg (multisig label sorted threshold) ?_
    rw [List.map_map]
    exact List.map_congr_left fun key _ => key.ranged_ranged range range'
  | addr => rfl
  | raw => rfl

theorem leafKeys_withRange (range : KeyRange) (e : ScriptExpr) :
    (e.withRange range).leafKeys = e.leafKeys.map (·.ranged range) := by
  induction e with
  | wrapped label w inner ih => exact ih
  | _ => rfl

theorem range?_eq_commonRange (e : ScriptExpr) : e.range? = commonRange e.leafKeys := by
  induction e with
  | wrapped label w inner ih => exact ih
  | _ => rfl

theorem range?_withRange (range : KeyRange) (e : ScriptExpr) :
    (e.withRange range).range? = .ok (if e.isRanged then some range else none) := by
  rw [range?_eq_commonRange, leafKeys_withRange, isRanged_eq_any]
  by_cases h : e.leafKeys.any KeyExpr.isRanged
  · rw [if_pos h, commonRange_map_ranged h]
  · rw [if_neg h, commonRange_eq_ok_none_iff, List.any_map]
    rw [Bool.not_eq_true] at h
    exact (congrArg e.leafKeys.any (funext fun key => key.isRanged_ranged range)).trans h

theorem forall_leafKeys_of_built {P : KeyExpr → Prop} (h : (Expr.script e).Built P) :
    ∀ key ∈ e.leafKeys, P key := by
  induction e with
  | wrapped label w inner ih => exact ih (List.forall_mem_singleton.mp (Built.children h))
  | keyed label form key =>
    have hkey := List.forall_mem_singleton.mp (Built.children h)
    exact List.forall_mem_singleton.mpr (Expr.built_key_iff.mp hkey)
  | multisig label sorted threshold keys =>
    have hkeys := Built.children h
    rw [ScriptExpr.children, List.forall_mem_cons, List.forall_mem_map] at hkeys
    exact fun key hkey => Expr.built_key_iff.mp (hkeys.2 key hkey)
  | addr | raw =>
    intro key hkey
    cases hkey

theorem withRange_standard_of_parse {ctx : Context} {network : Network}
    {parent : Option ScriptType} {text : String} (h : parse ctx network parent text = .ok e) :
    e.withRange KeyRange.standard = e := by
  have hbuilt := built_of_parse (fun _ _ hkey => KeyExpr.range?_of_parse hkey) h
  apply withRange_eq_self
  intro key hkey
  exact KeyExpr.ranged_eq_self (forall_leafKeys_of_built hbuilt key hkey)

/-- Of ranges set one after the other only the last counts. -/
theorem foldl_assignRange (ranges : List KeyRange) (range : KeyRange) (e : ScriptExpr) :
    ranges.foldl (fun e range => (e.assignRange range).1) (e.withRange range) =
      e.withRange (ranges.getLast?.getD range) := by
  induction ranges generalizing range with
  | nil => rfl
  | cons next rest ih =>
    rw [List.foldl_cons, assignRange_eq, withRange_withRange, ih]
    cases rest with
    | nil => rfl
    | cons => simp [List.getLast?_cons]

/-- A range that is set is read back. Reading fails exactly if two wildcard keys have different
ranges. -/
theorem range?_assignRange :
    (∀ (e : ScriptExpr) (range : KeyRange), ∃ changed, e.assignRange range = (changed, .ok ()) ∧
      e.SameButRanges changed ∧
      changed.range? = .ok (if e.isRanged then some range else none) ∧
      ∀ range', changed.assignRange range' = e.assignRange range') ∧
    (∀ e : ScriptExpr, (e.range? = .ok none ↔ e.isRanged = false) ∧
      ((∃ error, e.range? = .error error) ↔ RangesDiffer e.leafKeys) ∧
      ∀ error, e.range? = .error error ↔ ∃ first index other,
        FirstDifference (e.leafKeys.filterMap KeyExpr.range?) first index other ∧
          error = .rangeMismatch first (index + 1) other) ∧
    (∀ (ctx : Context) (network : Network) (parent : Option ScriptType) (text : String)
      (e : ScriptExpr), parse ctx network parent text = .ok e → ∀ ranges : List KeyRange,
        (ranges.foldl (fun e range => (e.assignRange range).1) e).range? =
          .ok (if e.isRanged then some (ranges.getLast?.getD .standard) else none)) ∧
    ∀ (key : KeyExpr) (range : KeyRange), key.wildcard = .none →
      key.assignRange range = (key, .error (.notRanged key.text)) := by
  refine ⟨fun e range => ?_, fun e => ?_, fun ctx network parent text e hparse ranges => ?_,
    fun key range h => KeyExpr.assignRange_of_wildcard_eq_none h range⟩
  · refine ⟨e.withRange range, assignRange_eq range e, sameButRanges_withRange range e,
      range?_withRange range e, fun range' => ?_⟩
    rw [assignRange_eq, assignRange_eq, withRange_withRange]
  · rw [range?_eq_commonRange, isRanged_eq_any]
    exact ⟨commonRange_eq_ok_none_iff, exists_commonRange_eq_error_iff,
      fun error => commonRange_eq_error_iff⟩
  · have hranges := foldl_assignRange ranges .standard e
    rw [withRange_standard_of_parse hparse] at hranges
    rw [hranges, range?_withRange]

/-- Two ranges set on a call with a wildcard key and a fixed one, and a range set on the latter. -/
theorem range?_assignRange_multi :
    let k : ExtendedKey := ⟨.test, 0, ⟨[0, 0, 0, 0], rfl⟩, ⟨0, false, by decide⟩,
      ⟨List.replicate 32 0, rfl⟩, .point .generator⟩
    let ctx : Context := ⟨{}, { KeyScheme.standard with decodeExtendedKey := fun _ _ => .ok k }⟩
    let range : KeyRange := ⟨5, 2, by decide, by decide⟩
    let last : KeyRange := ⟨0, 1, by decide, by decide⟩
    ∃ e fixed, parse ctx .testnet none "multi(1,tpub/*,tpub)" = .ok e ∧
      ([range, last].foldl (fun e range => (e.assignRange range).1) e).range? = .ok (some last) ∧
      fixed ∈ e.keys ∧ fixed.assignRange range = (fixed, .error (.notRanged fixed.text)) := by
  intro k ctx range last
  have hread : (do
      let e ← parse ctx .testnet none "multi(1,tpub/*,tpub)"
      return (e.isRanged, e.keys.map KeyExpr.wildcard) : Except Error (Bool × List Wildcard)) =
        .ok (true, [.unhardened, .none]) := by
    decide +kernel
  obtain ⟨e, hparse, hread⟩ := Except.bind_eq_ok_iff.mp hread
  obtain ⟨hranged, hwildcards⟩ := Prod.mk.inj (Except.ok.inj hread)
  have hmem : Wildcard.none ∈ e.keys.map KeyExpr.wildcard := by simp [hwildcards]
  obtain ⟨fixed, hfixed, hnone⟩ := List.mem_map.mp hmem
  obtain ⟨-, -, hsequence, hkey⟩ := range?_assignRange
  have hlast := hsequence _ _ _ _ e hparse [range, last]
  rw [if_pos hranged] at hlast
  exact ⟨e, fixed, hparse, hlast, hfixed, hkey fixed range hnone⟩

end ScriptExpr

end OutputDescriptor
