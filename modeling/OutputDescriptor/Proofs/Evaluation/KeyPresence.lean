import OutputDescriptor.Proofs.Evaluation.Policies
import OutputDescriptor.Proofs.Script.Reachable

/-! The key sets of an expression whose wildcard keys can all be derived: when their ranges fit each
other, whether there is a set at all, and how many of its keys are compressed. -/
namespace OutputDescriptor

variable {ctx : Context} {index : Nat} {range : KeyRange}

/-! ### Single keys -/

namespace KeyExpr

variable {key : KeyExpr}

/-- A child is derived at every index of the range of a wildcard key, be it the one that was asked
for or another. -/
def Derives (ctx : Context) (key : KeyExpr) : Prop :=
  ∀ k hardened range, key.pair = .extended k (.children hardened range) →
    ∀ index ∈ range.indices, ∃ child, ctx.scheme.deriveChild k index hardened = .ok child

/-- The expression stands for a key at the index, which is one of its range if it has one. -/
def ExistsAt (ctx : Context) (index : Nat) (key : KeyExpr) : Prop :=
  (∀ range, key.range? = some range → index ∈ range.indices) ∧
    ∃ found, key.publicKeyAt ctx index = .ok (some found)

theorem resolves_of_derives (h : key.Derives ctx)
    (hindex : ∀ range, key.range? = some range → index ∈ range.indices) :
    key.Resolves ctx index := by
  by_cases hranged : key.isRanged
  · obtain ⟨range, hrange⟩ := Option.isSome_iff_exists.mp hranged
    obtain ⟨k, hardened, hpair⟩ := exists_pair_of_range? hrange
    have hmem := hindex range hrange
    obtain ⟨child, hchild⟩ := h k hardened range hpair index hmem
    unfold Resolves valueAt publicKeyAt
    rw [hpair]
    simp only [childPublicKey_of_lt (KeyRange.lt_hardenedBase_of_mem hmem), hchild, Except.ok_bind]
    rfl
  · rw [Bool.not_eq_true] at hranged
    exact resolves_of_publicKeyAt (publicKeyAt_of_isRanged_eq_false hranged)

theorem valueAt_eq_some_iff {found : PublicKey} :
    key.valueAt ctx index = some found ↔ key.publicKeyAt ctx index = .ok (some found) := by
  unfold valueAt
  cases key.publicKeyAt ctx index with
  | error error => simp [Except.toOption]
  | ok value => simp [Except.toOption]

/-- The keys of a range are all in the form of the wildcard key. -/
theorem compressed_of_valueAt {found : PublicKey} (h : key.valueAt ctx index = some found) :
    found.compressed = key.isCompressed := by
  obtain ⟨child, hchild, rfl⟩ := instantiate_of_publicKeyAt (valueAt_eq_some_iff.mp h)
  exact isCompressed_instantiate hchild

theorem isCompressed_of_isRanged (h : key.isRanged) : key.isCompressed := by
  obtain ⟨range, hrange⟩ := Option.isSome_iff_exists.mp h
  obtain ⟨k, hardened, hpair⟩ := exists_pair_of_range? hrange
  rw [isCompressed, publicKey, hpair]
  rfl

theorem existsAt_of_isRanged_eq_false (h : key.isRanged = false) (index : Nat) :
    key.ExistsAt ctx index := by
  refine ⟨fun range hrange => ?_, _, publicKeyAt_of_isRanged_eq_false h⟩
  rw [isRanged, hrange] at h
  cases h

theorem ranged_eq_self (h : ∀ found, key.range? = some found → found = range) :
    key.ranged range = key := by
  by_cases hranged : key.isRanged
  · obtain ⟨found, hfound⟩ := Option.isSome_iff_exists.mp hranged
    obtain ⟨k, hardened, hpair⟩ := exists_pair_of_range? hfound
    obtain rfl := h found hfound
    obtain ⟨network, text, origin, pair⟩ := key
    cases hpair
    rfl
  · rw [Bool.not_eq_true] at hranged
    exact ranged_of_isRanged_eq_false hranged range

end KeyExpr

/-! ### Lists of keys -/

def RangesDiffer (keys : List KeyExpr) : Prop :=
  ∃ a ∈ keys, ∃ b ∈ keys, ∃ range range', a.range? = some range ∧ b.range? = some range' ∧
    range ≠ range'

def HasKeySet (ctx : Context) (keys : List KeyExpr) : Prop :=
  ∃ index, ∀ key ∈ keys, key.ExistsAt ctx index

/-- The keys of a set are compressed where the expressions are, up to their order. -/
def FormsOf (keys : List KeyExpr) (set : List PublicKey) : Prop :=
  (set.map (·.compressed)).Perm (keys.map (·.isCompressed))

section Lists

variable {keys : List KeyExpr}

theorem exists_range_of_not_rangesDiffer (h : ¬RangesDiffer keys) :
    ∃ range, ∀ key ∈ keys, ∀ found, key.range? = some found → found = range := by
  by_cases hranged : ∃ key ∈ keys, key.isRanged
  · obtain ⟨key, hkey, hranged⟩ := hranged
    obtain ⟨range, hrange⟩ := Option.isSome_iff_exists.mp hranged
    refine ⟨range, fun other hother found hfound => ?_⟩
    by_contra hne
    exact h ⟨other, hother, key, hkey, found, range, hfound, hrange, hne⟩
  · refine ⟨KeyRange.standard, fun key hkey found hfound => ?_⟩
    have hkey' : key.isRanged := by
      rw [KeyExpr.isRanged, hfound]
      rfl
    exact absurd ⟨key, hkey, hkey'⟩ hranged

theorem not_rangesDiffer_singleton (key : KeyExpr) : ¬RangesDiffer [key] := by
  rintro ⟨a, ha, b, hb, range, range', hrange, hrange', hne⟩
  rw [List.mem_singleton.mp ha] at hrange
  rw [List.mem_singleton.mp hb, hrange] at hrange'
  exact hne (Option.some.inj hrange')

theorem commonRange_of_rangesDiffer (h : RangesDiffer keys) :
    ∃ first position other, commonRange keys = .error (.rangeMismatch first position other) := by
  cases hcommon : commonRange keys with
  | ok found =>
    obtain ⟨a, ha, b, hb, range, range', hrange, hrange', hne⟩ := h
    rw [commonRange_eq_ok_iff] at hcommon
    have hfound := (hcommon range).mp ⟨a, ha, hrange⟩
    have hfound' := (hcommon range').mp ⟨b, hb, hrange'⟩
    rw [hfound] at hfound'
    exact absurd (Option.some.inj hfound') hne
  | error error =>
    obtain ⟨first, index, other, -, rfl⟩ := commonRange_eq_error_iff.mp hcommon
    exact ⟨first, index + 1, other, rfl⟩

namespace FormsOf

variable {set : List PublicKey}

theorem length_eq (h : FormsOf keys set) : set.length = keys.length := by
  have hlength := List.Perm.length_eq h
  simpa using hlength

theorem countP_eq (h : FormsOf keys set) (p : Bool → Bool) :
    set.countP (p ·.compressed) = keys.countP (p ·.isCompressed) := by
  have hcount := List.Perm.countP_eq p h
  simpa only [List.countP_map, Function.comp_def] using hcount

theorem any_uncompressed (h : FormsOf keys set) :
    set.any (!·.compressed) = keys.any (!·.isCompressed) := by
  have hany := List.Perm.any_eq h (f := (!·))
  simpa [List.any_map, Function.comp_def] using hany

end FormsOf

theorem exists_at?_iff {sorted : Bool} : (∃ set, KeySet.at? ctx sorted keys index = some set) ↔
    ∀ key ∈ keys, ∃ found, key.publicKeyAt ctx index = .ok (some found) := by
  simp only [← KeyExpr.valueAt_eq_some_iff]
  constructor
  · rintro ⟨set, hset⟩ key hkey
    obtain ⟨found, hfound, -⟩ := Option.map_eq_some_iff.mp hset
    obtain ⟨k, -, hk⟩ := exists_of_mapM_eq_some hfound hkey
    exact ⟨k, hk⟩
  · intro h
    obtain ⟨found, hfound⟩ := exists_forall₂_of_forall_exists h
    refine ⟨KeySet.arrange sorted found, Option.map_eq_some_iff.mpr ⟨found, ?_, rfl⟩⟩
    exact mapM_eq_some_iff.mpr hfound

theorem formsOf_at? {sorted : Bool} {set : List PublicKey}
    (h : KeySet.at? ctx sorted keys index = some set) : FormsOf keys set := by
  obtain ⟨found, hfound, rfl⟩ := Option.map_eq_some_iff.mp h
  have hforms : found.map (·.compressed) = keys.map (·.isCompressed) := by
    symm
    rw [← List.forall₂_eq_eq_eq, List.forall₂_map_left_iff, List.forall₂_map_right_iff]
    refine (mapM_eq_some_iff.mp hfound).imp fun key k hk => ?_
    exact (KeyExpr.compressed_of_valueAt hk).symm
  unfold FormsOf
  rw [← hforms]
  exact (KeySet.arrange_perm sorted found).map _

theorem formsOf_fixed (sorted : Bool) (keys : List KeyExpr) :
    FormsOf keys (KeySet.arrange sorted (keys.map KeyExpr.publicKey)) := by
  have hperm := (KeySet.arrange_perm sorted (keys.map KeyExpr.publicKey)).map (·.compressed)
  rw [List.map_map] at hperm
  exact hperm

end Lists

/-! ### Script expressions -/

namespace ScriptExpr

variable {e : ScriptExpr}

/-- The keys of the innermost call, which are those that payments are made to. -/
def leafKeys : ScriptExpr → List KeyExpr
  | .wrapped _ _ inner => inner.leafKeys
  | script => script.keys

theorem leafKeys_levels (e : ScriptExpr) : ∀ call ∈ e.levels, call.leafKeys = e.leafKeys :=
  forall_mem_levels (fun _ _ _ h => h) rfl

theorem wildcardKeys_eq_filter (e : ScriptExpr) :
    e.wildcardKeys = e.leafKeys.filter KeyExpr.isRanged := by
  induction e with
  | wrapped label w inner ih => exact ih
  | _ => rfl

theorem isRanged_eq_any (e : ScriptExpr) : e.isRanged = e.leafKeys.any KeyExpr.isRanged := by
  induction e with
  | wrapped label w inner ih => exact ih
  | _ => rfl

theorem resolves_iff : e.Resolves ctx index ↔ ∀ key ∈ e.leafKeys, key.Resolves ctx index := by
  induction e with
  | wrapped label w inner ih => exact ih
  | _ => rfl

theorem withRange_eq_self (h : ∀ key ∈ e.leafKeys, key.ranged range = key) :
    e.withRange range = e := by
  induction e with
  | wrapped label w inner ih => rw [withRange, ih h]
  | keyed label form key =>
    have hkey := h key List.mem_cons_self
    exact congrArg (keyed label form) hkey
  | multisig label sorted threshold keys =>
    have hkeys : keys.map (KeyExpr.ranged range) = keys := (List.map_congr_left h).trans keys.map_id
    exact congrArg (multisig label sorted threshold) hkeys
  | addr => rfl
  | raw => rfl

theorem formsOf_keysAt {set : List PublicKey} (h : e.keysAt ctx index = some set) :
    FormsOf e.leafKeys set := by
  induction e with
  | wrapped label w inner ih => exact ih h
  | keyed label form key =>
    obtain ⟨found, hfound, rfl⟩ := Option.map_eq_some_iff.mp h
    simp [FormsOf, leafKeys, keys, KeyExpr.compressed_of_valueAt hfound]
  | multisig label sorted threshold keys => exact formsOf_at? h
  | addr => cases h
  | raw => cases h

theorem formsOf_resolvedKeys (e : ScriptExpr) : FormsOf e.leafKeys e.resolvedKeys := by
  induction e with
  | wrapped label w inner ih => exact ih
  | multisig label sorted threshold keys => exact formsOf_fixed sorted keys
  | _ => exact List.Perm.refl _

theorem exists_keysAt_iff (hpays : e.PaysKeys) : (∃ set, e.keysAt ctx index = some set) ↔
    ∀ key ∈ e.leafKeys, ∃ found, key.publicKeyAt ctx index = .ok (some found) := by
  induction e with
  | wrapped label w inner ih => exact ih hpays
  | keyed label form key =>
    simp [keysAt, leafKeys, keys, KeyExpr.valueAt_eq_some_iff]
  | multisig label sorted threshold keys => exact exists_at?_iff
  | addr => exact absurd hpays id
  | raw => exact absurd hpays id

/-- Keys are looked for at the indices of the range that all wildcard keys have. -/
theorem hasKeySet_iff (hpays : e.PaysKeys) (hranged : e.isRanged)
    (hrange : ∀ key ∈ e.leafKeys, ∀ found, key.range? = some found → found = range) :
    HasKeySet ctx e.leafKeys ↔ ∃ index ∈ range.indices, ∃ set, e.keysAt ctx index = some set := by
  simp only [exists_keysAt_iff hpays]
  constructor
  · rintro ⟨index, h⟩
    rw [isRanged_eq_any, List.any_eq_true] at hranged
    obtain ⟨key, hkey, hranged⟩ := hranged
    obtain ⟨found, hfound⟩ := Option.isSome_iff_exists.mp hranged
    refine ⟨index, ?_, fun key hkey => (h key hkey).2⟩
    rw [← hrange key hkey found hfound]
    exact (h key hkey).1 found hfound
  · rintro ⟨index, hindex, h⟩
    refine ⟨index, fun key hkey => ⟨fun found hfound => ?_, h key hkey⟩⟩
    rw [hrange key hkey found hfound]
    exact hindex

/-- If the ranges fit, the sets of keys are found, and there is one if there is one at an index. -/
theorem exists_keySets (hpays : e.PaysKeys) (hderives : ∀ key ∈ e.leafKeys, key.Derives ctx)
    (hranges : ¬RangesDiffer e.leafKeys) :
    ∃ sets, e.keySets ctx = .ok sets ∧ (∀ set ∈ sets, FormsOf e.leafKeys set) ∧
      (sets ≠ [] ↔ HasKeySet ctx e.leafKeys) := by
  by_cases hranged : e.isRanged
  · obtain ⟨range, hrange⟩ := exists_range_of_not_rangesDiffer hranges
    have hself : e.withRange range = e :=
      withRange_eq_self fun key hkey => KeyExpr.ranged_eq_self (hrange key hkey)
    have hresolves : ∀ index ∈ range.indices, e.Resolves ctx index := by
      intro index hindex
      rw [resolves_iff]
      intro key hkey
      apply KeyExpr.resolves_of_derives (hderives key hkey)
      intro found hfound
      rw [hrange key hkey found hfound]
      exact hindex
    have hsets := (keySets_withRange_eq_ok_iff hpays hranged).mpr ⟨hresolves, rfl⟩
    rw [hself] at hsets
    refine ⟨_, hsets, fun set hset => ?_, ?_⟩
    · obtain ⟨index, -, hkeys⟩ := List.mem_map.mp (Context.mem_of_mem_present hset)
      exact formsOf_keysAt hkeys
    · rw [hasKeySet_iff hpays hranged hrange, Ne, Context.present_eq_nil_iff]
      simp [Option.ne_none_iff_exists']
  · rw [Bool.not_eq_true] at hranged
    refine ⟨_, keySets_of_isRanged_eq_false hpays hranged, ?_, ?_⟩
    · rw [List.forall_mem_singleton]
      exact e.formsOf_resolvedKeys
    · rw [isRanged_eq_any, List.any_eq_false] at hranged
      refine iff_of_true (List.cons_ne_nil _ _) ⟨0, fun key hkey => ?_⟩
      exact KeyExpr.existsAt_of_isRanged_eq_false (Bool.eq_false_iff.mpr (hranged key hkey)) 0

theorem keySets_of_rangesDiffer (h : RangesDiffer e.leafKeys) :
    ∃ error, e.keySets ctx = .error error ∧ error.kind = .keyRange := by
  induction e with
  | wrapped label w inner ih => exact ih h
  | keyed label form key => exact absurd h (not_rangesDiffer_singleton key)
  | multisig label sorted threshold keys =>
    have hkeys : RangesDiffer keys := h
    obtain ⟨first, position, other, hcommon⟩ := commonRange_of_rangesDiffer hkeys
    refine ⟨.rangeMismatch first position other, ?_, rfl⟩
    rw [keySets, KeySet.ofKeys, hcommon]
    rfl
  | addr | raw =>
    obtain ⟨a, ha, -⟩ := h
    cases ha

end ScriptExpr

end OutputDescriptor
