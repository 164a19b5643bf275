import OutputDescriptor.Proofs.Evaluation.RangeExpansion
import OutputDescriptor.Script.Range

/-! The key sets over a range of indices. -/
namespace OutputDescriptor

theorem KeyExpr.eq_of_range?_ranged {range found : KeyRange} {key : KeyExpr}
    (h : (key.ranged range).range? = some found) : found = range := by
  cases hranged : key.isRanged with
  | true =>
    obtain ⟨network, text, origin, pair⟩ := key
    unfold isRanged range? at hranged
    split at hranged
    · rename_i k hardened old hpair
      cases hpair
      exact (Option.some.inj h).symm
    · cases hranged
  | false =>
    rw [ranged_of_isRanged_eq_false hranged] at h
    rw [isRanged, h] at hranged
    cases hranged

theorem commonRange_map_ranged {keys : List KeyExpr} {range : KeyRange}
    (h : keys.any KeyExpr.isRanged) :
    commonRange (keys.map (·.ranged range)) = .ok (some range) := by
  obtain ⟨key, hkey, hranged⟩ := List.any_eq_true.mp h
  rw [← key.isRanged_ranged range] at hranged
  obtain ⟨own, hown⟩ := Option.isSome_iff_exists.mp hranged
  rw [commonRange_eq_ok_iff]
  intro found
  constructor
  · rintro ⟨_, hmem, hfound⟩
    obtain ⟨other, -, rfl⟩ := List.mem_map.mp hmem
    rw [KeyExpr.eq_of_range?_ranged hfound]
  · intro hfound
    cases hfound
    obtain rfl := KeyExpr.eq_of_range?_ranged hown
    exact ⟨key.ranged own, List.mem_map_of_mem hkey, hown⟩

def KeySet.arrange (sorted : Bool) (keys : List PublicKey) : List PublicKey :=
  if sorted then sort keys else keys

/-- The keys that a list of expressions stands for at an index, if they all exist. -/
def KeySet.at? (ctx : Context) (sorted : Bool) (keys : List KeyExpr) (index : Nat) :
    Option (List PublicKey) :=
  (keys.mapM (KeyExpr.valueAt ctx index)).map (arrange sorted)

theorem KeySet.atPosition_column {ctx : Context} {sorted : Bool} {keys : List KeyExpr}
    {range : KeyRange} {position : Nat} (hposition : position < range.count) :
    atPosition sorted ((keys.map (·.ranged range)).zip (keys.map (·.column ctx range))) position =
      at? ctx sorted keys (range.start + position) := by
  rw [atPosition, List.zip_map', List.mapM_map, at?]
  have hkey : (fun key : KeyExpr => keyAt position (key.ranged range) (key.column ctx range)) =
      KeyExpr.valueAt ctx (range.start + position) :=
    funext fun key => KeyExpr.keyAt_column hposition
  exact congrArg (fun f => (keys.mapM f).map (arrange sorted)) hkey

theorem KeySet.ofKeys_ranged_eq_ok_iff {ctx : Context} {sorted : Bool} {keys : List KeyExpr}
    {range : KeyRange} (hranged : keys.any KeyExpr.isRanged) {sets : List (List PublicKey)} :
    ofKeys ctx sorted (keys.map (·.ranged range)) = .ok sets ↔
      (∀ index ∈ range.indices, ∀ key ∈ keys, key.Resolves ctx index) ∧
        sets = ctx.present (range.indices.map (at? ctx sorted keys)) := by
  have hcolumns : (range.indices.map (at? ctx sorted keys)) =
      (List.range range.count).map (atPosition sorted
        ((keys.map (·.ranged range)).zip (keys.map (·.column ctx range)))) := by
    rw [KeyRange.indices_eq, List.range'_eq_map_range, List.map_map]
    refine List.map_congr_left fun position hposition => ?_
    exact (atPosition_column (List.mem_range.mp hposition)).symm
  have hresolved {found : List (List (Option PublicKey))} :
      (keys.map (·.ranged range)).mapM (·.publicKeys ctx) = .ok found ↔
        (∀ index ∈ range.indices, ∀ key ∈ keys, key.Resolves ctx index) ∧
          found = keys.map (·.column ctx range) := by
    have hcolumn (key : KeyExpr) (found : List (Option PublicKey))
        (h : (key.ranged range).publicKeys ctx = .ok found) : key.column ctx range = found :=
      (KeyExpr.publicKeys_ranged_eq_ok_iff.mp h).2.symm
    rw [List.mapM_map]
    refine (mapM_eq_ok_map_iff hcolumn).trans (and_congr_left fun _ => ?_)
    constructor
    · intro h index hindex key hkey
      exact (KeyExpr.publicKeys_ranged_eq_ok_iff.mp (h key hkey)).1 index hindex
    · intro h key hkey
      refine KeyExpr.publicKeys_ranged_eq_ok_iff.mpr ⟨fun index hindex => ?_, rfl⟩
      exact h index hindex key hkey
  rw [ofKeys, commonRange_map_ranged hranged, Except.ok_bind, Except.bind_eq_ok_iff, hcolumns]
  constructor
  · rintro ⟨found, hfound, h⟩
    obtain ⟨hall, rfl⟩ := hresolved.mp hfound
    exact ⟨hall, (Except.ok.inj h).symm⟩
  · rintro ⟨hall, rfl⟩
    exact ⟨_, hresolved.mpr ⟨hall, rfl⟩, rfl⟩

theorem KeyExpr.presentKeys_of_isRanged_eq_false {ctx : Context} {key : KeyExpr}
    (h : key.isRanged = false) : key.presentKeys ctx = .ok [key.publicKey] := by
  rw [presentKeys, publicKeys_of_isRanged_eq_false h]
  exact congrArg Except.ok (ctx.present_singleton key.publicKey)

theorem KeySet.ofKeys_of_fixed {ctx : Context} {sorted : Bool} {keys : List KeyExpr}
    (h : ∀ key ∈ keys, key.isRanged = false) :
    ofKeys ctx sorted keys = .ok [arrange sorted (keys.map KeyExpr.publicKey)] := by
  have hnone : commonRange keys = .ok none := by
    rw [commonRange_eq_ok_none_iff, List.any_eq_false]
    exact fun key hkey => Bool.eq_false_iff.mp (h key hkey)
  have hresolved : keys.mapM (·.publicKeys ctx) =
      .ok (keys.map fun key => [some key.publicKey]) := by
    rw [mapM_eq_ok_iff, List.forall₂_map_right_iff, List.forall₂_same]
    exact fun key hkey => KeyExpr.publicKeys_of_isRanged_eq_false (h key hkey)
  have hset : atPosition sorted (keys.zip (keys.map fun key => [some key.publicKey])) 0 =
      some (arrange sorted (keys.map KeyExpr.publicKey)) := by
    have hkeys : (keys.map fun key => (key, [some key.publicKey])).mapM
        (fun entry => keyAt 0 entry.1 entry.2) = some (keys.map KeyExpr.publicKey) := by
      rw [mapM_eq_some_iff, List.forall₂_map_left_iff, List.forall₂_map_right_iff,
        List.forall₂_same]
      intro key _
      rw [keyAt, ite_self]
      rfl
    rw [atPosition, ← List.map_prod_left_eq_zip]
    exact congrArg (Option.map (arrange sorted)) hkeys
  rw [ofKeys, hnone, hresolved]
  change Except.ok (ctx.present [_]) = _
  rw [hset, ctx.present_singleton]

namespace ScriptExpr

/-- The set of keys that the expression pays to at an index, if they all exist. -/
def keysAt (ctx : Context) (index : Nat) : ScriptExpr → Option (List PublicKey)
  | .wrapped _ _ inner => inner.keysAt ctx index
  | .keyed _ _ key => (key.valueAt ctx index).map ([·])
  | .multisig _ sorted _ keys => KeySet.at? ctx sorted keys index
  | .addr .. | .raw .. => none

/-- Deriving keys at the index did not fail, although some of them may not exist. -/
def Resolves (ctx : Context) (index : Nat) : ScriptExpr → Prop
  | .wrapped _ _ inner => inner.Resolves ctx index
  | script => ∀ key ∈ script.keys, key.Resolves ctx index

variable {ctx : Context} {e : ScriptExpr}

theorem keySets_withRange_eq_ok_iff (hpays : e.PaysKeys) (hranged : e.isRanged) {range : KeyRange}
    {sets : List (List PublicKey)} :
    (e.withRange range).keySets ctx = .ok sets ↔
      (∀ index ∈ range.indices, e.Resolves ctx index) ∧
        sets = ctx.present (range.indices.map (e.keysAt ctx ·)) := by
  induction e with
  | wrapped label w inner ih => exact ih hpays hranged
  | keyed label form key =>
    have hkey : key.isRanged := by simpa [isRanged, keys] using hranged
    have hsingleton : Function.Injective ([·] : PublicKey → List PublicKey) := fun _ _ h =>
      List.head_eq_of_cons_eq h
    have hsets : range.indices.map (keysAt ctx · (.keyed label form key)) =
        (key.column ctx range).map (Option.map ([·])) := by
      rw [KeyExpr.column, if_pos hkey, List.map_map]
      rfl
    rw [hsets, ctx.present_map hsingleton]
    constructor
    · intro h
      obtain ⟨present, hpresent, rfl⟩ := Except.map_eq_ok_iff.mp h
      obtain ⟨found, hfound, rfl⟩ := Except.map_eq_ok_iff.mp hpresent
      obtain ⟨hall, rfl⟩ := KeyExpr.publicKeys_ranged_eq_ok_iff.mp hfound
      exact ⟨fun index hindex => List.forall_mem_singleton.mpr (hall index hindex), rfl⟩
    · rintro ⟨hall, rfl⟩
      have hfound : (key.ranged range).publicKeys ctx = .ok (key.column ctx range) :=
        KeyExpr.publicKeys_ranged_eq_ok_iff.mpr
          ⟨fun index hindex => List.forall_mem_singleton.mp (hall index hindex), rfl⟩
      exact Except.map_eq_ok_iff.mpr ⟨_, Except.map_eq_ok_iff.mpr ⟨_, hfound, rfl⟩, rfl⟩
  | multisig label sorted threshold keys => exact KeySet.ofKeys_ranged_eq_ok_iff hranged
  | addr => exact absurd hpays id
  | raw => exact absurd hpays id

end ScriptExpr

end OutputDescriptor
