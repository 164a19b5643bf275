import OutputDescriptor.Proofs.Evaluation.RangeKeySets

/-! A wildcard means textual substitution: evaluating a range of indices gives the payments of the
texts in which each of them replaces the wildcards. -/
namespace OutputDescriptor

namespace ScriptExpr

/-- The keys that a script without wildcards pays to, in the order of its output script. -/
def resolvedKeys : ScriptExpr → List PublicKey
  | .wrapped _ _ inner => inner.resolvedKeys
  | .keyed _ _ key => [key.publicKey]
  | .multisig _ sorted _ keys => KeySet.arrange sorted (keys.map KeyExpr.publicKey)
  | .addr .. | .raw .. => []

variable {ctx : Context} {index : Nat} {e e' : ScriptExpr}

/-! ### The expression at an index -/

theorem resolves_of_instantiate (hpays : e.PaysKeys) (h : e.instantiate ctx index = .ok e') :
    e.Resolves ctx index ∧ e.keysAt ctx index = some e'.resolvedKeys := by
  induction e generalizing e' with
  | wrapped label w inner ih =>
    obtain ⟨inner', hinner, h⟩ := Except.bind_eq_ok_iff.mp h
    cases h
    have hfound := ih hpays hinner
    exact hfound
  | keyed label form key =>
    obtain ⟨key', hkey, h⟩ := Except.bind_eq_ok_iff.mp h
    cases h
    have hfound := KeyExpr.publicKeyAt_of_instantiate hkey
    refine ⟨List.forall_mem_singleton.mpr (KeyExpr.resolves_of_publicKeyAt hfound), ?_⟩
    rw [keysAt, KeyExpr.valueAt_of_publicKeyAt hfound]
    rfl
  | multisig label sorted threshold keys =>
    obtain ⟨keys', hkeys, h⟩ := Except.bind_eq_ok_iff.mp h
    cases h
    have hall := mapM_eq_ok_iff.mp hkeys
    constructor
    · intro key hkey
      obtain ⟨key', -, hkey'⟩ := exists_of_forall₂ hall hkey
      exact KeyExpr.resolves_of_publicKeyAt (KeyExpr.publicKeyAt_of_instantiate hkey')
    · have hvalues : keys.mapM (KeyExpr.valueAt ctx index) =
          some (keys'.map KeyExpr.publicKey) := by
        rw [mapM_eq_some_iff, List.forall₂_map_right_iff]
        refine hall.imp fun key key' hkey => ?_
        exact KeyExpr.valueAt_of_publicKeyAt (KeyExpr.publicKeyAt_of_instantiate hkey)
      rw [keysAt, KeySet.at?, hvalues]
      rfl
  | addr => exact absurd hpays id
  | raw => exact absurd hpays id

theorem mapM_instantiate_cases {keys : List KeyExpr} (h : ∀ key ∈ keys, key.Resolves ctx index) :
    (∃ children, keys.mapM (·.instantiate ctx index) = .ok children) ∨
      keys.mapM (KeyExpr.valueAt ctx index) = none ∧
        ctx.options.ignoreNonexistentIndex = false ∧ ∃ hardened,
          keys.mapM (·.instantiate ctx index) = .error (.nonexistentIndex index hardened) := by
  induction keys with
  | nil => exact .inl ⟨[], rfl⟩
  | cons key rest ih =>
    rw [List.forall_mem_cons] at h
    obtain ⟨hkey, hrest⟩ := h
    rw [List.mapM_cons, List.mapM_cons]
    cases hvalue : key.valueAt ctx index with
    | none =>
      rw [KeyExpr.Resolves, hvalue] at hkey
      obtain ⟨hignore, hardened, hchild⟩ := KeyExpr.instantiate_of_publicKeyAt_none hkey
      rw [hchild]
      exact .inr ⟨rfl, hignore, hardened, rfl⟩
    | some found =>
      rw [KeyExpr.Resolves, hvalue] at hkey
      obtain ⟨child, hchild, -⟩ := KeyExpr.instantiate_of_publicKeyAt hkey
      rw [hchild]
      obtain ⟨children, hchildren⟩ | ⟨hnone, hignore, hardened, hchildren⟩ := ih hrest
      · rw [hchildren]
        exact .inl ⟨child :: children, rfl⟩
      · rw [hchildren, hnone]
        exact .inr ⟨rfl, hignore, hardened, rfl⟩

/-- Where no key fails, there is an expression at the index, unless a key does not exist and none
may stand in for it. -/
theorem instantiate_cases (hpays : e.PaysKeys) (h : e.Resolves ctx index) :
    (∃ e', e.instantiate ctx index = .ok e') ∨
      e.keysAt ctx index = none ∧ ctx.options.ignoreNonexistentIndex = false ∧
        ∃ hardened, e.instantiate ctx index = .error (.nonexistentIndex index hardened) := by
  induction e with
  | wrapped label w inner ih =>
    obtain ⟨inner', hinner⟩ | ⟨hnone, hignore, hardened, hinner⟩ := ih hpays h
    · exact .inl ⟨_, Except.bind_eq_ok_iff.mpr ⟨inner', hinner, rfl⟩⟩
    · refine .inr ⟨hnone, hignore, hardened, ?_⟩
      rw [instantiate, hinner]
      rfl
  | keyed label form key =>
    have hkey : key.Resolves ctx index := List.forall_mem_singleton.mp h
    cases hvalue : key.valueAt ctx index with
    | none =>
      rw [KeyExpr.Resolves, hvalue] at hkey
      obtain ⟨hignore, hardened, hchild⟩ := KeyExpr.instantiate_of_publicKeyAt_none hkey
      refine .inr ⟨?_, hignore, hardened, ?_⟩
      · rw [keysAt, hvalue]
        rfl
      · rw [instantiate, hchild]
        rfl
    | some found =>
      rw [KeyExpr.Resolves, hvalue] at hkey
      obtain ⟨child, hchild, -⟩ := KeyExpr.instantiate_of_publicKeyAt hkey
      exact .inl ⟨_, Except.bind_eq_ok_iff.mpr ⟨child, hchild, rfl⟩⟩
  | multisig label sorted threshold keys =>
    have h : ∀ key ∈ keys, key.Resolves ctx index := h
    obtain ⟨children, hchildren⟩ | ⟨hnone, hignore, hardened, hchildren⟩ := mapM_instantiate_cases h
    · exact .inl ⟨_, Except.bind_eq_ok_iff.mpr ⟨children, hchildren, rfl⟩⟩
    · refine .inr ⟨?_, hignore, hardened, ?_⟩
      · rw [keysAt, KeySet.at?, hnone]
        rfl
      · rw [instantiate, hchildren]
        rfl
  | addr => exact absurd hpays id
  | raw => exact absurd hpays id

theorem paysKeys_instantiate (hpays : e.PaysKeys) (h : e.instantiate ctx index = .ok e') :
    e'.PaysKeys := by
  induction e generalizing e' with
  | wrapped label w inner ih =>
    obtain ⟨inner', hinner, h⟩ := Except.bind_eq_ok_iff.mp h
    cases h
    have hfound := ih hpays hinner
    exact hfound
  | keyed | multisig =>
    obtain ⟨_, -, h⟩ := Except.bind_eq_ok_iff.mp h
    cases h
    exact hpays
  | addr => exact absurd hpays id
  | raw => exact absurd hpays id

theorem paysTo_instantiate (h : e.instantiate ctx index = .ok e') : e'.PaysTo = e.PaysTo := by
  induction e generalizing e' with
  | wrapped label w inner ih =>
    obtain ⟨inner', hinner, h⟩ := Except.bind_eq_ok_iff.mp h
    cases h
    funext keys payment
    rw [PaysTo, PaysTo, ih hinner]
    rfl
  | keyed | multisig =>
    obtain ⟨_, -, h⟩ := Except.bind_eq_ok_iff.mp h
    cases h
    rfl
  | addr | raw =>
    cases h
    rfl

theorem keySets_of_isRanged_eq_false (hpays : e.PaysKeys) (h : e.isRanged = false) :
    e.keySets ctx = .ok [e.resolvedKeys] := by
  induction e with
  | wrapped label w inner ih => exact ih hpays h
  | keyed label form key =>
    have hkey : key.isRanged = false := by simpa [isRanged, keys] using h
    rw [keySets, KeyExpr.presentKeys_of_isRanged_eq_false hkey]
    rfl
  | multisig label sorted threshold keys =>
    apply KeySet.ofKeys_of_fixed
    simpa [isRanged, ScriptExpr.keys] using h
  | addr => exact absurd hpays id
  | raw => exact absurd hpays id

theorem isRanged_instantiate (h : e.instantiate ctx index = .ok e') : e'.isRanged = false := by
  induction e generalizing e' with
  | wrapped label w inner ih =>
    obtain ⟨inner', hinner, h⟩ := Except.bind_eq_ok_iff.mp h
    cases h
    have hfound := ih hinner
    exact hfound
  | keyed label form key =>
    obtain ⟨key', hkey, h⟩ := Except.bind_eq_ok_iff.mp h
    cases h
    simpa [isRanged, keys] using KeyExpr.isRanged_instantiate hkey
  | multisig label sorted threshold keys =>
    obtain ⟨keys', hkeys, h⟩ := Except.bind_eq_ok_iff.mp h
    cases h
    change keys'.any KeyExpr.isRanged = false
    rw [List.any_eq_false]
    intro key' hkey'
    obtain ⟨key, -, hkey⟩ := exists_of_forall₂ (mapM_eq_ok_iff.mp hkeys).flip hkey'
    rw [KeyExpr.isRanged_instantiate hkey]
    decide
  | addr | raw =>
    cases h
    rfl

theorem payments_instantiate_eq_ok_iff (hpays : e.PaysKeys) (h : e.instantiate ctx index = .ok e')
    {payments : List Payment} : e'.payments ctx = .ok payments ↔
      List.Forall₂ e.PaysTo [e'.resolvedKeys] payments := by
  have hfixed := isRanged_instantiate h
  have hpays' := paysKeys_instantiate hpays h
  rw [payments_eq_ok_iff hpays', keySets_of_isRanged_eq_false hpays' hfixed, paysTo_instantiate h]
  constructor
  · rintro ⟨sets, hsets, hpaid⟩
    exact (Except.ok.inj hsets) ▸ hpaid
  · intro hpaid
    exact ⟨_, rfl, hpaid⟩

end ScriptExpr

end OutputDescriptor
