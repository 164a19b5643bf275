import OutputDescriptor.Proofs.Evaluation.KeySets
import OutputDescriptor.Proofs.Script.IndexReading
import OutputDescriptor.Proofs.Script.WellBuilt

/-! Evaluating a range of indices by evaluating the expression at each of them. -/
namespace OutputDescriptor

/-! ### Keys at an index -/

namespace KeyExpr

/-- The public key that the expression stands for at an index. -/
def publicKeyAt (ctx : Context) (index : Nat) (key : KeyExpr) : Except Error (Option PublicKey) :=
  match key.pair with
  | .extended k (.children hardened _) => childPublicKey ctx k hardened index
  | _ => .ok (some key.publicKey)

/-- The public key at an index, if it exists and could be derived. -/
def valueAt (ctx : Context) (index : Nat) (key : KeyExpr) : Option PublicKey :=
  (key.publicKeyAt ctx index).toOption.join

variable {ctx : Context} {index : Nat} {key : KeyExpr}

/-- Deriving the key at an index did not fail, although there may be none. -/
def Resolves (ctx : Context) (index : Nat) (key : KeyExpr) : Prop :=
  key.publicKeyAt ctx index = .ok (key.valueAt ctx index)

theorem valueAt_of_publicKeyAt {found : Option PublicKey}
    (h : key.publicKeyAt ctx index = .ok found) : key.valueAt ctx index = found := by
  rw [valueAt, h]
  rfl

theorem resolves_of_publicKeyAt {found : Option PublicKey}
    (h : key.publicKeyAt ctx index = .ok found) : key.Resolves ctx index := by
  rw [Resolves, valueAt_of_publicKeyAt h, h]

theorem childPublicKey_eq_ok_some_iff {k : ExtendedKey} {hardened : Bool} {found : PublicKey} :
    childPublicKey ctx k hardened index = .ok (some found) ↔ index < hardenedBase ∧
      ∃ derived, Steps ctx k index hardened derived ∧ derived.key.publicKey = found := by
  by_cases hindex : index < hardenedBase
  · rw [childPublicKey_of_lt hindex, Except.bind_eq_ok_iff, and_iff_right hindex]
    refine exists_congr fun derived => ?_
    have hnumber : derived.childNumber = ⟨index, hardened, hindex⟩ ↔
        derived.childNumber.index = index ∧ derived.childNumber.hardened = hardened :=
      ChildNumber.eq_iff
    rw [Steps, and_assoc, ← hnumber]
    refine and_congr_right fun _ => ?_
    simp
  · constructor
    · intro h
      exact absurd (lt_of_childPublicKey_eq_ok h) hindex
    · intro h
      exact absurd h.1 hindex

theorem childPublicKey_eq_ok_none {k : ExtendedKey} {hardened : Bool}
    (h : childPublicKey ctx k hardened index = .ok none) (text : String) :
    ctx.options.ignoreNonexistentIndex = false ∧
      descend ctx text k ⟨index, hardened⟩ = .error (.nonexistentIndex index hardened) := by
  have hindex := lt_of_childPublicKey_eq_ok h
  rw [childPublicKey_of_lt hindex] at h
  obtain ⟨derived, hderived, h⟩ := Except.bind_eq_ok_iff.mp h
  have hmissing : ¬(derived.childNumber = ⟨index, hardened, hindex⟩ ∨
      ctx.options.ignoreNonexistentIndex) := by simpa using h
  rw [not_or] at hmissing
  refine ⟨Bool.eq_false_iff.mpr hmissing.2, ?_⟩
  rw [descend_of_lt hindex, hderived]
  exact if_pos hmissing

/-- The key at an index is one key, which no wildcard ranges over. -/
theorem isRanged_instantiate {child : KeyExpr} (h : key.instantiate ctx index = .ok child) :
    child.isRanged = false := by
  obtain ⟨pair, hpair, h⟩ := Except.bind_eq_ok_iff.mp h
  cases h
  unfold pairAt at hpair
  split at hpair
  · obtain ⟨derived, -, hpair⟩ := Except.bind_eq_ok_iff.mp hpair
    cases hpair
    rfl
  · rename_i hfixed
    cases hpair
    unfold isRanged range?
    split
    · rename_i k hardened range hkey
      exact absurd hkey (hfixed k hardened range)
    · rfl

theorem publicKeyAt_of_instantiate {child : KeyExpr} (h : key.instantiate ctx index = .ok child) :
    key.publicKeyAt ctx index = .ok (some child.publicKey) := by
  obtain ⟨network, text, origin, pair⟩ := key
  obtain ⟨found, hpair, h⟩ := Except.bind_eq_ok_iff.mp h
  cases h
  unfold pairAt at hpair
  split at hpair
  · rename_i k hardened range hkey
    obtain ⟨derived, hderived, hpair⟩ := Except.bind_eq_ok_iff.mp hpair
    cases hpair
    cases hkey
    obtain ⟨hindex, child, hsteps, rfl⟩ := descend_eq_ok_iff.mp hderived
    exact childPublicKey_eq_ok_some_iff.mpr ⟨hindex, child, hsteps, rfl⟩
  · rename_i hfixed
    cases hpair
    unfold publicKeyAt
    split
    · rename_i k hardened range hkey
      exact absurd hkey (hfixed k hardened range)
    · rfl

theorem instantiate_of_publicKeyAt {found : PublicKey}
    (h : key.publicKeyAt ctx index = .ok (some found)) :
    ∃ child, key.instantiate ctx index = .ok child ∧ child.publicKey = found := by
  obtain ⟨network, text, origin, pair⟩ := key
  unfold publicKeyAt at h
  split at h
  · rename_i k hardened range hkey
    cases hkey
    obtain ⟨hindex, derived, hsteps, rfl⟩ := childPublicKey_eq_ok_some_iff.mp h
    have hchild : descend ctx (substituteIndex index text) k ⟨index, hardened⟩ = .ok derived.key :=
      descend_eq_ok_iff.mpr ⟨hindex, derived, hsteps, rfl⟩
    refine ⟨⟨network, substituteIndex index text, origin, .extended derived.key .itself⟩, ?_, rfl⟩
    rw [instantiate, pairAt, hchild]
    rfl
  · rename_i hfixed
    cases h
    refine ⟨⟨network, substituteIndex index text, origin, pair⟩, ?_, rfl⟩
    rw [instantiate, pairAt]
    · rfl
    · exact fun k hardened range hkey => hfixed k hardened range hkey

theorem instantiate_of_publicKeyAt_none (h : key.publicKeyAt ctx index = .ok none) :
    ctx.options.ignoreNonexistentIndex = false ∧
      ∃ hardened, key.instantiate ctx index = .error (.nonexistentIndex index hardened) := by
  obtain ⟨network, text, origin, pair⟩ := key
  unfold publicKeyAt at h
  split at h
  · rename_i k hardened range hkey
    cases hkey
    obtain ⟨hignore, hchild⟩ := childPublicKey_eq_ok_none h (substituteIndex index text)
    refine ⟨hignore, hardened, ?_⟩
    rw [instantiate, pairAt, hchild]
    rfl
  · cases h

theorem isRanged_ranged (range : KeyRange) (key : KeyExpr) :
    (key.ranged range).isRanged = key.isRanged := by
  obtain ⟨network, text, origin, pair⟩ := key
  unfold ranged withRange?
  split
  · rename_i k hardened old hpair
    cases hpair
    rfl
  · rfl

theorem publicKeys_ranged {range : KeyRange} (h : key.isRanged) :
    (key.ranged range).publicKeys ctx = range.indices.mapM (key.publicKeyAt ctx ·) := by
  obtain ⟨network, text, origin, pair⟩ := key
  unfold isRanged range? at h
  split at h
  · rename_i k hardened old hpair
    cases hpair
    rfl
  · cases h

section Fixed

variable (h : key.isRanged = false)
include h

theorem pair_of_isRanged_eq_false (k : ExtendedKey) (hardened : Bool) (range : KeyRange) :
    key.pair ≠ .extended k (.children hardened range) := by
  intro hpair
  rw [isRanged, range?, hpair] at h
  cases h

theorem ranged_of_isRanged_eq_false (range : KeyRange) : key.ranged range = key := by
  unfold ranged withRange?
  split
  · rename_i k hardened old hpair
    exact absurd hpair (pair_of_isRanged_eq_false h k hardened old)
  · rfl

theorem publicKeyAt_of_isRanged_eq_false :
    key.publicKeyAt ctx index = .ok (some key.publicKey) := by
  unfold publicKeyAt
  split
  · rename_i k hardened range hpair
    exact absurd hpair (pair_of_isRanged_eq_false h k hardened range)
  · rfl

theorem publicKeys_of_isRanged_eq_false : key.publicKeys ctx = .ok [some key.publicKey] := by
  unfold publicKeys
  split
  · rename_i k hardened range hpair
    exact absurd hpair (pair_of_isRanged_eq_false h k hardened range)
  · rfl

end Fixed

/-- All public keys over a range, or the only one. -/
def column (ctx : Context) (range : KeyRange) (key : KeyExpr) : List (Option PublicKey) :=
  if key.isRanged then range.indices.map (key.valueAt ctx ·) else [some key.publicKey]

theorem publicKeys_ranged_eq_ok_iff {range : KeyRange} {found : List (Option PublicKey)} :
    (key.ranged range).publicKeys ctx = .ok found ↔
      (∀ index ∈ range.indices, key.Resolves ctx index) ∧ found = key.column ctx range := by
  unfold column
  cases h : key.isRanged with
  | true =>
    rw [publicKeys_ranged h, if_pos rfl]
    exact mapM_eq_ok_map_iff fun index found hfound => valueAt_of_publicKeyAt hfound
  | false =>
    rw [ranged_of_isRanged_eq_false h, publicKeys_of_isRanged_eq_false h, if_neg (by decide),
      Except.ok.injEq, eq_comm]
    have hresolves : ∀ index ∈ range.indices, key.Resolves ctx index := fun index _ =>
      resolves_of_publicKeyAt (publicKeyAt_of_isRanged_eq_false h)
    exact (and_iff_right hresolves).symm

/-- A key expression at a position of the range is its key at the index there. -/
theorem keyAt_column {range : KeyRange} {position : Nat} (hposition : position < range.count) :
    KeySet.keyAt position (key.ranged range) (key.column ctx range) =
      key.valueAt ctx (range.start + position) := by
  rw [KeySet.keyAt, isRanged_ranged, column]
  cases h : key.isRanged with
  | true =>
    rw [if_pos rfl, if_pos rfl, List.getElem?_map, KeyRange.indices_eq,
      List.getElem?_range' hposition, Nat.one_mul]
    rfl
  | false =>
    rw [if_neg (by decide), if_neg (by decide),
      valueAt_of_publicKeyAt (publicKeyAt_of_isRanged_eq_false h)]
    rfl

end KeyExpr

end OutputDescriptor
