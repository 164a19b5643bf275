import OutputDescriptor.Proofs.Evaluation.RangePayments

/-! What becomes of the payments of a range if children that do not exist are left out, or if the
next ones stand in for them. -/
namespace OutputDescriptor

/-- Of values that change exactly after the numbers with a property, one is kept for each of them,
and the last one. -/
theorem destutter_map_range'_succ {α : Type} [DecidableEq α] {P : Nat → Bool} {f : Nat → α}
    {start count : Nat} (h : ∀ i ∈ List.range' start count, P i ↔ f i ≠ f (i + 1)) :
    ((List.range' start (count + 1)).map f).destutter (· ≠ ·) =
      ((List.range' start count).filter P).map f ++ [f (start + count)] := by
  induction count generalizing start with
  | zero => rfl
  | succ count ih =>
    rw [List.range'_succ, List.forall_mem_cons] at h
    have hrest := ih h.2
    have hlast : start + 1 + count = start + (count + 1) := by omega
    rw [List.range'_succ, List.map_cons, List.destutter_cons', hlast] at hrest
    rw [List.range'_succ, List.range'_succ, List.map_cons, List.map_cons, List.destutter_cons_cons]
    by_cases hsame : f start = f (start + 1)
    · have hnot : ¬P start := fun hP => h.1.mp hP hsame
      rw [if_neg (not_not.mpr hsame), hsame, hrest, List.range'_succ, List.filter_cons_of_neg hnot]
    · have hP : P start := h.1.mpr hsame
      rw [if_pos hsame, hrest, List.range'_succ, List.filter_cons_of_pos hP, List.map_cons,
        List.cons_append]

namespace KeyScheme

variable {scheme : KeyScheme} {k : ExtendedKey} {hardened : Bool} {index next : Nat}

/-- Whether the child that is derived at an index is the one that was asked for. -/
def hasChild (scheme : KeyScheme) (k : ExtendedKey) (hardened : Bool) (index : Nat) : Bool :=
  match scheme.deriveChild k index hardened with
  | .ok child => child.childNumber.index = index && child.childNumber.hardened = hardened
  | .error _ => false

/-- The first index from the given one on that has a child. -/
structure IsNext (scheme : KeyScheme) (k : ExtendedKey) (hardened : Bool) (index next : Nat) :
    Prop where
  le : index ≤ next
  hasChild : scheme.hasChild k hardened next
  skipped : ∀ i, index ≤ i → i < next → ¬scheme.hasChild k hardened i

/-- Each index derives the next child that exists, and neighbours among those have different keys.
-/
structure Skips (scheme : KeyScheme) (k : ExtendedKey) (hardened : Bool) (range : KeyRange) :
    Prop where
  replaced : ∀ index ∈ range.indices, ∃ next, scheme.IsNext k hardened index next ∧
    scheme.deriveChild k index hardened = scheme.deriveChild k next hardened
  distinct : ∀ index ∈ range.indices, ∀ next child child',
    scheme.hasChild k hardened index → scheme.IsNext k hardened (index + 1) next →
    scheme.deriveChild k index hardened = .ok child →
    scheme.deriveChild k next hardened = .ok child' → child.key.publicKey ≠ child'.key.publicKey

theorem exists_child_of_hasChild (h : scheme.hasChild k hardened index) :
    ∃ child, scheme.deriveChild k index hardened = .ok child ∧
      child.childNumber.index = index ∧ child.childNumber.hardened = hardened := by
  unfold hasChild at h
  split at h
  · rename_i child hchild
    rw [Bool.and_eq_true, decide_eq_true_iff, decide_eq_true_iff] at h
    exact ⟨child, hchild, h⟩
  · cases h

theorem lt_of_hasChild (h : scheme.hasChild k hardened index) : index < hardenedBase := by
  obtain ⟨child, -, rfl, -⟩ := exists_child_of_hasChild h
  exact child.childNumber.index_lt

theorem IsNext.unique {next' : Nat} (h : scheme.IsNext k hardened index next)
    (h' : scheme.IsNext k hardened index next') : next = next' := by
  rcases Nat.lt_trichotomy next next' with hlt | heq | hlt
  · exact absurd h.hasChild (h'.skipped next h.le hlt)
  · exact heq
  · exact absurd h'.hasChild (h.skipped next' h'.le hlt)

theorem IsNext.succ (h : scheme.IsNext k hardened index next)
    (hmissing : ¬scheme.hasChild k hardened index) : scheme.IsNext k hardened (index + 1) next := by
  have hne : index ≠ next := by
    rintro rfl
    exact hmissing h.hasChild
  have hle := h.le
  exact ⟨by omega, h.hasChild, fun i hi => h.skipped i (by omega)⟩

def derivedKey (scheme : KeyScheme) (k : ExtendedKey) (hardened : Bool) (index : Nat) : PublicKey :=
  match scheme.deriveChild k index hardened with
  | .ok child => child.key.publicKey
  | .error _ => k.publicKey

theorem derivedKey_of_deriveChild {child : DerivedChild}
    (h : scheme.deriveChild k index hardened = .ok child) :
    scheme.derivedKey k hardened index = child.key.publicKey := by
  rw [derivedKey, h]

theorem derivedKey_congr
    (h : scheme.deriveChild k index hardened = scheme.deriveChild k next hardened) :
    scheme.derivedKey k hardened index = scheme.derivedKey k hardened next := by
  rw [derivedKey, derivedKey, h]

namespace Skips

variable {range : KeyRange} (h : scheme.Skips k hardened range)
include h

/-- Between two indices of the range the key changes exactly if the first one has a child. -/
theorem hasChild_iff (hindex : index ∈ range.indices) (hsucc : index + 1 ∈ range.indices) :
    scheme.hasChild k hardened index ↔
      scheme.derivedKey k hardened index ≠ scheme.derivedKey k hardened (index + 1) := by
  obtain ⟨next, hnext, hderived⟩ := h.replaced (index + 1) hsucc
  constructor
  · intro hchild
    obtain ⟨child, hok, -⟩ := exists_child_of_hasChild hchild
    obtain ⟨child', hok', -⟩ := exists_child_of_hasChild hnext.hasChild
    rw [derivedKey_congr hderived, derivedKey_of_deriveChild hok, derivedKey_of_deriveChild hok']
    exact h.distinct index hindex next child child' hchild hnext hok hok'
  · intro hne
    by_contra hmissing
    obtain ⟨standIn, hstandIn, hsame⟩ := h.replaced index hindex
    obtain rfl := (hstandIn.succ hmissing).unique hnext
    exact hne (derivedKey_congr (hsame.trans hderived.symm))

end Skips

end KeyScheme

theorem KeySet.arrange_perm (sorted : Bool) (keys : List PublicKey) :
    (arrange sorted keys).Perm keys := by
  unfold arrange sort
  split
  · exact List.mergeSort_perm keys _
  · exact List.Perm.refl keys

theorem KeyExpr.exists_pair_of_range? {key : KeyExpr} {range : KeyRange}
    (h : key.range? = some range) :
    ∃ k hardened, key.pair = .extended k (.children hardened range) := by
  unfold range? at h
  split at h
  · rename_i k hardened found hpair
    cases h
    exact ⟨k, hardened, hpair⟩
  · cases h

/-- The key that an expression stands for if its wildcard stands for the given child. -/
def KeyExpr.given (child : PublicKey) (key : KeyExpr) : PublicKey :=
  if key.isRanged then child else key.publicKey

namespace ScriptExpr

def wildcardKeys : ScriptExpr → List KeyExpr
  | .wrapped _ _ inner => inner.wildcardKeys
  | script => script.keys.filter KeyExpr.isRanged

/-- The set of keys that is paid to if the wildcard keys stand for the given one. -/
def keysGiven (child : PublicKey) : ScriptExpr → List PublicKey
  | .wrapped _ _ inner => inner.keysGiven child
  | .keyed _ _ _ => [child]
  | .multisig _ sorted _ keys => KeySet.arrange sorted (keys.map (·.given child))
  | .addr .. | .raw .. => []

section OneWildcard

variable {ctx : Context} {key : KeyExpr}

section Keys

variable {keys : List KeyExpr} (h : keys.filter KeyExpr.isRanged = [key])
include h

theorem wildcard_mem : key ∈ keys ∧ key.isRanged := by
  rw [← List.mem_filter, h]
  exact List.mem_singleton_self key

theorem wildcard_or_fixed : ∀ other ∈ keys, other = key ∨ other.isRanged = false := by
  intro other hother
  cases hranged : other.isRanged with
  | false => exact .inr rfl
  | true =>
    have hmem := List.mem_filter.mpr ⟨hother, hranged⟩
    rw [h] at hmem
    exact .inl (List.mem_singleton.mp hmem)

theorem mapM_valueAt_of_wildcard (index : Nat) : keys.mapM (KeyExpr.valueAt ctx index) =
    (key.valueAt ctx index).map fun child => keys.map (·.given child) := by
  cases hvalue : key.valueAt ctx index with
  | none =>
    cases hmap : keys.mapM (KeyExpr.valueAt ctx index) with
    | none => rfl
    | some found =>
      obtain ⟨child, -, hchild⟩ :=
        exists_of_forall₂ (mapM_eq_some_iff.mp hmap) (wildcard_mem h).1
      rw [hvalue] at hchild
      cases hchild
  | some child =>
    refine mapM_eq_some_iff.mpr ?_
    rw [List.forall₂_map_right_iff, List.forall₂_same]
    intro other hother
    rcases wildcard_or_fixed h other hother with rfl | hfixed
    · rw [hvalue, KeyExpr.given, if_pos (wildcard_mem h).2]
    · rw [KeyExpr.valueAt_of_publicKeyAt (KeyExpr.publicKeyAt_of_isRanged_eq_false hfixed),
        KeyExpr.given, if_neg (Bool.eq_false_iff.mp hfixed)]

theorem given_injective {a b : PublicKey}
    (hperm : (keys.map (·.given a)).Perm (keys.map (·.given b))) : a = b := by
  obtain ⟨before, after, rfl, hbefore, hranged, hafter⟩ := List.filter_eq_cons_iff.mp h
  have hafter := List.filter_eq_nil_iff.mp hafter
  have hfixed (child : PublicKey) (others : List KeyExpr)
      (h : ∀ other ∈ others, ¬other.isRanged) :
      others.map (·.given child) = others.map KeyExpr.publicKey :=
    List.map_congr_left fun other hother => if_neg (h other hother)
  have hgiven (child : PublicKey) : key.given child = child := if_pos hranged
  rw [List.map_append, List.map_append, List.map_cons, List.map_cons, hfixed a before hbefore,
    hfixed b before hbefore, hfixed a after hafter, hfixed b after hafter, hgiven, hgiven,
    List.perm_append_left_iff] at hperm
  have hsingle : [a].Perm [b] :=
    (List.perm_append_right_iff (after.map KeyExpr.publicKey)).mp hperm
  exact List.head_eq_of_cons_eq (List.perm_singleton.mp hsingle)

end Keys

variable {e : ScriptExpr} (h : e.wildcardKeys = [key])
include h

theorem isRanged_of_wildcardKeys : e.isRanged := by
  induction e with
  | wrapped label w inner ih => exact ih h
  | _ => exact List.any_eq_true.mpr ⟨key, wildcard_mem h⟩

theorem withRange_of_wildcardKeys {range : KeyRange} (hrange : key.range? = some range) :
    e.withRange range = e := by
  have hranged : key.ranged range = key := by
    obtain ⟨k, hardened, hpair⟩ := KeyExpr.exists_pair_of_range? hrange
    obtain ⟨network, text, origin, pair⟩ := key
    cases hpair
    rfl
  have hall {keys : List KeyExpr} (h : keys.filter KeyExpr.isRanged = [key]) :
      ∀ other ∈ keys, other.ranged range = other := by
    intro other hother
    rcases wildcard_or_fixed h other hother with rfl | hfixed
    · exact hranged
    · exact KeyExpr.ranged_of_isRanged_eq_false hfixed range
  induction e with
  | wrapped label w inner ih => rw [withRange, ih h]
  | keyed label form other =>
    rw [withRange]
    exact congrArg (keyed label form) (hall h other List.mem_cons_self)
  | multisig label sorted threshold keys =>
    rw [withRange]
    exact congrArg (multisig label sorted threshold)
      ((List.map_congr_left (hall h)).trans (List.map_id keys))
  | addr | raw => rfl

theorem resolves_of_wildcardKeys {index : Nat} (hkey : key.Resolves ctx index) :
    e.Resolves ctx index := by
  induction e with
  | wrapped label w inner ih => exact ih h
  | _ =>
    intro other hother
    rcases wildcard_or_fixed h other hother with rfl | hfixed
    · exact hkey
    · exact KeyExpr.resolves_of_publicKeyAt (KeyExpr.publicKeyAt_of_isRanged_eq_false hfixed)

theorem keysAt_of_wildcardKeys (index : Nat) :
    e.keysAt ctx index = (key.valueAt ctx index).map (e.keysGiven ·) := by
  induction e with
  | wrapped label w inner ih => exact ih h
  | keyed label form other =>
    have hother : other = key := by
      have := (wildcard_mem h).1
      exact (List.mem_singleton.mp this).symm
    rw [keysAt, hother]
    rfl
  | multisig label sorted threshold keys =>
    have h : keys.filter KeyExpr.isRanged = [key] := h
    rw [keysAt, KeySet.at?, mapM_valueAt_of_wildcard h, Option.map_map]
    rfl
  | addr | raw => cases h

/-- The child is known from the set of keys. -/
theorem keysGiven_injective {a b : PublicKey} (hkeys : e.keysGiven a = e.keysGiven b) : a = b := by
  induction e with
  | wrapped label w inner ih => exact ih h hkeys
  | keyed label form other => exact List.head_eq_of_cons_eq hkeys
  | multisig label sorted threshold keys =>
    -- Sorting may move the child to another place, so the two sets are compared up to order.
    have hperm := (KeySet.arrange_perm sorted _).symm.trans
      ((List.Perm.of_eq hkeys).trans (KeySet.arrange_perm sorted _))
    exact given_injective h hperm
  | addr | raw => cases h

end OneWildcard

/-- An expression makes one payment to a set of keys. -/
theorem paysTo_unique {e : ScriptExpr} {keys : List PublicKey} {payment payment' : Payment}
    (h : e.PaysTo keys payment) (h' : e.PaysTo keys payment') : payment = payment' := by
  induction e generalizing payment payment' with
  | wrapped label w inner ih =>
    obtain ⟨wrapped, hinner, hwrap⟩ := h
    obtain ⟨wrapped', hinner', hwrap'⟩ := h'
    rw [ih hinner hinner', hwrap'] at hwrap
    exact (Except.ok.inj hwrap).symm
  | keyed label form key =>
    obtain ⟨found, rfl, hpays⟩ := h
    obtain ⟨found', hfound, hpays'⟩ := h'
    obtain rfl := List.head_eq_of_cons_eq hfound
    cases form with
    | pk | pkh => exact hpays.symm.trans hpays'
    | wpkh => exact Except.ok.inj (hpays.symm.trans hpays')
    | combo => exact absurd hpays id
  | multisig label sorted threshold others =>
    exact Except.ok.inj ((show _ = _ from h).symm.trans h')
  | addr | raw => exact absurd h id

/-! ### Both policies -/

section Policies

variable {scheme : KeyScheme} {k : ExtendedKey} {hardened : Bool} {range : KeyRange}
  {key : KeyExpr} (hpair : key.pair = .extended k (.children hardened range))
include hpair

theorem publicKeyAt_policy {index : Nat} {child : DerivedChild} (hindex : index < hardenedBase)
    (hchild : scheme.deriveChild k index hardened = .ok child) (ignore : Bool) :
    key.publicKeyAt ⟨⟨ignore⟩, scheme⟩ index =
      .ok (if scheme.hasChild k hardened index ∨ ignore then
        some (scheme.derivedKey k hardened index) else none) := by
  have hfound : child.childNumber = ⟨index, hardened, hindex⟩ ↔
      scheme.hasChild k hardened index := by
    rw [ChildNumber.eq_iff, KeyScheme.hasChild, hchild, Bool.and_eq_true, decide_eq_true_iff,
      decide_eq_true_iff]
  rw [KeyExpr.publicKeyAt, hpair, KeyScheme.derivedKey_of_deriveChild hchild]
  simp only [KeyExpr.childPublicKey_of_lt hindex, hchild, Except.ok_bind, hfound]

variable {e : ScriptExpr} (hkeys : e.wildcardKeys = [key])
include hkeys

/-- What is paid to at an index, if its child exists or another one stands in for it. -/
theorem keysAt_policy {index : Nat} {child : DerivedChild} (hindex : index < hardenedBase)
    (hchild : scheme.deriveChild k index hardened = .ok child) (ignore : Bool) :
    e.Resolves ⟨⟨ignore⟩, scheme⟩ index ∧ e.keysAt ⟨⟨ignore⟩, scheme⟩ index =
      if scheme.hasChild k hardened index ∨ ignore then
        some (e.keysGiven (scheme.derivedKey k hardened index)) else none := by
  have hvalue := publicKeyAt_policy hpair hindex hchild ignore
  refine ⟨resolves_of_wildcardKeys hkeys (KeyExpr.resolves_of_publicKeyAt hvalue), ?_⟩
  rw [keysAt_of_wildcardKeys hkeys, KeyExpr.valueAt_of_publicKeyAt hvalue]
  split <;> rfl

variable (hpays : e.PaysKeys)
include hpays

/-- The payment at one index that has a child is the same under both policies. -/
theorem payments_single_eq_ok {index : Nat} {single : KeyRange} {payment : Payment}
    (hchild : scheme.hasChild k hardened index) (hstart : single.start = index)
    (hcount : single.count = 1)
    (hpaid : e.PaysTo (e.keysGiven (scheme.derivedKey k hardened index)) payment) (ignore : Bool) :
    (e.withRange single).payments ⟨⟨ignore⟩, scheme⟩ = .ok [payment] := by
  obtain ⟨child, hderived, -⟩ := KeyScheme.exists_child_of_hasChild hchild
  obtain ⟨hresolves, hkeysAt⟩ :=
    keysAt_policy hpair hkeys (KeyScheme.lt_of_hasChild hchild) hderived ignore
  rw [if_pos (.inl hchild)] at hkeysAt
  have hindices : single.indices = [index] := by
    rw [KeyRange.indices_eq, hstart, hcount]
    rfl
  refine (payments_eq_ok_iff (paysKeys_withRange hpays)).mpr ⟨_,
    (keySets_withRange_eq_ok_iff hpays (isRanged_of_wildcardKeys hkeys)).mpr ⟨?_, rfl⟩, ?_⟩
  · rw [hindices]
    exact List.forall_mem_singleton.mpr hresolves
  · rw [hindices, List.map_singleton, hkeysAt, Context.present_singleton, paysTo_withRange]
    exact .cons hpaid .nil

variable (hskips : scheme.Skips k hardened range)
include hskips

theorem keySets_policy {ignore : Bool} {sets : List (List PublicKey)}
    (h : e.keySets ⟨⟨ignore⟩, scheme⟩ = .ok sets) :
    sets = Context.present ⟨⟨ignore⟩, scheme⟩ (range.indices.map fun index =>
      if scheme.hasChild k hardened index ∨ ignore then
        some (e.keysGiven (scheme.derivedKey k hardened index)) else none) := by
  have hrange : key.range? = some range := by rw [KeyExpr.range?, hpair]
  rw [← withRange_of_wildcardKeys hkeys hrange,
    keySets_withRange_eq_ok_iff hpays (isRanged_of_wildcardKeys hkeys)] at h
  rw [h.2]
  congr 1
  refine List.map_congr_left fun index hindex => ?_
  obtain ⟨next, hnext, hsame⟩ := hskips.replaced index hindex
  obtain ⟨child, hchild, -⟩ := KeyScheme.exists_child_of_hasChild hnext.hasChild
  have hlt := KeyRange.lt_hardenedBase_of_mem hindex
  exact (keysAt_policy hpair hkeys hlt (hsame.trans hchild) ignore).2

/-- If absent children are left out, there is a set for each index that has a child. -/
theorem keySets_strict {sets : List (List PublicKey)}
    (h : e.keySets ⟨⟨false⟩, scheme⟩ = .ok sets) :
    sets = (range.indices.filter (scheme.hasChild k hardened)).map fun index =>
      e.keysGiven (scheme.derivedKey k hardened index) := by
  rw [keySets_policy hpair hkeys hpays hskips h, Context.present,
    if_neg Bool.false_ne_true, List.filterMap_map, ← List.filterMap_eq_map,
    ← List.filterMap_eq_filter, List.filterMap_filterMap]
  refine List.filterMap_congr fun index _ => ?_
  cases hchild : scheme.hasChild k hardened index <;> simp [Option.guard, hchild]

/-- If others stand in for absent children, neighbours are merged. -/
theorem keySets_ignoring {sets : List (List PublicKey)}
    (h : e.keySets ⟨⟨true⟩, scheme⟩ = .ok sets) :
    sets = (range.indices.map fun index =>
      e.keysGiven (scheme.derivedKey k hardened index)).destutter (· ≠ ·) := by
  rw [keySets_policy hpair hkeys hpays hskips h, Context.present, if_pos rfl,
    eraseReps_eq_destutter, List.filterMap_map, ← List.filterMap_eq_map]
  congr 1
  refine List.filterMap_congr fun index _ => ?_
  simp

/-- The sets under the two policies differ in the last one at most. -/
theorem keySets_ignoring_eq {strict ignoring : List (List PublicKey)}
    (hstrict : e.keySets ⟨⟨false⟩, scheme⟩ = .ok strict)
    (hignoring : e.keySets ⟨⟨true⟩, scheme⟩ = .ok ignoring) :
    ignoring = strict ++ if scheme.hasChild k hardened (range.stop - 1) then [] else
      [e.keysGiven (scheme.derivedKey k hardened (range.stop - 1))] := by
  rw [keySets_strict hpair hkeys hpays hskips hstrict,
    keySets_ignoring hpair hkeys hpays hskips hignoring]
  obtain ⟨count, hcount⟩ := Nat.exists_eq_succ_of_ne_zero range.count_pos.ne'
  have hlast : range.stop - 1 = range.start + count := by
    rw [KeyRange.stop, hcount]
    rfl
  have hchanges : ∀ i ∈ List.range' range.start count, scheme.hasChild k hardened i ↔
      e.keysGiven (scheme.derivedKey k hardened i) ≠
        e.keysGiven (scheme.derivedKey k hardened (i + 1)) := by
    intro i hi
    have hbounds := List.mem_range'_1.mp hi
    rw [hskips.hasChild_iff (KeyRange.mem_indices.mpr (by omega))
      (KeyRange.mem_indices.mpr (by omega))]
    exact not_congr ⟨congrArg (e.keysGiven ·), keysGiven_injective hkeys⟩
  rw [KeyRange.indices_eq, hcount, destutter_map_range'_succ hchanges, List.range'_1_concat,
    List.filter_append, List.map_append, List.append_assoc, hlast]
  congr 1
  cases hchild : scheme.hasChild k hardened (range.start + count) <;> simp [hchild]

end Policies

/-- Both policies give the same payments, except for that of a child beyond the range if the last
index has none. -/
theorem payments_ignoring {P : KeyExpr → Prop} {e : ScriptExpr} (hbuilt : (Expr.script e).Built P)
    (htype : e.type ≠ .keyed .combo) {key : KeyExpr} (hkeys : e.wildcardKeys = [key])
    {k : ExtendedKey} {hardened : Bool} {range : KeyRange}
    (hpair : key.pair = .extended k (.children hardened range)) {scheme : KeyScheme}
    (hskips : scheme.Skips k hardened range) {strict ignoring : List Payment}
    (hstrict : e.payments ⟨⟨false⟩, scheme⟩ = .ok strict)
    (hignoring : e.payments ⟨⟨true⟩, scheme⟩ = .ok ignoring) :
    (scheme.hasChild k hardened (range.stop - 1) → ignoring = strict) ∧
    (¬scheme.hasChild k hardened (range.stop - 1) →
      ∃ (next : Nat) (single : KeyRange) (payment : Payment),
        scheme.IsNext k hardened range.stop next ∧ single.start = next ∧ single.count = 1 ∧
        (∀ ignore, (e.withRange single).payments ⟨⟨ignore⟩, scheme⟩ = .ok [payment]) ∧
        ignoring = strict ++ [payment]) := by
  have hpays : e.PaysKeys := paysKeys_of_built hbuilt (isRanged_of_wildcardKeys hkeys) htype
  obtain ⟨sets, hsets, hpaid⟩ := (payments_eq_ok_iff hpays).mp hstrict
  obtain ⟨sets', hsets', hpaid'⟩ := (payments_eq_ok_iff hpays).mp hignoring
  have hsame := keySets_ignoring_eq hpair hkeys hpays hskips hsets hsets'
  have hunique : Relator.RightUnique (List.Forall₂ e.PaysTo) :=
    Relator.RightUnique.forall₂ fun _ _ _ => paysTo_unique
  constructor
  · intro hlast
    rw [hsame, if_pos hlast, List.append_nil] at hpaid'
    exact hunique hpaid' hpaid
  · intro hlast
    rw [hsame, if_neg hlast] at hpaid'
    have hfront := (List.forall₂_take_append _ _ _ hpaid'.flip).flip
    have hback := (List.forall₂_drop_append _ _ _ hpaid'.flip).flip
    obtain ⟨payment, rest, hpayment, hnil, hdrop⟩ := List.forall₂_cons_left_iff.mp hback
    obtain rfl := List.forall₂_nil_left_iff.mp hnil
    -- The child that stands in for the last one of the range is the first one beyond it.
    have hpos := range.count_pos
    have hmem : range.stop - 1 ∈ range.indices := by
      rw [KeyRange.mem_indices, KeyRange.stop]
      omega
    have hstop : range.stop - 1 + 1 = range.stop := by
      rw [KeyRange.stop]
      omega
    obtain ⟨next, hnext, hderived⟩ := hskips.replaced _ hmem
    have hbeyond := hnext.succ hlast
    rw [hstop] at hbeyond
    rw [KeyScheme.derivedKey_congr hderived] at hpayment
    let single : KeyRange := ⟨next, 1, Nat.one_pos, KeyScheme.lt_of_hasChild hnext.hasChild⟩
    refine ⟨next, single, payment, hbeyond, rfl, rfl, fun ignore => ?_, ?_⟩
    · exact payments_single_eq_ok hpair hkeys hpays hnext.hasChild rfl rfl hpayment ignore
    · rw [← List.take_append_drop sets.length ignoring, hdrop, hunique hfront hpaid]

end ScriptExpr

/-- A scheme in which children with an odd index do not exist, and neighbours of the others have one
of two keys. -/
def KeyScheme.sparse : KeyScheme :=
  { standard with
    deriveChild := fun key index hardened => do
      let even := index + index % 2
      let number ← ChildNumber.ofIndex even hardened
      return ⟨if even % 4 = 0 then key else { key with material := .point .generator }, number⟩ }

namespace KeyScheme

theorem sparse_deriveChild {k : ExtendedKey} {hardened : Bool} {index : Nat}
    (h : index + index % 2 < hardenedBase) : sparse.deriveChild k index hardened =
      .ok ⟨if (index + index % 2) % 4 = 0 then k else { k with material := .point .generator },
        ⟨index + index % 2, hardened, h⟩⟩ := by
  change (ChildNumber.ofIndex (index + index % 2) hardened >>= _) = _
  rw [ChildNumber.ofIndex_of_lt h]
  rfl

theorem sparse_hasChild_iff {k : ExtendedKey} {hardened : Bool} {index : Nat} :
    sparse.hasChild k hardened index ↔ index % 2 = 0 ∧ index < hardenedBase := by
  by_cases h : index + index % 2 < hardenedBase
  · rw [hasChild, sparse_deriveChild h, Bool.and_eq_true, decide_eq_true_iff, decide_eq_true_iff]
    change index + index % 2 = index ∧ hardened = hardened ↔ _
    rw [and_iff_left rfl]
    omega
  · constructor
    · intro hchild
      obtain ⟨child, hok, -⟩ := exists_child_of_hasChild hchild
      obtain ⟨number, hnumber, -⟩ := Except.bind_eq_ok_iff.mp hok
      obtain ⟨hindex, -⟩ := ChildNumber.ofIndex_eq_ok_iff.mp hnumber
      exact absurd (hindex ▸ number.index_lt) h
    · rintro ⟨heven, hindex⟩
      omega

theorem sparse_isNext {k : ExtendedKey} {hardened : Bool} {index : Nat}
    (h : index + index % 2 < hardenedBase) :
    sparse.IsNext k hardened index (index + index % 2) := by
  refine ⟨Nat.le_add_right _ _, sparse_hasChild_iff.mpr ⟨by omega, h⟩, fun i hi hlt hchild => ?_⟩
  have := (sparse_hasChild_iff.mp hchild).1
  omega

theorem sparse_skips {k : ExtendedKey} {hardened : Bool} {range : KeyRange}
    (hk : k.publicKey ≠ ⟨.generator, true⟩) (hrange : range.stop < hardenedBase) :
    sparse.Skips k hardened range where
  replaced := by
    intro index hindex
    have hindex := KeyRange.mem_indices.mp hindex
    have hlt : index + index % 2 < hardenedBase := by omega
    refine ⟨_, sparse_isNext hlt, ?_⟩
    have heven : index + index % 2 + (index + index % 2) % 2 = index + index % 2 := by omega
    rw [sparse_deriveChild hlt, sparse_deriveChild (heven.symm ▸ hlt)]
    simp only [heven]
  distinct := by
    intro index hindex next child child' hchild hnext hderived hderived'
    have heven := sparse_hasChild_iff.mp hchild
    have hbound := sparse_hasChild_iff.mp hnext.hasChild
    have hle := hnext.le
    have hsucc : index + 1 + (index + 1) % 2 = index + 2 := by omega
    have hlt : index + 1 + (index + 1) % 2 < hardenedBase := by omega
    obtain rfl : next = index + 2 := (hnext.unique (sparse_isNext hlt)).trans hsucc
    rw [sparse_deriveChild (by omega)] at hderived hderived'
    cases hderived
    cases hderived'
    by_cases hfour : (index + index % 2) % 4 = 0
    · rw [if_pos hfour, if_neg (by omega)]
      exact hk
    · rw [if_neg hfour, if_pos (by omega)]
      exact hk.symm

end KeyScheme

/-- The last index of the range has no child, and the key of the next one adds a payment. -/
theorem ScriptExpr.payments_ignoring_sparse :
    let range : KeyRange := ⟨0, 2, by decide, by decide⟩
    let k : ExtendedKey := ⟨.test, 0, ⟨[0, 0, 0, 0], rfl⟩, ⟨0, false, by decide⟩,
      ⟨List.replicate 32 0, rfl⟩, .point ⟨Point.generator.x, -Point.generator.y, by decide⟩⟩
    let key : KeyExpr := ⟨.testnet, "", none, .extended k (.children false range)⟩
    let fixed : KeyExpr := ⟨.testnet, "", none, .publicOnly ⟨.generator, true⟩⟩
    ∃ e strict ignoring payment,
      ofChildren ⟨.testnet, "", none⟩ (.multisig false)
        [.number ⟨.testnet, "1", 1, by decide⟩, .key key, .key fixed] = .ok e ∧
      e.payments ⟨⟨false⟩, .sparse⟩ = .ok strict ∧ strict.length = 1 ∧
      e.payments ⟨⟨true⟩, .sparse⟩ = .ok ignoring ∧ ignoring = strict ++ [payment] := by
  intro range k key fixed
  let e : ScriptExpr := .multisig ⟨.testnet, "", none⟩ false ⟨.testnet, "1", 1, by decide⟩
    [key, fixed]
  have hbuild : ofChildren ⟨.testnet, "", none⟩ (.multisig false)
      [.number ⟨.testnet, "1", 1, by decide⟩, .key key, .key fixed] = .ok e := rfl
  have hpaid : (do
      let strict ← e.payments ⟨⟨false⟩, .sparse⟩
      let ignoring ← e.payments ⟨⟨true⟩, .sparse⟩
      return (strict.length, ignoring.length) : Except Error (Nat × Nat)) = .ok (1, 2) := by
    decide +kernel
  obtain ⟨strict, hstrict, hpaid⟩ := Except.bind_eq_ok_iff.mp hpaid
  obtain ⟨ignoring, hignoring, hpaid⟩ := Except.bind_eq_ok_iff.mp hpaid
  have hlength : strict.length = 1 := congrArg Prod.fst (Except.ok.inj hpaid)
  have hbuilt : (Expr.script e).Built fun _ => True := by
    refine built_of_ofChildren hbuild ?_
    rw [List.forall_mem_cons, List.forall_mem_cons, List.forall_mem_singleton]
    exact ⟨.number _, .key trivial, .key trivial⟩
  have hskips : KeyScheme.sparse.Skips k false range :=
    KeyScheme.sparse_skips (by decide) (by decide)
  have hlast : ¬KeyScheme.sparse.hasChild k false (range.stop - 1) := by
    rw [KeyScheme.sparse_hasChild_iff]
    decide
  obtain ⟨-, -, payment, -, -, -, -, hadded⟩ :=
    (payments_ignoring hbuilt (by simp [e, type]) rfl rfl hskips hstrict hignoring).2 hlast
  exact ⟨e, strict, ignoring, payment, hbuild, hstrict, hlength, hignoring, hadded⟩

end OutputDescriptor
