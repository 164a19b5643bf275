import OutputDescriptor.Proofs.Evaluation.RangeSetting
import OutputDescriptor.Proofs.Key.Bytes

/-! The order in which the keys of a sorted multisig call are written, which no payment depends
on. -/
namespace OutputDescriptor

theorem PublicKey.toBytes_injective : Function.Injective PublicKey.toBytes := by
  intro a b h
  have hread : ofBytes? a.toBytes = ofBytes? b.toBytes := congrArg ofBytes? h
  rw [ofBytes?_toBytes, ofBytes?_toBytes] at hread
  exact Option.some.inj hread

def KeySet.Sorted (keys : List PublicKey) : Prop := keys.Pairwise (·.toBytes ≤ ·.toBytes)

instance : DecidablePred KeySet.Sorted := fun keys =>
  inferInstanceAs (Decidable (keys.Pairwise (·.toBytes ≤ ·.toBytes)))

namespace KeySet

theorem sorted_sort (keys : List PublicKey) : Sorted (sort keys) := by
  have htrans (a b c : PublicKey) (hab : decide (a.toBytes ≤ b.toBytes))
      (hbc : decide (b.toBytes ≤ c.toBytes)) : decide (a.toBytes ≤ c.toBytes) := by
    rw [decide_eq_true_iff] at hab hbc ⊢
    exact List.le_trans hab hbc
  have htotal (a b : PublicKey) :
      (decide (a.toBytes ≤ b.toBytes) || decide (b.toBytes ≤ a.toBytes)) = true := by
    rw [Bool.or_eq_true, decide_eq_true_iff, decide_eq_true_iff]
    exact List.le_total a.toBytes b.toBytes
  exact (List.pairwise_mergeSort htrans htotal keys).imp of_decide_eq_true

/-- A list of keys has one sorted arrangement, since different keys have different bytes. -/
theorem eq_of_perm {keys keys' : List PublicKey} (h : keys.Perm keys') (hsorted : Sorted keys)
    (hsorted' : Sorted keys') : keys = keys' := by
  refine List.Perm.eq_of_pairwise (fun a b _ _ hab hba => ?_) hsorted hsorted' h
  exact PublicKey.toBytes_injective (List.le_antisymm hab hba)

theorem sort_eq_of_perm {keys keys' : List PublicKey} (h : keys.Perm keys') :
    sort keys = sort keys' := by
  have hkeys : (sort keys).Perm keys := arrange_perm true keys
  have hkeys' : (sort keys').Perm keys' := arrange_perm true keys'
  exact eq_of_perm (hkeys.trans (h.trans hkeys'.symm)) (sorted_sort keys) (sorted_sort keys')

theorem sort_eq_self {keys : List PublicKey} (h : Sorted keys) : sort keys = keys :=
  eq_of_perm (arrange_perm true keys) (sorted_sort keys) h

end KeySet

/-! ### Key sets -/

/-- What is related to the elements of a list can be permuted along with them. -/
theorem exists_zip_perm {α β : Type} {r : α → β → Prop} {xs ys : List α} {bs : List β}
    (h : xs.Perm ys) (hr : List.Forall₂ r xs bs) :
    ∃ cs, List.Forall₂ r ys cs ∧ (xs.zip bs).Perm (ys.zip cs) := by
  induction h generalizing bs with
  | nil => exact ⟨bs, hr, List.Perm.refl _⟩
  | cons x _ ih =>
    obtain ⟨b, rest, hb, hrest, rfl⟩ := List.forall₂_cons_left_iff.mp hr
    obtain ⟨cs, hcs, hperm⟩ := ih hrest
    exact ⟨b :: cs, .cons hb hcs, hperm.cons (x, b)⟩
  | swap x y zs =>
    obtain ⟨b, tail, hb, htail, rfl⟩ := List.forall₂_cons_left_iff.mp hr
    obtain ⟨c, rest, hc, hrest, rfl⟩ := List.forall₂_cons_left_iff.mp htail
    exact ⟨c :: b :: rest, .cons hc (.cons hb hrest), List.Perm.swap (x, c) (y, b) (zs.zip rest)⟩
  | trans _ _ ih ih' =>
    obtain ⟨cs, hcs, hperm⟩ := ih hr
    obtain ⟨ds, hds, hperm'⟩ := ih' hcs
    exact ⟨ds, hds, hperm.trans hperm'⟩

theorem KeySet.atPosition_of_perm {entries entries' : List (KeyExpr × List (Option PublicKey))}
    (h : entries.Perm entries') (position : Nat) {set : List PublicKey}
    (hset : atPosition true entries position = some set) :
    atPosition true entries' position = some set := by
  obtain ⟨found, hfound, rfl⟩ := Option.map_eq_some_iff.mp hset
  obtain ⟨found', hfound', hperm⟩ := List.perm_comp_forall₂ h.symm (mapM_eq_some_iff.mp hfound)
  refine Option.map_eq_some_iff.mpr ⟨found', mapM_eq_some_iff.mpr hfound', ?_⟩
  exact sort_eq_of_perm hperm

theorem KeySet.atPosition_eq_of_perm {entries entries' : List (KeyExpr × List (Option PublicKey))}
    (h : entries.Perm entries') (position : Nat) :
    atPosition true entries position = atPosition true entries' position := by
  apply Option.ext
  intro set
  exact ⟨atPosition_of_perm h position, atPosition_of_perm h.symm position⟩

section Keys

variable {ctx : Context} {keys keys' : List KeyExpr} (h : keys.Perm keys')
include h

theorem commonRange_of_perm {found : Option KeyRange} (hkeys : commonRange keys = .ok found) :
    commonRange keys' = .ok found := by
  rw [commonRange_eq_ok_iff] at hkeys ⊢
  intro range
  rw [← hkeys range]
  simp only [h.mem_iff]

/-- Keys are paired with what they stand for before they are sorted, so the pairs are permuted as
the keys are. -/
theorem KeySet.ofKeys_of_perm {sets : List (List PublicKey)}
    (hsets : ofKeys ctx true keys = .ok sets) : ofKeys ctx true keys' = .ok sets := by
  obtain ⟨range, hrange, hsets⟩ := Except.bind_eq_ok_iff.mp hsets
  obtain ⟨resolved, hresolved, hsets⟩ := Except.bind_eq_ok_iff.mp hsets
  obtain ⟨resolved', hresolved', hentries⟩ := exists_zip_perm h (mapM_eq_ok_iff.mp hresolved)
  have hpositions : atPosition true (keys.zip resolved) = atPosition true (keys'.zip resolved') :=
    funext fun position => atPosition_eq_of_perm hentries position
  rw [hpositions] at hsets
  refine Except.bind_eq_ok_iff.mpr ⟨range, commonRange_of_perm h hrange, ?_⟩
  exact Except.bind_eq_ok_iff.mpr ⟨resolved', mapM_eq_ok_iff.mpr hresolved', hsets⟩

theorem KeySet.ofKeys_of_fixed_perm (hfixed : ∀ key ∈ keys, key.isRanged = false)
    (hsorted : Sorted (keys'.map KeyExpr.publicKey)) :
    ofKeys ctx true keys = ofKeys ctx false keys' := by
  have hfixed' : ∀ key ∈ keys', key.isRanged = false := fun key hkey =>
    hfixed key (h.mem_iff.mpr hkey)
  have hsort : sort (keys.map KeyExpr.publicKey) = keys'.map KeyExpr.publicKey :=
    (sort_eq_of_perm (h.map KeyExpr.publicKey)).trans (sort_eq_self hsorted)
  rw [ofKeys_of_fixed hfixed, ofKeys_of_fixed hfixed']
  exact congrArg (fun set => Except.ok [set]) hsort

end Keys

/-! ### Payments -/

namespace ScriptExpr

/-- Both evaluations fail, or both succeed with the same payments. -/
def SamePayments (ctx : Context) (e e' : ScriptExpr) : Prop :=
  ∀ payments, e.payments ctx = .ok payments ↔ e'.payments ctx = .ok payments

/-- Expressions that have the given ones inside the same wrappers for the same networks, whatever
their texts say. -/
inductive SameWrapping (e e' : ScriptExpr) : ScriptExpr → ScriptExpr → Prop
  | bare : SameWrapping e e' e e'
  | wrapped {label label' : Label} (hnetwork : label.network = label'.network) (wrapper : Wrapper)
      {inner inner' : ScriptExpr} (h : SameWrapping e e' inner inner') :
      SameWrapping e e' (.wrapped label wrapper inner) (.wrapped label' wrapper inner')

section Wrapping

variable {ctx : Context} {e e' outer outer' : ScriptExpr} (h : SameWrapping e e' outer outer')
include h

theorem SameWrapping.samePayments (hsame : e.SamePayments ctx e') :
    outer.SamePayments ctx outer' := by
  induction h with
  | bare => exact hsame
  | @wrapped label label' hnetwork wrapper inner inner' _ ih =>
    intro payments
    rw [payments_wrapped, payments_wrapped, hnetwork, Except.bind_eq_ok_iff, Except.bind_eq_ok_iff]
    exact exists_congr fun found => and_congr_left fun _ => ih found

theorem SameWrapping.payments_eq (hsame : e.payments ctx = e'.payments ctx) :
    outer.payments ctx = outer'.payments ctx := by
  induction h with
  | bare => exact hsame
  | wrapped hnetwork wrapper _ ih => rw [payments_wrapped, payments_wrapped, hnetwork, ih]

end Wrapping

/-- A sorted multisig call pays the same for all orders of its keys, as the plain call on the sorted
keys. -/
theorem payments_sorted_perm (ctx : Context) (threshold : NumberExpr) (label label' : Label)
    {keys keys' : List KeyExpr} (hperm : keys.Perm keys') {outer outer' : ScriptExpr} :
    (SameWrapping (.multisig label true threshold keys) (.multisig label' true threshold keys')
        outer outer' → outer.SamePayments ctx outer') ∧
    ((∀ key ∈ keys, key.wildcard = .none) → KeySet.Sorted (keys'.map KeyExpr.publicKey) →
      SameWrapping (.multisig label true threshold keys) (.multisig label' false threshold keys')
        outer outer' → outer.payments ctx = outer'.payments ctx) := by
  constructor
  · intro hwrapping
    apply hwrapping.samePayments
    intro payments
    rw [payments_multisig, payments_multisig, Except.bind_eq_ok_iff, Except.bind_eq_ok_iff]
    refine exists_congr fun sets => and_congr_left fun _ => ?_
    exact ⟨KeySet.ofKeys_of_perm hperm, KeySet.ofKeys_of_perm hperm.symm⟩
  · intro hfixed hsorted hwrapping
    apply hwrapping.payments_eq
    have hkeys : ∀ key ∈ keys, key.isRanged = false := fun key hkey =>
      KeyExpr.wildcard_eq_none_iff.mp (hfixed key hkey)
    rw [payments_multisig, payments_multisig, KeySet.ofKeys_of_fixed_perm hperm hkeys hsorted]

/-- Two orders of a wildcard key and a fixed one, and two fixed keys in the wrong order. -/
theorem payments_sorted_perm_nested :
    let label : Label := ⟨.testnet, "", none⟩
    let opposite : Point := ⟨Point.generator.x, -Point.generator.y, by decide⟩
    let k : ExtendedKey := ⟨.test, 0, ⟨[0, 0, 0, 0], rfl⟩, ⟨0, false, by decide⟩,
      ⟨List.replicate 32 0, rfl⟩, .point opposite⟩
    let ranged : KeyExpr := ⟨.testnet, "", none, .extended k (.children false .standard)⟩
    let even : KeyExpr := ⟨.testnet, "", none, .publicOnly ⟨.generator, true⟩⟩
    let odd : KeyExpr := ⟨.testnet, "", none, .publicOnly ⟨opposite, true⟩⟩
    let call (sorted : Bool) (keys : List KeyExpr) : ScriptExpr :=
      .wrapped label .sh (.wrapped label .wsh
        (.multisig label sorted ⟨.testnet, "1", 1, by decide⟩ keys))
    (call true [ranged, even]).SamePayments {} (call true [even, ranged]) ∧
    ∃ payment, (call true [odd, even]).payments {} = .ok [payment] ∧
      (call false [even, odd]).payments {} = .ok [payment] := by
  intro label opposite k ranged even odd call
  have hpaid : (do
      let payments ← (call false [even, odd]).payments {}
      return payments.length : Except Error Nat) = .ok 1 := by
    decide +kernel
  obtain ⟨payments, hpayments, hpaid⟩ := Except.bind_eq_ok_iff.mp hpaid
  obtain ⟨payment, rfl⟩ := List.length_eq_one_iff.mp (Except.ok.inj hpaid)
  constructor
  · exact (payments_sorted_perm {} ⟨.testnet, "1", 1, by decide⟩ label label
      (List.Perm.swap even ranged [])).1 (.wrapped rfl .sh (.wrapped rfl .wsh .bare))
  · have hfixed : ∀ key ∈ [odd, even], key.wildcard = .none := by simp [odd, even, KeyExpr.wildcard]
    have hsame : (call true [odd, even]).payments {} = (call false [even, odd]).payments {} :=
      (payments_sorted_perm {} ⟨.testnet, "1", 1, by decide⟩ label label
        (List.Perm.swap even odd [])).2 hfixed (by decide)
        (.wrapped rfl .sh (.wrapped rfl .wsh .bare))
    exact ⟨payment, hsame.trans hpayments, hpayments⟩

end ScriptExpr

end OutputDescriptor
