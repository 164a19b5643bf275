import OutputDescriptor.Proofs.Evaluation.DerivedCalls
import OutputDescriptor.Proofs.Evaluation.Presence

/-! The payments of an expression as what its key sets pay to. -/
namespace OutputDescriptor

theorem forall₂_comp_iff {α β γ : Type} {r : α → β → Prop} {s : β → γ → Prop} {xs : List α}
    {zs : List γ} : List.Forall₂ (fun x z => ∃ y, r x y ∧ s y z) xs zs ↔
      ∃ ys, List.Forall₂ r xs ys ∧ List.Forall₂ s ys zs := by
  constructor
  · intro h
    induction h with
    | nil => exact ⟨[], .nil, .nil⟩
    | cons hhead _ ih =>
      obtain ⟨y, hxy, hyz⟩ := hhead
      obtain ⟨ys, hxs, hzs⟩ := ih
      exact ⟨y :: ys, .cons hxy hxs, .cons hyz hzs⟩
  · rintro ⟨ys, hxs, hzs⟩
    induction hxs generalizing zs with
    | nil =>
      cases hzs
      exact .nil
    | cons hxy _ ih =>
      cases hzs with
      | cons hyz hzs => exact .cons ⟨_, hxy, hyz⟩ (ih hzs)

/-- What a call on a single key pays to; combinations make several payments at once. -/
def KeyForm.PaysTo (network : Network) (key : PublicKey) (payment : Payment) : KeyForm → Prop
  | .pk => Payment.p2pk key = payment
  | .pkh => Payment.p2pkh key network = payment
  | .wpkh => Payment.p2wpkh key network = .ok payment
  | .combo => False

namespace ScriptExpr

/-- The calls whose payments are made to one set of keys each. -/
def PaysKeys : ScriptExpr → Prop
  | .wrapped _ _ inner => inner.PaysKeys
  | .keyed _ form _ => form ≠ .combo
  | .multisig .. => True
  | .addr .. | .raw .. => False

def PaysTo : ScriptExpr → List PublicKey → Payment → Prop
  | .wrapped label wrapper inner, keys, payment =>
    ∃ wrapped, inner.PaysTo keys wrapped ∧ wrapper.payment wrapped label.network = .ok payment
  | .keyed label form _, keys, payment =>
    ∃ key, keys = [key] ∧ form.PaysTo label.network key payment
  | .multisig _ _ threshold _, keys, payment => Payment.p2ms threshold.value keys = .ok payment
  | .addr .., _, _ | .raw .., _, _ => False

/-- The sets of keys that payments are made to, in order. -/
def keySets (ctx : Context) : ScriptExpr → Except Error (List (List PublicKey))
  | .wrapped _ _ inner => inner.keySets ctx
  | .keyed _ _ key => (key.presentKeys ctx).map (·.map ([·]))
  | .multisig _ sorted _ keys => KeySet.ofKeys ctx sorted keys
  | .addr .. | .raw .. => .ok []

variable {ctx : Context} {e : ScriptExpr}

theorem payments_keyed_eq_ok_iff {network : Network} {key : KeyExpr} {form : KeyForm}
    (hform : form ≠ .combo) {payments : List Payment} :
    form.payments ctx network key = .ok payments ↔
      ∃ keys, key.presentKeys ctx = .ok keys ∧
        List.Forall₂ (fun key payment => form.PaysTo network key payment) keys payments := by
  rw [KeyForm.payments, Except.bind_eq_ok_iff]
  refine exists_congr fun keys => and_congr_right fun _ => ?_
  have hpure {f : PublicKey → Payment} : (Except.ok (keys.map f) : Except Error (List Payment)) =
      .ok payments ↔ List.Forall₂ (fun key payment => f key = payment) keys payments := by
    rw [Except.ok.injEq, ← List.forall₂_eq_eq_eq, List.forall₂_map_left_iff]
  cases form with
  | pk => exact hpure
  | pkh => exact hpure
  | wpkh => exact mapM_eq_ok_iff
  | combo => exact absurd rfl hform

theorem payments_eq_ok_iff (he : e.PaysKeys) {payments : List Payment} :
    e.payments ctx = .ok payments ↔
      ∃ sets, e.keySets ctx = .ok sets ∧ List.Forall₂ e.PaysTo sets payments := by
  induction e generalizing payments with
  | wrapped label wrapper inner ih =>
    rw [payments_wrapped, Except.bind_eq_ok_iff]
    constructor
    · rintro ⟨wrapped, hwrapped, h⟩
      obtain ⟨sets, hsets, hpays⟩ := (ih he).mp hwrapped
      exact ⟨sets, hsets, forall₂_comp_iff.mpr ⟨wrapped, hpays, mapM_eq_ok_iff.mp h⟩⟩
    · rintro ⟨sets, hsets, hpays⟩
      obtain ⟨wrapped, hinner, hwrap⟩ := forall₂_comp_iff.mp hpays
      exact ⟨wrapped, (ih he).mpr ⟨sets, hsets, hinner⟩, mapM_eq_ok_iff.mpr hwrap⟩
  | keyed label form key =>
    rw [payments_keyed fun hcombo => absurd hcombo he, payments_keyed_eq_ok_iff he]
    constructor
    · rintro ⟨keys, hkeys, hpays⟩
      refine ⟨keys.map ([·]), Except.map_eq_ok_iff.mpr ⟨keys, hkeys, rfl⟩, ?_⟩
      rw [List.forall₂_map_left_iff]
      exact hpays.imp fun key payment h => ⟨key, rfl, h⟩
    · rintro ⟨sets, hsets, hpays⟩
      obtain ⟨keys, hkeys, rfl⟩ := Except.map_eq_ok_iff.mp hsets
      rw [List.forall₂_map_left_iff] at hpays
      refine ⟨keys, hkeys, hpays.imp ?_⟩
      rintro key payment ⟨found, hfound, h⟩
      rwa [List.head_eq_of_cons_eq hfound]
  | multisig label sorted threshold keys =>
    rw [payments_multisig, Except.bind_eq_ok_iff]
    exact exists_congr fun sets => and_congr_right fun _ => mapM_eq_ok_iff
  | addr => exact absurd he id
  | raw => exact absurd he id

end ScriptExpr

end OutputDescriptor
