import OutputDescriptor.Proofs.Evaluation.RangeEvaluation

/-! The payments of a range are those of its indices, one after the other, each of them evaluated
from a text of its own. -/
namespace OutputDescriptor

/-! ### Relations along concatenations -/

theorem forall₂_flatMap_left_iff {α β γ : Type} {r : β → γ → Prop} {f : α → List β}
    {xs : List α} {ys : List γ} : List.Forall₂ r (xs.flatMap f) ys ↔
      ∃ parts, List.Forall₂ (fun x part => List.Forall₂ r (f x) part) xs parts ∧
        ys = parts.flatten := by
  induction xs generalizing ys with
  | nil =>
    rw [List.flatMap_nil, List.forall₂_nil_left_iff]
    constructor
    · rintro rfl
      exact ⟨[], .nil, rfl⟩
    · rintro ⟨parts, hparts, rfl⟩
      cases hparts
      rfl
  | cons x xs ih =>
    rw [List.flatMap_cons]
    constructor
    · intro h
      have hfront := (List.forall₂_take_append _ _ _ h.flip).flip
      have hback := (List.forall₂_drop_append _ _ _ h.flip).flip
      obtain ⟨rest, hrest, hys⟩ := ih.mp hback
      refine ⟨_ :: rest, .cons hfront hrest, ?_⟩
      rw [List.flatten_cons, ← hys, List.take_append_drop]
    · rintro ⟨parts, hparts, rfl⟩
      obtain ⟨part, rest, hpart, hrest, rfl⟩ := List.forall₂_cons_left_iff.mp hparts
      exact List.rel_append hpart (ih.mpr ⟨rest, hrest, rfl⟩)

def Error.isNonexistentIndex (error : Error) : Bool :=
  match error.rootCause with
  | .nonexistentIndex .. => true
  | _ => false

namespace ScriptExpr

variable {ctx : Context} {network : Network} {body : String} {e : ScriptExpr}

/-- Only the innermost call can be one that does not pay to sets of keys, and wrappers take none. -/
theorem paysKeys_of_type {P : KeyExpr → Prop} (hbuilt : (Expr.script e).Built P)
    (htype : e.type ∉ [.keyed .combo, .addr, .raw]) : e.PaysKeys := by
  induction e with
  | wrapped label w inner ih =>
    have hwraps : w.wraps inner.type := Built.shaped hbuilt
    have hinner := List.forall_mem_singleton.mp (Built.children hbuilt)
    refine ih hinner fun hmem => ?_
    simp only [List.mem_cons, List.not_mem_nil, or_false] at hmem
    rcases hmem with hinner | hinner | hinner <;> rw [hinner] at hwraps <;> cases w <;> cases hwraps
  | keyed label form key =>
    rintro rfl
    simp [type] at htype
  | multisig => trivial
  | addr => simp [type] at htype
  | raw => simp [type] at htype

theorem paysKeys_of_built {P : KeyExpr → Prop} (hbuilt : (Expr.script e).Built P)
    (hranged : e.isRanged) (htype : e.type ≠ .keyed .combo) : e.PaysKeys := by
  apply paysKeys_of_type hbuilt
  cases e with
  | wrapped => simp [type]
  | keyed label form key => simpa [type] using htype
  | multisig => simp [type]
  | addr => cases hranged
  | raw => cases hranged

theorem paysKeys_withRange {range : KeyRange} (h : e.PaysKeys) : (e.withRange range).PaysKeys := by
  induction e with
  | wrapped label w inner ih => exact ih h
  | _ => exact h

theorem paysTo_withRange {range : KeyRange} : (e.withRange range).PaysTo = e.PaysTo := by
  induction e with
  | wrapped label w inner ih =>
    funext keys payment
    rw [withRange, PaysTo, PaysTo, ih]
  | _ => rfl

/-! ### The texts of the indices -/

/-- The keys that the script in a text pays to, if the text can be read. -/
def readKeys (ctx : Context) (network : Network) (text : String) : Option (List PublicKey) :=
  (parse ctx network none text).toOption.map resolvedKeys

/-- What an index adds to the payments of a range: those of the text with the index for its
wildcards. -/
def contribution (ctx : Context) (network : Network) (body : String) (range : KeyRange)
    (index : Nat) : Except Error (List Payment) :=
  match parse ctx network none (substituteIndex index body) with
  | .error error => if error.isNonexistentIndex then .ok [] else .error error
  | .ok script =>
    if ctx.options.ignoreNonexistentIndex ∧ range.start < index ∧
        readKeys ctx network (substituteIndex (index - 1) body) = some script.resolvedKeys then
      .ok []
    else script.payments ctx

section Range

variable (hparse : parse ctx network none body = .ok e) (hchecksum : e.checksum = none)
  (hpays : e.PaysKeys)
include hparse hchecksum hpays

/-- The text of an index can be read, unless a key does not exist and none may stand in for it. -/
theorem parse_index_cases {index : Nat} (h : e.Resolves ctx index) :
    (∃ script, parse ctx network none (substituteIndex index body) = .ok script ∧
      e.instantiate ctx index = .ok script ∧ e.keysAt ctx index = some script.resolvedKeys) ∨
    (∃ error, parse ctx network none (substituteIndex index body) = .error error ∧
      error.isNonexistentIndex ∧ e.keysAt ctx index = none ∧
        ctx.options.ignoreNonexistentIndex = false) := by
  have hsame : SameCause (parse ctx network none (substituteIndex index body))
      (e.instantiate ctx index) := parse_substituteIndex hparse hchecksum
  obtain ⟨script, hscript⟩ | ⟨hnone, hignore, hardened, herror⟩ := instantiate_cases hpays h
  · have hkeys := (resolves_of_instantiate hpays hscript).2
    exact .inl ⟨script, hsame.ok_iff.mpr hscript, hscript, hkeys⟩
  · rw [SameCause, herror] at hsame
    cases hread : parse ctx network none (substituteIndex index body) with
    | ok script =>
      rw [hread] at hsame
      cases hsame
    | error error =>
      rw [hread] at hsame
      have hcause : error.rootCause = .nonexistentIndex index hardened := Except.error.inj hsame
      refine .inr ⟨error, rfl, ?_, hnone, hignore⟩
      rw [Error.isNonexistentIndex, hcause]

theorem readKeys_index {index : Nat} (h : e.Resolves ctx index) :
    readKeys ctx network (substituteIndex index body) = e.keysAt ctx index := by
  obtain ⟨script, hscript, -, hkeys⟩ | ⟨error, herror, -, hnone, -⟩ :=
    parse_index_cases hparse hchecksum hpays h
  · rw [readKeys, hscript, hkeys]
    rfl
  · rw [readKeys, herror, hnone]
    rfl

/-- What is paid to the keys that an index adds is what the text of the index contributes. -/
theorem contribution_eq_ok {range : KeyRange}
    (hall : ∀ index ∈ range.indices, e.Resolves ctx index) {index : Nat}
    (hindex : index ∈ range.indices) {paid : List Payment}
    (h : List.Forall₂ e.PaysTo (ctx.kept range.start (e.keysAt ctx ·) index) paid) :
    contribution ctx network body range index = .ok paid := by
  -- The index before lies in the range too, so its text says which keys were listed for it.
  have hbefore : range.start < index →
      readKeys ctx network (substituteIndex (index - 1) body) = e.keysAt ctx (index - 1) := by
    intro hstart
    refine readKeys_index hparse hchecksum hpays (hall _ ?_)
    rw [KeyRange.mem_indices] at hindex ⊢
    omega
  unfold Context.kept at h
  beta_reduce at h
  obtain ⟨script, hscript, hinstance, hkeys⟩ | ⟨error, herror, hcause, hnone, hignore⟩ :=
    parse_index_cases hparse hchecksum hpays (hall index hindex)
  · rw [hkeys] at h
    unfold contribution
    simp only [hscript]
    by_cases hskip : ctx.options.ignoreNonexistentIndex ∧ range.start < index ∧
        e.keysAt ctx (index - 1) = some script.resolvedKeys
    · obtain rfl := List.forall₂_nil_left_iff.mp ((if_pos hskip) ▸ h)
      obtain ⟨hignore, hstart, hsame⟩ := hskip
      rw [if_pos ⟨hignore, hstart, (hbefore hstart).trans hsame⟩]
    · rw [if_neg hskip] at h
      rw [if_neg fun hand => hskip ⟨hand.1, hand.2.1, (hbefore hand.2.1).symm.trans hand.2.2⟩]
      exact (payments_instantiate_eq_ok_iff hpays hinstance).mpr h
  · have hnothing : paid = [] := by
      rw [hnone, Option.toList_none, ite_self] at h
      exact List.forall₂_nil_left_iff.mp h
    unfold contribution
    simp only [herror, hcause, hnothing, if_true]

theorem mapM_contribution_eq_ok (hranged : e.isRanged) {range : KeyRange} {payments : List Payment}
    (h : (e.withRange range).payments ctx = .ok payments) :
    (range.indices.mapM (contribution ctx network body range)).map List.flatten = .ok payments := by
  obtain ⟨sets, hsets, hpaid⟩ := (payments_eq_ok_iff (paysKeys_withRange hpays)).mp h
  obtain ⟨hall, rfl⟩ := (keySets_withRange_eq_ok_iff hpays hranged).mp hsets
  have hexist (hignore : ctx.options.ignoreNonexistentIndex) :
      ∀ index ∈ range.indices, (e.keysAt ctx index).isSome := by
    intro index hindex
    obtain ⟨script, -, -, hkeys⟩ | ⟨-, -, -, -, hstrict⟩ :=
      parse_index_cases hparse hchecksum hpays (hall index hindex)
    · rw [hkeys, Option.isSome_some]
    · rw [hstrict] at hignore
      cases hignore
  rw [range.indices_eq] at hexist hpaid
  rw [ctx.present_map_range' hexist, paysTo_withRange, forall₂_flatMap_left_iff,
    ← range.indices_eq] at hpaid
  obtain ⟨parts, hparts, rfl⟩ := hpaid
  refine Except.map_eq_ok_iff.mpr ⟨parts, mapM_eq_ok_iff.mpr ?_, rfl⟩
  have hmem := (List.forall₂_and_left _ _).mpr ⟨fun index hindex => hindex, hparts⟩
  exact hmem.imp fun index paid hand =>
    contribution_eq_ok hparse hchecksum hpays hall hand.1 hand.2

theorem exists_payments_withRange (hranged : e.isRanged) {range : KeyRange}
    (h : ∀ index ∈ range.indices, ∃ script payments,
      parse ctx network none (substituteIndex index body) = .ok script ∧
        script.payments ctx = .ok payments) :
    ∃ payments, (e.withRange range).payments ctx = .ok payments := by
  have hinstance : ∀ index ∈ range.indices, ∃ script payments,
      e.instantiate ctx index = .ok script ∧ script.payments ctx = .ok payments := by
    intro index hindex
    obtain ⟨script, payments, hscript, hpayments⟩ := h index hindex
    have hsame : SameCause (parse ctx network none (substituteIndex index body))
        (e.instantiate ctx index) := parse_substituteIndex hparse hchecksum
    exact ⟨script, payments, hsame.ok_iff.mp hscript, hpayments⟩
  have hall : ∀ index ∈ range.indices, e.Resolves ctx index := by
    intro index hindex
    obtain ⟨script, -, hscript, -⟩ := hinstance index hindex
    exact (resolves_of_instantiate hpays hscript).1
  have hsets := (keySets_withRange_eq_ok_iff hpays hranged).mpr ⟨hall, rfl⟩
  have hpaid : ∀ keys ∈ ctx.present (range.indices.map (e.keysAt ctx ·)),
      ∃ payment, e.PaysTo keys payment := by
    intro keys hkeys
    obtain ⟨index, hindex, hsome⟩ := List.mem_map.mp (Context.mem_of_mem_present hkeys)
    obtain ⟨script, payments, hscript, hpayments⟩ := hinstance index hindex
    rw [(resolves_of_instantiate hpays hscript).2] at hsome
    cases hsome
    obtain ⟨payment, -, hpayment, -⟩ := List.forall₂_cons_left_iff.mp
      ((payments_instantiate_eq_ok_iff hpays hscript).mp hpayments)
    exact ⟨payment, hpayment⟩
  obtain ⟨payments, hpayments⟩ := exists_forall₂_of_forall_exists hpaid
  have hsame : (e.withRange range).PaysTo = e.PaysTo := paysTo_withRange
  rw [← hsame] at hpayments
  exact ⟨payments, (payments_eq_ok_iff (paysKeys_withRange hpays)).mpr ⟨_, hsets, hpayments⟩⟩

end Range

/-- Evaluating a range gives the payments of the texts of its indices, one after the other. -/
theorem payments_withRange (range : KeyRange) (hparse : parse ctx network none body = .ok e)
    (hchecksum : e.checksum = none) (htype : e.type ≠ .keyed .combo) (hranged : e.isRanged) :
    (∀ payments, (e.withRange range).payments ctx = .ok payments →
      (range.indices.mapM (contribution ctx network body range)).map List.flatten =
        .ok payments) ∧
    ((∀ index ∈ range.indices, ∃ script payments,
      parse ctx network none (substituteIndex index body) = .ok script ∧
        script.payments ctx = .ok payments) →
      ∃ payments, (e.withRange range).payments ctx = .ok payments) := by
  have hbuilt : (Expr.script e).Built fun _ => True := built_of_parse (fun _ _ _ => trivial) hparse
  have hpays : e.PaysKeys := paysKeys_of_built hbuilt hranged htype
  exact ⟨fun _ => mapM_contribution_eq_ok hparse hchecksum hpays hranged,
    exists_payments_withRange hparse hchecksum hpays hranged⟩

end ScriptExpr

/-- A scheme in which every key stands in for its children. -/
def KeyScheme.stationary : KeyScheme :=
  { standard with
    deriveChild := fun key index hardened => do
      return ⟨key, ← ChildNumber.ofIndex index hardened⟩ }

/-- The second index has the key of the first one, and adds no payment of its own. -/
theorem ScriptExpr.payments_withRange_stationary :
    let ctx : Context := ⟨⟨true⟩, .stationary⟩
    let range : KeyRange := ⟨0, 2, by decide, by decide⟩
    let body := "pk(tpubD7w5aPCavURCXPB5JFgPEU22pz679XrtqCbeXPwNKWuS8wRabjkBDds5sycMbc1d4EJ" ++
      "CMNck5zuwzxEYQt7ZCeSMhGPfUDY4omFSQRjBCXG/*)"
    ∃ payments, payments.length = 1 ∧
      (range.indices.mapM (contribution ctx .testnet body range)).map List.flatten =
        .ok payments := by
  intro ctx range body
  have hread : (do
      let e ← parse ctx .testnet none body
      let payments ← (e.withRange range).payments ctx
      return (decide (e.checksum = none ∧ e.type ≠ .keyed .combo ∧ e.isRanged), payments.length) :
        Except Error (Bool × Nat)) = .ok (true, 1) := by
    decide +kernel
  obtain ⟨e, hparse, hread⟩ := Except.bind_eq_ok_iff.mp hread
  obtain ⟨payments, hpayments, hread⟩ := Except.bind_eq_ok_iff.mp hread
  obtain ⟨hfits, hlength⟩ := Prod.mk.inj (Except.ok.inj hread)
  obtain ⟨hchecksum, htype, hranged⟩ := of_decide_eq_true hfits
  exact ⟨payments, hlength,
    (payments_withRange range hparse hchecksum htype hranged).1 payments hpayments⟩

end OutputDescriptor
