import OutputDescriptor.Proofs.Script.Grammar
import OutputDescriptor.Script.Evaluation

/-! The calls that a combination stands for: there is no combination among them, and what they pay is
read off the keys that exist. -/
namespace OutputDescriptor

open Grammar

namespace ScriptExpr

/-- A call on a key, with the text that it is read from. -/
def call (network : Network) (form : KeyForm) (key : KeyExpr) : ScriptExpr :=
  .keyed ⟨network, callOf (.keyed form) [key.text], none⟩ form key

def wrap (network : Network) (w : Wrapper) (inner : ScriptExpr) : ScriptExpr :=
  .wrapped ⟨network, callOf (.wrapper w) [inner.text], none⟩ w inner

def forms (network : Network) (key : KeyExpr) : List ScriptExpr :=
  [call network .pk key, call network .pkh key] ++ if key.isCompressed then
    [call network .wpkh key, wrap network .sh (call network .wpkh key)] else []

section Forms

variable {network : Network} {key : KeyExpr}

theorem ofChildren_call (form : KeyForm) (h : key.network = network) :
    ofChildren ⟨network, (call network form key).text, none⟩ (.keyed form) [.key key] =
      .ok (call network form key) := by
  have hlabel : Label.WellFormed ⟨network, (call network form key).text, none⟩ := by
    intro checksum hchecksum
    cases hchecksum
  exact ofChildren_eq_ok_iff.mpr
    ⟨hlabel, List.forall_mem_singleton.mpr h, rfl, rfl, rfl, trivial⟩

theorem ofChildren_wrap {w : Wrapper} {inner : ScriptExpr} (hwraps : w.wraps inner.type)
    (h : inner.network = network) :
    ofChildren ⟨network, (wrap network w inner).text, none⟩ (.wrapper w) [.script inner] =
      .ok (wrap network w inner) := by
  have hlabel : Label.WellFormed ⟨network, (wrap network w inner).text, none⟩ := by
    intro checksum hchecksum
    cases hchecksum
  exact ofChildren_eq_ok_iff.mpr
    ⟨hlabel, List.forall_mem_singleton.mpr h, rfl, rfl, rfl, hwraps⟩

theorem text_wrap_wpkh (network : Network) (key : KeyExpr) :
    (wrap network .sh (call network .wpkh key)).text = "sh(wpkh(" ++ key.text ++ "))" := by
  have hopen : "sh(" ++ "wpkh(" = "sh(wpkh(" := rfl
  have hclose : ")" ++ ")" = "))" := rfl
  change "sh(" ++ ("wpkh(" ++ key.text ++ ")") ++ ")" = _
  rw [← hopen, ← hclose]
  simp only [String.append_assoc]

/-- The texts of the derived calls are put together anew, and are those that the calls have. -/
theorem derivedScripts_combo {label : Label} (h : key.network = label.network) :
    derivedScripts (.keyed label .combo key) = .ok (forms label.network key) := by
  have hpk := ofChildren_call .pk h
  have hpkh := ofChildren_call .pkh h
  have hwpkh := ofChildren_call .wpkh h
  have hnested := @ofChildren_wrap label.network .sh (call label.network .wpkh key) rfl rfl
  rw [text_wrap_wpkh] at hnested
  change (do
      let pk ← ofChildren ⟨label.network, (call label.network .pk key).text, none⟩ (.keyed .pk)
        [.key key]
      let pkh ← ofChildren ⟨label.network, (call label.network .pkh key).text, none⟩ (.keyed .pkh)
        [.key key]
      if key.isCompressed then
        let wpkh ← ofChildren ⟨label.network, (call label.network .wpkh key).text, none⟩
          (.keyed .wpkh) [.key key]
        let nested ← ofChildren ⟨label.network, "sh(wpkh(" ++ key.text ++ "))", none⟩
          (.wrapper .sh) [.script wpkh]
        return [pk, pkh, wpkh, nested]
      else return [pk, pkh]) = _
  rw [hpk, hpkh, hwpkh]
  simp only [Except.ok_bind]
  rw [hnested, forms]
  split
  · rfl
  · rfl

theorem derivedScripts_combo_eq_ok_iff {label : Label} {scripts : List ScriptExpr} :
    derivedScripts (.keyed label .combo key) = .ok scripts ↔
      key.network = label.network ∧ scripts = forms label.network key := by
  constructor
  · intro h
    obtain ⟨pk, hpk, -⟩ := Except.bind_eq_ok_iff.mp h
    obtain ⟨-, hforeign, -⟩ := ofChildren_eq_ok_iff.mp hpk
    have hnetwork : key.network = label.network := hforeign (.key key) List.mem_cons_self
    rw [derivedScripts_combo hnetwork] at h
    exact ⟨hnetwork, (Except.ok.inj h).symm⟩
  · rintro ⟨hnetwork, rfl⟩
    exact derivedScripts_combo hnetwork

theorem mem_forms {script : ScriptExpr} (h : script ∈ forms network key) :
    (∃ form, form ≠ .combo ∧ script = call network form key) ∨
      script = wrap network .sh (call network .wpkh key) := by
  unfold forms at h
  rcases List.mem_append.mp h with h | h
  · rcases List.mem_cons.mp h with rfl | h
    · exact .inl ⟨.pk, by decide, rfl⟩
    · exact .inl ⟨.pkh, by decide, List.mem_singleton.mp h⟩
  · split at h
    · rcases List.mem_cons.mp h with rfl | h
      · exact .inl ⟨.wpkh, by decide, rfl⟩
      · exact .inr (List.mem_singleton.mp h)
    · cases h

end Forms

section Evaluation

variable (ctx : Context) (label : Label) (key : KeyExpr)

/-- Combinations are only outermost, so how they are paid does not matter for what is derived. -/
theorem paymentsWith_of_mem_forms {network : Network} {script : ScriptExpr}
    (h : script ∈ forms network key) (combination : ScriptExpr → Except Error (List Payment)) :
    script.paymentsWith ctx combination = script.payments ctx := by
  rcases mem_forms h with ⟨form, hform, rfl⟩ | rfl
  · cases form with
    | combo => exact absurd rfl hform
    | _ => rfl
  · rfl

/-- Evaluating a combination is evaluating what is derived from it, one call after the other. -/
theorem payments_combo : (keyed label .combo key).payments ctx =
    (keyed label .combo key).derivedScripts >>= fun scripts =>
      (scripts.mapM (payments ctx)).map List.flatten := by
  change ((keyed label .combo key).derivedScripts >>= fun scripts =>
    scripts.mapM (paymentsWith ctx fun _ => .ok []) >>= fun found => .ok found.flatten) = _
  cases hscripts : (keyed label .combo key).derivedScripts with
  | error error => rfl
  | ok scripts =>
    obtain ⟨-, rfl⟩ := derivedScripts_combo_eq_ok_iff.mp hscripts
    rw [Except.ok_bind, Except.ok_bind,
      mapM_congr fun script h => paymentsWith_of_mem_forms ctx key h _]
    cases (forms label.network key).mapM (payments ctx) <;> rfl

variable {label key}

theorem payments_forms (h : key.network = label.network) : (keyed label .combo key).payments ctx =
    ((forms label.network key).mapM (payments ctx)).map List.flatten := by
  rw [payments_combo, derivedScripts_combo h, Except.ok_bind]

end Evaluation

end ScriptExpr

/-- The payments of a call on a key, with those of all forms of a combination put together. -/
def KeyForm.payments (ctx : Context) (network : Network) (key : KeyExpr) (form : KeyForm) :
    Except Error (List Payment) := do
  let keys ← key.presentKeys ctx
  match form with
  | .pk => return keys.map Payment.p2pk
  | .pkh => return keys.map (Payment.p2pkh · network)
  | .wpkh => keys.mapM (Payment.p2wpkh · network)
  | .combo =>
    let witness ← if key.isCompressed then keys.mapM (Payment.p2wpkh · network) else .ok []
    let nested ← witness.mapM (Payment.p2sh · network)
    return keys.map Payment.p2pk ++ keys.map (Payment.p2pkh · network) ++ witness ++ nested

namespace ScriptExpr

theorem mapM_payments_forms (ctx : Context) (network : Network) (key : KeyExpr) :
    ((forms network key).mapM (payments ctx)).map List.flatten =
      KeyForm.combo.payments ctx network key := by
  cases hkeys : key.presentKeys ctx with
  | error error =>
    simp [payments, paymentsWith, KeyForm.payments, hkeys, forms, call, bind, Except.bind, Except.map]
  | ok keys =>
    by_cases hcompressed : key.isCompressed
    · cases hwitness : keys.mapM (Payment.p2wpkh · network) with
      | error error =>
        simp [payments, paymentsWith, KeyForm.payments, hkeys, forms, call, hcompressed, hwitness,
          bind, Except.bind, Except.map, pure, Except.pure]
      | ok witness =>
        -- The nested form evaluates the witness form once more, with the same result.
        cases hnested : witness.mapM (Payment.p2sh · network) <;>
          simp [payments, paymentsWith, KeyForm.payments, hkeys, forms, call, wrap, hcompressed,
            hwitness, hnested, Wrapper.payment, bind, Except.bind, Except.map, pure, Except.pure]
    · simp [payments, paymentsWith, KeyForm.payments, hkeys, forms, call, hcompressed, bind,
        Except.bind, Except.map, pure, Except.pure]

/-- Only a combination looks at the network of its key again. -/
theorem payments_keyed {label : Label} {form : KeyForm} {key : KeyExpr}
    (h : form = .combo → key.network = label.network) (ctx : Context) :
    (keyed label form key).payments ctx = form.payments ctx label.network key := by
  cases form with
  | combo =>
    rw [payments_forms ctx (h rfl), mapM_payments_forms]
  | _ =>
    unfold KeyForm.payments
    cases hkeys : key.presentKeys ctx <;>
      simp [payments, paymentsWith, hkeys]

end ScriptExpr

end OutputDescriptor
