import OutputDescriptor.Proofs.Output.Reclassification

/-! Payments, output scripts and addresses are three views of one evaluation. Two of them are also
given without it: the script of raw bytes, and the addresses of calls that have none. -/
namespace OutputDescriptor

/-- The calls whose output script holds the keys themselves, so that it has no address. -/
def ScriptType.holdsKeys : ScriptType → Bool
  | .keyed .pk | .multisig _ => true
  | _ => false

namespace Payment

variable {network : Network} {script : Bytes}

theorem outputScript_of_ofOutputScript {payment : Payment}
    (h : ofOutputScript script network = .ok payment) : payment.outputScript = script := by
  rw [(ofOutputScript_eq_ok_iff.mp h).2]

theorem address_eq_none_of_p2ms {threshold : Nat} {keys : List PublicKey} {payment : Payment}
    (h : p2ms threshold keys = .ok payment) : payment.address = none := by
  obtain ⟨-, -, -, rfl⟩ := p2ms_eq_ok_iff.mp h
  rfl

/-- The addresses of an output script: the one of its template, if it has an address. -/
def addressesOf (network : Network) (script : Bytes) : List Address :=
  (ofOutputScript script network).toOption.elim [] (·.address.toList)

theorem length_addressesOf_le : (addressesOf network script).length ≤ 1 := by
  unfold addressesOf
  cases (ofOutputScript script network).toOption with
  | none => simp
  | some payment => cases h : payment.address <;> simp [h]

theorem addressesOf_ne_nil_iff : addressesOf network script ≠ [] ↔
    ∃ template : Template, template.hasAddress ∧ template.fits script := by
  unfold addressesOf
  constructor
  · intro h
    cases hread : ofOutputScript script network with
    | error error => simp [hread, Except.toOption] at h
    | ok payment =>
      have hconsistent := (consistent_ofOutputScript hread).isSome_address
      refine ⟨payment.template, ?_, ?_⟩
      · rw [← hconsistent]
        simpa [hread, Except.toOption, Option.isSome_iff_ne_none] using h
      · exact (ofOutputScript_eq_ok_iff.mp hread).1
  · rintro ⟨template, haddress, hfits⟩
    have hread := ofOutputScript_of_fits hfits network
    have hconsistent := (consistent_ofOutputScript hread).isSome_address
    rw [haddress] at hconsistent
    simpa [hread, Except.toOption, Option.isSome_iff_ne_none] using hconsistent

end Payment

namespace ScriptExpr

variable {ctx : Context} {e : ScriptExpr} {payments : List Payment}

theorem addresses_raw (label : Label) (hex : HexExpr) : (raw label hex).addresses ctx =
    .ok (Payment.addressesOf label.network hex.value) := by
  rw [Payment.addressesOf]
  cases hread : Payment.ofOutputScript hex.value label.network with
  | ok payment => simp [addresses, hread, Except.toOption]
  | error error =>
    obtain ⟨-, rfl⟩ := Payment.ofOutputScript_eq_error_iff.mp hread
    simp [addresses, hread, Except.toOption]

theorem addresses_of_holdsKeys (h : e.type.holdsKeys) : e.addresses ctx = .ok [] := by
  cases e with
  | keyed label form key =>
    cases form with
    | pk => rfl
    | _ => cases h
  | multisig => rfl
  | _ => cases h

theorem addresses_of_not_holdsKeys (h : ¬e.type.holdsKeys) (hraw : e.type ≠ .raw) :
    e.addresses ctx = (e.payments ctx).map (·.filterMap Payment.address) := by
  cases e with
  | keyed label form key =>
    cases form with
    | pk => exact absurd rfl h
    | _ => rfl
  | multisig => exact absurd rfl h
  | raw => exact absurd rfl hraw
  | _ => rfl

theorem outputScripts_of_ne_raw (hraw : e.type ≠ .raw) :
    e.outputScripts ctx = (e.payments ctx).map (·.map Payment.outputScript) := by
  cases e with
  | raw => exact absurd rfl hraw
  | _ => rfl

/-- Calls that are not evaluated for their addresses would have none. -/
theorem address_eq_none_of_holdsKeys (h : e.type.holdsKeys) (hpays : e.payments ctx = .ok payments) :
    ∀ payment ∈ payments, payment.address = none := by
  cases e with
  | keyed label form key =>
    cases form with
    | pk =>
      obtain ⟨keys, -, hpays⟩ := Except.bind_eq_ok_iff.mp hpays
      rw [← Except.ok.inj hpays]
      simp [Payment.p2pk]
    | _ => cases h
  | multisig label sorted threshold keys =>
    obtain ⟨sets, -, hpays⟩ := Except.bind_eq_ok_iff.mp hpays
    intro payment hmem
    obtain ⟨set, -, hset⟩ := exists_of_forall₂ (mapM_eq_ok_iff.mp hpays).flip hmem
    exact Payment.address_eq_none_of_p2ms hset
  | _ => cases h

theorem addresses_of_payments (hpays : e.payments ctx = .ok payments) :
    e.addresses ctx = .ok (payments.filterMap Payment.address) := by
  by_cases hkeys : e.type.holdsKeys
  · rw [addresses_of_holdsKeys hkeys, List.filterMap_eq_nil_iff.mpr]
    exact address_eq_none_of_holdsKeys hkeys hpays
  · cases e with
    | raw label hex =>
      obtain ⟨payment, hread, hpays⟩ := Except.bind_eq_ok_iff.mp hpays
      rw [addresses_raw, Payment.addressesOf, hread, ← Except.ok.inj hpays]
      cases h : payment.address <;> simp [Except.toOption, h]
    | _ => rw [addresses_of_not_holdsKeys hkeys (by simp [type]), hpays]; rfl

theorem outputScripts_of_payments (hpays : e.payments ctx = .ok payments) :
    e.outputScripts ctx = .ok (payments.map Payment.outputScript) := by
  cases e with
  | raw label hex =>
    obtain ⟨payment, hread, hpays⟩ := Except.bind_eq_ok_iff.mp hpays
    rw [outputScripts, ← Except.ok.inj hpays, List.map_singleton,
      Payment.outputScript_of_ofOutputScript hread]
  | _ => rw [outputScripts_of_ne_raw (by simp [type]), hpays]; rfl

/-- Output scripts and addresses are read off the payments and fail with them, except for raw bytes.
-/
theorem views_of_evaluation (ctx : Context) (e : ScriptExpr) :
    (∀ payments, e.payments ctx = .ok payments →
      e.outputScripts ctx = .ok (payments.map Payment.outputScript) ∧
        e.addresses ctx = .ok (payments.filterMap Payment.address)) ∧
    (∀ error, e.payments ctx = .error error → e.type ≠ .raw →
      e.outputScripts ctx = .error error ∧
        e.addresses ctx = if e.type.holdsKeys then .ok [] else .error error) ∧
    (∀ label hex, e = .raw label hex → e.outputScripts ctx = .ok [hex.value] ∧
      ∃ addresses, e.addresses ctx = .ok addresses ∧ addresses.length ≤ 1 ∧
        (addresses ≠ [] ↔ ∃ template : Template, template.hasAddress ∧ template.fits hex.value)) := by
  refine ⟨fun payments hpays => ?_, fun error hpays hraw => ?_, ?_⟩
  · exact ⟨outputScripts_of_payments hpays, addresses_of_payments hpays⟩
  · rw [outputScripts_of_ne_raw hraw, hpays]
    refine ⟨rfl, ?_⟩
    split
    · rename_i hkeys
      exact addresses_of_holdsKeys hkeys
    · rename_i hkeys
      rw [addresses_of_not_holdsKeys hkeys hraw, hpays]
      rfl
  · rintro label hex rfl
    exact ⟨rfl, _, addresses_raw label hex, Payment.length_addressesOf_le,
      Payment.addressesOf_ne_nil_iff⟩

/-- An uncompressed key can be paid to, but not inside a witness script, and the bytes of an
operation are no payment at all. -/
theorem views_of_evaluation_uncompressed :
    let label : Label := ⟨.testnet, "", none⟩
    let pk := keyed label .pk ⟨.testnet, "", none, .publicOnly ⟨.generator, false⟩⟩
    let hex : HexExpr := ⟨.testnet, "51", [0x51], by decide⟩
    (∃ payments, pk.payments {} = .ok payments ∧
      pk.outputScripts {} = .ok (payments.map Payment.outputScript) ∧
        pk.addresses {} = .ok (payments.filterMap Payment.address)) ∧
    (∃ error, (wrapped label .wsh pk).payments {} = .error error ∧
      (wrapped label .wsh pk).outputScripts {} = .error error ∧
        (wrapped label .wsh pk).addresses {} = .error error) ∧
    ∃ error addresses, (raw label hex).payments {} = .error error ∧
      (raw label hex).outputScripts {} = .ok [[0x51]] ∧
        (raw label hex).addresses {} = .ok addresses ∧ addresses.length ≤ 1 := by
  intro label pk hex
  have hpk : pk.payments {} = .ok [Payment.p2pk ⟨.generator, false⟩] := by decide +kernel
  have hwsh : (wrapped label .wsh pk).payments {} = .error (.payment .uncompressedKeyInWitness) := by
    decide +kernel
  have hraw : (raw label hex).payments {} = .error (.output [0x51]) := by decide +kernel
  obtain ⟨hscripts, addresses, haddresses, hlength, -⟩ :=
    (views_of_evaluation {} (raw label hex)).2.2 label hex rfl
  refine ⟨⟨_, hpk, (views_of_evaluation {} pk).1 _ hpk⟩, ⟨_, hwsh, ?_⟩,
    ⟨_, addresses, hraw, hscripts, haddresses, hlength⟩⟩
  exact (views_of_evaluation {} (wrapped label .wsh pk)).2.1 _ hwsh (by decide)

end ScriptExpr

end OutputDescriptor
