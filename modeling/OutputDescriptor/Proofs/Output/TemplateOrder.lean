import OutputDescriptor.Proofs.Evaluation.OutputViews

/-! Reading an output script is total and does not depend on the order in which the templates are
tried: at most one of them fits, and a script that fits one with addresses has an address. -/
namespace OutputDescriptor

namespace Payment

/-- A script that fits a template is read as one of that template, and the others are refused. -/
theorem fits_iff_exists_ofOutputScript {template : Template} {script : Bytes} {network : Network} :
    template.fits script ↔
      ∃ payment, ofOutputScript script network = .ok payment ∧ payment.template = template := by
  constructor
  · intro h
    exact ⟨_, ofOutputScript_of_fits h network, rfl⟩
  · rintro ⟨payment, hread, rfl⟩
    exact (ofOutputScript_eq_ok_iff.mp hread).1

end Payment

/-- Only the four templates that hold a hash are compared with the bytes themselves. -/
theorem Template.not_fits_of_ofScript?_eq_none {template : Template} {script : Bytes}
    (h : Instruction.ofScript? script = none) (hkind : template.hasAddress = false) :
    ¬template.fits script := by
  cases template with
  | p2pkh | p2wpkh | p2sh | p2wsh => cases hkind
  | p2pk => simp [fits, Script.payToKey?, h]
  | p2ms => simp [fits, Script.multisig?, h]
  | nulldata => simp [fits, Script.isNullData, h]

/-- An output script is read by the one template that fits it, in whatever order the templates are
tried. -/
theorem classification_independent_of_order (script : Bytes) (network : Network) :
    (∀ template template' : Template, template.fits script → template'.fits script →
      template = template') ∧
    (∀ templates : List Template, templates.Perm Template.all → ∀ fault,
      Payment.classify templates fault script network = Payment.ofOutputScript script network) ∧
    (∀ template : Template, template.fits script ↔ ∃ payment,
      Payment.ofOutputScript script network = .ok payment ∧ payment.template = template) ∧
    (∀ error, Payment.ofOutputScript script network = .error error ↔
      (∀ template : Template, ¬template.fits script) ∧ error = .output script) ∧
    (Error.output script).kind = .unsupportedOutput ∧
    (Error.output script).message = "non-standard output script (" ++ Hex.encode script ++ ")" ∧
    (Instruction.ofScript? script = none →
      (∀ kind : AddressKind, ¬kind.template.fits script) →
        Payment.ofOutputScript script network = .error (.output script)) := by
  refine ⟨fun _ _ h h' => Template.eq_of_fits h h', fun templates hperm fault => ?_,
    fun _ => Payment.fits_iff_exists_ofOutputScript,
    fun _ => Payment.ofOutputScript_eq_error_iff, rfl, rfl, fun hscript hkinds => ?_⟩
  · have hall : ∀ t : Template, t ∈ templates := fun t => hperm.mem_iff.mpr t.mem_all
    by_cases hfits : ∃ template : Template, template.fits script
    · obtain ⟨template, hfits⟩ := hfits
      rw [Payment.classify_of_fits hall fault hfits, Payment.ofOutputScript_of_fits hfits]
    · rw [Payment.classify_of_not_fits templates fault (not_exists.mp hfits),
        Payment.ofOutputScript_of_not_fits (not_exists.mp hfits)]
  · refine Payment.ofOutputScript_of_not_fits (fun template hfits => ?_) network
    cases hkind : template.addressKind? with
    | none =>
      have haddress : template.hasAddress = false := by rw [Template.hasAddress, hkind]; rfl
      exact Template.not_fits_of_ofScript?_eq_none hscript haddress hfits
    | some kind =>
      obtain rfl := AddressKind.template_of_addressKind? hkind
      exact hkinds kind hfits

/-- With the templates in the opposite order a bare key is still read as one, and a push without its
data fits none. -/
theorem classification_independent_of_order_reverse :
    (∀ fault, Payment.classify Template.all.reverse fault
      (Script.payToKey ⟨.generator, true⟩) .bitcoin =
        .ok (Payment.p2pk ⟨.generator, true⟩)) ∧
    Payment.ofOutputScript [0x4c] .regtest = .error (.output [0x4c]) := by
  constructor
  · intro fault
    have hperm : Template.all.reverse.Perm Template.all := List.reverse_perm Template.all
    rw [(classification_independent_of_order _ .bitcoin).2.1 _ hperm fault]
    exact Payment.ofOutputScript_p2pk ⟨.generator, true⟩
  · have hscript : Instruction.ofScript? [0x4c] = none := by
      simp [Instruction.ofScript?, Instruction.ofScript, Instruction.ofCode?,
        Instruction.lengthSize?]
    have hkinds : ∀ kind : AddressKind, ¬kind.template.fits [0x4c] := by
      intro kind
      cases kind <;> decide
    exact (classification_independent_of_order [0x4c] .regtest).2.2.2.2.2.2 hscript hkinds

end OutputDescriptor
