import OutputDescriptor.Proofs.Evaluation.DerivedCalls
import OutputDescriptor.Proofs.Script.Reachable

/-!
Payments agree with themselves, however they were made: the address with the output script and the
network, and the output script with the script behind it.
-/
namespace OutputDescriptor

/-! ### Keys in scripts -/

theorem PublicKey.compressed_of_ofBytes? {bytes : Bytes} {key : PublicKey}
    (h : ofBytes? bytes = some key) (hlength : bytes.length ≠ 65) : key.compressed := by
  obtain ⟨tag, -, h⟩ := Option.bind_eq_some_iff.mp h
  obtain ⟨x, -, h⟩ := Option.bind_eq_some_iff.mp h
  split at h
  · obtain ⟨point, -, h⟩ := Option.bind_eq_some_iff.mp h
    rw [← Option.some.inj h]
  · simp [hlength] at h

/-- No instruction of the script pushes an uncompressed key. -/
def Script.CompressedKeys (script : Bytes) : Prop :=
  ∀ instruction ∈ (Instruction.ofScript script).1, ∀ key, instruction.key? = some key →
    key.compressed

theorem Instruction.compressed_of_key? {instruction : Instruction} {key : PublicKey}
    (h : instruction.key? = some key) (hpush : instruction.pushesUncompressedKey = false) :
    key.compressed := by
  cases instruction with
  | op code => cases h
  | push data =>
    have hkey : PublicKey.ofBytes? data = some key := h
    apply PublicKey.compressed_of_ofBytes? hkey
    simpa [pushesUncompressedKey, hkey] using hpush

theorem Script.compressedKeys_of_not_hasUncompressedKey {script : Bytes}
    (h : hasUncompressedKey script = false) : CompressedKeys script := by
  intro instruction hmem key hkey
  have hpush := List.any_eq_false.mp h instruction hmem
  exact Instruction.compressed_of_key? hkey (Bool.eq_false_iff.mpr hpush)

/-! ### Addresses of output scripts -/

namespace Address

theorem ofScriptAs?_eq_some {network : Network} {script : Bytes} {kind : AddressKind}
    {address : Address} (h : ofScriptAs? network script kind = some address) :
    address.script = script ∧ address.isFor network := by
  cases kind with
  | p2pkh | p2sh | p2wpkh | p2wsh =>
    obtain ⟨hash, hhash, rfl⟩ := Option.map_eq_some_iff.mp h
    have hscript := enclosed?_eq_some_iff.mp hhash
    constructor
    · exact hscript.symm
    · simp [isFor]

theorem ofScript?_eq_some {network : Network} {script : Bytes} {address : Address}
    (h : ofScript? network script = some address) :
    address.script = script ∧ address.isFor network := by
  obtain ⟨kind, -, hkind⟩ := List.exists_of_findSome?_eq_some h
  exact ofScriptAs?_eq_some hkind

theorem isSome_ofScriptAs? (network network' : Network) (script : Bytes) (kind : AddressKind) :
    (ofScriptAs? network script kind).isSome = (ofScriptAs? network' script kind).isSome := by
  cases kind <;> simp [ofScriptAs?]

end Address

theorem Template.fits_of_addressKind? {template : Template} {kind : AddressKind}
    (h : template.addressKind? = some kind) (script : Bytes) :
    template.fits script = (Address.ofScriptAs? .bitcoin script kind).isSome := by
  cases template <;> cases h <;> rfl

namespace Payment

/-- The output script holds the hash of the script, which may stand behind such an output. -/
def CommitsTo (payment : Payment) (script : Bytes) : Prop :=
  match payment.template with
  | .p2sh =>
    payment.outputScript = [0xa9, 0x14] ++ (hash160 script).val ++ [0x87] ∧ script.length ≤ 520
  | .p2wsh =>
    payment.outputScript = [0x00, 0x20] ++ (sha256 script).val ∧ Script.CompressedKeys script
  | _ => False

/-- The parts of a payment agree with each other. -/
structure Consistent (network : Network) (payment : Payment) : Prop where
  isSome_address : payment.address.isSome = payment.template.hasAddress
  address : ∀ address, payment.address = some address →
    address.script = payment.outputScript ∧ address.isFor network
  redeemScript : ∀ script, payment.redeemScript = some script → payment.CommitsTo script

section Making

variable {network : Network} {payment : Payment}

theorem consistent_of_not_hasAddress {template : Template} (h : template.hasAddress = false)
    (script : Bytes) : Consistent network ⟨template, script, none, none⟩ where
  isSome_address := h.symm
  address := by simp
  redeemScript := by simp

theorem consistent_ofAddress {address : Address} (h : address.isFor network) :
    Consistent network (ofAddress address) where
  isSome_address := by simp [ofAddress, Template.hasAddress, AddressKind.addressKind?_template]
  address := by
    intro found hfound
    obtain rfl := Option.some.inj hfound
    exact ⟨rfl, h⟩
  redeemScript := by simp [ofAddress]

theorem Consistent.withRedeemScript (h : Consistent network payment) {script : Bytes}
    (hcommits : payment.CommitsTo script) :
    Consistent network { payment with redeemScript := some script } where
  isSome_address := h.isSome_address
  address := h.address
  redeemScript := by
    intro found hfound
    rwa [← Option.some.inj hfound]

theorem consistent_p2pkh (key : PublicKey) : Consistent network (p2pkh key network) := by
  rw [p2pkh_eq_ofAddress]
  apply consistent_ofAddress
  simp [Address.isFor]

theorem p2wpkh_eq_ok_iff {key : PublicKey} : p2wpkh key network = .ok payment ↔
    key.compressed ∧ payment = ofAddress (.p2wpkh network (hash160 key.toBytes)) := by
  by_cases hcompressed : key.compressed
  · rw [p2wpkh_eq_ofAddress hcompressed]
    simp [hcompressed, eq_comm]
  · simp [p2wpkh, hcompressed]

theorem consistent_p2wpkh {key : PublicKey} (h : p2wpkh key network = .ok payment) :
    Consistent network payment := by
  obtain ⟨-, rfl⟩ := p2wpkh_eq_ok_iff.mp h
  apply consistent_ofAddress
  simp [Address.isFor]

theorem consistent_p2ms {threshold : Nat} {keys : List PublicKey}
    (h : p2ms threshold keys = .ok payment) : Consistent network payment := by
  obtain ⟨_, -, h⟩ := Except.bind_eq_ok_iff.mp h
  rw [← Except.ok.inj h]
  exact consistent_of_not_hasAddress rfl _

theorem p2sh_eq_ok_iff {redeem : Payment} : p2sh redeem network = .ok payment ↔
    redeem.outputScript.length ≤ 520 ∧
      payment = { ofAddress (.p2sh network.kind (hash160 redeem.outputScript)) with
        redeemScript := some redeem.outputScript } := by
  rw [p2sh, Except.bind_eq_ok_iff]
  unfold checkRedeemScriptSize
  by_cases hsize : maxScriptElementSize < redeem.outputScript.length
  · have hlarge : ¬redeem.outputScript.length ≤ 520 := Nat.not_le.mpr hsize
    simp [hsize, hlarge]
  · have hsmall : redeem.outputScript.length ≤ 520 := Nat.not_lt.mp hsize
    simp [hsize, hsmall, pure, Except.pure, ofAddress, Address.kind, AddressKind.template, eq_comm]

theorem p2wsh_eq_ok_iff {witness : Payment} : p2wsh witness network = .ok payment ↔
    Script.hasUncompressedKey witness.outputScript = false ∧
      payment = { ofAddress (.p2wsh network (sha256 witness.outputScript)) with
        redeemScript := some witness.outputScript } := by
  cases hkeys : Script.hasUncompressedKey witness.outputScript with
  | true => simp [p2wsh, hkeys]
  | false => simp [p2wsh_eq_ofAddress hkeys, eq_comm]

theorem consistent_p2sh {redeem : Payment} (h : p2sh redeem network = .ok payment) :
    Consistent network payment := by
  obtain ⟨hsize, rfl⟩ := p2sh_eq_ok_iff.mp h
  apply (consistent_ofAddress _).withRedeemScript
  · exact ⟨rfl, hsize⟩
  · simp [Address.isFor]

theorem consistent_p2wsh {witness : Payment} (h : p2wsh witness network = .ok payment) :
    Consistent network payment := by
  obtain ⟨hkeys, rfl⟩ := p2wsh_eq_ok_iff.mp h
  apply (consistent_ofAddress _).withRedeemScript
  · exact ⟨List.append_nil _, Script.compressedKeys_of_not_hasUncompressedKey hkeys⟩
  · simp [Address.isFor]

theorem consistent_ofAddressText {text : String} (h : ofAddressText text network = .ok payment) :
    Consistent network payment := by
  rw [ofAddressText_eq] at h
  obtain ⟨address, -, rfl⟩ := Except.map_eq_ok_iff.mp h
  exact consistent_ofAddress address.property

theorem consistent_ofOutputScript {script : Bytes}
    (h : ofOutputScript script network = .ok payment) : Consistent network payment := by
  unfold ofOutputScript classify at h
  split at h
  · cases h
  · rename_i template _
    split at h
    · rename_i htemplate
      split at h
      · rename_i address haddress
        rw [← Except.ok.inj h]
        refine ⟨htemplate.symm, fun found hfound => ?_, by simp⟩
        rw [← Option.some.inj hfound]
        exact Address.ofScript?_eq_some haddress
      · cases h
    · rename_i htemplate
      rw [← Except.ok.inj h]
      exact consistent_of_not_hasAddress (Bool.eq_false_iff.mpr htemplate) script

theorem consistent_of_mapM {α : Type} {make : α → Except Error Payment}
    (hmake : ∀ x payment, make x = .ok payment → Consistent network payment) {xs : List α}
    {payments : List Payment} (h : xs.mapM make = .ok payments) :
    ∀ payment ∈ payments, Consistent network payment := by
  intro payment hmem
  obtain ⟨x, -, hx⟩ := exists_of_forall₂ (mapM_eq_ok_iff.mp h).flip hmem
  exact hmake x payment hx

end Making

end Payment

/-! ### Evaluation -/

section Evaluation

open Payment

variable {ctx : Context} {network : Network} {payments : List Payment}

theorem Wrapper.payment_eq_ok {w : Wrapper} {inner payment : Payment}
    (h : w.payment inner network = .ok payment) :
    Consistent network payment ∧ payment.redeemScript = some inner.outputScript := by
  cases w with
  | sh =>
    obtain ⟨-, hpayment⟩ := p2sh_eq_ok_iff.mp h
    exact ⟨consistent_p2sh h, congrArg redeemScript hpayment⟩
  | wsh =>
    obtain ⟨-, hpayment⟩ := p2wsh_eq_ok_iff.mp h
    exact ⟨consistent_p2wsh h, congrArg redeemScript hpayment⟩

theorem KeyForm.consistent_payments {form : KeyForm} {key : KeyExpr}
    (h : form.payments ctx network key = .ok payments) :
    ∀ payment ∈ payments, Consistent network payment := by
  obtain ⟨keys, -, h⟩ := Except.bind_eq_ok_iff.mp h
  have hpk : ∀ payment ∈ keys.map p2pk, Consistent network payment :=
    List.forall_mem_map.mpr fun key _ => consistent_of_not_hasAddress rfl _
  have hpkh : ∀ payment ∈ keys.map (p2pkh · network), Consistent network payment :=
    List.forall_mem_map.mpr fun key _ => consistent_p2pkh key
  have hwpkh {witness : List Payment} (h : keys.mapM (p2wpkh · network) = .ok witness) :
      ∀ payment ∈ witness, Consistent network payment :=
    consistent_of_mapM (fun _ _ => consistent_p2wpkh) h
  cases form with
  | pk =>
    rw [← Except.ok.inj h]
    exact hpk
  | pkh =>
    rw [← Except.ok.inj h]
    exact hpkh
  | wpkh => exact hwpkh h
  | combo =>
    -- Only a compressed key has witness forms; the others are there in either case.
    have hcombo {witness : List Payment}
        (hwitness : ∀ payment ∈ witness, Consistent network payment)
        (h : (do
          let nested ← witness.mapM (p2sh · network)
          return keys.map p2pk ++ keys.map (p2pkh · network) ++ witness ++ nested) =
            Except.ok payments) : ∀ payment ∈ payments, Consistent network payment := by
      obtain ⟨nested, hnested, h⟩ := Except.bind_eq_ok_iff.mp h
      have hsh := consistent_of_mapM (fun _ _ => consistent_p2sh) hnested
      rw [← Except.ok.inj h]
      simp only [List.forall_mem_append]
      exact ⟨⟨⟨hpk, hpkh⟩, hwitness⟩, hsh⟩
    by_cases hcompressed : key.isCompressed
    · simp only [hcompressed, if_true] at h
      obtain ⟨witness, hwitness, h⟩ := Except.bind_eq_ok_iff.mp h
      exact hcombo (hwpkh hwitness) h
    · simp only [hcompressed, Bool.false_eq_true, if_false, Except.ok_bind] at h
      have hnil : ∀ payment ∈ ([] : List Payment), Consistent network payment := by simp
      exact hcombo hnil h

namespace ScriptExpr

/-- Only an address was checked against a network elsewhere: when the expression was built. -/
theorem consistent_payments {P : KeyExpr → Prop} {e : ScriptExpr} (hbuilt : (Expr.script e).Built P)
    (h : e.payments ctx = .ok payments) :
    ∀ payment ∈ payments, Consistent e.network payment := by
  cases e with
  | wrapped label w inner =>
    obtain ⟨wrapped, -, h⟩ := Except.bind_eq_ok_iff.mp h
    exact consistent_of_mapM (fun _ _ hpayment => (Wrapper.payment_eq_ok hpayment).1) h
  | keyed label form key =>
    have hnetwork : key.network = label.network :=
      Built.network hbuilt (.key key) List.mem_cons_self
    rw [payments_keyed fun _ => hnetwork] at h
    exact KeyForm.consistent_payments h
  | multisig label sorted threshold keys =>
    obtain ⟨sets, -, h⟩ := Except.bind_eq_ok_iff.mp h
    exact consistent_of_mapM (fun _ _ => consistent_p2ms) h
  | addr label address =>
    have hnetwork : address.network = label.network :=
      Built.network hbuilt (.addr address) List.mem_cons_self
    rw [← Except.ok.inj h, List.forall_mem_singleton]
    apply consistent_ofAddress
    change address.address.isFor label.network
    rw [← hnetwork]
    exact address.isFor
  | raw label hex =>
    obtain ⟨payment, hpayment, h⟩ := Except.bind_eq_ok_iff.mp h
    rw [← Except.ok.inj h, List.forall_mem_singleton]
    exact consistent_ofOutputScript hpayment

/-- The scripts behind the payments of a wrapper are the output scripts of what it wraps. -/
theorem redeemScripts_wrapped {label : Label} {w : Wrapper} {inner : ScriptExpr}
    (h : (wrapped label w inner).payments ctx = .ok payments) :
    ∃ commitments, inner.payments ctx = .ok commitments ∧
      payments.map redeemScript = commitments.map (some ·.outputScript) := by
  obtain ⟨commitments, hinner, h⟩ := Except.bind_eq_ok_iff.mp h
  refine ⟨commitments, hinner, ?_⟩
  symm
  rw [← List.forall₂_eq_eq_eq, List.forall₂_map_left_iff, List.forall₂_map_right_iff]
  refine (mapM_eq_ok_iff.mp h).imp fun inner payment hpayment => ?_
  exact (Wrapper.payment_eq_ok hpayment).2.symm

end ScriptExpr

end Evaluation

namespace Payment

/-- The ways to make a payment on a network. -/
inductive Made (network : Network) : Payment → Prop
  | p2pk (key : PublicKey) : Made network (p2pk key)
  | p2pkh (key : PublicKey) : Made network (p2pkh key network)
  | p2wpkh {key : PublicKey} {payment : Payment} (h : p2wpkh key network = .ok payment) :
      Made network payment
  | p2ms {threshold : Nat} {keys : List PublicKey} {payment : Payment}
      (h : p2ms threshold keys = .ok payment) : Made network payment
  | p2sh {redeem payment : Payment} (h : p2sh redeem network = .ok payment) : Made network payment
  | p2wsh {witness payment : Payment} (h : p2wsh witness network = .ok payment) :
      Made network payment
  | ofAddressText {text : String} {payment : Payment}
      (h : ofAddressText text network = .ok payment) : Made network payment
  | ofOutputScript {script : Bytes} {payment : Payment}
      (h : ofOutputScript script network = .ok payment) : Made network payment
  | evaluated {ctx : Context} {e : ScriptExpr} {payments : List Payment} {payment : Payment}
      (hreachable : Reachable (.script e)) (hnetwork : e.network = network)
      (h : e.payments ctx = .ok payments) (hmem : payment ∈ payments) : Made network payment

theorem Made.consistent {network : Network} {payment : Payment} (h : Made network payment) :
    Consistent network payment := by
  cases h with
  | p2pk key => exact consistent_of_not_hasAddress rfl _
  | p2pkh key => exact consistent_p2pkh key
  | p2wpkh h => exact consistent_p2wpkh h
  | p2ms h => exact consistent_p2ms h
  | p2sh h => exact consistent_p2sh h
  | p2wsh h => exact consistent_p2wsh h
  | ofAddressText h => exact consistent_ofAddressText h
  | ofOutputScript h => exact consistent_ofOutputScript h
  | evaluated hreachable hnetwork h hmem =>
    rw [← hnetwork]
    exact ScriptExpr.consistent_payments hreachable.built h _ hmem

end Payment

/-- Every payment agrees with itself, and wrapping a script commits to its output scripts one by
one. -/
theorem payments_consistent :
    (∀ (network : Network) (payment : Payment), Payment.Made network payment →
      payment.Consistent network) ∧
      ∀ (ctx : Context) (label : Label) (w : Wrapper) (inner : ScriptExpr)
        (payments : List Payment), (ScriptExpr.wrapped label w inner).payments ctx = .ok payments →
          ∃ commitments, inner.payments ctx = .ok commitments ∧
            payments.length = commitments.length ∧
              payments.map Payment.redeemScript = commitments.map (some ·.outputScript) := by
  constructor
  · intro network payment h
    exact h.consistent
  · intro ctx label w inner payments h
    obtain ⟨commitments, hinner, hscripts⟩ := ScriptExpr.redeemScripts_wrapped h
    have hlength := congrArg List.length hscripts
    rw [List.length_map, List.length_map] at hlength
    exact ⟨commitments, hinner, hlength, hscripts⟩

theorem payments_consistent_sh :
    ∃ e payments, ScriptExpr.parse {} .bitcoin none
        "sh(wpkh(0279be667ef9dcbbac55a06295ce870b07029bfcdb2dce28d959f2815b16f81798))" = .ok e ∧
      e.payments {} = .ok payments ∧ (∀ payment ∈ payments, payment.Consistent .bitcoin) ∧
        ∃ inner commitments, e.inner? = some inner ∧ inner.payments {} = .ok commitments ∧
          payments.length = commitments.length ∧
            payments.map Payment.redeemScript = commitments.map (some ·.outputScript) := by
  have hread : (do
      let e ← ScriptExpr.parse {} .bitcoin none
        "sh(wpkh(0279be667ef9dcbbac55a06295ce870b07029bfcdb2dce28d959f2815b16f81798))"
      let payments ← e.payments {}
      return (e.network, e.inner?.isSome, payments.length) : Except Error (Network × Bool × Nat)) =
        .ok (.bitcoin, true, 1) := by
    decide +kernel
  obtain ⟨e, hparse, hread⟩ := Except.bind_eq_ok_iff.mp hread
  obtain ⟨payments, hpayments, hread⟩ := Except.bind_eq_ok_iff.mp hread
  have hresult := Except.ok.inj hread
  simp only [Prod.mk.injEq] at hresult
  obtain ⟨hnetwork, hinner, -⟩ := hresult
  have hreachable : Reachable (.script e) := .parseScript rfl hparse
  refine ⟨e, payments, hparse, hpayments, fun payment hmem => ?_, ?_⟩
  · exact payments_consistent.1 .bitcoin payment (.evaluated hreachable hnetwork hpayments hmem)
  · cases e with
    | wrapped label w inner =>
      obtain ⟨commitments, hinner⟩ := payments_consistent.2 {} label w inner payments hpayments
      exact ⟨inner, commitments, rfl, hinner⟩
    | _ => cases hinner

end OutputDescriptor
