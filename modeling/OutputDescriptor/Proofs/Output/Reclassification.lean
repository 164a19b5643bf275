import OutputDescriptor.Proofs.Output.Classification
import OutputDescriptor.Proofs.Script.Acceptance

/-! Output scripts are recognised as what they were written for: a payment is known again from its
output script, and an address from the script that pays to it. -/
namespace OutputDescriptor

open Payment

/-! ### Addresses -/

namespace Address

theorem ofScriptAs?_script {address : Address} {network : Network} (h : address.isFor network) :
    ofScriptAs? network address.script address.kind = some address := by
  cases address with
  | p2pkh kind hash | p2sh kind hash =>
    have hkind : kind = network.kind := of_decide_eq_true h
    rw [hkind]
    exact Option.map_eq_some_iff.mpr ⟨hash, enclosed?_eq_some_iff.mpr rfl, rfl⟩
  | p2wpkh own hash | p2wsh own hash =>
    have hown : own = network := of_decide_eq_true h
    rw [hown]
    exact Option.map_eq_some_iff.mpr ⟨hash, enclosed?_eq_some_iff.mpr rfl, rfl⟩

theorem fits_script {address : Address} {network : Network} (h : address.isFor network) :
    address.kind.template.fits address.script := by
  have hread : (ofScriptAs? network address.script address.kind).isSome := by
    rw [ofScriptAs?_script h]
    rfl
  rw [Template.fits_of_addressKind? (AddressKind.addressKind?_template _),
    isSome_ofScriptAs? _ network]
  exact hread

end Address

namespace Payment

variable {network : Network}

theorem ofOutputScript_address {address : Address} (h : address.isFor network) :
    ofOutputScript address.script network = .ok (ofAddress address) := by
  rw [ofOutputScript_of_fits (Address.fits_script h), AddressKind.addressKind?_template]
  change Except.ok (Payment.mk _ _ (Address.ofScriptAs? network address.script address.kind) _) = _
  rw [Address.ofScriptAs?_script h]
  rfl

theorem ofOutputScript_p2pk (key : PublicKey) :
    ofOutputScript (p2pk key).outputScript network = .ok (p2pk key) := by
  have hfits : Template.fits .p2pk (p2pk key).outputScript := by
    change (Script.payToKey? (Script.payToKey key)).isSome
    rw [Script.payToKey?_payToKey]
    rfl
  exact ofOutputScript_of_fits hfits network

/-- The payments that are made to keys and to other payments, multisig scripts apart. -/
inductive Composed (network : Network) : Payment → Prop
  | p2pk (key : PublicKey) : Composed network (p2pk key)
  | p2pkh (key : PublicKey) : Composed network (p2pkh key network)
  | p2wpkh {key : PublicKey} {payment : Payment} (h : p2wpkh key network = .ok payment) :
      Composed network payment
  | p2sh {redeem payment : Payment} (h : p2sh redeem network = .ok payment) :
      Composed network payment
  | p2wsh {witness payment : Payment} (h : p2wsh witness network = .ok payment) :
      Composed network payment

/-- Apart from the script behind it, a composed payment is one to a key or to an address of the
network. -/
theorem Composed.forget {payment : Payment} (h : Composed network payment) :
    (∃ key, payment = Payment.p2pk key) ∨
      ∃ address : Address, address.isFor network ∧
        { payment with redeemScript := none } = ofAddress address := by
  cases h with
  | p2pk key => exact .inl ⟨key, rfl⟩
  | p2pkh key =>
    refine .inr ⟨.p2pkh network.kind (hash160 key.toBytes), ?_, ?_⟩
    · simp [Address.isFor]
    · rw [p2pkh_eq_ofAddress]
      rfl
  | @p2wpkh key payment h =>
    obtain ⟨-, rfl⟩ := p2wpkh_eq_ok_iff.mp h
    refine .inr ⟨.p2wpkh network (hash160 key.toBytes), ?_, rfl⟩
    simp [Address.isFor]
  | @p2sh redeem payment h =>
    obtain ⟨-, rfl⟩ := p2sh_eq_ok_iff.mp h
    refine .inr ⟨.p2sh network.kind (hash160 redeem.outputScript), ?_, rfl⟩
    simp [Address.isFor]
  | @p2wsh witness payment h =>
    obtain ⟨-, rfl⟩ := p2wsh_eq_ok_iff.mp h
    refine .inr ⟨.p2wsh network (sha256 witness.outputScript), ?_, rfl⟩
    simp [Address.isFor]

theorem Composed.ofOutputScript {payment : Payment} (h : Composed network payment) :
    ofOutputScript payment.outputScript network = .ok { payment with redeemScript := none } := by
  obtain ⟨key, rfl⟩ | ⟨address, hfor, hforget⟩ := h.forget
  · exact ofOutputScript_p2pk key
  · have hscript : payment.outputScript = address.script := congrArg outputScript hforget
    rw [hforget, hscript]
    exact ofOutputScript_address hfor

/-! ### Multisig scripts -/

theorem p2ms_eq_ok_iff {threshold : Nat} {keys : List PublicKey} {payment : Payment} :
    p2ms threshold keys = .ok payment ↔ 1 ≤ threshold ∧ threshold ≤ keys.length ∧
      keys.length ≤ 20 ∧ payment = ⟨.p2ms, Script.multisig threshold keys, none, none⟩ := by
  rw [p2ms, Except.bind_eq_ok_iff]
  unfold checkMultisig maxMultisigKeys
  by_cases hcount : keys.length = 0 ∨ 20 < keys.length
  · rw [if_pos hcount]
    constructor
    · rintro ⟨_, h, -⟩
      cases h
    · omega
  · by_cases hthreshold : threshold = 0 ∨ keys.length < threshold
    · rw [if_neg hcount, if_pos hthreshold]
      constructor
      · rintro ⟨_, h, -⟩
        cases h
      · omega
    · rw [if_neg hcount, if_neg hthreshold]
      constructor
      · rintro ⟨_, -, h⟩
        exact ⟨by omega, by omega, by omega, (Except.ok.inj h).symm⟩
      · rintro ⟨-, -, -, rfl⟩
        exact ⟨(), rfl, rfl⟩

theorem length_multisig_ge (threshold : Nat) (keys : List PublicKey) :
    34 * keys.length ≤ (Script.multisig threshold keys).length := by
  have hkeys := keys.length_eq_countP_add_countP (·.compressed)
  simp only [Script.multisig, List.length_append, Instruction.length_pushKeys]
  simp only [Bool.not_eq_true, Bool.decide_eq_false] at hkeys
  omega

section Multisig

variable {threshold : Nat} {keys : List PublicKey} (hpos : 1 ≤ threshold)
  (hle : threshold ≤ keys.length)
include hpos hle

theorem ofOutputScript_multisig (hcodes : keys.length ≤ 16) :
    ofOutputScript (Script.multisig threshold keys) network =
      .ok ⟨.p2ms, Script.multisig threshold keys, none, none⟩ := by
  have hfits : Template.fits .p2ms (Script.multisig threshold keys) := by
    change (Script.multisig? (Script.multisig threshold keys)).isSome
    rw [Script.multisig?_multisig hpos hle, if_pos hcodes]
    rfl
  exact ofOutputScript_of_fits hfits network

/-- The number of keys is pushed as data if it has no code, and then is not read as a number. -/
theorem ofOutputScript_multisig_of_lt (hcodes : 16 < keys.length) :
    ofOutputScript (Script.multisig threshold keys) network =
      .error (.output (Script.multisig threshold keys)) := by
  have hlong := length_multisig_ge threshold keys
  have haddress (kind : AddressKind) :
      ¬kind.template.fits (Script.multisig threshold keys) := by
    intro hfits
    have hlength := Template.length_of_fits kind hfits
    have hshort : kind.scriptLength ≤ 34 := by cases kind <;> decide
    omega
  apply ofOutputScript_of_not_fits
  intro template
  cases template with
  | p2pkh => exact haddress .p2pkh
  | p2wpkh => exact haddress .p2wpkh
  | p2sh => exact haddress .p2sh
  | p2wsh => exact haddress .p2wsh
  | p2pk =>
    obtain ⟨key, others, rfl⟩ := List.exists_cons_of_length_pos (show 0 < keys.length by omega)
    simp [Template.fits, Script.payToKey?, Script.ofScript?_multisig]
  | p2ms =>
    rw [Template.fits, Script.multisig?_multisig hpos hle, if_neg (by omega)]
    simp
  | nulldata =>
    simp [Template.fits, Script.isNullData, Script.ofScript?_multisig, Instruction.isPush]

end Multisig

/-- A multisig output is recognised exactly if the number of its keys has a code of its own. -/
theorem ofOutputScript_p2ms {threshold : Nat} {keys : List PublicKey} {payment : Payment}
    (h : p2ms threshold keys = .ok payment) (network : Network) :
    (keys.length ≤ 16 → ofOutputScript payment.outputScript network = .ok payment ∧
      payment.template = .p2ms ∧
        Script.multisig? payment.outputScript = some (threshold, keys)) ∧
    (16 < keys.length →
      ofOutputScript payment.outputScript network = .error (.output payment.outputScript) ∧
        Script.multisig? payment.outputScript = none) := by
  obtain ⟨hpos, hle, -, rfl⟩ := p2ms_eq_ok_iff.mp h
  constructor
  · intro hcodes
    refine ⟨ofOutputScript_multisig hpos hle hcodes, rfl, ?_⟩
    rw [Script.multisig?_multisig hpos hle, if_pos hcodes]
  · intro hcodes
    refine ⟨ofOutputScript_multisig_of_lt hpos hle hcodes, ?_⟩
    rw [Script.multisig?_multisig hpos hle, if_neg (by omega)]

theorem ofOutputScript_p2ms_two_of_three :
    let keys : List PublicKey := [⟨.generator, true⟩, ⟨.generator, false⟩, ⟨.generator, true⟩]
    ∃ payment, p2ms 2 keys = .ok payment ∧
      ofOutputScript payment.outputScript .testnet = .ok payment ∧ payment.template = .p2ms ∧
        Script.multisig? payment.outputScript = some (2, keys) := by
  intro keys
  have hpayment : p2ms 2 keys = .ok ⟨.p2ms, Script.multisig 2 keys, none, none⟩ := rfl
  exact ⟨_, hpayment, (ofOutputScript_p2ms hpayment .testnet).1 (by decide)⟩

/-- One of seventeen keys is a payment, but not recognised as one. -/
theorem not_ofOutputScript_p2ms_seventeen :
    let keys : List PublicKey := List.replicate 17 ⟨.generator, true⟩
    ∃ payment, p2ms 1 keys = .ok payment ∧
      ofOutputScript payment.outputScript .bitcoin ≠ .ok payment ∧
        Script.multisig? payment.outputScript ≠ some (1, keys) := by
  intro keys
  have hpayment : p2ms 1 keys = .ok ⟨.p2ms, Script.multisig 1 keys, none, none⟩ := rfl
  refine ⟨_, hpayment, ?_, ?_⟩
  · rw [ofOutputScript_multisig_of_lt (by decide) (by decide) (by decide)]
    simp
  · rw [Script.multisig?_multisig (by decide) (by decide), if_neg (by decide)]
    simp

end Payment

/-! ### Descriptors of one output -/

namespace ScriptExpr

variable {ctx : Context} {network : Network}

/-- A complete descriptor on leaf arguments is read as what is assembled from them. -/
theorem exists_parse_leaf {type : ScriptType} {args : List String} {children : List Expr}
    (h : Grammar.LeafArgs ctx network type args)
    (hread : readChildren ctx network type (args.map String.toList) = .ok children) :
    ∃ label e, label.network = network ∧ assemble label type children = .ok e ∧
      parse ctx network none (Grammar.callOf type args) = .ok e := by
  have hderives : Grammar.Derives ctx network none (.leaf type args) (Grammar.callOf type args) :=
    .leaf rfl h
  have hnone : Call.Suffix true none [] := rfl
  obtain ⟨e, hparse, houtline⟩ := hderives.exists_parse hnone (by simp)
  rw [String.ofList_nil, String.append_empty] at hparse
  obtain ⟨call, hreads⟩ := parse_eq_ok_iff.mp hparse
  have hleaf : ∀ w, e.type ≠ .wrapper w := by
    cases e with
    | wrapped => cases houtline
    | _ => simp [ScriptExpr.type]
  obtain ⟨-, hargs⟩ := leafArgs_of_readChildren hreads.readChildren_eq_ok hreads.shaped hleaf
  rw [houtline] at hargs
  obtain ⟨htype, hargs⟩ := Outline.leaf.inj hargs
  have hsame : (args.map String.toList) = call.args := by simp [hargs, Function.comp_def]
  rw [hsame, htype, hreads.readChildren_eq_ok] at hread
  exact ⟨e.label, e, congrArg Label.network hreads.label,
    assemble_eq_ok_iff.mpr ⟨rfl, htype.symm, Except.ok.inj hread, hreads.shaped⟩, hparse⟩

end ScriptExpr

theorem HexExpr.exists_parse_encode (network : Network) {script : Bytes} (h : script ≠ []) :
    ∃ hex, HexExpr.parse network (Hex.encode script) = .ok hex ∧ hex.value = script := by
  have hdecode : Hex.decode? (Hex.encode script) = some script := by
    rw [Hex.decode?, Hex.encode, String.toList_ofList, Hex.decodeChars_encodeChars]
  refine ⟨⟨network, Hex.encode script, script, h⟩, ?_, rfl⟩
  rw [HexExpr.parse, hdecode]
  exact dif_pos h

/-- The text and the output script of an address give one payment, and composed payments are known
again. -/
theorem output_scripts_recognised (network : Network) :
    (∀ (text : String) (payment : Payment), Payment.ofAddressText text network = .ok payment →
      Payment.ofOutputScript payment.outputScript network = .ok payment ∧
        ∀ ctx, ∃ addr raw,
          ScriptExpr.parse ctx network none ("addr(" ++ text ++ ")") = .ok addr ∧
          ScriptExpr.parse ctx network none ("raw(" ++ Hex.encode payment.outputScript ++ ")") =
            .ok raw ∧
          ∀ e ∈ [addr, raw], e.payments ctx = .ok [payment] ∧
            e.outputScripts ctx = .ok [payment.outputScript] ∧
              e.addresses ctx = .ok payment.address.toList) ∧
    ∀ payment, Payment.Composed network payment →
      Payment.ofOutputScript payment.outputScript network =
        .ok { payment with redeemScript := none } := by
  refine ⟨fun text payment h => ?_, fun payment h => h.ofOutputScript⟩
  rw [Payment.ofAddressText_eq] at h
  obtain ⟨⟨address, hfor⟩, haddress, rfl⟩ := Except.map_eq_ok_iff.mp h
  have hread : Payment.ofOutputScript address.script network = .ok (Payment.ofAddress address) :=
    Payment.ofOutputScript_address hfor
  refine ⟨hread, fun ctx => ?_⟩
  have haddr : AddrExpr.parse network text = .ok ⟨network, text, address, hfor⟩ := by
    rw [AddrExpr.parse, haddress]
    rfl
  have hne : address.script ≠ [] := by
    cases address <;> simp [Address.script, Address.frame, Address.kind]
  obtain ⟨hex, hhex, hvalue⟩ := HexExpr.exists_parse_encode network hne
  have haddrArg : ScriptExpr.readChildren ctx network .addr [text.toList] =
      .ok [.addr ⟨network, text, address, hfor⟩] :=
    ScriptExpr.readChildren_addr_eq_ok_iff.mpr ⟨_, rfl, by rwa [String.ofList_toList]⟩
  have hrawArg : ScriptExpr.readChildren ctx network .raw
      [(Hex.encode address.script).toList] = .ok [.hex hex] :=
    ScriptExpr.readChildren_raw_eq_ok_iff.mpr ⟨_, rfl, by rwa [String.ofList_toList]⟩
  obtain ⟨label, addr, -, haddr', haddr⟩ := ScriptExpr.exists_parse_leaf (.address haddr) haddrArg
  obtain ⟨label', raw, hnetwork, hraw', hraw⟩ := ScriptExpr.exists_parse_leaf (.hex hhex) hrawArg
  obtain rfl : .addr label ⟨network, text, address, hfor⟩ = addr := Except.ok.inj haddr'
  obtain rfl : .raw label' hex = raw := Except.ok.inj hraw'
  refine ⟨_, _, haddr, hraw, ?_⟩
  rw [List.forall_mem_cons, List.forall_mem_singleton]
  constructor
  · exact ⟨rfl, rfl, rfl⟩
  · rw [← hvalue, ← hnetwork] at hread
    refine ⟨?_, ?_, ?_⟩
    · rw [ScriptExpr.payments_raw, hread]
      rfl
    · rw [ScriptExpr.outputScripts, hvalue]
      rfl
    · simp only [ScriptExpr.addresses, hread]

/-- A witness address and its two descriptors, and a nested payment. -/
theorem output_scripts_recognised_testnet :
    (∃ payment addr raw,
      Payment.ofAddressText "tb1qthynqggdmz9vvde0pecnrr2ktmh7w2ljgenyg0" .testnet = .ok payment ∧
      Payment.ofOutputScript payment.outputScript .testnet = .ok payment ∧
      ScriptExpr.parse {} .testnet none "addr(tb1qthynqggdmz9vvde0pecnrr2ktmh7w2ljgenyg0)" =
        .ok addr ∧
      ScriptExpr.parse {} .testnet none ("raw(" ++ Hex.encode payment.outputScript ++ ")") =
        .ok raw ∧
      addr.payments {} = .ok [payment] ∧ raw.payments {} = .ok [payment]) ∧
    ∃ payment, Payment.p2sh (Payment.p2pk ⟨.generator, true⟩) .testnet = .ok payment ∧
      Payment.ofOutputScript payment.outputScript .testnet =
        .ok { payment with redeemScript := none } := by
  constructor
  · have hread : (Payment.ofAddressText "tb1qthynqggdmz9vvde0pecnrr2ktmh7w2ljgenyg0"
        .testnet).map Payment.template = .ok .p2wpkh := by
      decide +kernel
    obtain ⟨payment, hpayment, -⟩ := Except.map_eq_ok_iff.mp hread
    obtain ⟨hscript, hboth⟩ := (output_scripts_recognised .testnet).1 _ payment hpayment
    obtain ⟨addr, raw, haddr, hraw, hall⟩ := hboth {}
    have hpayments : ∀ e ∈ [addr, raw], e.payments {} = .ok [payment] := fun e he => (hall e he).1
    rw [List.forall_mem_cons, List.forall_mem_singleton] at hpayments
    exact ⟨payment, addr, raw, hpayment, hscript, haddr, hraw, hpayments⟩
  · have hpayment : Payment.p2sh (Payment.p2pk ⟨.generator, true⟩) .testnet =
        .ok { Payment.ofAddress (.p2sh Network.testnet.kind
          (hash160 (Payment.p2pk ⟨.generator, true⟩).outputScript)) with
            redeemScript := some (Payment.p2pk ⟨.generator, true⟩).outputScript } :=
      Payment.p2sh_eq_ok_iff.mpr ⟨by decide, rfl⟩
    exact ⟨_, hpayment, (output_scripts_recognised .testnet).2 _ (.p2sh hpayment)⟩

end OutputDescriptor
