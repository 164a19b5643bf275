import OutputDescriptor.Proofs.Output.Reclassification
import OutputDescriptor.Proofs.Text.Base58
import OutputDescriptor.Proofs.Text.Segwit

/-! Addresses are read back from the text that they are written as. -/
namespace OutputDescriptor

/-! ### Letters -/

theorem map_toLower_of_isUpper {text : List Char} (h : ∀ c ∈ text, c.isUpper = false) :
    text.map Char.toLower = text := by
  refine (List.map_congr_left fun c hc => ?_).trans (List.map_id text)
  have hc := h c hc
  unfold Char.toLower
  split
  · rename_i hupper
    rw [show c.isUpper = true from decide_eq_true hupper] at hc
    cases hc
  · rfl

/-- Characters that are no capitals, and are restored if their capitals are written small. -/
def isSmall (c : Char) : Bool :=
  !c.isUpper && !c.toUpper.isLower && c.toUpper.toLower = c

namespace SegwitText

theorem isSmall_of_mem_encode {address : SegwitText}
    (h : ∀ c ∈ address.humanReadablePart, isSmall c) : ∀ c ∈ encode address, isSmall c := by
  have hsymbol : ∀ s : Symbol, isSmall s.toChar := by decide
  rw [encode_eq, List.forall_mem_append, List.forall_mem_cons]
  refine ⟨h, by decide, fun c hc => ?_⟩
  obtain ⟨s, -, rfl⟩ := List.mem_map.mp hc
  exact hsymbol s

end SegwitText

namespace Address

def segwit? : Address → Option SegwitText
  | .p2pkh _ _ | .p2sh _ _ => none
  | .p2wpkh network hash => some ⟨network.humanReadablePart, 0, hash.val⟩
  | .p2wsh network hash => some ⟨network.humanReadablePart, 0, hash.val⟩

def payload? : Address → Option Bytes
  | .p2pkh kind hash => some (publicKeyVersion kind :: hash.val)
  | .p2sh kind hash => some (scriptVersion kind :: hash.val)
  | .p2wpkh _ _ | .p2wsh _ _ => none

theorem chars_of_segwit? {address : Address} {segwit : SegwitText}
    (h : address.segwit? = some segwit) : address.chars = SegwitText.encode segwit := by
  cases address with
  | p2pkh | p2sh => cases h
  | p2wpkh | p2wsh =>
    cases h
    rfl

theorem chars_of_payload? {address : Address} {payload : Bytes}
    (h : address.payload? = some payload) : address.chars = Base58.encodeCheck payload := by
  cases address with
  | p2pkh | p2sh =>
    cases h
    rfl
  | p2wpkh | p2wsh => cases h

theorem ofSegwit?_eq_some_iff {segwit : SegwitText} {address : Address} :
    ofSegwit? segwit = some address ↔ address.segwit? = some segwit := by
  constructor
  · intro h
    obtain ⟨network, hnetwork, h⟩ := Option.bind_eq_some_iff.mp h
    obtain ⟨part, version, program⟩ := segwit
    have hpart : network.humanReadablePart = part := by
      simpa using List.find?_some hnetwork
    obtain ⟨hversion, h⟩ := Option.ite_none_right_eq_some.mp h
    cases hpart
    cases hversion
    split at h
    · cases h
      rfl
    · split at h
      · cases h
        rfl
      · cases h
  · have hfind (network : Network) : [Network.bitcoin, .testnet, .regtest].find?
        (·.humanReadablePart = network.humanReadablePart) = some network := by
      cases network <;> rfl
    intro h
    cases address with
    | p2pkh | p2sh => cases h
    | p2wpkh network hash =>
      cases h
      refine Option.bind_eq_some_iff.mpr ⟨network, hfind network, ?_⟩
      rw [if_pos rfl, dif_pos hash.property]
    | p2wsh network hash =>
      cases h
      refine Option.bind_eq_some_iff.mpr ⟨network, hfind network, ?_⟩
      have hne : hash.val.length ≠ 20 := by
        rw [hash.property]
        decide
      rw [if_pos rfl, dif_neg hne, dif_pos hash.property]

theorem ofPayload?_eq_some_iff {payload : Bytes} {address : Address} :
    ofPayload? payload = some address ↔ address.payload? = some payload := by
  constructor
  · intro h
    unfold ofPayload? at h
    split at h
    · cases h
    · split at h
      · split_ifs at h with h₁ h₂ h₃ h₄ <;> cases h <;> simp_all [payload?]
      · cases h
  · intro h
    cases address with
    | p2pkh kind hash | p2sh kind hash =>
      cases h
      rw [ofPayload?, dif_pos hash.property]
      cases kind <;> rfl
    | p2wpkh | p2wsh => cases h

/-- Witness addresses are of version zero, and short. -/
theorem exists_network_of_segwit? {address : Address} {segwit : SegwitText}
    (h : address.segwit? = some segwit) : ∃ network : Network,
      segwit.humanReadablePart = network.humanReadablePart ∧ segwit.version = 0 ∧
        (segwit.program.length = 20 ∨ segwit.program.length = 32) := by
  cases address with
  | p2pkh | p2sh => cases h
  | p2wpkh network hash =>
    cases h
    exact ⟨network, rfl, rfl, .inl hash.property⟩
  | p2wsh network hash =>
    cases h
    exact ⟨network, rfl, rfl, .inr hash.property⟩

/-- A witness address is written in small letters or in capitals. -/
theorem decode?_eq_some_iff_of_segwit? {text : List Char} {address : Address} {segwit : SegwitText}
    (h : address.segwit? = some segwit) : SegwitText.decode? text = some segwit ↔
      text.map Char.toLower = address.chars ∧ SegwitText.uniformCase text := by
  obtain ⟨network, hnetwork, hversion, hsize⟩ := exists_network_of_segwit? h
  have hpart : network.humanReadablePart.length ≤ 4 ∧
      SegwitText.humanReadablePartOk network.humanReadablePart := by
    cases network <;> decide
  rw [← hnetwork] at hpart
  rw [SegwitText.decode?_eq_some_iff, chars_of_segwit? h]
  refine ⟨fun h => ⟨h.1, h.2.1⟩, fun ⟨htext, hcase⟩ => ⟨htext, hcase, ?_, hpart.2, ?_, ?_⟩⟩
  · have hlen := congrArg List.length htext
    rw [List.length_map, SegwitText.length_encode] at hlen
    rw [SegwitText.maxLength]
    omega
  · rw [hversion]
    decide
  · rw [hversion]
    rcases hsize with hsize | hsize <;> rw [hsize] <;> rfl

theorem ofChars?_eq_some_iff {text : List Char} {address : Address} :
    ofChars? text = some address ↔
      (∃ segwit, address.segwit? = some segwit ∧ text.map Char.toLower = address.chars ∧
        SegwitText.uniformCase text) ∨
      (∃ payload, address.payload? = some payload ∧ text = address.chars ∧
        SegwitText.decode? text = none) := by
  constructor
  · intro h
    unfold ofChars? at h
    split at h
    · rename_i segwit hsegwit
      have hform := ofSegwit?_eq_some_iff.mp h
      exact .inl ⟨segwit, hform, (decode?_eq_some_iff_of_segwit? hform).mp hsegwit⟩
    · rename_i hnone
      obtain ⟨payload, hpayload, h⟩ := Option.bind_eq_some_iff.mp h
      have hform := ofPayload?_eq_some_iff.mp h
      refine .inr ⟨payload, hform, ?_, hnone⟩
      rw [chars_of_payload? hform, Base58.decodeCheck?_eq_some_iff.mp hpayload]
  · rintro (⟨segwit, hform, htext⟩ | ⟨payload, hform, htext, hnone⟩)
    · rw [ofChars?, (decode?_eq_some_iff_of_segwit? hform).mpr htext]
      exact ofSegwit?_eq_some_iff.mpr hform
    · rw [chars_of_payload? hform] at htext
      rw [ofChars?, hnone]
      exact Option.bind_eq_some_iff.mpr ⟨payload, Base58.decodeCheck?_eq_some_iff.mpr htext,
        ofPayload?_eq_some_iff.mpr hform⟩

theorem isSmall_of_mem_chars {address : Address} {segwit : SegwitText}
    (h : address.segwit? = some segwit) : ∀ c ∈ address.chars, isSmall c := by
  obtain ⟨network, hnetwork, -⟩ := exists_network_of_segwit? h
  rw [chars_of_segwit? h]
  apply SegwitText.isSmall_of_mem_encode
  rw [hnetwork]
  cases network <;> exact List.all_eq_true.mp (by decide)

/-- The text of an address and, if it is a witness address, the same text in capitals. -/
def IsSpelling (address : Address) (text : List Char) : Prop :=
  text = address.chars ∨ address.segwit?.isSome ∧ text = address.chars.map Char.toUpper

theorem ofChars?_of_isSpelling {address : Address} {text : List Char}
    (hspelling : address.IsSpelling text)
    (hread : address.segwit?.isSome ∨ SegwitText.decode? address.chars = none) :
    ofChars? text = some address := by
  apply ofChars?_eq_some_iff.mpr
  cases hform : address.segwit? with
  | none =>
    rw [IsSpelling, hform] at hspelling
    rw [hform] at hread
    obtain rfl : text = address.chars := by simpa using hspelling
    have hnone : SegwitText.decode? address.chars = none := by simpa using hread
    refine .inr ?_
    cases address with
    | p2pkh | p2sh => exact ⟨_, rfl, rfl, hnone⟩
    | p2wpkh | p2wsh => cases hform
  | some segwit =>
    have hsmall := isSmall_of_mem_chars hform
    simp only [isSmall, Bool.and_eq_true, Bool.not_eq_true', decide_eq_true_eq] at hsmall
    refine .inl ⟨segwit, rfl, ?_⟩
    rcases hspelling with rfl | ⟨-, rfl⟩
    · have hupper : ∀ c ∈ address.chars, c.isUpper = false := fun c hc => (hsmall c hc).1.1
      exact ⟨map_toLower_of_isUpper hupper, SegwitText.uniformCase_iff.mpr (.inl hupper)⟩
    · refine ⟨?_, SegwitText.uniformCase_iff.mpr (.inr ?_)⟩
      · rw [List.map_map]
        exact (List.map_congr_left fun c hc => (hsmall c hc).2).trans (List.map_id _)
      · rw [List.forall_mem_map]
        exact fun c hc => (hsmall c hc).1.2

/-- No other text than that of an address is read as it, apart from the case of letters. -/
theorem chars_of_ofChars? {text : List Char} {address : Address}
    (h : ofChars? text = some address) : address.chars = text ∨
      address.segwit?.isSome ∧ (∀ c ∈ text, c.isLower = false) ∧
        address.chars = text.map Char.toLower := by
  rcases ofChars?_eq_some_iff.mp h with ⟨segwit, hform, hlower, hcase⟩ | ⟨payload, -, htext, -⟩
  · rcases SegwitText.uniformCase_iff.mp hcase with hsmall | hcapitals
    · exact .inl (hlower.symm.trans (map_toLower_of_isUpper hsmall))
    · exact .inr ⟨Option.isSome_of_eq_some hform, hcapitals, hlower.symm⟩
  · exact .inl htext.symm

/-- Legacy addresses serve both test networks, and otherwise an address is for one network. -/
theorem isFor_iff_of_isFor {address : Address} {n m : Network} (h : address.isFor n) :
    address.isFor m ↔ n = m ∨ (address.kind = .p2pkh ∨ address.kind = .p2sh) ∧
      (n = .testnet ∧ m = .regtest ∨ n = .regtest ∧ m = .testnet) := by
  cases address with
  | p2pkh kind hash | p2sh kind hash =>
    have hkind : kind = n.kind := of_decide_eq_true h
    rw [hkind]
    cases n <;> cases m <;> simp [isFor, Address.kind, Network.kind]
  | p2wpkh own hash | p2wsh own hash =>
    have hown : own = n := of_decide_eq_true h
    rw [hown]
    simp [isFor, Address.kind]

end Address

namespace Payment

theorem ofAddressText_eq_ok_iff {text : String} {network : Network} {payment : Payment} :
    ofAddressText text network = .ok payment ↔ ∃ address : Address,
      Address.ofChars? text.toList = some address ∧ address.isFor network ∧
        payment = ofAddress address := by
  rw [ofAddressText_eq, Except.map_eq_ok_iff, Address.ofText]
  cases Address.ofChars? text.toList with
  | none => simp
  | some address =>
    simp only [Option.some.injEq, exists_eq_left']
    by_cases hfor : address.isFor network
    · rw [dif_pos hfor]
      constructor
      · rintro ⟨_, hread, rfl⟩
        cases hread
        exact ⟨hfor, rfl⟩
      · rintro ⟨-, rfl⟩
        exact ⟨⟨address, hfor⟩, rfl, rfl⟩
    · rw [dif_neg hfor]
      constructor
      · rintro ⟨_, hread, -⟩
        cases hread
      · rintro ⟨h, -⟩
        exact absurd h hfor

/-- Only the addresses of witness payments may be written in capitals, and are read before legacy
addresses. -/
def isWitness (payment : Payment) : Prop := payment.template = .p2wpkh ∨ payment.template = .p2wsh

theorem isWitness_iff {payment : Payment} {address : Address}
    (h : payment.template = address.kind.template) :
    payment.isWitness ↔ address.segwit?.isSome := by
  rw [isWitness, h]
  cases address <;> simp [Address.segwit?, Address.kind, AddressKind.template]

theorem isLegacy_iff {payment : Payment} {address : Address}
    (h : payment.template = address.kind.template) :
    payment.template = .p2pkh ∨ payment.template = .p2sh ↔
      address.kind = .p2pkh ∨ address.kind = .p2sh := by
  rw [h]
  cases address.kind <;> simp [AddressKind.template]

theorem Composed.forget_of_address {network : Network} {payment : Payment} {address : Address}
    (h : Composed network payment) (haddress : payment.address = some address) :
    address.isFor network ∧ { payment with redeemScript := none } = ofAddress address := by
  obtain ⟨key, rfl⟩ | ⟨own, hfor, hforget⟩ := h.forget
  · cases haddress
  · have hown : some own = some address := (congrArg Payment.address hforget).symm.trans haddress
    rw [← Option.some.inj hown]
    exact ⟨hfor, hforget⟩

end Payment

/-- An address text is read on the networks that it serves, and only printed texts are read. -/
theorem address_texts_read_back :
    (∀ (n m : Network) (payment : Payment) (address : Address),
      Payment.Composed n payment → payment.address = some address →
      payment.isWitness ∨ SegwitText.decode? address.chars = none →
      ∀ text, text = address.text ∨
          payment.isWitness ∧ text = String.ofList (address.chars.map Char.toUpper) →
        ∀ found, Payment.ofAddressText text m = .ok found ↔
          (n = m ∨ (payment.template = .p2pkh ∨ payment.template = .p2sh) ∧
            (n = .testnet ∧ m = .regtest ∨ n = .regtest ∧ m = .testnet)) ∧
          found = { payment with redeemScript := none }) ∧
    ∀ (text : String) (network : Network) (found : Payment),
      Payment.ofAddressText text network = .ok found →
      ∃ address, found.address = some address ∧
        (address.text = text ∨ found.isWitness ∧ (∀ c ∈ text.toList, c.isLower = false) ∧
          address.chars = text.toList.map Char.toLower) := by
  constructor
  · intro n m payment address hcomposed haddress hread text htext found
    obtain ⟨hfor, hforget⟩ := hcomposed.forget_of_address haddress
    have htemplate : payment.template = address.kind.template :=
      congrArg Payment.template hforget
    have hwitness := Payment.isWitness_iff htemplate
    have hspelling : address.IsSpelling text.toList := by
      rcases htext with rfl | ⟨hcapitals, rfl⟩
      · exact .inl String.toList_ofList
      · exact .inr ⟨hwitness.mp hcapitals, String.toList_ofList⟩
    have hchars := Address.ofChars?_of_isSpelling hspelling (hread.imp_left hwitness.mp)
    rw [Payment.ofAddressText_eq_ok_iff, Payment.isLegacy_iff htemplate,
      ← Address.isFor_iff_of_isFor hfor, hforget]
    simp [hchars]
  · intro text network found hread
    obtain ⟨address, hchars, -, rfl⟩ := Payment.ofAddressText_eq_ok_iff.mp hread
    refine ⟨address, rfl, ?_⟩
    rcases Address.chars_of_ofChars? hchars with htext | ⟨hwitness, hcapitals, hlower⟩
    · exact .inl (String.toList_injective (String.toList_ofList.trans htext))
    · exact .inr ⟨(Payment.isWitness_iff rfl).mpr hwitness, hcapitals, hlower⟩

/-- A legacy address is read on both test networks, and a witness address also in capitals. -/
theorem address_texts_read_back_generator :
    Payment.ofAddressText "mrCDrCybB6J1vRfbwM5hemdJz73FwDBC8r" .regtest =
        .ok (Payment.p2pkh ⟨.generator, true⟩ .testnet) ∧
      ∃ payment, Payment.p2wpkh ⟨.generator, true⟩ .bitcoin = .ok payment ∧
        Payment.ofAddressText "BC1QW508D6QEJXTDG4Y5R3ZARVARY0C5XW7KV8F3T4" .bitcoin = .ok payment ∧
        ∃ address, payment.address = some address ∧
          address.chars = "bc1qw508d6qejxtdg4y5r3zarvary0c5xw7kv8f3t4".toList := by
  obtain ⟨hread, hprinted⟩ := address_texts_read_back
  constructor
  · have htext : "mrCDrCybB6J1vRfbwM5hemdJz73FwDBC8r" =
        (Address.p2pkh .test (hash160 (PublicKey.toBytes ⟨.generator, true⟩))).text := by
      decide +kernel
    refine (hread .testnet .regtest _ _ (.p2pkh ⟨.generator, true⟩) rfl (.inr ?_) _ (.inl htext)
      _).mpr ⟨.inr ⟨.inl rfl, .inl ⟨rfl, rfl⟩⟩, rfl⟩
    decide +kernel
  · have htext : "BC1QW508D6QEJXTDG4Y5R3ZARVARY0C5XW7KV8F3T4" = String.ofList ((Address.p2wpkh
        .bitcoin (hash160 (PublicKey.toBytes ⟨.generator, true⟩))).chars.map Char.toUpper) := by
      decide +kernel
    have hpayment : Payment.p2wpkh ⟨.generator, true⟩ .bitcoin = .ok (Payment.ofAddress
        (.p2wpkh .bitcoin (hash160 (PublicKey.toBytes ⟨.generator, true⟩)))) := rfl
    have hcapitals := (hread .bitcoin .bitcoin _ _ (.p2wpkh hpayment) rfl (.inl (.inl rfl)) _
      (.inr ⟨.inl rfl, htext⟩) _).mpr ⟨.inl rfl, rfl⟩
    refine ⟨_, hpayment, hcapitals, ?_⟩
    obtain ⟨address, haddress, hprinted | ⟨-, -, hprinted⟩⟩ := hprinted _ _ _ hcapitals
    · have hsmall : (Address.p2wpkh .bitcoin (hash160 (PublicKey.toBytes
          ⟨.generator, true⟩))).text ≠ "BC1QW508D6QEJXTDG4Y5R3ZARVARY0C5XW7KV8F3T4" := by
        decide +kernel
      rw [← Option.some.inj haddress] at hprinted
      exact absurd hprinted hsmall
    · refine ⟨address, haddress, hprinted.trans ?_⟩
      decide

end OutputDescriptor
