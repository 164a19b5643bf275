import OutputDescriptor.Key.Parser
import OutputDescriptor.Proofs.Key.ExtendedText
import OutputDescriptor.Proofs.Key.PrivateText

/-! Keys are read back from the texts that they are written as, and which texts these are. -/
namespace OutputDescriptor

namespace Hex

theorem length_encodeChars (bytes : Bytes) : (encodeChars bytes).length = 2 * bytes.length := by
  induction bytes with
  | nil => rfl
  | cons byte rest ih =>
    rw [encodeChars, List.length_cons, List.length_cons, ih, List.length_cons]
    omega

theorem decodeDigit_eq_some_iff {c : Char} {value : Nat} :
    decodeDigit c = some value ↔ value < 16 ∧ c.toLower = encodeDigit value := by
  constructor
  · intro h
    obtain ⟨hlt, hchar, -⟩ := List.findIdx?_eq_some_iff_getElem.mp h
    refine ⟨hlt, ?_⟩
    rw [encodeDigit, List.getD_eq_getElem?_getD, List.getElem?_eq_getElem hlt]
    exact (beq_iff_eq.mp hchar).symm
  · rintro ⟨hlt, hchar⟩
    have hread : ∀ value ∈ List.range 16, alphabet.findIdx? (· == encodeDigit value) =
        some value := by
      decide
    rw [decodeDigit, hchar, hread value (List.mem_range.mpr hlt)]

/-- Bytes are read from the text that they are written as, in either letter case. -/
theorem decodeChars_eq_some_iff {text : List Char} {bytes : Bytes} :
    decodeChars text = some bytes ↔ text.map Char.toLower = encodeChars bytes := by
  fun_induction decodeChars text generalizing bytes with
  | case1 => cases bytes <;> simp [encodeChars]
  | case2 => cases bytes <;> simp [encodeChars]
  | case3 high low rest ih =>
    simp only [Option.bind_eq_bind, Option.bind_eq_some_iff, Option.pure_def, Option.some.injEq,
      decodeDigit_eq_some_iff, ih, List.map_cons]
    constructor
    · rintro ⟨h, ⟨hh, hhigh⟩, l, ⟨hl, hlow⟩, others, hothers, rfl⟩
      have hbyte : (UInt8.ofNat (16 * h + l)).toNat = 16 * h + l :=
        UInt8.toNat_ofNat_of_lt (show 16 * h + l < 256 by omega)
      have hdiv : (16 * h + l) / 16 = h := by omega
      have hmod : (16 * h + l) % 16 = l := by omega
      rw [encodeChars, hbyte, hdiv, hmod, hhigh, hlow, hothers]
    · intro hchars
      cases bytes with
      | nil => cases hchars
      | cons byte others =>
        have hlt := byte.toNat_lt
        simp only [encodeChars, List.cons.injEq] at hchars
        obtain ⟨hhigh, hlow, hothers⟩ := hchars
        refine ⟨_, ⟨by omega, hhigh⟩, _, ⟨by omega, hlow⟩, others, hothers, ?_⟩
        rw [Nat.div_add_mod, UInt8.ofNat_toNat]

end Hex

namespace KeyScheme

theorem decodePublicKey_eq_ok_iff {text : String} {key : PublicKey} :
    standard.decodePublicKey text = .ok key ↔
      text.toList.map Char.toLower = key.toHex.toList := by
  rw [PublicKey.toHex, Hex.encode, String.toList_ofList, ← Hex.decodeChars_eq_some_iff]
  refine orKeyError_eq_ok_iff.trans ?_
  simp only [PublicKey.ofHex?, Hex.decode?, Option.bind_eq_bind, Option.bind_eq_some_iff,
    PublicKey.ofBytes?_eq_some_iff, exists_eq_right]

end KeyScheme

theorem PublicKey.map_toLower_toHex (key : PublicKey) :
    key.toHex.toList.map Char.toLower = key.toHex.toList := by
  rw [toHex, Hex.encode, String.toList_ofList]
  exact Hex.decodeChars_eq_some_iff.mp (Hex.decodeChars_encodeChars key.toBytes)

/-- A byte of the payload of a text with check bytes. -/
def Base58.payloadByte? (text : String) (position : Nat) : Option UInt8 :=
  (decodeCheck? text.toList).bind (·[position]?)

theorem Base58.payloadByte?_of_eq {text : String} {payload : Bytes}
    (h : text.toList = encodeCheck payload) (position : Nat) :
    payloadByte? text position = payload[position]? := by
  rw [payloadByte?, decodeCheck?_eq_some_iff.mpr h, Option.bind_some]

/-- A printed key is the text that it was read from if it is printed for the same payload. -/
theorem Base58.toText_eq_iff {printed text : String} {payload payload' : Bytes}
    (hprinted : printed.toList = encodeCheck payload) (htext : text.toList = encodeCheck payload') :
    printed = text ↔ payload = payload' := by
  rw [← String.toList_inj, hprinted, htext, encodeCheck_injective.eq_iff]

namespace ExtendedKey

theorem paddedPayload_zero_eq_iff (key : ExtendedKey) (pad : UInt8) :
    key.paddedPayload 0 = key.paddedPayload pad ↔
      key.isPrivate = false ∨ (key.paddedPayload pad)[45]? = some 0 := by
  have hbyte : (key.paddedPayload pad)[45]? = (key.paddedMaterial pad)[0]? := by
    rw [paddedPayload, List.getElem?_append_right (Nat.le_of_eq key.length_header),
      key.length_header]
  rw [hbyte, paddedPayload, paddedPayload, List.append_cancel_left_eq]
  cases hmaterial : key.material with
  | point => simp [paddedMaterial, isPrivate, hmaterial]
  | secret => simp [paddedMaterial, isPrivate, hmaterial, eq_comm]

end ExtendedKey

namespace PrivateKey

theorem markedPayload_one_eq_iff (key : PrivateKey) (trailing : UInt8) :
    key.markedPayload 1 = key.markedPayload trailing ↔
      key.compressed = false ∨ (key.markedPayload trailing)[33]? = some 1 := by
  have hlength : (versionByte key.network :: key.secret.toBytes).length = 33 := by
    rw [List.length_cons, SecretKey.length_toBytes]
  have hbyte : (key.markedPayload trailing)[33]? =
      (if key.compressed then [trailing] else [])[0]? := by
    rw [markedPayload, List.getElem?_append_right (Nat.le_of_eq hlength), hlength]
  rw [hbyte, markedPayload, markedPayload, List.append_cancel_left_eq]
  cases key.compressed with
  | true => simp [eq_comm]
  | false => simp

end PrivateKey

/-- A key is read back from its printed text, which is the one read but for bytes around secrets and
capitals. -/
theorem key_texts_read_back (network : Network) (text : String) :
    (∀ key, KeyScheme.standard.decodeExtendedKey text network = .ok key →
      KeyScheme.standard.decodeExtendedKey key.toText network = .ok key ∧
        (key.toText = text ↔ key.isPrivate = false ∨ Base58.payloadByte? text 45 = some 0)) ∧
    (∀ key, KeyScheme.standard.decodePrivateKey text network = .ok key →
      KeyScheme.standard.decodePrivateKey key.toText network = .ok key ∧
        (key.toText = text ↔ key.compressed = false ∨ Base58.payloadByte? text 33 = some 1)) ∧
    ∀ key, KeyScheme.standard.decodePublicKey text = .ok key →
      KeyScheme.standard.decodePublicKey key.toHex = .ok key ∧
        key.toHex.toList = text.toList.map Char.toLower := by
  refine ⟨fun key h => ?_, fun key h => ?_, fun key h => ?_⟩
  · obtain ⟨hread, hnetwork⟩ := KeyScheme.decodeExtendedKey_eq_ok_iff.mp h
    obtain ⟨pad, htext⟩ := ExtendedKey.ofText?_eq_some_iff.mp hread
    refine ⟨KeyScheme.decodeExtendedKey_eq_ok_iff.mpr ⟨key.ofText?_toText, hnetwork⟩, ?_⟩
    rw [Base58.toText_eq_iff key.toList_toText htext, key.paddedPayload_zero_eq_iff,
      Base58.payloadByte?_of_eq htext]
  · obtain ⟨hread, hnetwork⟩ := KeyScheme.decodePrivateKey_eq_ok_iff.mp h
    obtain ⟨trailing, htext⟩ := PrivateKey.ofText?_eq_some_iff.mp hread
    refine ⟨KeyScheme.decodePrivateKey_eq_ok_iff.mpr ⟨key.ofText?_toText, hnetwork⟩, ?_⟩
    rw [Base58.toText_eq_iff key.toList_toText htext, key.markedPayload_one_eq_iff,
      Base58.payloadByte?_of_eq htext]
  · exact ⟨KeyScheme.decodePublicKey_eq_ok_iff.mpr key.map_toLower_toHex,
      (KeyScheme.decodePublicKey_eq_ok_iff.mp h).symm⟩

def SecretKey.one : SecretKey where
  scalar := 1
  point := .generator
  scalar_lt := by decide
  multiple := by decide +kernel

/-- A root key for the main network with the least secret. -/
def ExtendedKey.secretRoot : ExtendedKey :=
  ⟨.main, 0, ⟨List.replicate 4 0, rfl⟩, ⟨0, false, by decide⟩, ⟨List.replicate 32 0, rfl⟩,
    .secret .one⟩

/-- The text of the key with a seven before its secret. -/
def ExtendedKey.secretRootText : String :=
  "xprv9s21ZrQH143K24Mfq5zL5MhWK9hUhhGbd45hLXo2Pq2oqzMMo63oStZzFNekKa5DbTKZeRpgbs4c5oooTmP4TKJ5mGAZ3bzHy3hZLYWBWdH"

theorem ExtendedKey.toList_secretRootText :
    secretRootText.toList = Base58.encodeCheck (secretRoot.paddedPayload 7) := by decide +kernel

theorem ExtendedKey.decode_secretRootText :
    KeyScheme.standard.decodeExtendedKey secretRootText .bitcoin = .ok secretRoot :=
  KeyScheme.decodeExtendedKey_eq_ok_iff.mpr
    ⟨ExtendedKey.ofText?_eq_some_iff.mpr ⟨7, toList_secretRootText⟩, rfl⟩

/-- Bytes beside a secret that are not the usual ones are lost when the key is printed, and so are
capitals. -/
theorem key_texts_read_back_altered :
    (KeyScheme.standard.decodeExtendedKey ExtendedKey.secretRootText .bitcoin = .ok .secretRoot ∧
      KeyScheme.standard.decodeExtendedKey ExtendedKey.secretRoot.toText .bitcoin =
        .ok .secretRoot ∧
      ExtendedKey.secretRoot.toText ≠ ExtendedKey.secretRootText) ∧
    (∃ key, KeyScheme.standard.decodePrivateKey
        "KwDiBf89QgGbjEhKnhXJuH7LrciVrZi3qYjgd9M7rFU73sfZr2ym" .bitcoin = .ok key ∧
      KeyScheme.standard.decodePrivateKey key.toText .bitcoin = .ok key ∧
      key.toText ≠ "KwDiBf89QgGbjEhKnhXJuH7LrciVrZi3qYjgd9M7rFU73sfZr2ym") ∧
    ∃ key, KeyScheme.standard.decodePublicKey
        "0279BE667EF9DCBBAC55A06295CE870B07029BFCDB2DCE28D959F2815B16F81798" = .ok key ∧
      KeyScheme.standard.decodePublicKey key.toHex = .ok key ∧
      key.toHex.toList =
        "0279be667ef9dcbbac55a06295ce870b07029bfcdb2dce28d959f2815b16f81798".toList := by
  refine ⟨?_, ?_, ?_⟩
  · have hread := ExtendedKey.decode_secretRootText
    obtain ⟨hback, hprinted⟩ := (key_texts_read_back .bitcoin _).1 _ hread
    refine ⟨hread, hback, fun heq => ?_⟩
    rcases hprinted.mp heq with hpublic | hzero
    · cases hpublic
    · rw [Base58.payloadByte?_of_eq ExtendedKey.toList_secretRootText] at hzero
      exact absurd hzero (by decide)
  · let key : PrivateKey := ⟨.main, true, .one⟩
    have htext : "KwDiBf89QgGbjEhKnhXJuH7LrciVrZi3qYjgd9M7rFU73sfZr2ym".toList =
        Base58.encodeCheck (key.markedPayload 2) := by decide +kernel
    have hnetwork : key.network = Network.bitcoin.kind := rfl
    have hread := KeyScheme.decodePrivateKey_eq_ok_iff.mpr
      ⟨PrivateKey.ofText?_eq_some_iff.mpr ⟨2, htext⟩, hnetwork⟩
    obtain ⟨hback, hprinted⟩ := (key_texts_read_back .bitcoin _).2.1 key hread
    refine ⟨key, hread, hback, fun heq => ?_⟩
    rcases hprinted.mp heq with huncompressed | hone
    · cases huncompressed
    · rw [Base58.payloadByte?_of_eq htext] at hone
      exact absurd hone (by decide)
  · have hread : KeyScheme.standard.decodePublicKey
        "0279BE667EF9DCBBAC55A06295CE870B07029BFCDB2DCE28D959F2815B16F81798" =
          .ok ⟨.generator, true⟩ := by
      decide +kernel
    obtain ⟨hback, hprinted⟩ := (key_texts_read_back .bitcoin _).2.2 _ hread
    exact ⟨_, hread, hback, hprinted.trans (by decide)⟩

end OutputDescriptor
