import OutputDescriptor.Key.Extended
import OutputDescriptor.Proofs.Key.Bytes
import OutputDescriptor.Proofs.Text.Base58

/-! The text of an extended key: which payloads are read as the key, and the mark at which their
texts start. -/
namespace OutputDescriptor

namespace ChildNumber

theorem toNat_lt (number : ChildNumber) : number.toNat < 256 ^ 4 := by
  have hindex := number.index_lt
  have hbase : hardenedBase + hardenedBase = 256 ^ 4 := by decide
  unfold toNat
  split <;> omega

theorem toNat_ofNat {raw : Nat} (h : raw < 256 ^ 4) : (ofNat raw).toNat = raw := by
  unfold ofNat toNat
  by_cases hbit : raw / hardenedBase % 2 = 1
  · simp only [hbit, decide_true, if_true]
    unfold hardenedBase at hbit ⊢
    omega
  · simp only [hbit, decide_false, Bool.false_eq_true, if_false]
    unfold hardenedBase at hbit ⊢
    omega

end ChildNumber

namespace FixedBytes

theorem take?_append {n : Nat} (front : FixedBytes n) (rest : Bytes) :
    take? n (front.val ++ rest) = some front := by
  have htake : (front.val ++ rest).take n = front.val := List.take_left' front.property
  unfold take?
  simp only [htake, front.property, dif_pos]

theorem val_of_take? {n : Nat} {bytes : Bytes} {front : FixedBytes n}
    (h : take? n bytes = some front) : front.val = bytes.take n := by
  unfold take? at h
  split at h
  · cases h
    rfl
  · cases h

/-- A byte string that is long enough starts with as many bytes as are asked for. -/
theorem exists_append {n m : Nat} {bytes : Bytes} (h : bytes.length = n + m) :
    ∃ (front : FixedBytes n) (rest : Bytes), bytes = front.val ++ rest ∧ rest.length = m := by
  refine ⟨⟨bytes.take n, ?_⟩, bytes.drop n, (List.take_append_drop n bytes).symm, ?_⟩
  · rw [List.length_take, h, Nat.min_eq_left (Nat.le_add_right n m)]
  · rw [List.length_drop, h, Nat.add_sub_cancel_left]

end FixedBytes

namespace ExtendedKey

def header (key : ExtendedKey) : Bytes :=
  Bytes.ofNat 4 (versionNumber key.network key.isPrivate) ++ key.depth ::
    key.parentFingerprint.val ++ Bytes.ofNat 4 key.childNumber.toNat ++ key.chainCode.val

/-- The key itself, with some byte before a secret. -/
def paddedMaterial (key : ExtendedKey) (pad : UInt8) : Bytes :=
  match key.material with
  | .point _ => key.publicKey.toBytes
  | .secret s => pad :: s.toBytes

/-- The payloads that are read as the key. They differ only in the byte before a secret. -/
def paddedPayload (key : ExtendedKey) (pad : UInt8) : Bytes := key.header ++ key.paddedMaterial pad

theorem toPayload_eq (key : ExtendedKey) : key.toPayload = key.paddedPayload 0 := rfl

theorem length_header (key : ExtendedKey) : key.header.length = 45 := by
  simp [header, key.parentFingerprint.property, key.chainCode.property]

theorem length_paddedMaterial (key : ExtendedKey) (pad : UInt8) :
    (key.paddedMaterial pad).length = 33 := by
  unfold paddedMaterial
  split
  · exact PublicKey.length_toBytes key.publicKey
  · rw [List.length_cons, SecretKey.length_toBytes]

theorem length_paddedPayload (key : ExtendedKey) (pad : UInt8) :
    (key.paddedPayload pad).length = 78 := by
  rw [paddedPayload, List.length_append, length_header, length_paddedMaterial]

theorem materialOfBytes?_eq_some_iff {secret : Bool} {bytes : Bytes} {key : ExtendedKey}
    (h : bytes.length = 33) : materialOfBytes? secret bytes = some key.material ↔
      key.isPrivate = secret ∧ ∃ pad, bytes = key.paddedMaterial pad := by
  obtain ⟨first, rest, rfl⟩ := List.exists_cons_of_length_pos (by omega : 0 < bytes.length)
  have hrest : rest.length = 32 := by simpa using h
  cases secret with
  | true =>
    simp only [materialOfBytes?, if_true, List.drop_one, List.tail_cons, Option.map_eq_some_iff,
      SecretKey.of?_toNat_eq_some_iff hrest]
    cases hmaterial : key.material with
    | point => simp [isPrivate, hmaterial]
    | secret s => simp [isPrivate, paddedMaterial, hmaterial]
  | false =>
    simp only [materialOfBytes?, Bool.false_eq_true, if_false, Option.map_eq_some_iff,
      PublicKey.ofBytes?_eq_some_iff]
    cases hmaterial : key.material with
    | secret => simp [isPrivate, hmaterial]
    | point p =>
      simp only [isPrivate, paddedMaterial, publicKey, hmaterial, KeyMaterial.publicPoint,
        KeyMaterial.point.injEq, exists_const, true_and]
      constructor
      · rintro ⟨⟨point, compressed⟩, hbytes, rfl⟩
        have hlength := PublicKey.length_toBytes ⟨point, compressed⟩
        rw [← hbytes, h] at hlength
        cases compressed with
        | true => exact hbytes
        | false => cases hlength
      · intro hbytes
        exact ⟨⟨p, true⟩, hbytes, rfl⟩

theorem find?_versionNumber (network : NetworkKind) (secret : Bool) :
    [NetworkKind.main, .test].find? (versionNumber · secret = versionNumber network secret) =
      some network := by
  cases network <;> cases secret <;> rfl

theorem versionNumber_lt (network : NetworkKind) (secret : Bool) :
    versionNumber network secret < 256 ^ 4 := by
  cases network <;> cases secret <;> decide

theorem ofPayload?_fields (secret : Bool) (version : FixedBytes 4) (depth : UInt8)
    (parent number : FixedBytes 4) (chainCode : FixedBytes 32) {material : Bytes}
    (h : material.length = 33) :
    ofPayload? secret (version.val ++ depth :: (parent.val ++ (number.val ++ (chainCode.val ++
      material)))) =
        ([NetworkKind.main, .test].find? (versionNumber · secret = Bytes.toNat version.val)).bind
          fun network => (materialOfBytes? secret material).map fun material =>
            ⟨network, depth, parent, .ofNat (Bytes.toNat number.val), chainCode, material⟩ := by
  have hversion := version.property
  have hparent := parent.property
  have hnumber := number.property
  have hchainCode := chainCode.property
  generalize hpayload : version.val ++ depth :: (parent.val ++ (number.val ++ (chainCode.val ++
    material))) = payload
  have hfirst : payload.take 4 = version.val := by rw [← hpayload, List.take_left' hversion]
  have hrest : payload.drop 4 = depth :: (parent.val ++ (number.val ++ (chainCode.val ++
      material))) := by rw [← hpayload, List.drop_left' hversion]
  have hdepth : payload[4]? = some depth := by
    rw [← List.head?_drop, hrest]
    rfl
  have hskip (n m : Nat) : payload.drop (n + m) = (payload.drop n).drop m := List.drop_drop.symm
  have hparent' : payload.drop 5 = parent.val ++ (number.val ++ (chainCode.val ++ material)) := by
    rw [hskip 4 1, hrest]
    rfl
  have hnumber' : payload.drop 9 = number.val ++ (chainCode.val ++ material) := by
    rw [hskip 5 4, hparent', List.drop_left' hparent]
  have hchainCode' : payload.drop 13 = chainCode.val ++ material := by
    rw [hskip 9 4, hnumber', List.drop_left' hnumber]
  have hmaterial : payload.drop 45 = material := by
    rw [hskip 13 32, hchainCode', List.drop_left' hchainCode]
  have hlength : payload.length = 78 := by
    simp [← hpayload, hversion, hparent, hnumber, hchainCode, h]
  simp only [ofPayload?, hfirst, hdepth, hparent', hnumber', hchainCode', hmaterial, hlength,
    FixedBytes.take?_append, List.take_left' hnumber, Option.bind_eq_bind, Option.bind_some,
    if_true]
  refine Option.bind_congr fun network _ => ?_
  cases materialOfBytes? secret material <;> rfl

theorem exists_fields {payload : Bytes} (h : payload.length = 78) :
    ∃ (version : FixedBytes 4) (depth : UInt8) (parent number : FixedBytes 4)
      (chainCode : FixedBytes 32) (material : Bytes),
      payload = version.val ++ depth ::
          (parent.val ++ (number.val ++ (chainCode.val ++ material))) ∧
        material.length = 33 := by
  have hversion : payload.length = 4 + 74 := h
  obtain ⟨version, rest, rfl, hdepth⟩ := FixedBytes.exists_append hversion
  obtain ⟨depth, rest, rfl⟩ := List.exists_cons_of_length_eq_add_one hdepth
  have hparent : rest.length = 4 + 69 := Nat.succ.inj hdepth
  obtain ⟨parent, rest, rfl, hnumber⟩ := FixedBytes.exists_append hparent
  obtain ⟨number, rest, rfl, hchainCode⟩ :=
    FixedBytes.exists_append (show rest.length = 4 + 65 from hnumber)
  obtain ⟨chainCode, material, rfl, hmaterial⟩ :=
    FixedBytes.exists_append (show rest.length = 32 + 33 from hchainCode)
  exact ⟨version, depth, parent, number, chainCode, material, rfl, hmaterial⟩

theorem ofPayload?_eq_some_iff {secret : Bool} {payload : Bytes} {key : ExtendedKey} :
    ofPayload? secret payload = some key ↔
      key.isPrivate = secret ∧ ∃ pad, payload = key.paddedPayload pad := by
  constructor
  · intro h
    have hlength : payload.length = 78 := by
      obtain ⟨_, -, h⟩ := Option.bind_eq_some_iff.mp h
      obtain ⟨_, -, h⟩ := Option.bind_eq_some_iff.mp h
      obtain ⟨_, -, h⟩ := Option.bind_eq_some_iff.mp h
      obtain ⟨_, -, h⟩ := Option.bind_eq_some_iff.mp h
      obtain ⟨_, -, h⟩ := Option.bind_eq_some_iff.mp h
      exact (Option.ite_none_right_eq_some.mp h).1
    obtain ⟨version, depth, parent, number, chainCode, material, rfl, hmaterial⟩ :=
      exists_fields hlength
    rw [ofPayload?_fields _ _ _ _ _ _ hmaterial] at h
    obtain ⟨network, hnetwork, h⟩ := Option.bind_eq_some_iff.mp h
    obtain ⟨found, hfound, rfl⟩ := Option.map_eq_some_iff.mp h
    let key : ExtendedKey :=
      ⟨network, depth, parent, .ofNat (Bytes.toNat number.val), chainCode, found⟩
    have hmaterials := @materialOfBytes?_eq_some_iff secret material key hmaterial
    obtain ⟨hsecret, pad, hpad⟩ := hmaterials.mp hfound
    have hversion : versionNumber network key.isPrivate = Bytes.toNat version.val := by
      rw [hsecret]
      simpa using List.find?_some hnetwork
    have hnumber : key.childNumber.toNat = Bytes.toNat number.val := by
      apply ChildNumber.toNat_ofNat
      have hlt := Bytes.toNat_lt number.val
      rwa [number.property] at hlt
    refine ⟨hsecret, pad, ?_⟩
    change _ = key.paddedPayload pad
    rw [paddedPayload, header, ← hpad, Bytes.ofNat_eq_of_toNat version.property hversion,
      Bytes.ofNat_eq_of_toNat number.property hnumber]
    simp [key]
  · rintro ⟨rfl, pad, rfl⟩
    have hversion := Bytes.length_ofNat 4 (versionNumber key.network key.isPrivate)
    have hnumber := Bytes.length_ofNat 4 key.childNumber.toNat
    have h := ofPayload?_fields key.isPrivate ⟨_, hversion⟩ key.depth key.parentFingerprint
      ⟨_, hnumber⟩ key.chainCode (key.length_paddedMaterial pad)
    have hmaterial :=
      (materialOfBytes?_eq_some_iff (key.length_paddedMaterial pad)).mpr ⟨rfl, pad, rfl⟩
    simp only [Bytes.toNat_ofNat, Nat.mod_eq_of_lt (versionNumber_lt _ _),
      Nat.mod_eq_of_lt (ChildNumber.toNat_lt _), ChildNumber.ofNat_toNat, find?_versionNumber,
      hmaterial] at h
    rw [paddedPayload, header]
    simpa using h

/-! ### Marks -/

/-- The letters at which the version bytes make the text of a key start. -/
def mark : NetworkKind → Bool → List Char
  | .main, false => "xpub".toList
  | .main, true => "xprv".toList
  | .test, false => "tpub".toList
  | .test, true => "tprv".toList

theorem length_mark (network : NetworkKind) (secret : Bool) : (mark network secret).length = 4 := by
  cases network <;> cases secret <;> rfl

/-- The places of the letters of a mark in the alphabet. -/
def markDigits : NetworkKind → Bool → List Nat
  | .main, false => [55, 47, 52, 34]
  | .main, true => [55, 47, 49, 53]
  | .test, false => [51, 47, 52, 34]
  | .test, true => [51, 47, 49, 53]

/-- All numbers of 82 bytes that start with a version have the letters of the mark in front of 107
others. -/
theorem markDigits_bounds (network : NetworkKind) (secret : Bool) :
    ofDigits 58 (markDigits network secret) * 58 ^ 107 ≤ versionNumber network secret * 256 ^ 78 ∧
      (versionNumber network secret + 1) * 256 ^ 78 ≤
        (ofDigits 58 (markDigits network secret) + 1) * 58 ^ 107 := by
  cases network <;> cases secret <;> decide

theorem exists_encode_version (network : NetworkKind) (secret : Bool) {rest : Bytes}
    (h : rest.length = 78) : ∃ tail,
      Base58.encode (Bytes.ofNat 4 (versionNumber network secret) ++ rest) =
        mark network secret ++ tail := by
  obtain ⟨hlow, hhigh⟩ := markDigits_bounds network secret
  obtain ⟨hfrom, hto⟩ :=
    Bytes.toNat_append_bounds (Bytes.ofNat 4 (versionNumber network secret)) rest
  rw [h, Bytes.toNat_ofNat, Nat.mod_eq_of_lt (versionNumber_lt network secret)] at hfrom hto
  have hdiv := Nat.div_eq_of_lt_le (Nat.le_trans hlow hfrom) (Nat.lt_of_lt_of_le hto hhigh)
  have hhead : (Bytes.ofNat 4 (versionNumber network secret) ++ rest).head? ≠ some 0 := by
    have hfour : (Bytes.ofNat 4 (versionNumber network secret) ++ rest).head? = some 4 := by
      cases network <;> cases secret <;> rfl
    rw [hfour]
    decide
  have hmark : ∃ tail, Base58.encode (Bytes.ofNat 4 (versionNumber network secret) ++ rest) =
      mark network secret ++ tail ∧ tail.length = 107 := by
    cases network <;> cases secret <;>
      exact Base58.exists_encode_eq_append hhead (by decide) (by decide) hdiv
  obtain ⟨tail, htail, -⟩ := hmark
  exact ⟨tail, htail⟩

theorem exists_encodeCheck_paddedPayload (key : ExtendedKey) (pad : UInt8) : ∃ tail,
    Base58.encodeCheck (key.paddedPayload pad) = mark key.network key.isPrivate ++ tail := by
  obtain ⟨rest, hrest⟩ : ∃ rest, key.paddedPayload pad =
      Bytes.ofNat 4 (versionNumber key.network key.isPrivate) ++ rest :=
    ⟨_, by rw [paddedPayload, header, List.append_assoc, List.append_assoc, List.append_assoc]⟩
  have hlength := congrArg List.length hrest
  rw [length_paddedPayload, List.length_append, Bytes.length_ofNat] at hlength
  rw [Base58.encodeCheck, hrest, List.append_assoc]
  apply exists_encode_version
  rw [List.length_append, Base58.length_checkBytes]
  omega

/-- The mark alone tells that a key follows, and whether it is a secret one. -/
theorem marks_append (network : NetworkKind) (secret : Bool) (tail : List Char) :
    (publicMarks ++ secretMarks).any (·.isPrefixOf (mark network secret ++ tail)) = true ∧
      secretMarks.any (·.isPrefixOf (mark network secret ++ tail)) = secret := by
  cases network <;> cases secret <;> exact ⟨rfl, rfl⟩

theorem ofText?_eq_some_iff {text : String} {key : ExtendedKey} :
    ofText? text = some key ↔ ∃ pad, text.toList = Base58.encodeCheck (key.paddedPayload pad) := by
  constructor
  · intro h
    obtain ⟨payload, hpayload, h⟩ := Option.bind_eq_some_iff.mp h
    obtain ⟨-, pad, rfl⟩ := ofPayload?_eq_some_iff.mp h
    exact ⟨pad, Base58.decodeCheck?_eq_some_iff.mp hpayload⟩
  · rintro ⟨pad, htext⟩
    obtain ⟨tail, htail⟩ := key.exists_encodeCheck_paddedPayload pad
    have hsecret : secretMarks.any (·.isPrefixOf text.toList) = key.isPrivate := by
      rw [htext, htail]
      exact (marks_append key.network key.isPrivate tail).2
    refine Option.bind_eq_some_iff.mpr ⟨_, Base58.decodeCheck?_eq_some_iff.mpr htext, ?_⟩
    rw [hsecret]
    exact ofPayload?_eq_some_iff.mpr ⟨rfl, pad, rfl⟩

theorem toList_toText (key : ExtendedKey) :
    key.toText.toList = Base58.encodeCheck (key.paddedPayload 0) := by
  rw [toText, String.toList_ofList, toPayload_eq]

theorem ofText?_toText (key : ExtendedKey) : ofText? key.toText = some key :=
  ofText?_eq_some_iff.mpr ⟨0, key.toList_toText⟩

end ExtendedKey

end OutputDescriptor
