import OutputDescriptor.Proofs.Key.Bytes
import OutputDescriptor.Proofs.Text.Base58

/-! The text of a single private key: which payloads are read as the key, and the letters at which
their texts start. -/
namespace OutputDescriptor.PrivateKey

/-- The payloads that are read as the key, which differ only in the byte after a secret. -/
def markedPayload (key : PrivateKey) (trailing : UInt8) : Bytes :=
  versionByte key.network :: key.secret.toBytes ++ if key.compressed then [trailing] else []

theorem toList_toText (key : PrivateKey) :
    key.toText.toList = Base58.encodeCheck (key.markedPayload 1) := String.toList_ofList

theorem find?_versionByte (network : NetworkKind) :
    [NetworkKind.main, .test].find? (versionByte · = versionByte network) = some network := by
  cases network <;> rfl

theorem ofPayload?_cons (version : UInt8) (compressed : Bool) {rest : Bytes}
    (h : rest.length = if compressed then 33 else 32) :
    ofPayload? (version :: rest) =
      (SecretKey.of? (Bytes.toNat (rest.take 32))).bind fun secret =>
        ([NetworkKind.main, .test].find? (versionByte · = version)).map
          fun network => ⟨network, compressed, secret⟩ := by
  simp only [ofPayload?, List.head?_cons, List.drop_one, List.tail_cons, Option.bind_eq_bind,
    Option.bind_some]
  refine Option.bind_congr fun secret _ => ?_
  cases compressed with
  | true =>
    have hlength : (version :: rest).length = 34 := congrArg (· + 1) h
    rw [hlength]
    exact Option.map_eq_bind.symm
  | false =>
    have hlength : (version :: rest).length = 33 := congrArg (· + 1) h
    rw [hlength]
    exact Option.map_eq_bind.symm

theorem exists_cons_of_ofPayload? {payload : Bytes} {key : PrivateKey}
    (h : ofPayload? payload = some key) : ∃ version rest, ∃ compressed : Bool,
      payload = version :: rest ∧ rest.length = if compressed then 33 else 32 := by
  obtain ⟨version, hversion, h⟩ := Option.bind_eq_some_iff.mp h
  obtain ⟨rest, rfl⟩ := List.head?_eq_some_iff.mp hversion
  obtain ⟨secret, -, h⟩ := Option.bind_eq_some_iff.mp h
  by_cases hshort : (version :: rest).length = 33
  · exact ⟨version, rest, false, rfl, Nat.succ.inj hshort⟩
  · by_cases hlong : (version :: rest).length = 34
    · exact ⟨version, rest, true, rfl, Nat.succ.inj hlong⟩
    · simp only [if_neg hshort, if_neg hlong] at h
      cases h

theorem ofPayload?_eq_some_iff {payload : Bytes} {key : PrivateKey} :
    ofPayload? payload = some key ↔ ∃ trailing, payload = key.markedPayload trailing := by
  constructor
  · intro h
    obtain ⟨version, rest, compressed, rfl, hrest⟩ := exists_cons_of_ofPayload? h
    rw [ofPayload?_cons version compressed hrest] at h
    obtain ⟨secret, hsecret, h⟩ := Option.bind_eq_some_iff.mp h
    obtain ⟨network, hnetwork, rfl⟩ := Option.map_eq_some_iff.mp h
    obtain rfl : versionByte network = version := by simpa using List.find?_some hnetwork
    have hfirst : (rest.take 32).length = 32 := by
      rw [List.length_take, hrest]
      cases compressed <;> rfl
    rw [SecretKey.of?_toNat_eq_some_iff hfirst] at hsecret
    have hlast : (rest.drop 32).length = if compressed then 1 else 0 := by
      rw [List.length_drop, hrest]
      cases compressed <;> rfl
    rw [← List.take_append_drop 32 rest, hsecret]
    cases compressed with
    | true =>
      obtain ⟨trailing, htrailing⟩ := List.length_eq_one_iff.mp hlast
      exact ⟨trailing, by rw [htrailing]; rfl⟩
    | false => exact ⟨1, by rw [List.eq_nil_of_length_eq_zero hlast]; rfl⟩
  · rintro ⟨trailing, rfl⟩
    have hrest : (key.secret.toBytes ++ if key.compressed then [trailing] else []).length =
        if key.compressed then 33 else 32 := by
      rw [List.length_append, SecretKey.length_toBytes]
      cases key.compressed <;> rfl
    rw [markedPayload, List.cons_append, ofPayload?_cons _ _ hrest,
      List.take_left' key.secret.length_toBytes,
      (SecretKey.of?_toNat_eq_some_iff key.secret.length_toBytes).mpr rfl, find?_versionByte]
    rfl

theorem ofText?_eq_some_iff {text : String} {key : PrivateKey} :
    ofText? text = some key ↔
      ∃ trailing, text.toList = Base58.encodeCheck (key.markedPayload trailing) := by
  constructor
  · intro h
    obtain ⟨payload, hpayload, h⟩ := Option.bind_eq_some_iff.mp h
    obtain ⟨trailing, rfl⟩ := ofPayload?_eq_some_iff.mp h
    exact ⟨trailing, Base58.decodeCheck?_eq_some_iff.mp hpayload⟩
  · rintro ⟨trailing, htext⟩
    exact Option.bind_eq_some_iff.mpr ⟨_, Base58.decodeCheck?_eq_some_iff.mpr htext,
      ofPayload?_eq_some_iff.mpr ⟨trailing, rfl⟩⟩

theorem ofText?_toText (key : PrivateKey) : ofText? key.toText = some key :=
  ofText?_eq_some_iff.mpr ⟨1, key.toList_toText⟩

/-- The text of a version byte and 36 or 37 others starts with one of the first 36 letters of the
alphabet. -/
theorem exists_encode_version (network : NetworkKind) {rest : Bytes}
    (h : rest.length = 36 ∨ rest.length = 37) :
    ∃ d tail, Base58.encode (versionByte network :: rest) = Base58.charOf d :: tail ∧ d < 36 ∧
      50 ≤ tail.length := by
  -- The number is at least 128 and below 240 times the power of 256, for either version.
  have hversion : 128 ≤ Bytes.toNat [versionByte network] ∧
      Bytes.toNat [versionByte network] + 1 ≤ 240 := by
    cases network <;> decide
  obtain ⟨hfrom, hto⟩ := Bytes.toNat_append_bounds [versionByte network] rest
  rw [List.singleton_append] at hfrom hto
  have hfrom := Nat.le_trans (Nat.mul_le_mul_right _ hversion.1) hfrom
  have hto := Nat.lt_of_lt_of_le hto (Nat.mul_le_mul_right _ hversion.2)
  obtain ⟨count, hcount, hlow, hhigh⟩ : ∃ count, 50 ≤ count ∧ 58 ^ count ≤ 128 * 256 ^ rest.length ∧
      240 * 256 ^ rest.length ≤ 36 * 58 ^ count := by
    rcases h with h | h
    · exact ⟨50, by rw [h]; decide⟩
    · exact ⟨51, by rw [h]; decide⟩
  have hpos : 0 < Bytes.toNat (versionByte network :: rest) / 58 ^ count :=
    Nat.div_pos (Nat.le_trans hlow hfrom) (Nat.pow_pos (by decide))
  have hlt : Bytes.toNat (versionByte network :: rest) / 58 ^ count < 36 :=
    Nat.div_lt_of_lt_mul (Nat.mul_comm 36 _ ▸ Nat.lt_of_lt_of_le hto hhigh)
  have hhead : (versionByte network :: rest).head? ≠ some 0 := by
    cases network <;> simp [versionByte]
  generalize hd : Bytes.toNat (versionByte network :: rest) / 58 ^ count = d at hpos hlt
  have hdigit : ofDigits 58 [d] = d := by simp [ofDigits]
  obtain ⟨tail, htail, hlength⟩ :=
    Base58.exists_encode_eq_append hhead (Nat.pos_iff_ne_zero.mp hpos)
    (List.forall_mem_singleton.mpr (Nat.lt_trans hlt (by decide))) (hd.trans hdigit.symm)
  exact ⟨d, tail, htail, hlt, hlength ▸ hcount⟩

theorem exists_encodeCheck_markedPayload (key : PrivateKey) (trailing : UInt8) : ∃ d tail,
    Base58.encodeCheck (key.markedPayload trailing) = Base58.charOf d :: tail ∧ d < 36 ∧
      50 ≤ tail.length := by
  rw [Base58.encodeCheck, markedPayload, List.cons_append, List.cons_append]
  apply exists_encode_version
  rw [List.length_append, List.length_append, Base58.length_checkBytes, SecretKey.length_toBytes]
  cases key.compressed with
  | true => exact .inr rfl
  | false => exact .inl rfl

end OutputDescriptor.PrivateKey
