import OutputDescriptor.Proofs.Key.ReadBack
import OutputDescriptor.Proofs.Script.Instantiation

/-! The first letters of a key token tell which of the three kinds of keys it is, and no token is of
two kinds. -/
namespace OutputDescriptor

/-! ### Tokens -/

namespace KeyText

def ofToken (token : List Char) : KeyText := ⟨none, token, [], .none⟩

/-- What the parser asks of a key before it looks at its kind. -/
def IsToken (text : List Char) : Prop := (∀ c ∈ text, c.isAlphanum) ∧ 4 ≤ text.length

theorem ofChars?_of_isToken {text : List Char} (h : IsToken text) :
    ofChars? text = some (ofToken text) := by
  apply ofChars?_of_plain
  exact ofKeyAndPath?_eq_some_iff.mpr
    ⟨[], (List.append_nil text).symm, h.1, by simp, rfl, h.2, rfl⟩

theorem eq_ofToken_of_ofChars? {text : List Char} {parts : KeyText} (hbracket : '[' ∉ text)
    (hslash : '/' ∉ text) (h : ofChars? text = some parts) : parts = ofToken text := by
  obtain ⟨front, rest, rfl, hfront, hrest⟩ := ofChars?_eq_some_iff.mp h
  obtain ⟨terms, rfl, -, -, hsteps, -, -⟩ := ofKeyAndPath?_eq_some_iff.mp hrest
  obtain ⟨origin, key, steps, wildcard⟩ := parts
  have hterms : terms = [] := by
    cases terms with
    | nil => rfl
    | cons term terms => simp [pathChars] at hslash
  obtain rfl : origin = none := by
    cases origin with
    | none => rfl
    | some origin =>
      obtain ⟨inside, -, rfl⟩ := hfront
      simp at hbracket
  obtain rfl : front = [] := hfront
  rw [hterms] at hsteps ⊢
  cases hsteps
  simp [ofToken, pathChars]

end KeyText

/-- Writing a capital small gives no figure. -/
theorem toLower_eq_of_isDigit {c : Char} (h : c.toLower.isDigit) : c.toLower = c := by
  unfold Char.toLower at h ⊢
  split
  · rename_i hupper
    rw [dif_pos hupper] at h
    simp only [Char.isDigit, ge_iff_le, Bool.and_eq_true, decide_eq_true_eq,
      UInt32.le_iff_toNat_le] at h hupper
    simp only [Char.reduceVal, UInt32.reduceToNat, UInt32.reduceSub, UInt32.toNat_add,
      Char.toNat_val, Nat.reducePow] at h hupper
    omega
  · rfl

namespace PublicKey

/-- A key is told from others by its first byte. -/
theorem exists_toBytes_eq_cons (key : PublicKey) :
    ∃ tag rest, key.toBytes = tag :: rest ∧ (tag = 2 ∨ tag = 3 ∨ tag = 4) := by
  unfold toBytes
  cases key.compressed with
  | true =>
    refine ⟨_, _, rfl, ?_⟩
    split
    · exact .inr (.inl rfl)
    · exact .inl rfl
  | false => exact ⟨4, _, rfl, .inr (.inr rfl)⟩

end PublicKey

/-! ### The kinds of tokens -/

namespace KeyScheme

variable {text : String} {network : Network}

theorem isToken_of_extended {key : ExtendedKey}
    (h : standard.decodeExtendedKey text network = .ok key) :
    KeyText.IsToken text.toList ∧ (KeyText.ofToken text.toList).isExtended = true := by
  obtain ⟨hread, -⟩ := decodeExtendedKey_eq_ok_iff.mp h
  obtain ⟨pad, htext⟩ := ExtendedKey.ofText?_eq_some_iff.mp hread
  obtain ⟨tail, htail⟩ := key.exists_encodeCheck_paddedPayload pad
  have halnum := (Base58.isAlphanum_of_decodeCheck? (Base58.decodeCheck?_eq_some_iff.mpr htext)).2
  refine ⟨⟨halnum, ?_⟩, ?_⟩
  · rw [htext, htail, List.length_append, ExtendedKey.length_mark]
    exact Nat.le_add_right 4 _
  · rw [KeyText.isExtended, KeyText.ofToken, htext, htail]
    exact (ExtendedKey.marks_append key.network key.isPrivate tail).1

theorem isToken_of_private {key : PrivateKey}
    (h : standard.decodePrivateKey text network = .ok key) :
    KeyText.IsToken text.toList ∧ (KeyText.ofToken text.toList).isExtended = false ∧
      (KeyText.ofToken text.toList).isPublicKey = false := by
  obtain ⟨hread, -⟩ := decodePrivateKey_eq_ok_iff.mp h
  obtain ⟨trailing, htext⟩ := PrivateKey.ofText?_eq_some_iff.mp hread
  obtain ⟨d, tail, htail, hd, hlength⟩ := key.exists_encodeCheck_markedPayload trailing
  have hfirst : ∀ d < 36,
      Base58.charOf d ≠ 'x' ∧ Base58.charOf d ≠ 't' ∧ Base58.charOf d ≠ '0' := by
    decide
  obtain ⟨hx, ht, hzero⟩ := hfirst d hd
  have halnum := (Base58.isAlphanum_of_decodeCheck? (Base58.decodeCheck?_eq_some_iff.mpr htext)).2
  refine ⟨⟨halnum, ?_⟩, ?_, ?_⟩
  · rw [htext, htail, List.length_cons]
    omega
  · rw [KeyText.isExtended, KeyText.ofToken, htext, htail]
    simp [ExtendedKey.publicMarks, ExtendedKey.secretMarks, List.isPrefixOf, hx.symm, ht.symm]
  · rw [KeyText.isPublicKey, KeyText.ofToken, htext, htail]
    simp [List.isPrefixOf, hzero.symm]

theorem isToken_of_public {key : PublicKey} (h : standard.decodePublicKey text = .ok key) :
    KeyText.IsToken text.toList ∧ (KeyText.ofToken text.toList).isExtended = false ∧
      (KeyText.ofToken text.toList).isPublicKey = true := by
  have hlower := decodePublicKey_eq_ok_iff.mp h
  rw [PublicKey.toHex, Hex.encode, String.toList_ofList] at hlower
  have hlength := congrArg List.length hlower
  rw [List.length_map, Hex.length_encodeChars, PublicKey.length_toBytes] at hlength
  have hfour : 4 ≤ text.toList.length := by
    rw [hlength]
    split <;> decide
  have hread := Hex.decodeChars_eq_some_iff.mpr hlower
  obtain ⟨tag, rest, hbytes, htag⟩ := key.exists_toBytes_eq_cons
  rw [hbytes, Hex.encodeChars] at hlower
  obtain ⟨first, _, htext, hfirst, hlower⟩ := List.map_eq_cons_iff.mp hlower
  obtain ⟨second, others, rfl, hsecond, -⟩ := List.map_eq_cons_iff.mp hlower
  have hmarks : first = '0' ∧ (second = '2' ∨ second = '3' ∨ second = '4') := by
    have hsmall {c d : Char} (hd : d.isDigit) (h : c.toLower = d) : c = d :=
      (toLower_eq_of_isDigit (h ▸ hd)).symm.trans h
    rcases htag with rfl | rfl | rfl
    · exact ⟨hsmall (by decide) hfirst, .inl (hsmall (by decide) hsecond)⟩
    · exact ⟨hsmall (by decide) hfirst, .inr (.inl (hsmall (by decide) hsecond))⟩
    · exact ⟨hsmall (by decide) hfirst, .inr (.inr (hsmall (by decide) hsecond))⟩
  refine ⟨⟨Hex.isAlphanum_of_decodeChars hread, hfour⟩, ?_⟩
  obtain ⟨rfl, rfl | rfl | rfl⟩ := hmarks
  all_goals
    rw [KeyText.isExtended, KeyText.isPublicKey, KeyText.ofToken, htext]
    exact ⟨rfl, rfl⟩

/-- What a token stands for to the decoders of a scheme, each of which reads one kind of keys. -/
inductive Decodes (scheme : KeyScheme) (network : Network) (text : String) : KeyPair → Prop
  | extended {key : ExtendedKey} (h : scheme.decodeExtendedKey text network = .ok key) :
      Decodes scheme network text (.extended key .itself)
  | publicOnly {key : PublicKey} (h : scheme.decodePublicKey text = .ok key) :
      Decodes scheme network text (.publicOnly key)
  | withPrivate {key : PrivateKey} (h : scheme.decodePrivateKey text network = .ok key) :
      Decodes scheme network text (.withPrivate key)

/-- A token that has been told from the others by its first letters is decoded as such. -/
theorem Decodes.decodePair_eq {ctx : Context} (hctx : ctx.scheme = standard) {pair : KeyPair}
    (h : standard.Decodes network text pair) :
    KeyText.IsToken text.toList ∧
      KeyExpr.decodePair ctx network text (.ofToken text.toList) = .ok pair := by
  have hpath : (KeyText.ofToken text.toList).steps = [] ∧
      (KeyText.ofToken text.toList).wildcard = .none := ⟨rfl, rfl⟩
  have htoken : String.ofList (KeyText.ofToken text.toList).key = text := String.ofList_toList
  cases h with
  | extended h =>
    obtain ⟨hform, hextended⟩ := isToken_of_extended h
    rw [← htoken, ← hctx] at h
    exact ⟨hform, KeyExpr.decodePair_eq_ok_iff.mpr (.extended hextended h rfl)⟩
  | publicOnly h =>
    obtain ⟨hform, hextended, hpublic⟩ := isToken_of_public h
    rw [← htoken, ← hctx] at h
    exact ⟨hform, KeyExpr.decodePair_eq_ok_iff.mpr
      (.publicOnly (by simp [hextended]) hpath hpublic h)⟩
  | withPrivate h =>
    obtain ⟨hform, hextended, hpublic⟩ := isToken_of_private h
    rw [← htoken, ← hctx] at h
    exact ⟨hform, KeyExpr.decodePair_eq_ok_iff.mpr
      (.withPrivate (by simp [hextended]) hpath (by simp [hpublic]) h)⟩

theorem decodes_of_decodePair {ctx : Context} (hctx : ctx.scheme = standard) {pair : KeyPair}
    (h : KeyExpr.decodePair ctx network text (.ofToken text.toList) = .ok pair) :
    standard.Decodes network text pair := by
  have htoken : String.ofList (KeyText.ofToken text.toList).key = text := String.ofList_toList
  cases KeyExpr.decodePair_eq_ok_iff.mp h with
  | extended _ hbase hsteps =>
    rw [htoken, hctx] at hbase
    cases hsteps
    exact .extended hbase
  | publicOnly _ _ _ hkey =>
    rw [htoken, hctx] at hkey
    exact .publicOnly hkey
  | withPrivate _ _ _ hkey =>
    rw [htoken, hctx] at hkey
    exact .withPrivate hkey

/-- The parser gives what a decoder gives, so that no two of them can accept one token. -/
theorem Decodes.unique {pair pair' : KeyPair} (h : standard.Decodes network text pair)
    (h' : standard.Decodes network text pair') : pair = pair' := by
  have hctx : (Context.mk {} standard).scheme = standard := rfl
  exact Except.ok.inj ((h.decodePair_eq hctx).2.symm.trans (h'.decodePair_eq hctx).2)

/-- Without an origin and without a path, the parser reads what a decoder reads. -/
theorem parse_eq_ok_iff_decodes {ctx : Context} (hctx : ctx.scheme = standard)
    (hbracket : '[' ∉ text.toList) (hslash : '/' ∉ text.toList) {key : KeyExpr} :
    KeyExpr.parse ctx network text = .ok key ↔
      ∃ pair, standard.Decodes network text pair ∧ key = ⟨network, text, none, pair⟩ := by
  constructor
  · intro h
    obtain ⟨parts, pair, hparts, hpair, rfl⟩ := KeyExpr.parse_eq_ok_iff.mp h
    obtain rfl := KeyText.eq_ofToken_of_ofChars? hbracket hslash hparts
    exact ⟨pair, decodes_of_decodePair hctx hpair, rfl⟩
  · rintro ⟨pair, hpair, rfl⟩
    obtain ⟨hform, hdecode⟩ := hpair.decodePair_eq hctx
    exact KeyExpr.parse_eq_ok_iff.mpr
      ⟨_, pair, KeyText.ofChars?_of_isToken hform, hdecode, rfl⟩

end KeyScheme

/-- The four beginnings of the texts of extended keys are told apart from all other tokens. -/
theorem KeyText.isExtended_ofToken_iff {token : List Char} :
    (ofToken token).isExtended = true ↔
      ∃ mark ∈ ["xpub", "xprv", "tpub", "tprv"], mark.toList <+: token := by
  simp [isExtended, ofToken, ExtendedKey.publicMarks, ExtendedKey.secretMarks,
    List.isPrefixOf_iff_prefix, or_comm, or_left_comm]

/-- At most one decoder accepts a token, and it is the one that the first letters ask. -/
theorem key_token_dispatch (options : Options) (network : Network) (text : String) :
    (∀ pair pair', KeyScheme.standard.Decodes network text pair →
      KeyScheme.standard.Decodes network text pair' → pair = pair') ∧
    ('[' ∉ text.toList → '/' ∉ text.toList → ∀ key,
      KeyExpr.parse ⟨options, .standard⟩ network text = .ok key ↔
        ∃ pair, KeyScheme.standard.Decodes network text pair ∧ key = ⟨network, text, none, pair⟩) ∧
    (∀ key, KeyScheme.standard.decodeExtendedKey text network = .ok key →
      ∃ mark ∈ ["xpub", "xprv", "tpub", "tprv"], mark.toList <+: text.toList) ∧
    ∀ key, KeyScheme.standard.decodePrivateKey text network = .ok key →
      ∀ mark ∈ ["xpub", "xprv", "tpub", "tprv"], ¬mark.toList <+: text.toList := by
  refine ⟨fun _ _ h h' => h.unique h', fun hbracket hslash _ =>
    KeyScheme.parse_eq_ok_iff_decodes rfl hbracket hslash, fun key h => ?_, fun key h => ?_⟩
  · exact KeyText.isExtended_ofToken_iff.mp (KeyScheme.isToken_of_extended h).2
  · intro mark hmark hprefix
    have hextended := KeyText.isExtended_ofToken_iff.mpr ⟨mark, hmark, hprefix⟩
    rw [(KeyScheme.isToken_of_private h).2.1] at hextended
    cases hextended

/-- A root key for test networks, with the generator as its point. -/
def ExtendedKey.root : ExtendedKey :=
  { secretRoot with network := .test, material := .point .generator }

def ExtendedKey.rootText : String :=
  "tpubD6NzVbkrYhZ4WLczPJWReQycCJdd6YVWXubbVUFnJ5KgU5MDQrD998ZJLT5hqNKRA9cJzkh4D7oXwCpwFUWWWkHR9zPeBk1hnWBJKNhyYsn"

theorem ExtendedKey.decode_rootText :
    KeyScheme.standard.decodeExtendedKey rootText .testnet = .ok root := by
  have htext : rootText.toList = Base58.encodeCheck (root.paddedPayload 0) := by decide +kernel
  exact KeyScheme.decodeExtendedKey_eq_ok_iff.mpr
    ⟨ExtendedKey.ofText?_eq_some_iff.mpr ⟨0, htext⟩, rfl⟩

/-- An extended key and a private key are each read by their own decoder alone. -/
theorem key_token_dispatch_extended_private :
    KeyExpr.parse {} .testnet ExtendedKey.rootText =
      .ok ⟨.testnet, ExtendedKey.rootText, none, .extended .root .itself⟩ ∧
    (∃ mark ∈ ["xpub", "xprv", "tpub", "tprv"], mark.toList <+: ExtendedKey.rootText.toList) ∧
    (∀ pair, KeyScheme.standard.Decodes .testnet ExtendedKey.rootText pair →
      pair = .extended .root .itself) ∧
    ∀ mark ∈ ["xpub", "xprv", "tpub", "tprv"],
      ¬mark.toList <+: "KwDiBf89QgGbjEhKnhXJuH7LrciVrZi3qYjgd9M7rFU73sVHnoWn".toList := by
  obtain ⟨hunique, hparse, hmarks, -⟩ := key_token_dispatch {} .testnet ExtendedKey.rootText
  have hdecodes := KeyScheme.Decodes.extended ExtendedKey.decode_rootText
  refine ⟨(hparse (by decide) (by decide) _).mpr ⟨_, hdecodes, rfl⟩,
    hmarks _ ExtendedKey.decode_rootText, fun pair h => hunique _ _ h hdecodes, ?_⟩
  let key : PrivateKey := ⟨.main, true, .one⟩
  have htext : "KwDiBf89QgGbjEhKnhXJuH7LrciVrZi3qYjgd9M7rFU73sVHnoWn".toList =
      Base58.encodeCheck (key.markedPayload 1) := by decide +kernel
  have hnetwork : key.network = Network.bitcoin.kind := rfl
  have hprivate := KeyScheme.decodePrivateKey_eq_ok_iff.mpr
    ⟨PrivateKey.ofText?_eq_some_iff.mpr ⟨1, htext⟩, hnetwork⟩
  exact (key_token_dispatch {} .bitcoin _).2.2.2 key hprivate

end OutputDescriptor
