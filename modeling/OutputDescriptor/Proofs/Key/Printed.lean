import OutputDescriptor.Proofs.Key.Dispatch
import OutputDescriptor.Proofs.Key.PublicDerivation

/-! A derived key that is printed stands in for the path that led to it: whatever terms follow, the
printed key and the whole path are read with the same outcome. -/
namespace OutputDescriptor

namespace KeyText

def pathText (terms : List (List Char)) : String := String.ofList (pathChars terms)

theorem pathChars_append (terms more : List (List Char)) :
    pathChars (terms ++ more) = pathChars terms ++ pathChars more := List.flatMap_append

theorem pathText_append (terms more : List (List Char)) :
    pathText (terms ++ more) = pathText terms ++ pathText more := by
  rw [pathText, pathChars_append, String.ofList_append]
  rfl

theorem toList_append_pathText (text : String) (terms : List (List Char)) :
    (text ++ pathText terms).toList = text.toList ++ pathChars terms := by
  rw [String.toList_append, pathText, String.toList_ofList]

/-- Terms may follow a path that does not end in a wildcard. -/
theorem ofChars?_append_pathChars {text : List Char} {parts : KeyText} {more : List (List Char)}
    (h : ofChars? text = some parts) (hwildcard : parts.wildcard = .none)
    (hmore : ∀ term ∈ more, '/' ∉ term) : ofChars? (text ++ pathChars more) =
      (stepsOf? more).map fun rest =>
        { parts with steps := parts.steps ++ rest.1, wildcard := rest.2 } := by
  obtain ⟨front, rest, rfl, hfront, hrest⟩ := ofChars?_eq_some_iff.mp h
  obtain ⟨terms, rfl, halnum, hslash, hsteps, hlen, -⟩ := ofKeyAndPath?_eq_some_iff.mp hrest
  obtain ⟨fixed, star, rfl, hfixed, hstar⟩ := stepsOf?_eq_some_iff.mp hsteps
  rw [hwildcard] at hstar
  cases hstar
  rw [List.append_nil] at hslash hrest ⊢
  have hhead : (parts.key ++ pathChars (fixed ++ more)).head? ≠ some '[' := by
    have h := head?_ne_of_ofKeyAndPath? hrest
    obtain ⟨c, key, hkey⟩ := List.exists_cons_of_length_pos (by omega : 0 < parts.key.length)
    rw [hkey] at h ⊢
    exact h
  rw [List.append_assoc, List.append_assoc, ← pathChars_append, ofChars?_append hfront hhead,
    ofKeyAndPath?_append_pathChars halnum hlen (List.forall_mem_append.mpr ⟨hslash, hmore⟩),
    stepsOf?_append hfixed, Option.map_map]
  rfl

end KeyText

/-- The standard keys, but for children that are derived in another way. -/
def KeyScheme.derivingBy (derive : ExtendedKey → Nat → Bool → Except Error DerivedChild) :
    KeyScheme :=
  { KeyScheme.standard with deriveChild := derive }

/-- Every child that is given is one of the standard derivation, maybe at another index. -/
def GivesStandardChildren (derive : ExtendedKey → Nat → Bool → Except Error DerivedChild) : Prop :=
  ∀ key index hardened child, derive key index hardened = .ok child →
    ∃ index' hardened' found, key.deriveChild index' hardened' = .ok found ∧ child.key = found.key

theorem GivesStandardChildren.keepsNetwork
    {derive : ExtendedKey → Nat → Bool → Except Error DerivedChild}
    (h : GivesStandardChildren derive) : (KeyScheme.derivingBy derive).KeepsNetwork := by
  intro key index hardened child hchild
  obtain ⟨index', hardened', found, hfound, heq⟩ := h key index hardened child hchild
  rw [heq]
  exact ExtendedKey.network_deriveChild hfound

namespace KeyExpr

variable {ctx : Context} {network : Network} {text : String}

/-- What reading a key text leads to: the key, or the kind of the error. -/
def outcome (ctx : Context) (network : Network) (text : String) : Except ErrorKind KeyPair :=
  ((parse ctx network text).map pair).mapError Error.kind

/-- What the terms after an extended key lead to. -/
def outcomeFrom (ctx : Context) (k : ExtendedKey) (more : List (List Char)) :
    Except ErrorKind KeyPair :=
  match KeyText.stepsOf? more with
  | none => .error .keyDecode
  | some (steps, wildcard) =>
    (steps.foldlM (descend ctx "") k >>= fun child =>
      .ok (.extended child (KeyText.tail ⟨none, [], steps, wildcard⟩))).mapError Error.kind

theorem outcome_of_ofChars? {parts : KeyText} (h : KeyText.ofChars? text.toList = some parts) :
    outcome ctx network text = (decodePair ctx network text parts).mapError Error.kind := by
  simp only [outcome, parse, h]
  cases decodePair ctx network text parts <;> rfl

theorem outcome_of_ofChars?_eq_none (h : KeyText.ofChars? text.toList = none) :
    outcome ctx network text = .error .keyDecode := by
  rw [outcome, parse, h]
  rfl

theorem mapError_kind_foldlM_descend (text text' : String) (k : ExtendedKey)
    (steps : List PathStep) : (steps.foldlM (descend ctx text) k).mapError Error.kind =
      (steps.foldlM (descend ctx text') k).mapError Error.kind := by
  induction steps generalizing k with
  | nil => rfl
  | cons step rest ih =>
    rw [List.foldlM_cons, List.foldlM_cons]
    refine Except.mapError_bind_congr ?_ fun child _ => ih child
    unfold descend
    split <;> rfl

/-- After an extended key without a wildcard, the rest of the text alone decides. -/
theorem outcome_append {key : KeyExpr} {k : ExtendedKey} {more : List (List Char)}
    (h : parse ctx network text = .ok key) (hk : key.pair = .extended k .itself)
    (hmore : ∀ term ∈ more, '/' ∉ term) :
    outcome ctx network (text ++ KeyText.pathText more) = outcomeFrom ctx k more := by
  obtain ⟨parts, pair, hparts, hpair, rfl⟩ := parse_eq_ok_iff.mp h
  obtain rfl : pair = .extended k .itself := hk
  obtain ⟨hextended, base, hbase, hsteps, htail⟩ := decodePair_eq_extended_iff.mp hpair
  have hwildcard : parts.wildcard = .none := by
    unfold KeyText.tail at htail
    split at htail
    · assumption
    · cases htail
    · cases htail
  have hread := KeyText.ofChars?_append_pathChars hparts hwildcard hmore
  rw [← KeyText.toList_append_pathText] at hread
  unfold outcomeFrom
  cases hmore : KeyText.stepsOf? more with
  | none =>
    rw [hmore, Option.map_none] at hread
    exact outcome_of_ofChars?_eq_none hread
  | some found =>
    obtain ⟨steps, wildcard⟩ := found
    rw [hmore, Option.map_some] at hread
    have hextended' : KeyText.isExtended
        { parts with steps := parts.steps ++ steps, wildcard := wildcard } := hextended
    rw [outcome_of_ofChars? hread, decodePair_of_extended hextended', hbase, Except.ok_bind,
      List.foldlM_append, foldlM_descend_text hsteps, Except.ok_bind]
    exact Except.mapError_bind_congr (mapError_kind_foldlM_descend _ "" k steps) fun _ _ => rfl

theorem parse_token {options : Options}
    {derive : ExtendedKey → Nat → Bool → Except Error DerivedChild} {token : String}
    {base : ExtendedKey}
    (htoken : KeyScheme.standard.decodeExtendedKey token network = .ok base) :
    parse ⟨options, .derivingBy derive⟩ network token =
      .ok ⟨network, token, none, .extended base .itself⟩ := by
  obtain ⟨hform, hextended⟩ := KeyScheme.isToken_of_extended htoken
  have hsame : String.ofList (KeyText.ofToken token.toList).key = token := String.ofList_toList
  refine parse_eq_ok_iff.mpr ⟨_, _, KeyText.ofChars?_of_isToken hform,
    decodePair_eq_extended_iff.mpr ⟨hextended, base, ?_, rfl, rfl⟩, rfl⟩
  rw [hsame]
  exact htoken

theorem outcome_eq_ok_iff {pair : KeyPair} :
    outcome ctx network text = .ok pair ↔
      ∃ key, parse ctx network text = .ok key ∧ key.pair = pair := by
  rw [outcome, Except.mapError_eq_ok_iff, Except.map_eq_ok_iff]

theorem outcome_of_parse {key : KeyExpr} (h : parse ctx network text = .ok key) :
    outcome ctx network text = .ok key.pair := by
  rw [outcome, h]
  rfl

theorem outcomeFrom_fixed {base : ExtendedKey} {steps : List PathStep} {fixed : List (List Char)}
    (hfixed : List.Forall₂ PathStep.Spelled steps fixed) {pair : KeyPair}
    (h : outcomeFrom ctx base fixed = .ok pair) :
    ∃ k, steps.foldlM (descend ctx "") base = .ok k ∧ pair = .extended k .itself := by
  have hsteps : KeyText.stepsOf? fixed = some (steps, .none) :=
    KeyText.stepsOf?_eq_some_iff.mpr ⟨fixed, [], (List.append_nil fixed).symm, hfixed, .none⟩
  rw [outcomeFrom, hsteps] at h
  obtain ⟨k, hk, h⟩ := Except.bind_eq_ok_iff.mp (Except.mapError_eq_ok_iff.mp h)
  exact ⟨k, hk, (Except.ok.inj h).symm⟩

end KeyExpr

/-- The scalar of the child is no multiple of the order, so the child is not skipped. -/
theorem ExtendedKey.exists_child_secretRoot : ∃ child : ExtendedKey, child.depth = 1 ∧
    secretRoot.deriveChild 7 false = .ok ⟨child, ⟨7, false, by decide⟩⟩ := by
  let number : ChildNumber := ⟨7, false, by decide⟩
  let tweak := Bytes.toNat ((secretRoot.childSeed number).val.take 32)
  have htweak : tweak < groupOrder ∧ groupOrder.Coprime ((tweak + 1) % groupOrder) := by
    decide +kernel
  have hscalar : (tweak + 1) % groupOrder < groupOrder := Nat.mod_lt _ (by decide)
  obtain ⟨q, hq⟩ := Point.exists_ofScalar? (hscalar.trans groupOrder_lt) htweak.2
  rw [← SecretKey.map_point_of? hscalar] at hq
  obtain ⟨s, hs, -⟩ := Option.map_eq_some_iff.mp hq
  have hmaterial : secretRoot.material.tweak? tweak = some (.secret s) := by
    unfold KeyMaterial.tweak?
    rw [if_neg (Nat.not_le.mpr htweak.1)]
    exact Option.map_eq_some_iff.mpr ⟨s, hs, rfl⟩
  have hchild : ∃ child : ExtendedKey, child.depth = 1 ∧
      secretRoot.child? number = .ok (some child) := by
    rw [child?, if_neg (by decide), if_neg (by decide)]
    exact ⟨_, rfl, congrArg (fun found => Except.ok (Option.map _ found)) hmaterial⟩
  obtain ⟨child, hdepth, hchild⟩ := hchild
  refine ⟨child, hdepth, ?_⟩
  rw [deriveChild, dif_pos (by decide), hchild]

/-- The printed form of a derived key can stand in for its path, with whatever terms after it. -/
theorem printed_key_stands_in (options : Options)
    {derive : ExtendedKey → Nat → Bool → Except Error DerivedChild}
    (hderive : GivesStandardChildren derive) {network : Network} {token : String}
    {base : ExtendedKey} (htoken : KeyScheme.standard.decodeExtendedKey token network = .ok base)
    {steps : List PathStep} {fixed : List (List Char)}
    (hfixed : List.Forall₂ PathStep.Spelled steps fixed) {key : KeyExpr}
    (h : KeyExpr.parse ⟨options, .derivingBy derive⟩ network (token ++ KeyText.pathText fixed) =
      .ok key) :
    ∃ k, key.pair = .extended k .itself ∧
      ∀ more : List (List Char), (∀ term ∈ more, '/' ∉ term) →
        KeyExpr.outcome ⟨options, .derivingBy derive⟩ network (k.toText ++ KeyText.pathText more) =
          KeyExpr.outcome ⟨options, .derivingBy derive⟩ network
            (token ++ KeyText.pathText (fixed ++ more)) := by
  have hslash : ∀ term ∈ fixed, '/' ∉ term := by
    intro term hterm
    obtain ⟨step, -, hstep⟩ := exists_of_forall₂ hfixed.flip hterm
    exact hstep.slash_not_mem
  -- the key that the fixed terms lead to is what the token alone leads to with them after it
  have htoken' := @KeyExpr.parse_token network options derive token base htoken
  have hpath := KeyExpr.outcome_append htoken' rfl hslash
  rw [KeyExpr.outcome_of_parse h] at hpath
  obtain ⟨k, hk, hpair⟩ := KeyExpr.outcomeFrom_fixed hfixed hpath.symm
  refine ⟨k, hpair, fun more hmore => ?_⟩
  -- the printed key is read back, as the children stay on the network of the first key
  have hnetwork : k.network = network.kind :=
    (KeyExpr.network_foldlM_descend hderive.keepsNetwork hk).trans
      (KeyScheme.decodeExtendedKey_eq_ok_iff.mp htoken).2
  have hprinted : KeyScheme.standard.decodeExtendedKey k.toText network = .ok k :=
    KeyScheme.decodeExtendedKey_eq_ok_iff.mpr ⟨k.ofText?_toText, hnetwork⟩
  rw [KeyExpr.outcome_append (KeyExpr.parse_token hprinted) rfl hmore, KeyText.pathText_append,
    ← String.append_assoc, KeyExpr.outcome_append h hpair hmore]

/-- The printed child of a private root key stands in for the root key and the path to the child. -/
theorem printed_key_stands_in_child_secretRoot :
    ∃ child : ExtendedKey, child.depth = 1 ∧
      KeyExpr.outcome {} .bitcoin (ExtendedKey.secretRootText ++ "/7") =
        .ok (.extended child .itself) ∧
      KeyExpr.outcome {} .bitcoin (child.toText ++ "/*h") =
        .ok (.extended child (.children true .standard)) ∧
      KeyExpr.outcome {} .bitcoin (ExtendedKey.secretRootText ++ "/7/*h") =
        .ok (.extended child (.children true .standard)) ∧
      KeyExpr.outcome {} .bitcoin (child.toText ++ "/4294967296") = .error .keyDecode ∧
      KeyExpr.outcome {} .bitcoin (ExtendedKey.secretRootText ++ "/7/4294967296") =
        .error .keyDecode := by
  have htoken := ExtendedKey.decode_secretRootText
  obtain ⟨child, hdepth, hchild⟩ := ExtendedKey.exists_child_secretRoot
  have hstep : KeyExpr.descend {} "" .secretRoot ⟨7, false⟩ = .ok child :=
    KeyExpr.descend_eq_ok_iff.mpr ⟨by decide, _, ⟨hchild, .inl ⟨rfl, rfl⟩⟩, rfl⟩
  have hfrom (more : List (List Char)) (steps : List PathStep) (wildcard : Wildcard)
      (hmore : ∀ term ∈ "7".toList :: more, '/' ∉ term)
      (hsteps : KeyText.stepsOf? ("7".toList :: more) = some (⟨7, false⟩ :: steps, wildcard)) :
      KeyExpr.outcome {} .bitcoin
          (ExtendedKey.secretRootText ++ KeyText.pathText ("7".toList :: more)) =
        (steps.foldlM (KeyExpr.descend {} "") child >>= fun k =>
          .ok (.extended k (KeyText.tail ⟨none, [], [], wildcard⟩))).mapError Error.kind := by
    have hroot := @KeyExpr.parse_token .bitcoin {} ExtendedKey.deriveChild _ _ htoken
    have happend := KeyExpr.outcome_append hroot rfl hmore
    rw [KeyExpr.outcomeFrom, hsteps] at happend
    simp only [List.foldlM_cons] at happend
    rw [show KeyExpr.descend ⟨{}, .derivingBy ExtendedKey.deriveChild⟩ "" .secretRoot ⟨7, false⟩ =
      .ok child from hstep] at happend
    exact happend
  have hfixed := hfrom [] [] .none (by decide) (by decide)
  have hwildcard := hfrom ["*h".toList] [] .hardened (by decide) (by decide)
  have hbeyond := hfrom ["4294967296".toList] [⟨4294967296, false⟩] .none (by decide) (by decide)
  obtain ⟨key, hread, hkey⟩ := KeyExpr.outcome_eq_ok_iff.mp hfixed
  have hderive : GivesStandardChildren ExtendedKey.deriveChild :=
    fun _ index hardened found h => ⟨index, hardened, found, h, rfl⟩
  have hspelled : PathStep.Spelled ⟨7, false⟩ "7".toList :=
    PathStep.ofChars?_eq_some_iff.mp (by decide)
  obtain ⟨k, hk, hstands⟩ := printed_key_stands_in {} hderive htoken (.cons hspelled .nil) hread
  obtain rfl : child = k := (KeyPair.extended.inj (hkey.symm.trans hk)).1
  have hpath : KeyText.pathText ["7".toList, "*h".toList] = "/7/*h" := by decide
  have hstar := hstands ["*h".toList] (by decide)
  have hlarge := hstands ["4294967296".toList] (by decide)
  exact ⟨child, hdepth, hfixed, hstar.trans hwildcard, hwildcard, hlarge.trans hbeyond, hbeyond⟩

end OutputDescriptor
