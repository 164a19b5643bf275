import OutputDescriptor.Proofs.Key.PublicPaths
import OutputDescriptor.Proofs.Script.Respelling

/-! What a key stands for does not depend on its secret, unless its children are hardened. So an
extended key and its public counterpart describe the same outputs. -/
namespace OutputDescriptor

/-- The pair without the secret of an extended key. Hardened children cannot do without it. -/
def KeyPair.watchOnly : KeyPair → KeyPair
  | .extended k (.children true range) => .extended k (.children true range)
  | pair => pair.neuter

theorem KeyPair.watchOnly_neuter {pair : KeyPair}
    (h : ∀ k range, pair ≠ .extended k (.children true range)) :
    pair.neuter.watchOnly = pair.watchOnly := by
  rcases pair with _ | _ | ⟨k, _ | ⟨hardened, range⟩⟩
  case extended.children =>
    cases hardened with
    | false => rfl
    | true => exact absurd rfl (h k range)
  all_goals rfl

namespace KeyExpr

/-- The key expression without its secret, its text and its origin. -/
def watchOnly (key : KeyExpr) : KeyExpr := ⟨key.network, "", none, key.pair.watchOnly⟩

/-- Keys that differ at most in their secrets, texts and origins. -/
def SamePublic (key key' : KeyExpr) : Prop := key.watchOnly = key'.watchOnly

variable {options : Options} {key key' : KeyExpr}

theorem childPublicKey_neuter (k : ExtendedKey) (index : Nat) :
    childPublicKey ⟨options, .standard⟩ k.neuter false index =
      childPublicKey ⟨options, .standard⟩ k false index := by
  unfold childPublicKey
  change (k.neuter.deriveChild index false >>= _) = (k.deriveChild index false >>= _)
  rw [k.deriveChild_neuter]
  cases k.deriveChild index false <;> rfl

theorem range?_watchOnly (key : KeyExpr) : key.watchOnly.range? = key.range? := by
  obtain ⟨network, text, origin, pair⟩ := key
  rcases pair with _ | _ | ⟨k, _ | ⟨hardened, range⟩⟩
  case extended.children => cases hardened <;> rfl
  all_goals rfl

theorem isRanged_watchOnly (key : KeyExpr) : key.watchOnly.isRanged = key.isRanged := by
  rw [isRanged, isRanged, range?_watchOnly]

theorem isCompressed_watchOnly (key : KeyExpr) :
    key.watchOnly.isCompressed = key.isCompressed := by
  obtain ⟨network, text, origin, pair⟩ := key
  rcases pair with _ | _ | ⟨k, _ | ⟨hardened, range⟩⟩
  case extended.children => cases hardened <;> rfl
  all_goals rfl

theorem watchOnly_ranged (key : KeyExpr) (range : KeyRange) :
    (key.ranged range).watchOnly = key.watchOnly.ranged range := by
  obtain ⟨network, text, origin, pair⟩ := key
  rcases pair with _ | _ | ⟨k, _ | ⟨hardened, old⟩⟩
  case extended.children => cases hardened <;> rfl
  all_goals rfl

/-- The public keys are those without the secret. -/
theorem publicKeys_watchOnly (key : KeyExpr) :
    key.watchOnly.publicKeys ⟨options, .standard⟩ = key.publicKeys ⟨options, .standard⟩ := by
  obtain ⟨network, text, origin, pair⟩ := key
  rcases pair with _ | _ | ⟨k, _ | ⟨hardened, range⟩⟩
  case extended.children =>
    cases hardened with
    | false => exact mapM_congr fun index _ => childPublicKey_neuter k index
    | true => rfl
  all_goals rfl

theorem SamePublic.ranged (h : key.SamePublic key') (range : KeyRange) :
    (key.ranged range).SamePublic (key'.ranged range) := by
  rw [SamePublic, watchOnly_ranged, watchOnly_ranged, h]

theorem SamePublic.publicKeys_eq (h : key.SamePublic key') :
    key.publicKeys ⟨options, .standard⟩ = key'.publicKeys ⟨options, .standard⟩ := by
  rw [← publicKeys_watchOnly key, h, publicKeys_watchOnly]

theorem SamePublic.network_eq (h : key.SamePublic key') : key.network = key'.network := by
  have hnetwork : key.watchOnly.network = key'.watchOnly.network := by rw [h]
  exact hnetwork

theorem SamePublic.isCompressed_eq (h : key.SamePublic key') :
    key.isCompressed = key'.isCompressed := by
  rw [← isCompressed_watchOnly key, h, isCompressed_watchOnly]

end KeyExpr

section Payments

variable {options : Options}

theorem KeyForm.payments_eq {key key' : KeyExpr} (h : key.SamePublic key') (network : Network)
    (form : KeyForm) : form.payments ⟨options, .standard⟩ network key =
      form.payments ⟨options, .standard⟩ network key' := by
  rw [payments, payments, KeyExpr.presentKeys, KeyExpr.presentKeys, h.publicKeys_eq,
    h.isCompressed_eq]

theorem commonRange_watchOnly (keys : List KeyExpr) :
    commonRange (keys.map KeyExpr.watchOnly) = commonRange keys := by
  have hrange : KeyExpr.range? ∘ KeyExpr.watchOnly = KeyExpr.range? :=
    funext KeyExpr.range?_watchOnly
  rw [commonRange, commonRange, List.filterMap_map, hrange]

namespace KeySet

theorem atPosition_watchOnly (sorted : Bool) (keys : List KeyExpr)
    (resolved : List (List (Option PublicKey))) :
    atPosition sorted ((keys.map KeyExpr.watchOnly).zip resolved) =
      atPosition sorted (keys.zip resolved) := by
  funext position
  have hkeyAt (key : KeyExpr) (found : List (Option PublicKey)) :
      keyAt position key.watchOnly found = keyAt position key found := by
    rw [keyAt, keyAt, key.isRanged_watchOnly]
  rw [atPosition, atPosition, List.zip_map_left, List.mapM_map]
  simp only [Function.comp_def, Prod.map, hkeyAt, id]

theorem ofKeys_watchOnly (sorted : Bool) (keys : List KeyExpr) :
    ofKeys ⟨options, .standard⟩ sorted (keys.map KeyExpr.watchOnly) =
      ofKeys ⟨options, .standard⟩ sorted keys := by
  unfold ofKeys
  rw [commonRange_watchOnly, List.mapM_map]
  simp only [Function.comp_def, KeyExpr.publicKeys_watchOnly, atPosition_watchOnly]

theorem ofKeys_eq {keys keys' : List KeyExpr} (h : List.Forall₂ KeyExpr.SamePublic keys keys')
    (sorted : Bool) : ofKeys ⟨options, .standard⟩ sorted keys =
      ofKeys ⟨options, .standard⟩ sorted keys' := by
  have hwatch : keys.map KeyExpr.watchOnly = keys'.map KeyExpr.watchOnly := by
    induction h with
    | nil => rfl
    | cons hkey _ ih => exact congrArg₂ List.cons hkey ih
  rw [← ofKeys_watchOnly, hwatch, ofKeys_watchOnly]

end KeySet

namespace ScriptExpr

variable {e e' : ScriptExpr}

theorem SameCalls.withRange (h : e.SameCalls KeyExpr.SamePublic e') (range : KeyRange) :
    (e.withRange range).SameCalls KeyExpr.SamePublic (e'.withRange range) := by
  induction h with
  | wrapped hnetwork wrapper _ ih => exact .wrapped hnetwork wrapper ih
  | @keyed label label' hnetwork form key key' hcombo h =>
    exact .keyed hnetwork form (fun hform => (key.network_ranged range).trans (hcombo hform))
      (h.ranged range)
  | multisig hnetwork sorted threshold h =>
    refine .multisig hnetwork sorted threshold ?_
    rw [List.forall₂_map_left_iff, List.forall₂_map_right_iff]
    exact h.imp fun key key' h => h.ranged range
  | addr hnetwork address => exact .addr hnetwork address
  | raw hnetwork hex => exact .raw hnetwork hex

/-- The same calls on keys that differ at most in their secrets make the same payments. -/
theorem SameCalls.payments_eq_of_samePublic (h : e.SameCalls KeyExpr.SamePublic e') :
    e.payments ⟨options, .standard⟩ = e'.payments ⟨options, .standard⟩ := by
  induction h with
  | wrapped hnetwork wrapper _ ih => rw [payments_wrapped, payments_wrapped, hnetwork, ih]
  | @keyed label label' hnetwork form key key' hcombo h =>
    have hcombo' (hform : form = .combo) : key'.network = label'.network := by
      rw [← h.network_eq, hcombo hform, hnetwork]
    rw [payments_keyed hcombo, payments_keyed hcombo', hnetwork, form.payments_eq h]
  | multisig hnetwork sorted threshold h =>
    rw [payments_multisig, payments_multisig, KeySet.ofKeys_eq h]
  | addr hnetwork address => rfl
  | raw hnetwork hex => rw [payments_raw, payments_raw, hnetwork]

end ScriptExpr

end Payments

namespace KeyExpr

variable {options : Options} {network : Network}

/-- The keys that are read after an extended key and after its public counterpart. -/
theorem samePublic_of_parse {text : String} {key : KeyExpr} {k : ExtendedKey}
    (h : parse ⟨options, .standard⟩ network text = .ok key) (hk : key.pair = .extended k .itself)
    {terms : List (List Char)} (hslash : ∀ term ∈ terms, '/' ∉ term)
    (hterms : ∀ term ∈ terms, Unmarked term) {a b : KeyExpr}
    (ha : parse ⟨options, .standard⟩ network (text ++ KeyText.pathText terms) = .ok a)
    (hb : parse ⟨options, .standard⟩ network (k.neuter.toText ++ KeyText.pathText terms) = .ok b) :
    a.SamePublic b := by
  have hpair : b.pair = a.pair.neuter := by
    have houtcome := outcome_neuter h hk hslash hterms
    rw [outcome_of_parse ha, outcome_of_parse hb] at houtcome
    exact Except.ok.inj houtcome
  have hunhardened : ∀ child range, a.pair ≠ .extended child (.children true range) := by
    have hfrom := outcome_append h hk hslash
    rw [outcome_of_parse ha] at hfrom
    exact outcomeFrom_ne_hardened hfrom.symm hterms
  rw [SamePublic, watchOnly, watchOnly, hpair, KeyPair.watchOnly_neuter hunhardened,
    (parse_network ha).1, (parse_network hb).1]

theorem SamePublic.swap {a b : KeyExpr} (h : a.SamePublic b) (key : KeyExpr) :
    key.SamePublic (Equiv.swap a b key) := by
  rw [Equiv.swap_apply_def]
  split
  · rename_i ha
    rwa [ha]
  · split
    · rename_i hb
      rw [hb]
      exact h.symm
    · rfl

theorem parse_swap {ctx : Context} {text text' : String} {a b : KeyExpr}
    (ha : parse ctx network text = .ok a) (hb : parse ctx network text' = .ok b) (other : String)
    (key : KeyExpr) (h : parse ctx network other = .ok key) :
    ∃ key', parse ctx network (Equiv.swap text text' other) = .ok key' ∧
      key' = Equiv.swap a b key := by
  by_cases htext : other = text
  · rw [htext, ha] at h
    cases h
    refine ⟨b, ?_, (Equiv.swap_apply_left a b).symm⟩
    rw [htext, Equiv.swap_apply_left]
    exact hb
  · by_cases htext' : other = text'
    · rw [htext', hb] at h
      cases h
      refine ⟨a, ?_, (Equiv.swap_apply_right a b).symm⟩
      rw [htext', Equiv.swap_apply_right]
      exact ha
    · have hne (found : KeyExpr) {written : String} (hfound : parse ctx network written = .ok found)
          (hother : other ≠ written) : key ≠ found := by
        rintro rfl
        exact hother ((parse_network h).2.symm.trans (parse_network hfound).2)
      refine ⟨key, ?_, (Equiv.swap_apply_of_ne_of_ne (hne a ha htext) (hne b hb htext')).symm⟩
      rw [Equiv.swap_apply_of_ne_of_ne htext htext']
      exact h

end KeyExpr

/-- Along unhardened paths, a private extended key and its public counterpart describe the same
outputs. -/
theorem public_counterpart_same_outputs (options : Options) {network : Network} {text : String}
    {key : KeyExpr} {k : ExtendedKey}
    (h : KeyExpr.parse ⟨options, .standard⟩ network text = .ok key)
    (hk : key.pair = .extended k .itself) {terms : List (List Char)}
    (hslash : ∀ term ∈ terms, '/' ∉ term) (hterms : ∀ term ∈ terms, Unmarked term) :
    let ctx : Context := ⟨options, .standard⟩
    let spending := text ++ KeyText.pathText terms
    let watching := k.neuter.toText ++ KeyText.pathText terms
    KeyExpr.outcome ctx network watching =
      (KeyExpr.outcome ctx network spending).map KeyPair.neuter ∧
    ∀ a b, KeyExpr.parse ctx network spending = .ok a →
      KeyExpr.parse ctx network watching = .ok b →
      (∀ evaluation range, b.publicKeys ⟨evaluation, .standard⟩ =
          a.publicKeys ⟨evaluation, .standard⟩ ∧
        (b.ranged range).publicKeys ⟨evaluation, .standard⟩ =
          (a.ranged range).publicKeys ⟨evaluation, .standard⟩) ∧
      (∀ parent text e, ScriptExpr.parse ctx network parent text = .ok e →
        ∃ e', ScriptExpr.parse ctx network parent (e.respell (Equiv.swap spending watching)) =
            .ok e' ∧
          e.SameCalls (fun key key' => key' = Equiv.swap a b key) e') ∧
      ∀ e e' : ScriptExpr, e.SameCalls (fun key key' => key' = Equiv.swap a b key) e' →
        ∀ evaluation range, e'.payments ⟨evaluation, .standard⟩ =
            e.payments ⟨evaluation, .standard⟩ ∧
          (e'.withRange range).payments ⟨evaluation, .standard⟩ =
            (e.withRange range).payments ⟨evaluation, .standard⟩ := by
  intro ctx spending watching
  refine ⟨KeyExpr.outcome_neuter h hk hslash hterms, fun a b ha hb => ?_⟩
  have hsame : a.SamePublic b := KeyExpr.samePublic_of_parse h hk hslash hterms ha hb
  refine ⟨?_, ?_, ?_⟩
  · intro evaluation range
    exact ⟨hsame.publicKeys_eq.symm, (hsame.ranged range).publicKeys_eq.symm⟩
  · intro parent text e he
    refine ScriptExpr.parse_respell (KeyExpr.parse_swap ha hb) ?_ he
    rintro key _ rfl
    exact (hsame.swap key).isCompressed_eq.symm
  · intro e e' he evaluation range
    have he' : e.SameCalls KeyExpr.SamePublic e' := by
      apply he.imp
      rintro key _ rfl
      exact hsame.swap key
    exact ⟨he'.payments_eq_of_samePublic.symm, (he'.withRange range).payments_eq_of_samePublic.symm⟩

/-- A fixed term and a wildcard after a private root key, and after the public key that is printed for
it. -/
theorem public_counterpart_same_outputs_secretRoot :
    ∃ child a b, KeyExpr.parse {} .bitcoin (ExtendedKey.secretRootText ++ "/7/*") = .ok a ∧
      KeyExpr.parse {} .bitcoin (ExtendedKey.secretRoot.neuter.toText ++ "/7/*") = .ok b ∧
      a.pair = .extended child (.children false .standard) ∧
      b.pair = .extended child.neuter (.children false .standard) ∧
      ∀ range, (b.ranged range).publicKeys {} = (a.ranged range).publicKeys {} ∧
        ∀ label, (ScriptExpr.keyed label .wpkh b).payments {} =
          (ScriptExpr.keyed label .wpkh a).payments {} := by
  have hparse : KeyExpr.parse {} .bitcoin ExtendedKey.secretRootText =
      .ok ⟨.bitcoin, ExtendedKey.secretRootText, none, .extended .secretRoot .itself⟩ :=
    @KeyExpr.parse_token .bitcoin {} ExtendedKey.deriveChild _ _ ExtendedKey.decode_secretRootText
  have hslash : ∀ term ∈ ["7".toList, "*".toList], '/' ∉ term := by decide
  have hterms : ∀ term ∈ ["7".toList, "*".toList], Unmarked term :=
    List.forall_mem_cons.mpr ⟨rfl, List.forall_mem_singleton.mpr rfl⟩
  have hpath : KeyText.pathText ["7".toList, "*".toList] = "/7/*" := by decide
  obtain ⟨child, -, hchild⟩ := ExtendedKey.exists_child_secretRoot
  have hspending : KeyExpr.outcome {} .bitcoin (ExtendedKey.secretRootText ++ "/7/*") =
      .ok (.extended child (.children false .standard)) := by
    have hstep : KeyExpr.descend {} "" .secretRoot ⟨7, false⟩ = .ok child :=
      KeyExpr.descend_eq_ok_iff.mpr ⟨by decide, _, ⟨hchild, .inl ⟨rfl, rfl⟩⟩, rfl⟩
    have hsteps : KeyText.stepsOf? ["7".toList, "*".toList] =
        some ([⟨7, false⟩], .unhardened) := by decide
    rw [← hpath, KeyExpr.outcome_append hparse rfl hslash, KeyExpr.outcomeFrom, hsteps]
    simp only [List.foldlM_cons, hstep]
    rfl
  obtain ⟨hwatching, hsame⟩ := public_counterpart_same_outputs {} hparse rfl hslash hterms
  rw [hpath] at hwatching hsame
  change KeyExpr.outcome {} .bitcoin _ = (KeyExpr.outcome {} .bitcoin _).map _ at hwatching
  rw [hspending] at hwatching
  obtain ⟨a, ha, hpair⟩ := KeyExpr.outcome_eq_ok_iff.mp hspending
  obtain ⟨b, hb, hpair'⟩ := KeyExpr.outcome_eq_ok_iff.mp hwatching
  obtain ⟨hkeys, -, hpayments⟩ := hsame a b ha hb
  refine ⟨child, a, b, ha, hb, hpair, hpair', fun range => ⟨(hkeys {} range).2, fun label => ?_⟩⟩
  exact (hpayments (.keyed label .wpkh a) (.keyed label .wpkh b)
    (.keyed rfl .wpkh (by simp) (Equiv.swap_apply_left a b).symm) {} range).1

end OutputDescriptor
