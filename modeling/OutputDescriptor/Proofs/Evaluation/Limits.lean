import OutputDescriptor.Proofs.Evaluation.KeyPresence
import OutputDescriptor.Proofs.Evaluation.OutputViews
import OutputDescriptor.Proofs.Output.ScriptSizes

/-! When an expression can be evaluated. If its wildcard keys can be derived, then only limits on the
forms of keys, on their number and on the length of scripts are in the way. -/
namespace OutputDescriptor

/-! ### Single payments -/

namespace Payment

variable {network : Network}

theorem exists_p2wpkh_iff {key : PublicKey} :
    (∃ payment, p2wpkh key network = .ok payment) ↔ key.compressed := by
  unfold p2wpkh
  split <;> simp_all

theorem exists_p2ms_iff {threshold : Nat} {keys : List PublicKey} (hpos : threshold ≠ 0) :
    (∃ payment, p2ms threshold keys = .ok payment) ↔
      threshold ≤ keys.length ∧ keys.length ≤ 20 := by
  simp only [p2ms_eq_ok_iff]
  constructor
  · rintro ⟨payment, -, hle, hcount, -⟩
    exact ⟨hle, hcount⟩
  · intro h
    exact ⟨_, by omega, h.1, h.2, rfl⟩

theorem exists_p2sh_iff {redeem : Payment} : (∃ payment, p2sh redeem network = .ok payment) ↔
    redeem.outputScript.length ≤ maxScriptElementSize := by
  simp only [p2sh_eq_ok_iff, exists_and_left, exists_eq, and_true]
  rfl

theorem exists_p2wsh_iff {witness : Payment} : (∃ payment, p2wsh witness network = .ok payment) ↔
    Script.hasUncompressedKey witness.outputScript = false := by
  simp only [p2wsh_eq_ok_iff, exists_and_left, exists_eq, and_true]

theorem kind_of_p2wpkh_error {key : PublicKey} {error : Error}
    (h : p2wpkh key network = .error error) : error.kind = .payment := by
  unfold p2wpkh at h
  split at h
  · cases h
  · rw [← Except.error.inj h]
    rfl

theorem kind_of_p2ms_error {threshold : Nat} {keys : List PublicKey} {error : Error}
    (h : p2ms threshold keys = .error error) : error.kind = .payment := by
  unfold p2ms checkMultisig at h
  split at h
  · rw [← Except.error.inj h]
    rfl
  · split at h
    · rw [← Except.error.inj h]
      rfl
    · cases h

theorem kind_of_wrap_error {w : Wrapper} {inner : Payment} {error : Error}
    (h : w.payment inner network = .error error) : error.kind = .payment := by
  cases w with
  | sh =>
    unfold Wrapper.payment p2sh checkRedeemScriptSize at h
    dsimp only at h
    split at h
    · rw [← Except.error.inj h]
      rfl
    · cases h
  | wsh =>
    unfold Wrapper.payment p2wsh at h
    dsimp only at h
    split at h
    · rw [← Except.error.inj h]
      rfl
    · cases h

theorem length_p2wpkh_le {key : PublicKey} {payment : Payment}
    (h : p2wpkh key network = .ok payment) : payment.outputScript.length ≤ 34 := by
  obtain ⟨-, rfl⟩ := p2wpkh_eq_ok_iff.mp h
  exact Address.length_script_le _

end Payment

namespace ScriptExpr

variable {ctx : Context} {e : ScriptExpr}

/-! ### What is in the way -/

/-- What keeps a call from being evaluated, and the kind of error that says so. -/
inductive Obstacle (ctx : Context) : ErrorKind → ScriptExpr → Prop
  | ranges {label : Label} {sorted : Bool} {threshold : NumberExpr} {keys : List KeyExpr}
      (h : RangesDiffer keys) : Obstacle ctx .keyRange (.multisig label sorted threshold keys)
  | witnessKey {label : Label} {key : KeyExpr} (h : ¬key.isCompressed) :
      Obstacle ctx .payment (.keyed label .wpkh key)
  | keyCount {label : Label} {sorted : Bool} {threshold : NumberExpr} {keys : List KeyExpr}
      (hset : HasKeySet ctx keys) (h : 20 < keys.length ∨ keys.length < threshold.value) :
      Obstacle ctx .payment (.multisig label sorted threshold keys)
  | witnessScript {label : Label} {inner : ScriptExpr} (hkeys : inner.type.holdsKeys)
      (hset : HasKeySet ctx inner.keys) (h : ∃ key ∈ inner.keys, ¬key.isCompressed) :
      Obstacle ctx .payment (.wrapped label .wsh inner)
  | redeemScript {label label' : Label} {sorted : Bool} {threshold : NumberExpr}
      {keys : List KeyExpr} (hset : HasKeySet ctx keys)
      (h : 520 < 34 * keys.countP (·.isCompressed) + 66 * keys.countP (!·.isCompressed) + 3) :
      Obstacle ctx .payment (.wrapped label .sh (.multisig label' sorted threshold keys))
  | template {label : Label} {hex : HexExpr} (h : ∀ template : Template, ¬template.fits hex.value) :
      Obstacle ctx .unsupportedOutput (.raw label hex)

/-- Only existing keys are in the way of a payment; an uncompressed one is never missing. -/
theorem hasKeySet_of_obstacle {call : ScriptExpr} (hcall : call ∈ e.levels)
    (h : call.Obstacle ctx .payment) : HasKeySet ctx e.leafKeys := by
  rw [← leafKeys_levels e call hcall]
  cases h with
  | @witnessKey label key h =>
    have hfixed : key.isRanged = false := by
      rw [Bool.eq_false_iff]
      exact fun hranged => h (KeyExpr.isCompressed_of_isRanged hranged)
    refine ⟨0, List.forall_mem_singleton.mpr ?_⟩
    exact KeyExpr.existsAt_of_isRanged_eq_false hfixed 0
  | keyCount hset => exact hset
  | @witnessScript label inner hkeys hset =>
    cases inner with
    | wrapped => cases hkeys
    | _ => exact hset
  | redeemScript hset => exact hset

/-! ### One set of keys -/

section KeySet

variable {set : List PublicKey}

theorem hasUncompressedKey_of_paysTo {payment : Payment} (hwraps : Wrapper.wsh.wraps e.type)
    (hpays : e.PaysTo set payment) : Script.hasUncompressedKey payment.outputScript =
      (e.type.holdsKeys && set.any (!·.compressed)) := by
  cases e with
  | wrapped label w inner => cases w <;> cases hwraps
  | keyed label form key =>
    obtain ⟨k, rfl, hpays⟩ := hpays
    cases form with
    | pk =>
      have hpayment : Payment.p2pk k = payment := hpays
      rw [← hpayment, Payment.p2pk, Script.hasUncompressedKey_payToKey]
      simp [type, ScriptType.holdsKeys]
    | pkh =>
      have hpayment : Payment.p2pkh k label.network = payment := hpays
      rw [← hpayment, Payment.p2pkh_eq_ofAddress]
      exact Script.hasUncompressedKey_keyHash label.network.kind (hash160 k.toBytes)
    | wpkh => cases hwraps
    | combo => cases hwraps
  | multisig label sorted threshold keys =>
    obtain ⟨-, -, -, rfl⟩ := Payment.p2ms_eq_ok_iff.mp hpays
    exact Script.hasUncompressedKey_multisig threshold.value set
  | addr => cases hwraps
  | raw => cases hwraps

theorem length_of_paysTo {payment : Payment} (htype : ∀ sorted, e.type ≠ .multisig sorted)
    (hpays : e.PaysTo set payment) : payment.outputScript.length ≤ 67 := by
  cases e with
  | wrapped label w inner =>
    obtain ⟨wrapped, -, hwrap⟩ := hpays
    cases w with
    | sh =>
      obtain ⟨-, rfl⟩ := Payment.p2sh_eq_ok_iff.mp hwrap
      exact (Address.length_script_le _).trans (by decide)
    | wsh =>
      obtain ⟨-, rfl⟩ := Payment.p2wsh_eq_ok_iff.mp hwrap
      exact (Address.length_script_le _).trans (by decide)
  | keyed label form key =>
    obtain ⟨k, -, hpays⟩ := hpays
    cases form with
    | pk =>
      have hpayment : Payment.p2pk k = payment := hpays
      rw [← hpayment]
      exact Script.length_payToKey_le k
    | pkh =>
      have hpayment : Payment.p2pkh k label.network = payment := hpays
      rw [← hpayment, Payment.p2pkh_eq_ofAddress]
      exact (Address.length_script_le _).trans (by decide)
    | wpkh => exact (Payment.length_p2wpkh_le hpays).trans (by decide)
    | combo => exact absurd hpays id
  | multisig label sorted threshold keys => exact absurd rfl (htype sorted)
  | addr => exact absurd hpays id
  | raw => exact absurd hpays id

theorem obstacle_wsh_iff {label : Label} : (wrapped label .wsh e).Obstacle ctx .payment ↔
    e.type.holdsKeys ∧ HasKeySet ctx e.keys ∧ ∃ key ∈ e.keys, ¬key.isCompressed := by
  constructor
  · rintro ⟨⟩
    exact ⟨‹_›, ‹_›, ‹_›⟩
  · rintro ⟨hkeys, hset, h⟩
    exact .witnessScript hkeys hset h

theorem leafKeys_of_wraps_wsh (hwraps : Wrapper.wsh.wraps e.type) : e.leafKeys = e.keys := by
  cases e with
  | wrapped label w inner => cases w <;> cases hwraps
  | _ => rfl

/-- Given a set of keys, what pays to them can be wrapped unless a limit of the wrapper is reached. -/
theorem exists_wrap_iff {w : Wrapper} {payment : Payment} (label : Label)
    (hwraps : w.wraps e.type) (hforms : FormsOf e.leafKeys set) (hset : HasKeySet ctx e.leafKeys)
    (hpays : e.PaysTo set payment) : (∃ wrapped, w.payment payment label.network = .ok wrapped) ↔
      ¬(wrapped label w e).Obstacle ctx .payment := by
  cases w with
  | wsh =>
    rw [leafKeys_of_wraps_wsh hwraps] at hforms hset
    rw [obstacle_wsh_iff, Wrapper.payment, Payment.exists_p2wsh_iff,
      hasUncompressedKey_of_paysTo hwraps hpays, hforms.any_uncompressed]
    simp [hset]
  | sh =>
    rw [Wrapper.payment, Payment.exists_p2sh_iff]
    by_cases hmultisig : ∃ sorted, e.type = .multisig sorted
    · cases e with
      | multisig label' sorted threshold keys =>
        have hforms : FormsOf keys set := hforms
        obtain ⟨hpos, hle, -, rfl⟩ := Payment.p2ms_eq_ok_iff.mp hpays
        have hcompressed : set.countP (·.compressed) = keys.countP (·.isCompressed) :=
          hforms.countP_eq id
        have huncompressed : set.countP (!·.compressed) = keys.countP (!·.isCompressed) :=
          hforms.countP_eq (!·)
        rw [Script.length_multisig_le_iff hpos hle, hcompressed, huncompressed]
        constructor
        · rintro hsize ⟨⟩
          omega
        · intro hnone
          by_contra hsize
          exact hnone (.redeemScript hset (by omega))
      | _ => simp [type] at hmultisig
    · have hsize := length_of_paysTo (fun sorted htype => hmultisig ⟨sorted, htype⟩) hpays
      apply iff_of_true
      · exact hsize.trans (by decide)
      · rintro ⟨⟩
        exact hmultisig ⟨_, rfl⟩

/-- A set of keys is paid to unless something is in the way at some level. -/
theorem exists_paysTo_iff {P : KeyExpr → Prop} (hbuilt : (Expr.script e).Built P)
    (hpays : e.PaysKeys) (hforms : FormsOf e.leafKeys set) (hset : HasKeySet ctx e.leafKeys) :
    (∃ payment, e.PaysTo set payment) ↔ ∀ call ∈ e.levels, ¬call.Obstacle ctx .payment := by
  induction e with
  | wrapped label w inner ih =>
    have hinner := ih (List.forall_mem_singleton.mp (Built.children hbuilt)) hpays hforms hset
    have hwrap {payment : Payment} (hpayment : inner.PaysTo set payment) :=
      exists_wrap_iff label (Built.shaped hbuilt) hforms hset hpayment
    rw [levels, List.forall_mem_cons, ← hinner]
    constructor
    · rintro ⟨wrapped, payment, hpayment, hwrapped⟩
      exact ⟨(hwrap hpayment).mp ⟨wrapped, hwrapped⟩, payment, hpayment⟩
    · rintro ⟨hnone, payment, hpayment⟩
      obtain ⟨wrapped, hwrapped⟩ := (hwrap hpayment).mpr hnone
      exact ⟨wrapped, payment, hpayment, hwrapped⟩
  | keyed label form key =>
    obtain ⟨k, rfl⟩ := List.length_eq_one_iff.mp hforms.length_eq
    have hcompressed : k.compressed = key.isCompressed := by
      simpa [FormsOf, leafKeys, keys] using hforms
    refine Iff.trans ?_ List.forall_mem_singleton.symm
    cases form with
    | pk => exact iff_of_true ⟨_, k, rfl, rfl⟩ (by rintro ⟨⟩)
    | pkh => exact iff_of_true ⟨_, k, rfl, rfl⟩ (by rintro ⟨⟩)
    | wpkh =>
      have hkey : (∃ payment, (keyed label .wpkh key).PaysTo [k] payment) ↔
          ∃ payment, Payment.p2wpkh k label.network = .ok payment := by
        simp [PaysTo, KeyForm.PaysTo]
      rw [hkey, Payment.exists_p2wpkh_iff, hcompressed]
      constructor
      · intro h hobstacle
        cases hobstacle with
        | witnessKey hnot => exact hnot h
      · intro hnone
        by_contra h
        exact hnone (.witnessKey h)
    | combo => exact absurd rfl hpays
  | multisig label sorted threshold keys =>
    have hlength : set.length = keys.length := hforms.length_eq
    refine Iff.trans ?_ List.forall_mem_singleton.symm
    refine (Payment.exists_p2ms_iff threshold.value_ne_zero).trans ?_
    rw [hlength]
    constructor
    · rintro h ⟨⟩
      omega
    · intro hnone
      by_contra h
      exact hnone (.keyCount hset (by omega))
  | addr => exact absurd hpays id
  | raw => exact absurd hpays id

end KeySet

/-! ### Errors -/

theorem payments_of_keySets_error (hpays : e.PaysKeys) {error : Error}
    (h : e.keySets ctx = .error error) : e.payments ctx = .error error := by
  induction e with
  | wrapped label w inner ih =>
    rw [payments_wrapped, ih hpays h]
    rfl
  | keyed label form key =>
    cases hkeys : key.presentKeys ctx with
    | error found =>
      rw [keySets, hkeys] at h
      rw [payments_keyed fun hcombo => absurd hcombo hpays, KeyForm.payments, hkeys,
        ← Except.error.inj h]
      rfl
    | ok found =>
      rw [keySets, hkeys] at h
      cases h
  | multisig label sorted threshold keys =>
    have hsets : KeySet.ofKeys ctx sorted keys = .error error := h
    rw [payments_multisig, hsets]
    rfl
  | addr => exact absurd hpays id
  | raw => exact absurd hpays id

/-- Once the keys are there, only composing a payment fails. -/
theorem kind_of_payments_error (hpays : e.PaysKeys) {sets : List (List PublicKey)}
    (hsets : e.keySets ctx = .ok sets) {error : Error} (h : e.payments ctx = .error error) :
    error.kind = .payment := by
  induction e generalizing error with
  | wrapped label w inner ih =>
    rw [payments_wrapped] at h
    cases hinner : inner.payments ctx with
    | error found =>
      rw [hinner] at h
      obtain rfl : found = error := Except.error.inj h
      exact ih hpays hsets hinner
    | ok wrapped =>
      rw [hinner, Except.ok_bind] at h
      obtain ⟨payment, -, hpayment⟩ := exists_of_mapM_eq_error h
      exact Payment.kind_of_wrap_error hpayment
  | keyed label form key =>
    obtain ⟨found, hfound, -⟩ := Except.map_eq_ok_iff.mp hsets
    rw [payments_keyed fun hcombo => absurd hcombo hpays, KeyForm.payments, hfound,
      Except.ok_bind] at h
    cases form with
    | pk => cases h
    | pkh => cases h
    | wpkh =>
      obtain ⟨k, -, hk⟩ := exists_of_mapM_eq_error h
      exact Payment.kind_of_p2wpkh_error hk
    | combo => exact absurd rfl hpays
  | multisig label sorted threshold keys =>
    have hsets : KeySet.ofKeys ctx sorted keys = .ok sets := hsets
    rw [payments_multisig, hsets, Except.ok_bind] at h
    obtain ⟨set, -, hset⟩ := exists_of_mapM_eq_error h
    exact Payment.kind_of_p2ms_error hset
  | addr => exact absurd hpays id
  | raw => exact absurd hpays id

theorem exists_obstacle_of_rangesDiffer (h : RangesDiffer e.leafKeys) (hpays : e.PaysKeys) :
    ∃ call ∈ e.levels, call.Obstacle ctx .keyRange := by
  induction e with
  | wrapped label w inner ih =>
    obtain ⟨call, hcall, hobstacle⟩ := ih h hpays
    exact ⟨call, List.mem_cons_of_mem _ hcall, hobstacle⟩
  | keyed label form key => exact absurd h (not_rangesDiffer_singleton key)
  | multisig label sorted threshold keys => exact ⟨_, List.mem_singleton_self _, .ranges h⟩
  | addr => exact absurd hpays id
  | raw => exact absurd hpays id

theorem rangesDiffer_of_obstacle {call : ScriptExpr} (hcall : call ∈ e.levels)
    (h : call.Obstacle ctx .keyRange) : RangesDiffer e.leafKeys := by
  rw [← leafKeys_levels e call hcall]
  cases h with
  | ranges h => exact h

theorem paysKeys_levels (hpays : e.PaysKeys) : ∀ call ∈ e.levels, call.PaysKeys :=
  forall_mem_levels (fun _ _ _ h => h) hpays

theorem Obstacle.kind_of_paysKeys {kind : ErrorKind} (h : e.Obstacle ctx kind)
    (hpays : e.PaysKeys) : kind = .keyRange ∨ kind = .payment := by
  cases h with
  | ranges => exact .inl rfl
  | template => exact absurd hpays id
  | _ => exact .inr rfl

theorem Obstacle.kind_mem {kind : ErrorKind} (h : e.Obstacle ctx kind) :
    kind ∈ [.keyRange, .unsupportedOutput, .payment] := by
  cases h <;> simp

/-! ### The limits of evaluation -/

/-- Either nothing is in the way, or it fails for something that is, with payment errors last. -/
def Limited (ctx : Context) (e : ScriptExpr) : Prop :=
  ((∃ payments, e.payments ctx = .ok payments) ∧
    ∀ call ∈ e.levels, ∀ kind, ¬call.Obstacle ctx kind) ∨
  ∃ error, e.payments ctx = .error error ∧ (∃ call ∈ e.levels, call.Obstacle ctx error.kind) ∧
    ∀ call ∈ e.levels, ∀ kind, call.Obstacle ctx kind → kind = error.kind ∨ kind = .payment

/-- What is in the way of a payment stands in the way of paying to each set, and there is one then. -/
theorem exists_payments_iff {P : KeyExpr → Prop} (hbuilt : (Expr.script e).Built P)
    (hpays : e.PaysKeys) {sets : List (List PublicKey)} (hsets : e.keySets ctx = .ok sets)
    (hforms : ∀ set ∈ sets, FormsOf e.leafKeys set)
    (hne : sets ≠ [] ↔ HasKeySet ctx e.leafKeys) :
    (∃ payments, e.payments ctx = .ok payments) ↔
      ∀ call ∈ e.levels, ¬call.Obstacle ctx .payment := by
  have hpaid {set : List PublicKey} (hset : set ∈ sets) :=
    exists_paysTo_iff hbuilt hpays (hforms set hset) (hne.mp (List.ne_nil_of_mem hset))
  constructor
  · rintro ⟨payments, hpayments⟩ call hcall hobstacle
    obtain ⟨found, hfound, hall⟩ := (payments_eq_ok_iff hpays).mp hpayments
    obtain rfl : sets = found := Except.ok.inj (hsets.symm.trans hfound)
    have hexists := hne.mpr (hasKeySet_of_obstacle hcall hobstacle)
    obtain ⟨set, hset⟩ := List.exists_mem_of_ne_nil sets hexists
    obtain ⟨payment, -, hpayment⟩ := exists_of_forall₂ hall hset
    exact (hpaid hset).mp ⟨payment, hpayment⟩ call hcall hobstacle
  · intro hnone
    obtain ⟨payments, hpayments⟩ :=
      exists_forall₂_of_forall_exists fun set hset => (hpaid hset).mpr hnone
    exact ⟨payments, (payments_eq_ok_iff hpays).mpr ⟨sets, hsets, hpayments⟩⟩

theorem limited_of_paysKeys {P : KeyExpr → Prop} (hbuilt : (Expr.script e).Built P)
    (hpays : e.PaysKeys) (hderives : ∀ key ∈ e.leafKeys, key.Derives ctx) : e.Limited ctx := by
  have hkinds : ∀ call ∈ e.levels, ∀ kind, call.Obstacle ctx kind →
      kind = .keyRange ∨ kind = .payment := fun call hcall kind hobstacle =>
    hobstacle.kind_of_paysKeys (paysKeys_levels hpays call hcall)
  by_cases hranges : RangesDiffer e.leafKeys
  · obtain ⟨error, hsets, hkind⟩ := @keySets_of_rangesDiffer ctx e hranges
    right
    refine ⟨error, payments_of_keySets_error hpays hsets, ?_⟩
    rw [hkind]
    exact ⟨exists_obstacle_of_rangesDiffer hranges hpays, hkinds⟩
  -- The ranges fit, so that only payments can have something in their way.
  have honly : ∀ call ∈ e.levels, ∀ kind, call.Obstacle ctx kind → kind = .payment := by
    intro call hcall kind hobstacle
    rcases hkinds call hcall kind hobstacle with rfl | rfl
    · exact absurd (rangesDiffer_of_obstacle hcall hobstacle) hranges
    · rfl
  obtain ⟨sets, hsets, hforms, hne⟩ := exists_keySets hpays hderives hranges
  have hiff := exists_payments_iff hbuilt hpays hsets hforms hne
  cases hpayments : e.payments ctx with
  | ok payments =>
    refine .inl ⟨⟨payments, hpayments⟩, fun call hcall kind hobstacle => ?_⟩
    obtain rfl := honly call hcall kind hobstacle
    exact hiff.mp ⟨payments, hpayments⟩ call hcall hobstacle
  | error error =>
    have hfails : ¬∃ payments, e.payments ctx = .ok payments := by simp [hpayments]
    rw [hiff] at hfails
    push Not at hfails
    right
    refine ⟨error, hpayments, ?_⟩
    rw [kind_of_payments_error hpays hsets hpayments]
    exact ⟨hfails, fun call hcall kind hobstacle => .inr (honly call hcall kind hobstacle)⟩

theorem limited_raw (label : Label) (hex : HexExpr) : (raw label hex).Limited ctx := by
  cases hread : Payment.ofOutputScript hex.value label.network with
  | ok payment =>
    left
    refine ⟨⟨[payment], ?_⟩, ?_⟩
    · rw [payments_raw, hread]
      rfl
    · refine List.forall_mem_singleton.mpr fun kind hobstacle => ?_
      cases hobstacle with
      | template hfits =>
        rw [Payment.ofOutputScript_of_not_fits hfits] at hread
        cases hread
  | error error =>
    obtain ⟨hfits, rfl⟩ := Payment.ofOutputScript_eq_error_iff.mp hread
    right
    refine ⟨.output hex.value, ?_, ⟨_, List.mem_singleton_self _, .template hfits⟩, ?_⟩
    · rw [payments_raw, hread]
      rfl
    · refine List.forall_mem_singleton.mpr fun kind hobstacle => ?_
      cases hobstacle with
      | template => exact .inl rfl

/-- The forms of one key are never too long, and only compressed keys have witness forms. -/
theorem exists_payments_combo {label : Label} {key : KeyExpr} (hnetwork : key.network = label.network)
    (hderives : key.Derives ctx) :
    ∃ payments, (keyed label .combo key).payments ctx = .ok payments := by
  have hpk : (keyed label .pk key).PaysKeys := by simp [PaysKeys]
  obtain ⟨sets, hsets, hforms, -⟩ := exists_keySets hpk (List.forall_mem_singleton.mpr hderives)
    (not_rangesDiffer_singleton key)
  obtain ⟨found, hfound, rfl⟩ := Except.map_eq_ok_iff.mp hsets
  rw [payments_keyed fun _ => hnetwork, KeyForm.payments, hfound, Except.ok_bind]
  by_cases hcompressed : key.isCompressed
  · have hwitness : ∃ witness, found.mapM (Payment.p2wpkh · label.network) = .ok witness := by
      apply exists_mapM_eq_ok_iff.mpr
      intro k hk
      rw [Payment.exists_p2wpkh_iff]
      simpa [FormsOf, leafKeys, keys, hcompressed] using hforms [k] (List.mem_map_of_mem hk)
    obtain ⟨witness, hwitness⟩ := hwitness
    have hnested : ∃ nested, witness.mapM (Payment.p2sh · label.network) = .ok nested := by
      apply exists_mapM_eq_ok_iff.mpr
      intro payment hpayment
      obtain ⟨k, -, hk⟩ := exists_of_forall₂ (mapM_eq_ok_iff.mp hwitness).flip hpayment
      exact Payment.exists_p2sh_iff.mpr ((Payment.length_p2wpkh_le hk).trans (by decide))
    obtain ⟨nested, hnested⟩ := hnested
    simp only [if_pos hcompressed, hwitness, Except.ok_bind, hnested]
    exact ⟨_, rfl⟩
  · simp only [if_neg hcompressed, Except.ok_bind]
    exact ⟨_, rfl⟩

theorem limited_of_built {P : KeyExpr → Prop} (hbuilt : (Expr.script e).Built P)
    (hderives : ∀ key ∈ e.wildcardKeys, key.Derives ctx) : e.Limited ctx := by
  have hleaf : ∀ key ∈ e.leafKeys, key.Derives ctx := by
    intro key hkey
    by_cases hranged : key.isRanged
    · apply hderives
      rw [wildcardKeys_eq_filter]
      exact List.mem_filter.mpr ⟨hkey, hranged⟩
    · rw [Bool.not_eq_true] at hranged
      intro k hardened range hpair
      exact absurd hpair (KeyExpr.pair_of_isRanged_eq_false hranged k hardened range)
  by_cases htype : e.type ∈ [.keyed .combo, .addr, .raw]
  · cases e with
    | keyed label form key =>
      obtain rfl : form = .combo := by simpa [type] using htype
      have hnetwork : key.network = label.network :=
        Built.network hbuilt (.key key) List.mem_cons_self
      refine .inl ⟨exists_payments_combo hnetwork (hleaf key List.mem_cons_self), ?_⟩
      refine List.forall_mem_singleton.mpr fun kind hobstacle => ?_
      cases hobstacle
    | addr label address =>
      refine .inl ⟨⟨_, rfl⟩, List.forall_mem_singleton.mpr fun kind hobstacle => ?_⟩
      cases hobstacle
    | raw label hex => exact limited_raw label hex
    | wrapped => simp [type] at htype
    | multisig => simp [type] at htype
  · exact limited_of_paysKeys hbuilt (paysKeys_of_type hbuilt htype) hleaf

/-- An expression whose keys can be derived is evaluated exactly if nothing is in the way. -/
theorem payments_succeed_within_limits {P : KeyExpr → Prop} (hbuilt : (Expr.script e).Built P)
    (hderives : ∀ key ∈ e.wildcardKeys, key.Derives ctx) :
    ((∃ payments, e.payments ctx = .ok payments) ↔
      ∀ call ∈ e.levels, ∀ kind, ¬call.Obstacle ctx kind) ∧
    (∀ error, e.payments ctx = .error error →
      (error.kind = .keyRange ↔ ∃ call ∈ e.levels, call.Obstacle ctx .keyRange) ∧
      (error.kind = .unsupportedOutput ↔
        ∃ call ∈ e.levels, call.Obstacle ctx .unsupportedOutput) ∧
      error.kind ∈ [.keyRange, .unsupportedOutput, .payment]) ∧
    (∀ label label' key, e = .wrapped label .wsh (.keyed label' .pkh key) →
      ∃ payments, e.payments ctx = .ok payments) ∧
    ∀ label key, e = .keyed label .combo key → ∃ payments, e.payments ctx = .ok payments := by
  have hlimited := limited_of_built hbuilt hderives
  have hsuccess : (∃ payments, e.payments ctx = .ok payments) ↔
      ∀ call ∈ e.levels, ∀ kind, ¬call.Obstacle ctx kind := by
    obtain ⟨hok, hnone⟩ | ⟨error, herror, ⟨call, hcall, hobstacle⟩, -⟩ := hlimited
    · exact iff_of_true hok hnone
    · refine iff_of_false ?_ fun hnone => hnone call hcall error.kind hobstacle
      rw [herror]
      simp
  refine ⟨hsuccess, fun error herror => ?_, ?_, ?_⟩
  · obtain ⟨⟨payments, hok⟩, -⟩ | ⟨found, hfound, ⟨call, hcall, hobstacle⟩, hfirst⟩ := hlimited
    · rw [hok] at herror
      cases herror
    · obtain rfl : found = error := Except.error.inj (hfound.symm.trans herror)
      have hkind {kind : ErrorKind} (hne : kind ≠ .payment) :
          found.kind = kind ↔ ∃ call ∈ e.levels, call.Obstacle ctx kind := by
        constructor
        · rintro rfl
          exact ⟨call, hcall, hobstacle⟩
        · rintro ⟨other, hother, hobstacle⟩
          exact ((hfirst other hother kind hobstacle).resolve_right hne).symm
      exact ⟨hkind (by decide), hkind (by decide), hobstacle.kind_mem⟩
  · rintro label label' key rfl
    apply hsuccess.mpr
    rw [levels, List.forall_mem_cons]
    refine ⟨fun kind hobstacle => ?_, List.forall_mem_singleton.mpr fun kind hobstacle => ?_⟩
    · cases hobstacle with
      | witnessScript hkeys => cases hkeys
    · cases hobstacle
  · rintro label key rfl
    apply hsuccess.mpr
    refine List.forall_mem_singleton.mpr fun kind hobstacle => ?_
    cases hobstacle

end ScriptExpr

theorem KeyExpr.derives_stationary (options : Options) (key : KeyExpr) :
    key.Derives ⟨options, .stationary⟩ := by
  intro k hardened range _ index hindex
  have hlt := KeyRange.lt_hardenedBase_of_mem hindex
  refine ⟨⟨k, ⟨index, hardened, hlt⟩⟩, ?_⟩
  change (ChildNumber.ofIndex index hardened >>= _) = _
  rw [ChildNumber.ofIndex_of_lt hlt]
  rfl

namespace ScriptExpr

/-- Fifteen compressed keys, one of them a wildcard key, fit into a redeem script, and sixteen do
not. -/
theorem payments_succeed_within_limits_fifteen :
    let ctx : Context := ⟨⟨false⟩, .stationary⟩
    let label : Label := ⟨.testnet, "", none⟩
    let k : ExtendedKey := ⟨.test, 0, ⟨[0, 0, 0, 0], rfl⟩, ⟨0, false, by decide⟩,
      ⟨List.replicate 32 0, rfl⟩, .point .generator⟩
    let wildcard : KeyExpr := ⟨.testnet, "", none, .extended k (.children false .standard)⟩
    let fixed : KeyExpr := ⟨.testnet, "", none, .publicOnly ⟨.generator, true⟩⟩
    let sh (others : Nat) : ScriptExpr := .wrapped label .sh
      (.multisig label false ⟨.testnet, "1", 1, by decide⟩ (wildcard :: List.replicate others fixed))
    (∃ payments, (sh 14).payments ctx = .ok payments) ∧
      ¬∃ payments, (sh 15).payments ctx = .ok payments := by
  intro ctx label k wildcard fixed sh
  have hkeys (P : KeyExpr → Prop) (hwildcard : P wildcard) (hfixed : P fixed) (others : Nat) :
      ∀ key ∈ wildcard :: List.replicate others fixed, P key := by
    rw [List.forall_mem_cons]
    refine ⟨hwildcard, fun key hkey => ?_⟩
    rw [List.eq_of_mem_replicate hkey]
    exact hfixed
  have hbuilt (others : Nat) (h : 1 ≤ others) :
      (Expr.script (sh others)).Built fun _ => True := by
    have hlabel : label.WellFormed := by
      intro checksum h
      cases h
    refine .script hlabel (List.forall_mem_singleton.mpr rfl) rfl (List.forall_mem_singleton.mpr ?_)
    refine .script hlabel ?_ ⟨?_, by simp⟩ ?_
    · rw [children, List.forall_mem_cons, List.forall_mem_map]
      exact ⟨rfl, hkeys (·.network = .testnet) rfl rfl others⟩
    · simpa using h
    · rw [children, List.forall_mem_cons, List.forall_mem_map]
      exact ⟨.number _, fun key _ => .key trivial⟩
  have hlimits (others : Nat) (h : 1 ≤ others) :=
    (payments_succeed_within_limits (hbuilt others h) fun key _ =>
      key.derives_stationary ⟨false⟩).1
  constructor
  · rw [hlimits 14 (by decide), levels, List.forall_mem_cons]
    refine ⟨fun kind hobstacle => ?_, List.forall_mem_singleton.mpr fun kind hobstacle => ?_⟩
    · cases hobstacle with
      | redeemScript _ h => exact absurd h (by decide)
    · cases hobstacle with
      | ranges h =>
        obtain ⟨a, ha, b, hb, range, range', hrange, hrange', hne⟩ := h
        have hstandard := hkeys (fun key => ∀ range, key.range? = some range → range = .standard)
          (fun range h => (Option.some.inj h).symm) (by simp [fixed, KeyExpr.range?]) 14
        exact hne ((hstandard a ha range hrange).trans (hstandard b hb range' hrange').symm)
      | keyCount _ h => exact absurd h (by decide)
  · rw [hlimits 15 (by decide)]
    intro hnone
    refine hnone (sh 15) List.mem_cons_self .payment (.redeemScript ⟨0, hkeys _ ?_ ?_ 15⟩ (by decide))
    · refine ⟨fun range h => ?_, _, rfl⟩
      rw [← Option.some.inj h, KeyRange.mem_indices]
      decide
    · exact KeyExpr.existsAt_of_isRanged_eq_false rfl 0

end ScriptExpr

end OutputDescriptor
