import OutputDescriptor.Proofs.Evaluation.DerivedCalls
import OutputDescriptor.Proofs.Evaluation.OutputViews
import OutputDescriptor.Proofs.Evaluation.RangeSetting
import OutputDescriptor.Proofs.Script.Composition

/-! A combination stands for the calls that are derived from it: they are what their own texts are
read as, and its payments, output scripts and addresses are theirs, one call after the other. -/
namespace OutputDescriptor

open Grammar

namespace ScriptExpr

/-! ### Calls from the texts of their arguments -/

section Read

variable {ctx : Context} {network : Network} {parent : Option ScriptType}

theorem parse_callOf {e : ScriptExpr} {args : List String} {o : Outline}
    (hlabel : e.label = ⟨network, callOf e.type args, none⟩)
    (hderives : Derives ctx network parent o (callOf e.type args))
    (hallowed : e.type.allowedIn parent) (hshaped : e.Shaped)
    (hnetwork : ∀ child ∈ e.children, child.network = network)
    (hpieces : NoEmptyPiece ',' ([','].intercalate (args.map String.toList)))
    (hsplit : Call.splitArgs ([','].intercalate (args.map String.toList)) = args.map String.toList)
    (harity : e.type.argKinds.length ≤ args.length)
    (hchildren : readChildren ctx network e.type (args.map String.toList) = .ok e.children) :
    parse ctx network parent (callOf e.type args) = .ok e := by
  have hnone : Call.Suffix parent.isNone none [] := rfl
  have hlabel' : e.label = ⟨network, callOf e.type args ++ String.ofList [],
      (none : Option (List Char)).map String.ofList⟩ := by
    rw [hlabel, String.ofList_nil, String.append_empty, Option.map_none]
  have hreads := reads_of_readChildren hlabel' hallowed hshaped hnetwork hderives.isBodyChar
    hpieces hsplit harity hchildren hnone (by simp)
  rw [String.ofList_nil, String.append_empty] at hreads
  exact parse_eq_ok_iff.mpr ⟨_, hreads⟩

theorem parse_call {form : KeyForm} {key : KeyExpr}
    (hallowed : (ScriptType.keyed form).allowedIn parent)
    (hkey : KeyExpr.parse ctx network key.text = .ok key) :
    parse ctx network parent (call network form key).text = .ok (call network form key) := by
  have hargs : LeafArgs ctx network (.keyed form) [key.text] := .key form hkey
  have hne : [key.text].map String.toList ≠ [] := by simp
  have hchildren : readChildren ctx network (.keyed form) [key.text.toList] = .ok [.key key] :=
    readChildren_keyed_eq_ok_iff.mpr ⟨key.text.toList, rfl, by rwa [String.ofList_toList]⟩
  have hnetwork : ∀ child ∈ (call network form key).children, child.network = network :=
    List.forall_mem_singleton.mpr (KeyExpr.parse_network hkey).1
  exact @parse_callOf ctx network parent (call network form key) [key.text] _ rfl
    (.leaf hallowed hargs) hallowed trivial hnetwork
    (Call.noEmptyPiece_intercalate hne hargs.isLeafChar_map)
    (Call.splitArgs_intercalate hne hargs.isLeafChar_map) le_rfl hchildren

theorem parse_wrap {w : Wrapper} {inner : ScriptExpr}
    (hallowed : (ScriptType.wrapper w).allowedIn parent)
    (hinner : parse ctx network (some (.wrapper w)) inner.text = .ok inner) :
    parse ctx network parent (wrap network w inner).text = .ok (wrap network w inner) := by
  obtain ⟨innerCall, hreads⟩ := parse_eq_ok_iff.mp hinner
  have hbody : Derives ctx network (some (.wrapper w)) inner.outline inner.text := by
    have hderives := hreads.derives
    rwa [← hreads.nested.1] at hderives
  have hwraps : w.wraps inner.type := by
    rw [← ScriptType.allowedIn_wrapper]
    exact hreads.allowedIn
  have hchildren : readChildren ctx network (.wrapper w) [inner.text.toList] =
      .ok [.script inner] :=
    readChildren_wrapper_eq_ok_iff.mpr ⟨inner.text.toList, rfl, by rwa [String.ofList_toList]⟩
  have hnetwork : ∀ child ∈ (wrap network w inner).children, child.network = network :=
    List.forall_mem_singleton.mpr (congrArg Label.network hreads.label)
  exact @parse_callOf ctx network parent (wrap network w inner) [inner.text] _ rfl
    (.wrapped hallowed hbody) hallowed hwraps hnetwork (by simpa using hbody.noEmptyPiece)
    (by simpa using hbody.splitArgs) le_rfl hchildren

end Read

/-! ### The derived calls -/

section Forms

variable {network : Network} {key : KeyExpr}

theorem map_text_forms (network : Network) (key : KeyExpr) :
    (forms network key).map ScriptExpr.text =
      ["pk(" ++ key.text ++ ")", "pkh(" ++ key.text ++ ")"] ++ if key.isCompressed then
        ["wpkh(" ++ key.text ++ ")", "sh(wpkh(" ++ key.text ++ "))"] else [] := by
  unfold forms
  split
  · rw [← text_wrap_wpkh network key]
    rfl
  · rfl

/-- Each derived call is read alone, where it is not inside another one. -/
theorem parse_forms {ctx : Context} (hkey : KeyExpr.parse ctx network key.text = .ok key) :
    ∀ script ∈ forms network key, parse ctx network none script.text = .ok script := by
  intro script hscript
  rcases mem_forms hscript with ⟨form, -, rfl⟩ | rfl
  · exact parse_call rfl hkey
  · exact parse_wrap rfl (parse_call rfl hkey)

theorem isRanged_of_mem_forms : ∀ script ∈ forms network key, script.isRanged = key.isRanged := by
  intro script hscript
  have hleaf : script.leafKeys = [key] := by
    rcases mem_forms hscript with ⟨form, -, rfl⟩ | rfl <;> rfl
  rw [isRanged_eq_any, hleaf, List.any_cons, List.any_nil, Bool.or_false]

theorem forms_ranged (network : Network) (key : KeyExpr) (range : KeyRange) :
    forms network (key.ranged range) = (forms network key).map (withRange range) := by
  have htext : (key.ranged range).text = key.text := by
    unfold KeyExpr.ranged KeyExpr.withRange?
    split <;> rfl
  have hcall (form : KeyForm) : call network form (key.ranged range) =
      (call network form key).withRange range := by
    unfold call
    rw [htext]
    rfl
  have hwrap : wrap network .sh ((call network .wpkh key).withRange range) =
      (wrap network .sh (call network .wpkh key)).withRange range := by
    rw [wrap, ScriptExpr.text, label_withRange]
    rfl
  unfold forms
  rw [key.isCompressed_ranged range, hcall, hcall, hcall, hwrap]
  split
  · rfl
  · rfl

end Forms

/-! ### Evaluation -/

section Evaluation

variable {ctx : Context} {label : Label} {key : KeyExpr}

/-- What is read off the payments one by one can be read off them call by call. -/
theorem flatten_mapM_payments {α : Type} {view : ScriptExpr → Except Error (List α)}
    {read : List Payment → List α} (hread : ∀ parts, read (List.flatten parts) =
      (parts.map read).flatten) {scripts : List ScriptExpr}
    (hview : ∀ script ∈ scripts, view script = (script.payments ctx).map read) :
    (scripts.mapM view).map List.flatten =
      ((scripts.mapM (payments ctx)).map List.flatten).map read := by
  rw [mapM_congr hview, mapM_map_eq]
  cases scripts.mapM (payments ctx) with
  | error error => rfl
  | ok parts => exact congrArg Except.ok (hread parts).symm

variable (hnetwork : key.network = label.network)
include hnetwork

theorem outputScripts_combo : (keyed label .combo key).outputScripts ctx =
    ((forms label.network key).mapM (outputScripts ctx)).map List.flatten := by
  have hview : ∀ script ∈ forms label.network key, script.outputScripts ctx =
      (script.payments ctx).map (·.map Payment.outputScript) := by
    intro script hscript
    apply outputScripts_of_ne_raw
    rcases mem_forms hscript with ⟨form, -, rfl⟩ | rfl
    · simp [call, type]
    · simp [wrap, type]
  rw [flatten_mapM_payments (fun _ => List.map_flatten) hview, ← payments_forms ctx hnetwork,
    outputScripts_of_ne_raw (by simp [type])]

theorem addresses_combo : (keyed label .combo key).addresses ctx =
    ((forms label.network key).mapM (addresses ctx)).map List.flatten := by
  rw [addresses_of_not_holdsKeys (by simp [type, ScriptType.holdsKeys]) (by simp [type]),
    payments_forms ctx hnetwork]
  cases hkeys : key.presentKeys ctx with
  | error error =>
    -- The first call has no addresses and is not evaluated, but the second one fails alike.
    simp [payments, paymentsWith, addresses, forms, call, hkeys, bind, Except.bind, Except.map]
  | ok keys =>
    have hpk : (call label.network .pk key).payments ctx = .ok (keys.map Payment.p2pk) := by
      simp [payments, paymentsWith, call, hkeys]
    have hview : ∀ script ∈ forms label.network key, script.addresses ctx =
        (script.payments ctx).map (·.filterMap Payment.address) := by
      intro script hscript
      rcases mem_forms hscript with ⟨form, hform, rfl⟩ | rfl
      · cases form with
        | pk =>
          rw [addresses_of_payments hpk, hpk]
          rfl
        | combo => exact absurd rfl hform
        | _ => rfl
      · rfl
    exact (flatten_mapM_payments (fun _ => List.filterMap_flatten) hview).symm

end Evaluation

/-- A combination has the payments, output scripts and addresses of the calls derived from it, and
fails as they do. -/
theorem combo_eq_union {ctx : Context} {network : Network} {parent : Option ScriptType}
    {text : String} {e : ScriptExpr} (hparse : parse ctx network parent text = .ok e)
    (htype : e.type = .keyed .combo) :
    ∃ key scripts, e.key? = some key ∧ KeyExpr.parse ctx network key.text = .ok key ∧
      e.derivedScripts = .ok scripts ∧
      scripts.map ScriptExpr.text =
        ["pk(" ++ key.text ++ ")", "pkh(" ++ key.text ++ ")"] ++ (if key.isCompressed then
          ["wpkh(" ++ key.text ++ ")", "sh(wpkh(" ++ key.text ++ "))"] else []) ∧
      (∀ script ∈ scripts, parse ctx network none script.text = .ok script) ∧
      ∀ range, ∃ ranged, ranged = scripts.map (withRange range) ∧
        (e.withRange range).derivedScripts = .ok ranged ∧
        (e.isRanged → ∀ script ∈ ranged, script.range? = .ok (some range)) ∧
        ∀ ctx', (e.withRange range).payments ctx' =
            (ranged.mapM (payments ctx')).map List.flatten ∧
          (e.withRange range).outputScripts ctx' =
            (ranged.mapM (outputScripts ctx')).map List.flatten ∧
          (e.withRange range).addresses ctx' =
            (ranged.mapM (addresses ctx')).map List.flatten := by
  obtain ⟨call, hreads⟩ := parse_eq_ok_iff.mp hparse
  cases e with
  | keyed label form key =>
    obtain rfl : form = .combo := ScriptType.keyed.inj htype
    obtain ⟨arg, -, hkey⟩ := readChildren_keyed_eq_ok_iff.mp hreads.readChildren_eq_ok
    obtain ⟨hnetwork, htext⟩ := KeyExpr.parse_network hkey
    rw [← htext] at hkey
    obtain rfl : label.network = network := congrArg Label.network hreads.label
    refine ⟨key, forms label.network key, rfl, hkey, derivedScripts_combo hnetwork,
      map_text_forms label.network key, parse_forms hkey, fun range => ?_⟩
    have hnetwork' := (key.network_ranged range).trans hnetwork
    have hranged := derivedScripts_combo hnetwork'
    refine ⟨_, forms_ranged label.network key range, hranged, fun h script hscript => ?_,
      fun ctx' => ⟨payments_forms ctx' hnetwork',
        outputScripts_combo hnetwork', addresses_combo hnetwork'⟩⟩
    rw [forms_ranged] at hscript
    obtain ⟨script, hmem, rfl⟩ := List.mem_map.mp hscript
    have hkeyRanged : key.isRanged := by simpa [isRanged_eq_any, leafKeys, keys] using h
    rw [range?_withRange, if_pos ((isRanged_of_mem_forms script hmem).trans hkeyRanged)]
  | _ => cases htype

/-- A combination on a wildcard key makes two payments in each of its four forms. -/
theorem combo_eq_union_wildcard :
    let k : ExtendedKey := ⟨.test, 0, ⟨[0, 0, 0, 0], rfl⟩, ⟨0, false, by decide⟩,
      ⟨List.replicate 32 0, rfl⟩, .point .generator⟩
    let ctx : Context :=
      ⟨⟨false⟩, { KeyScheme.stationary with decodeExtendedKey := fun _ _ => .ok k }⟩
    let range : KeyRange := ⟨5, 2, by decide, by decide⟩
    ∃ e scripts found, parse ctx .testnet none "combo(tpub/*)" = .ok e ∧
      e.derivedScripts = .ok scripts ∧
      (∀ script ∈ scripts, parse ctx .testnet none script.text = .ok script) ∧
      (∀ script ∈ scripts.map (withRange range), script.range? = .ok (some range)) ∧
      found.length = 8 ∧ (e.withRange range).payments ctx = .ok found ∧
      ((scripts.map (withRange range)).mapM (payments ctx)).map List.flatten = .ok found := by
  intro k ctx range
  have hread : (do
      let e ← parse ctx .testnet none "combo(tpub/*)"
      let found ← (e.withRange range).payments ctx
      return (decide (e.type = .keyed .combo ∧ e.isRanged), found.length) :
        Except Error (Bool × Nat)) = .ok (true, 8) := by
    decide +kernel
  obtain ⟨e, hparse, hread⟩ := Except.bind_eq_ok_iff.mp hread
  obtain ⟨found, hfound, hread⟩ := Except.bind_eq_ok_iff.mp hread
  obtain ⟨hcombo, hlength⟩ := Prod.mk.inj (Except.ok.inj hread)
  obtain ⟨htype, hranged⟩ := of_decide_eq_true hcombo
  obtain ⟨key, scripts, -, -, hscripts, -, hparsed, hevaluated⟩ := combo_eq_union hparse htype
  obtain ⟨_, rfl, -, hrange, hviews⟩ := hevaluated range
  have hpayments := (hviews ctx).1
  rw [hfound] at hpayments
  exact ⟨e, scripts, found, hparse, hscripts, hparsed, hrange hranged, hlength, hfound,
    hpayments.symm⟩

end ScriptExpr

end OutputDescriptor
