import OutputDescriptor.Proofs.Script.Grammar

/-! Reading accepts exactly the texts of the grammar, with or without their checksum. -/
namespace OutputDescriptor

open Grammar ScriptExpr

variable {ctx : Context} {network : Network} {parent : Option ScriptType} {text : String}
  {call : Call} {e : ScriptExpr}

/-! ### What is read is derived -/

theorem ScriptExpr.Reads.body_eq (h : Reads ctx network parent text call e) :
    String.ofList call.body = callOf e.type (call.args.map String.ofList) := by
  obtain ⟨args, rest, -, -, hbody, -, hargs⟩ := Call.ofChars?_eq_some_iff.mp h.shape
  have htoList : (call.args.map String.ofList).map String.toList = call.args := by
    simp [List.map_map, Function.comp_def]
  rw [← String.toList_inj, toList_callOf, String.toList_ofList, htoList, hargs,
    Call.intercalate_splitArgs, h.type, hbody]

theorem ScriptExpr.Reads.text_eq (h : Reads ctx network parent text call e) :
    (text = String.ofList call.body ∧ e.checksum = none) ∨
      parent = none ∧ e.checksum = some (Checksum.compute (String.ofList call.body)) ∧
        text = String.ofList call.body ++ "#" ++ Checksum.compute (String.ofList call.body) := by
  obtain ⟨args, rest, htext, hrest, -⟩ := Call.ofChars?_eq_some_iff.mp h.shape
  have hchecksum : e.checksum = call.checksum.map String.ofList := by
    rw [checksum, h.label]
  rw [← String.ofList_toList (s := text), htext, hchecksum]
  cases hcall : call.checksum with
  | none =>
    rw [hcall] at hrest
    obtain rfl : rest = [] := hrest
    rw [List.append_nil]
    exact .inl ⟨rfl, rfl⟩
  | some found =>
    rw [hcall] at hrest
    obtain ⟨hroot, -, rfl⟩ := hrest
    rw [Call.verify_eq_ok_iff.mp h.verified found hcall]
    refine .inr ⟨Option.isNone_iff_eq_none.mp hroot, rfl, ?_⟩
    rw [← String.toList_inj]
    simp

/-- Only complete descriptors have checksums. -/
theorem ScriptExpr.Reads.nested {outer : ScriptType}
    (h : Reads ctx network (some outer) text call e) :
    text = String.ofList call.body ∧ e.checksum = none := by
  obtain hplain | ⟨hroot, -⟩ := h.text_eq
  · exact hplain
  · cases hroot

theorem texts_of_parse {args : List (List Char)} {keys : List KeyExpr}
    (h : List.Forall₂ (fun arg key => KeyExpr.parse ctx network (String.ofList arg) = .ok key)
      args keys) : keys.map KeyExpr.text = args.map String.ofList := by
  induction h with
  | nil => rfl
  | cons hkey _ ih => rw [List.map_cons, List.map_cons, ih, (KeyExpr.parse_network hkey).2]

theorem leafArgs_of_readChildren {args : List (List Char)}
    (h : readChildren ctx network e.type args = .ok e.children) (hshaped : e.Shaped)
    (hleaf : ∀ w, e.type ≠ .wrapper w) :
    LeafArgs ctx network e.type (args.map String.ofList) ∧
      e.outline = .leaf e.type (args.map String.ofList) := by
  cases e with
  | wrapped label w inner => exact absurd rfl (hleaf w)
  | keyed label form key =>
    obtain ⟨arg, rfl, hkey⟩ := readChildren_keyed_eq_ok_iff.mp h
    exact ⟨.key form hkey, congrArg (Outline.leaf _ [·]) (KeyExpr.parse_network hkey).2⟩
  | multisig label sorted threshold keys =>
    obtain ⟨arg, rest, rfl, hnumber, hkeys⟩ := readChildren_multisig_eq_ok_iff.mp h
    refine ⟨.keys sorted hnumber (List.forall₂_map_left_iff.mpr hkeys) hshaped.1 hshaped.2, ?_⟩
    have hchildren : (ScriptExpr.multisig label sorted threshold keys).children.map Expr.text =
        threshold.text :: keys.map KeyExpr.text := by
      simp only [children, List.map_cons, List.map_map]
      rfl
    rw [outline, hchildren, (NumberExpr.parse_network hnumber).2, texts_of_parse hkeys]
    · rfl
    · simp
  | addr label address =>
    obtain ⟨arg, rfl, haddress⟩ := readChildren_addr_eq_ok_iff.mp h
    exact ⟨.address haddress, congrArg (Outline.leaf _ [·]) (AddrExpr.parse_network haddress).2⟩
  | raw label hex =>
    obtain ⟨arg, rfl, hhex⟩ := readChildren_raw_eq_ok_iff.mp h
    exact ⟨.hex hhex, congrArg (Outline.leaf _ [·]) (HexExpr.parse_network hhex).2⟩

theorem ScriptExpr.Reads.derives_leaf (h : Reads ctx network parent text call e)
    (hleaf : ∀ w, e.type ≠ .wrapper w) :
    Derives ctx network parent e.outline (String.ofList call.body) := by
  obtain ⟨hargs, houtline⟩ := leafArgs_of_readChildren h.readChildren_eq_ok h.shaped hleaf
  rw [h.body_eq, houtline]
  exact .leaf h.allowedIn hargs

theorem ScriptExpr.Reads.derives (h : Reads ctx network parent text call e) :
    Derives ctx network parent e.outline (String.ofList call.body) := by
  induction e generalizing parent text call with
  | wrapped label w inner ih =>
    obtain ⟨arg, hargs, hinner⟩ := readChildren_wrapper_eq_ok_iff.mp h.readChildren_eq_ok
    obtain ⟨innerCall, hinner⟩ := parse_eq_ok_iff.mp hinner
    have hbody := hinner.nested.1
    have htext : inner.text = String.ofList innerCall.body := by
      rw [ScriptExpr.text, hinner.label, hbody]
    rw [h.body_eq, hargs, List.map_singleton, hbody, outline, htext]
    exact .wrapped h.allowedIn (ih hinner)
  | keyed => exact h.derives_leaf (by simp [ScriptExpr.type])
  | multisig => exact h.derives_leaf (by simp [ScriptExpr.type])
  | addr => exact h.derives_leaf (by simp [ScriptExpr.type])
  | raw => exact h.derives_leaf (by simp [ScriptExpr.type])

theorem derives_of_parse (h : parse ctx network parent text = .ok e) :
    ∃ body, Derives ctx network parent e.outline body ∧
      ((text = body ∧ e.checksum = none) ∨
        parent = none ∧ e.checksum = some (Checksum.compute body) ∧
          text = body ++ "#" ++ Checksum.compute body) := by
  obtain ⟨call, h⟩ := parse_eq_ok_iff.mp h
  exact ⟨String.ofList call.body, h.derives, h.text_eq⟩

/-! ### What is derived is read -/

theorem Grammar.LeafArgs.exists_expr {type : ScriptType} {args : List String}
    (h : LeafArgs ctx network type args) (label : Label) :
    ∃ e : ScriptExpr, e.label = label ∧ e.type = type ∧ e.Shaped ∧
      (∀ child ∈ e.children, child.network = network) ∧
        type.argKinds.length ≤ args.length ∧
          readChildren ctx network type (args.map String.toList) = .ok e.children := by
  cases h with
  | @key form text key hkey =>
    refine ⟨.keyed label form key, rfl, rfl, trivial, ?_, le_rfl, ?_⟩
    · exact List.forall_mem_singleton.mpr (KeyExpr.parse_network hkey).1
    · exact readChildren_keyed_eq_ok_iff.mpr ⟨text.toList, rfl, by rwa [String.ofList_toList]⟩
  | @keys sorted threshold number texts keys hnumber hkeys hlength hsorted =>
    have hkeys' : List.Forall₂ (fun arg key => KeyExpr.parse ctx network (String.ofList arg) =
        .ok key) (texts.map String.toList) keys := by
      rw [List.forall₂_map_left_iff]
      simpa only [String.ofList_toList] using hkeys
    refine ⟨.multisig label sorted number keys, rfl, rfl, ⟨hlength, hsorted⟩, ?_, ?_, ?_⟩
    · rw [ScriptExpr.children, List.forall_mem_cons, List.forall_mem_map]
      refine ⟨(NumberExpr.parse_network hnumber).1, fun key hkey => ?_⟩
      obtain ⟨text, -, htext⟩ := exists_of_forall₂ hkeys.flip hkey
      exact (KeyExpr.parse_network htext).1
    · have := hkeys.length_eq
      change 2 ≤ texts.length + 1
      omega
    · exact readChildren_multisig_eq_ok_iff.mpr ⟨threshold.toList, texts.map String.toList, rfl,
        by rwa [String.ofList_toList], hkeys'⟩
  | @address text address haddress =>
    refine ⟨.addr label address, rfl, rfl, trivial, ?_, le_rfl, ?_⟩
    · exact List.forall_mem_singleton.mpr (AddrExpr.parse_network haddress).1
    · exact readChildren_addr_eq_ok_iff.mpr ⟨text.toList, rfl, by rwa [String.ofList_toList]⟩
  | @hex text hex hhex =>
    refine ⟨.raw label hex, rfl, rfl, trivial, ?_, le_rfl, ?_⟩
    · exact List.forall_mem_singleton.mpr (HexExpr.parse_network hhex).1
    · exact readChildren_raw_eq_ok_iff.mpr ⟨text.toList, rfl, by rwa [String.ofList_toList]⟩

theorem isChecksumText_of_isWellFormed {checksum : String}
    (h : Checksum.isWellFormed checksum) : Call.IsChecksumText checksum.toList := by
  have halphabet : ∀ c ∈ Symbol.alphabet, Call.isChecksumChar c := List.all_eq_true.mp (by decide)
  obtain ⟨hlength, hchars⟩ := Checksum.isWellFormed_iff.mp h
  refine ⟨hlength, ?_⟩
  rw [List.all_eq_true]
  exact fun c hc => halphabet c (hchars c hc)

theorem lt_of_isPrintable {c : Char} (h : Checksum.isPrintable c) : c.toNat < 128 := by
  rw [Checksum.isPrintable, Bool.and_eq_true, decide_eq_true_iff, decide_eq_true_iff] at h
  omega

theorem lt_of_mem_suffix {root : Bool} {checksum : Option (List Char)} {rest : List Char}
    (h : Call.Suffix root checksum rest) : ∀ c ∈ rest, c.toNat < 128 := by
  cases checksum with
  | none =>
    obtain rfl : rest = [] := h
    simp
  | some checksum =>
    obtain ⟨-, ⟨-, hchars⟩, rfl⟩ := h
    rw [List.forall_mem_cons]
    refine ⟨by decide, fun c hc => ?_⟩
    have hc := List.all_eq_true.mp hchars c hc
    apply lt_of_isPrintable
    apply isPrintable_of_isAlphanum
    simp only [Call.isChecksumChar, Bool.or_eq_true] at hc
    exact isAlphanum_iff.mpr (hc.imp_left .inr)

/-- A body and what may follow it are read if the arguments of the body are. -/
theorem reads_of_readChildren {args : List String} {checksum : Option (List Char)}
    {rest : List Char} (hlabel : e.label =
      ⟨network, callOf e.type args ++ String.ofList rest, checksum.map String.ofList⟩)
    (hallowed : e.type.allowedIn parent) (hshaped : e.Shaped)
    (hnetwork : ∀ child ∈ e.children, child.network = network)
    (hchars : ∀ c ∈ (callOf e.type args).toList, isBodyChar c)
    (hpieces : NoEmptyPiece ',' ([','].intercalate (args.map String.toList)))
    (hsplit : Call.splitArgs ([','].intercalate (args.map String.toList)) = args.map String.toList)
    (harity : e.type.argKinds.length ≤ args.length)
    (hchildren : readChildren ctx network e.type (args.map String.toList) = .ok e.children)
    (hrest : Call.Suffix parent.isNone checksum rest)
    (hchecksum : ∀ cs, checksum = some cs →
      Checksum.compute (callOf e.type args) = String.ofList cs) :
    Reads ctx network parent (callOf e.type args ++ String.ofList rest)
      ⟨e.type, args.map String.toList, (callOf e.type args).toList, checksum⟩ e where
  ascii := by
    rw [String.toList_append, String.toList_ofList, List.forall_mem_append]
    exact ⟨fun c hc => lt_of_isPrintable (isPrintable_of_isBodyChar (hchars c hc)),
      lt_of_mem_suffix hrest⟩
  shape := by
    rw [Call.ofChars?_eq_some_iff]
    refine ⟨_, rest, ?_, hrest, toList_callOf e.type args, hpieces, hsplit.symm⟩
    rw [String.toList_append, String.toList_ofList]
  allowed := hallowed
  verified := by
    rw [Call.verify_eq_ok_iff]
    intro cs hcs
    rw [String.ofList_toList]
    exact hchecksum cs hcs
  arity := by
    rw [Call.checkArity_eq_ok_iff, List.length_map]
    exact harity
  children := hchildren
  built := by
    rw [ofChildren_eq_ok_iff]
    refine ⟨?_, hnetwork, hlabel, rfl, rfl, hshaped⟩
    intro found hfound
    obtain ⟨cs, hcs, rfl⟩ := Option.map_eq_some_iff.mp hfound
    rw [← hchecksum cs hcs]
    exact Checksum.isWellFormed_compute fun c hc => isPrintable_of_isBodyChar (hchars c hc)

/-- The expression of a derived text, which may be followed by its checksum. -/
theorem Grammar.Derives.exists_parse {o : Outline} {body : String}
    (h : Derives ctx network parent o body) {checksum : Option (List Char)} {rest : List Char}
    (hrest : Call.Suffix parent.isNone checksum rest)
    (hchecksum : ∀ cs, checksum = some cs → Checksum.compute body = String.ofList cs) :
    ∃ e, parse ctx network parent (body ++ String.ofList rest) = .ok e ∧ e.outline = o := by
  have hchars := h.isBodyChar
  induction h generalizing checksum rest with
  | @leaf parent type args hallowed hargs =>
    let label : Label :=
      ⟨network, callOf type args ++ String.ofList rest, checksum.map String.ofList⟩
    obtain ⟨e, hlabel, rfl, hshaped, hnetwork, harity, hchildren⟩ :=
      hargs.exists_expr label
    have hne : args.map String.toList ≠ [] := by simpa using hargs.ne_nil
    have hreads := reads_of_readChildren hlabel hallowed hshaped hnetwork hchars
      (Call.noEmptyPiece_intercalate hne hargs.isLeafChar_map)
      (Call.splitArgs_intercalate hne hargs.isLeafChar_map) harity hchildren hrest hchecksum
    obtain ⟨-, houtline⟩ := leafArgs_of_readChildren hchildren hshaped hargs.ne_wrapper
    refine ⟨e, parse_eq_ok_iff.mpr ⟨_, hreads⟩, houtline.trans ?_⟩
    simp [List.map_map, Function.comp_def]
  | @wrapped parent w o text hallowed hinner ih =>
    -- Nothing follows the wrapped call: a checksum is part of the outermost text only.
    have hnone : Call.Suffix (some (ScriptType.wrapper w)).isNone none [] := rfl
    obtain ⟨inner, hparse, rfl⟩ := ih hnone (by simp) hinner.isBodyChar
    rw [String.ofList_nil, String.append_empty] at hparse
    obtain ⟨innerCall, hreads⟩ := parse_eq_ok_iff.mp hparse
    have hwraps : w.wraps inner.type := by
      rw [hreads.type, ← ScriptType.allowedIn_wrapper]
      exact hreads.allowed
    have htext : inner.text = text := congrArg Label.text hreads.label
    have hchildren : readChildren ctx network (.wrapper w) [text.toList] = .ok [.script inner] :=
      readChildren_wrapper_eq_ok_iff.mpr ⟨text.toList, rfl, by rwa [String.ofList_toList]⟩
    let label : Label :=
      ⟨network, callOf (.wrapper w) [text] ++ String.ofList rest, checksum.map String.ofList⟩
    let e : ScriptExpr := .wrapped label w inner
    have hnetwork : ∀ child ∈ e.children, child.network = network :=
      List.forall_mem_singleton.mpr (congrArg Label.network hreads.label)
    have hreads := @reads_of_readChildren ctx network parent e [text] checksum rest rfl hallowed
      hwraps hnetwork hchars (by simpa using hinner.noEmptyPiece) (by simpa using hinner.splitArgs)
      le_rfl hchildren hrest hchecksum
    exact ⟨e, parse_eq_ok_iff.mpr ⟨_, hreads⟩, by rw [outline, htext]⟩

theorem Grammar.Derives.exists_parse_checksum {o : Outline} {body : String}
    (h : Derives ctx network none o body) :
    ∃ e, parse ctx network none (body ++ "#" ++ Checksum.compute body) = .ok e ∧
      e.outline = o := by
  have hwellFormed := Checksum.isWellFormed_compute fun c hc =>
    isPrintable_of_isBodyChar (h.isBodyChar c hc)
  have hrest : Call.Suffix true (some (Checksum.compute body).toList)
      ('#' :: (Checksum.compute body).toList) :=
    ⟨rfl, isChecksumText_of_isWellFormed hwellFormed, rfl⟩
  obtain ⟨e, hparse, houtline⟩ := h.exists_parse hrest fun cs hcs => by
    rw [← Option.some.inj hcs, String.ofList_toList]
  refine ⟨e, ?_, houtline⟩
  rwa [String.ofList_cons, String.ofList_toList, ← String.append_assoc] at hparse

/-- A complete descriptor is accepted exactly if the grammar derives it, alone or with its checksum.
-/
theorem parse_root_eq_ok_iff (ctx : Context) (network : Network) (text : String) (o : Outline) :
    (∃ e, parse ctx network none text = .ok e ∧ e.outline = o) ↔
      ∃ body, Body ctx network o body ∧
        (text = body ∨ text = body ++ "#" ++ Checksum.compute body) := by
  constructor
  · rintro ⟨e, hparse, rfl⟩
    obtain ⟨body, hderives, htext⟩ := derives_of_parse hparse
    exact ⟨body, derives_none_iff.mp hderives, htext.imp (·.1) (·.2.2)⟩
  · rintro ⟨body, hbody, rfl | rfl⟩
    · have hnone : Call.Suffix true none [] := rfl
      have h := (derives_none_iff.mpr hbody).exists_parse hnone (by simp)
      rwa [String.ofList_nil, String.append_empty] at h
    · exact (derives_none_iff.mpr hbody).exists_parse_checksum

end OutputDescriptor
