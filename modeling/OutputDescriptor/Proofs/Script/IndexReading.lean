import OutputDescriptor.Proofs.Script.Instantiation

/-! A script expression at one index is what is read from its text with the index in place of the
wildcards. -/
namespace OutputDescriptor

/-! ### The shape of the text -/

section Shape

variable {index : Nat}

theorem substituteChars_callText (type : ScriptType) (args : List Char) :
    substituteChars index (callText type args) = callText type (substituteChars index args) := by
  have htoken : '*' ∉ type.token.toList := fun hmem =>
    absurd (type.isLower_of_mem_token _ hmem) (by decide)
  have hfront : substituteChars index ['('] = ['('] := rfl
  have hback : substituteChars index [')'] = [')'] := rfl
  rw [callText, callText, substituteChars_append, substituteChars_of_not_mem htoken,
    ← List.singleton_append, substituteChars_append, substituteChars_append, hfront, hback]
  rfl

theorem substituteChars_intercalate (parts : List (List Char)) :
    substituteChars index ([','].intercalate parts) =
      [','].intercalate (parts.map (substituteChars index)) := by
  induction parts with
  | nil => rfl
  | cons part rest ih =>
    cases rest with
    | nil => simp
    | cons next rest =>
      have hcomma : substituteChars index [','] = [','] := rfl
      rw [List.intercalate_cons_cons, substituteChars_append, substituteChars_append, ih, hcomma,
        List.map_cons, List.map_cons, List.map_cons, List.intercalate_cons_cons]

theorem NoEmptyPiece.substituteChars {text : List Char} (h : NoEmptyPiece ',' text) :
    NoEmptyPiece ',' (substituteChars index text) := by
  have hpieces : (OutputDescriptor.substituteChars index text).splitOn ',' =
      (text.splitOn ',').map (OutputDescriptor.substituteChars index) :=
    splitOn_flatMap rfl (fun c hc => not_mem_starTo (by decide) hc) text
  rw [NoEmptyPiece, hpieces, List.forall_mem_map]
  exact fun piece hpiece => substituteChars_ne_nil (h piece hpiece)

theorem isLeafChar_of_isDigit (c : Char) (h : c.isDigit) : isLeafChar c :=
  isLeafChar_of_isPathChar (isPathChar_of_isAlphanum (isAlphanum_of_isDigit h))

theorem isBodyChar_of_isDigit (c : Char) (h : c.isDigit) : Grammar.isBodyChar c :=
  Grammar.isBodyChar_of_isLeafChar (isLeafChar_of_isDigit c h)

end Shape

def Label.atIndex (index : Nat) (label : Label) : Label :=
  { label with text := substituteIndex index label.text }

namespace ScriptExpr

variable {ctx : Context} {network : Network} {parent : Option ScriptType} {text : String}
  {index : Nat} {call : Call} {e : ScriptExpr}

/-- The arguments of an accepted call are separated in the same way after the substitution. -/
theorem Reads.splitArgs_substitute (h : Reads ctx network parent text call e) {args : List Char}
    (hargs : call.args = Call.splitArgs args) :
    Call.splitArgs (substituteChars index args) = call.args.map (substituteChars index) := by
  have hargs' := Call.intercalate_splitArgs args
  rw [← hargs] at hargs'
  -- Every comma separates leaf arguments, and none separates anything in front of a call.
  by_cases hleaf : ∀ w, e.type ≠ .wrapper w
  · obtain ⟨hleafArgs, -⟩ := leafArgs_of_readChildren h.readChildren_eq_ok h.shaped hleaf
    have hchars := hleafArgs.isLeafChar_map
    have hne := hleafArgs.ne_nil
    rw [← hargs', substituteChars_intercalate]
    refine Call.splitArgs_intercalate (by simpa using hne) ?_
    rw [List.forall_mem_map]
    intro arg harg
    obtain ⟨hnil, hleafChars⟩ := hchars arg (by simpa [List.map_map, Function.comp_def] using harg)
    exact ⟨substituteChars_ne_nil hnil,
      forall_mem_substituteChars isLeafChar_of_isDigit hleafChars⟩
  · cases e with
    | wrapped label w inner =>
      obtain ⟨arg, harg, hinner⟩ := readChildren_wrapper_eq_ok_iff.mp h.readChildren_eq_ok
      obtain ⟨innerCall, hinner⟩ := parse_eq_ok_iff.mp hinner
      obtain ⟨innerArgs, -, -, -, hbody, -⟩ := Call.ofChars?_eq_some_iff.mp hinner.shape
      have htext : arg = innerCall.body := String.ofList_injective hinner.nested.1
      rw [harg, List.intercalate_singleton] at hargs'
      rw [harg, List.map_singleton, ← hargs', htext, hbody, substituteChars_callText,
        Call.splitArgs_callText]
    | _ => exact absurd (by simp [ScriptExpr.type]) hleaf

/-- The call after the substitution, up to the reading of its arguments. -/
theorem Reads.parse_substitute (h : Reads ctx network parent text call e)
    (hchecksum : e.checksum = none) :
    parse ctx network parent (substituteIndex index text) =
      readChildren ctx network e.type (call.args.map (substituteChars index)) >>=
        ofChildren ⟨network, substituteIndex index text, none⟩ e.type := by
  obtain ⟨htext, -⟩ | ⟨-, hsome, -⟩ := h.text_eq
  · obtain ⟨args, rest, -, -, hbody, hpieces, hargs⟩ := Call.ofChars?_eq_some_iff.mp h.shape
    have hchars : ∀ c ∈ text.toList, Grammar.isBodyChar c := by
      rw [htext]
      exact h.derives.isBodyChar
    have hascii : (substituteIndex index text).toList.all (·.toNat < 128) := by
      rw [toList_substituteIndex, List.all_eq_true]
      intro c hc
      have hbodyChar := forall_mem_substituteChars isBodyChar_of_isDigit hchars c hc
      exact decide_eq_true (lt_of_isPrintable (Grammar.isPrintable_of_isBodyChar hbodyChar))
    let substituted : Call := ⟨e.type, call.args.map (substituteChars index),
      substituteChars index call.body, none⟩
    have hshape : Call.ofChars? parent.isNone (substituteIndex index text).toList =
        some substituted := by
      refine Call.ofChars?_eq_some_iff.mpr ⟨substituteChars index args, [], ?_, rfl, ?_,
        hpieces.substituteChars, (h.splitArgs_substitute hargs).symm⟩
      · rw [List.append_nil, toList_substituteIndex, htext, String.toList_ofList]
      · change substituteChars index call.body = callText e.type (substituteChars index args)
        rw [hbody, substituteChars_callText, h.type]
    have harity : substituted.checkArity = .ok () := by
      have hcall := Call.checkArity_eq_ok_iff.mp h.arity
      rw [← h.type] at hcall
      refine Call.checkArity_eq_ok_iff.mpr ?_
      change e.type.argKinds.length ≤ (call.args.map (substituteChars index)).length
      rwa [List.length_map]
    rw [parse_eq, if_pos hascii, hshape]
    change (if e.type.allowedIn parent then _ else _) = _
    simp only [if_pos h.allowedIn, harity, Except.ok_bind]
    rfl
  · rw [hchecksum] at hsome
    cases hsome

/-- The expression at one index, with the text that says so. -/
def instantiate (ctx : Context) (index : Nat) : ScriptExpr → Except Error ScriptExpr
  | .wrapped label wrapper inner => do
    return .wrapped (label.atIndex index) wrapper (← inner.instantiate ctx index)
  | .keyed label form key => do
    return .keyed (label.atIndex index) form (← key.instantiate ctx index)
  | .multisig label sorted threshold keys => do
    return .multisig (label.atIndex index) sorted threshold
      (← keys.mapM (·.instantiate ctx index))
  | .addr label address => .ok (.addr (label.atIndex index) address)
  | .raw label hex => .ok (.raw (label.atIndex index) hex)

theorem label_type_instantiate {e' : ScriptExpr} (h : e.instantiate ctx index = .ok e') :
    e'.label = e.label.atIndex index ∧ e'.type = e.type := by
  cases e with
  | wrapped | keyed | multisig =>
    obtain ⟨_, -, h⟩ := Except.bind_eq_ok_iff.mp h
    cases h
    exact ⟨rfl, rfl⟩
  | addr | raw =>
    cases h
    exact ⟨rfl, rfl⟩

theorem network_instantiate {e' : ScriptExpr}
    (hnetwork : ∀ child ∈ e.children, child.network = network)
    (h : e.instantiate ctx index = .ok e') : ∀ child ∈ e'.children, child.network = network := by
  cases e with
  | wrapped label w inner =>
    obtain ⟨inner', hinner, h⟩ := Except.bind_eq_ok_iff.mp h
    cases h
    have hfirst := List.forall_mem_singleton.mp hnetwork
    have hlabel := congrArg Label.network (label_type_instantiate hinner).1
    exact List.forall_mem_singleton.mpr (hlabel.trans hfirst)
  | keyed label form key =>
    obtain ⟨key', hkey, h⟩ := Except.bind_eq_ok_iff.mp h
    cases h
    have hfirst := List.forall_mem_singleton.mp hnetwork
    exact List.forall_mem_singleton.mpr ((KeyExpr.network_instantiate hkey).trans hfirst)
  | multisig label sorted threshold keys =>
    obtain ⟨keys', hkeys, h⟩ := Except.bind_eq_ok_iff.mp h
    cases h
    rw [children, List.forall_mem_cons, List.forall_mem_map] at hnetwork ⊢
    refine ⟨hnetwork.1, fun key' hkey' => ?_⟩
    obtain ⟨key, hmem, hkey⟩ := exists_of_forall₂ (mapM_eq_ok_iff.mp hkeys).flip hkey'
    exact (KeyExpr.network_instantiate hkey).trans (hnetwork.2 key hmem)
  | addr | raw =>
    cases h
    exact hnetwork

theorem shaped_instantiate {e' : ScriptExpr} (hshaped : e.Shaped)
    (h : e.instantiate ctx index = .ok e') : e'.Shaped := by
  cases e with
  | wrapped label w inner =>
    obtain ⟨inner', hinner, h⟩ := Except.bind_eq_ok_iff.mp h
    cases h
    rw [Shaped, (label_type_instantiate hinner).2]
    exact hshaped
  | multisig label sorted threshold keys =>
    obtain ⟨keys', hkeys, h⟩ := Except.bind_eq_ok_iff.mp h
    cases h
    have hall := mapM_eq_ok_iff.mp hkeys
    refine ⟨hall.length_eq ▸ hshaped.1, fun hsorted key' hkey' => ?_⟩
    obtain ⟨key, hmem, hkey⟩ := exists_of_forall₂ hall.flip hkey'
    exact (KeyExpr.isCompressed_instantiate hkey).trans (hshaped.2 hsorted key hmem)
  | keyed =>
    obtain ⟨_, -, h⟩ := Except.bind_eq_ok_iff.mp h
    cases h
    trivial
  | addr | raw =>
    cases h
    trivial

/-- Arguments other than keys have no wildcards. -/
theorem substituteChars_of_isAlphanum {arg : List Char}
    (h : (String.ofList arg).toList ≠ [] ∧ ∀ c ∈ (String.ofList arg).toList, c.isAlphanum) :
    substituteChars index arg = arg := by
  have hchars := h.2
  rw [String.toList_ofList] at hchars
  apply substituteChars_of_not_mem
  exact KeyText.star_not_mem_of_isPathChar fun c hc => isPathChar_of_isAlphanum (hchars c hc)

theorem sameCause_readArgs_singleton {α β : Type} {read : String → Except Error α} {arg : List Char}
    {y : Except Error α} (h : SameCause (read (String.ofList arg)) y) (wrap : α → β) :
    SameCause (do return (← readArgs read 1 [arg]).map wrap) (y >>= fun x => .ok [wrap x]) := by
  rw [readArgs, bind_assoc]
  exact (h.argument _ _).bind fun x _ => .refl _

theorem sameCause_readKey {arg : List Char} {key : KeyExpr}
    (h : KeyExpr.parse ctx network (String.ofList arg) = .ok key) :
    SameCause (KeyExpr.parse ctx network (String.ofList (substituteChars index arg)))
      (key.instantiate ctx index) := by
  have hsubstituted : KeyExpr.parse ctx network (substituteIndex index (String.ofList arg)) =
      key.instantiate ctx index := KeyExpr.parse_substituteIndex h
  rw [substituteIndex, String.toList_ofList] at hsubstituted
  rw [hsubstituted]
  exact .refl _

theorem sameCause_readKeys {args : List (List Char)} {keys : List KeyExpr} (position : Nat)
    (h : List.Forall₂ (fun arg key => KeyExpr.parse ctx network (String.ofList arg) = .ok key)
      args keys) :
    SameCause (readArgs (KeyExpr.parse ctx network) position (args.map (substituteChars index)))
      (keys.mapM (·.instantiate ctx index)) := by
  refine SameCause.mapM_readArgs ?_ position
  rw [List.forall₂_map_left_iff]
  exact h.imp fun arg key hkey => sameCause_readKey hkey

theorem Reads.sameCause_readChildren (h : Reads ctx network parent text call e)
    (hinner : ∀ label w inner, e = .wrapped label w inner → ∀ text,
      parse ctx network (some (.wrapper w)) text = .ok inner →
        SameCause (parse ctx network (some (.wrapper w)) (substituteIndex index text))
          (inner.instantiate ctx index)) :
    SameCause (readChildren ctx network e.type (call.args.map (substituteChars index)))
      (e.instantiate ctx index >>= fun e' => .ok e'.children) := by
  cases e with
  | wrapped label w inner =>
    obtain ⟨arg, harg, hparse⟩ := readChildren_wrapper_eq_ok_iff.mp h.readChildren_eq_ok
    have hsame := hinner label w inner rfl _ hparse
    rw [substituteIndex, String.toList_ofList] at hsame
    rw [harg, instantiate, bind_assoc]
    exact sameCause_readArgs_singleton hsame Expr.script
  | keyed label form key =>
    obtain ⟨arg, harg, hkey⟩ := readChildren_keyed_eq_ok_iff.mp h.readChildren_eq_ok
    rw [harg, instantiate, bind_assoc]
    exact sameCause_readArgs_singleton (sameCause_readKey hkey) Expr.key
  | multisig label sorted threshold keys =>
    obtain ⟨arg, rest, harg, hnumber, hkey⟩ :=
      readChildren_multisig_eq_ok_iff.mp h.readChildren_eq_ok
    have harg' : substituteChars index arg = arg :=
      substituteChars_of_isAlphanum (NumberExpr.isAlphanum_of_parse hnumber)
    have hthreshold : readArgs (NumberExpr.parse network) 1 [arg] = .ok [threshold] :=
      readArgs_eq_ok_iff.mpr (.cons hnumber .nil)
    rw [harg, List.map_cons, harg', instantiate, bind_assoc]
    change SameCause (readArgs (NumberExpr.parse network) 1 [arg] >>= _) _
    rw [hthreshold]
    exact (sameCause_readKeys 2 hkey).bind fun found _ => .refl _
  | addr label address =>
    obtain ⟨arg, harg, haddress⟩ := readChildren_addr_eq_ok_iff.mp h.readChildren_eq_ok
    rw [harg, List.map_singleton,
      substituteChars_of_isAlphanum (AddrExpr.isAlphanum_of_parse haddress)]
    exact sameCause_readArgs_singleton (congrArg (Except.mapError _) haddress) Expr.addr
  | raw label hex =>
    obtain ⟨arg, harg, hhex⟩ := readChildren_raw_eq_ok_iff.mp h.readChildren_eq_ok
    rw [harg, List.map_singleton,
      substituteChars_of_isAlphanum (HexExpr.isAlphanum_of_parse hhex)]
    exact sameCause_readArgs_singleton (congrArg (Except.mapError _) hhex) Expr.hex

/-- The expression at an index is well built if the one with the wildcards is. -/
theorem Reads.ofChildren_instantiate (h : Reads ctx network parent text call e)
    (hchecksum : e.checksum = none) {e' : ScriptExpr} (he' : e.instantiate ctx index = .ok e') :
    ofChildren ⟨network, substituteIndex index text, none⟩ e.type e'.children = .ok e' := by
  obtain ⟨-, hnetwork, hlabel, -, -, hshaped⟩ := ofChildren_eq_ok_iff.mp h.built
  refine ofChildren_eq_ok_iff.mpr ⟨?_, network_instantiate hnetwork he', ?_,
    (label_type_instantiate he').2, rfl, shaped_instantiate hshaped he'⟩
  · intro checksum hsome
    cases hsome
  · rw [checksum, hlabel] at hchecksum
    rw [(label_type_instantiate he').1, hlabel, Label.atIndex, hchecksum]

theorem Reads.sameCause_parse (h : Reads ctx network parent text call e)
    (hchecksum : e.checksum = none)
    (hinner : ∀ label w inner, e = .wrapped label w inner → ∀ text,
      parse ctx network (some (.wrapper w)) text = .ok inner →
        SameCause (parse ctx network (some (.wrapper w)) (substituteIndex index text))
          (inner.instantiate ctx index)) :
    SameCause (parse ctx network parent (substituteIndex index text))
      (e.instantiate ctx index) := by
  have hbuild := (h.sameCause_readChildren hinner).bind fun children _ =>
    SameCause.refl (ofChildren ⟨network, substituteIndex index text, none⟩ e.type children)
  rw [h.parse_substitute hchecksum]
  refine Eq.trans hbuild ?_
  rw [bind_assoc]
  cases he' : e.instantiate ctx index with
  | error error => rfl
  | ok e' =>
    simp only [Except.ok_bind, h.ofChildren_instantiate hchecksum he']

/-- What is read from the text with an index in place of the wildcards is the expression at the
index. -/
theorem parse_substituteIndex (h : parse ctx network parent text = .ok e)
    (hchecksum : e.checksum = none) :
    SameCause (parse ctx network parent (substituteIndex index text))
      (e.instantiate ctx index) := by
  induction e generalizing parent text with
  | wrapped label w inner ih =>
    obtain ⟨call, hreads⟩ := parse_eq_ok_iff.mp h
    refine hreads.sameCause_parse hchecksum ?_
    rintro label w inner ⟨⟩ text hinner
    refine ih hinner ?_
    obtain ⟨innerCall, hinner⟩ := parse_eq_ok_iff.mp hinner
    exact hinner.nested.2
  | _ =>
    obtain ⟨call, hreads⟩ := parse_eq_ok_iff.mp h
    exact hreads.sameCause_parse hchecksum (by simp)

end ScriptExpr

end OutputDescriptor
