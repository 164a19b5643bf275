import OutputDescriptor.Proofs.Script.Acceptance
import OutputDescriptor.Proofs.Script.Reachable

/-!
Reading keeps the whole text and works from the outside in: what is read from a text spells it out
again at every level, and each script inside is what its own text is read as. Where a call may stand
inside another, it is read there as it is alone.
-/
namespace OutputDescriptor

open Grammar

theorem callText_inj {type type' : ScriptType} {args args' : List Char}
    (h : callText type args = callText type' args') : type = type' := by
  have hsplit := Call.splitBody?_eq_some_iff.mpr h
  rw [Call.splitBody?_eq_some_iff.mpr rfl, Option.some.injEq, Prod.mk.injEq] at hsplit
  exact hsplit.1

/-- A text that ends in a parenthesis is taken apart alike everywhere. -/
theorem Call.ofChars?_of_getLast? {text : List Char} (h : text.getLast? = some ')') (root : Bool) :
    ofChars? root text = ofChars? false text := by
  simp [ofChars?, splitChecksum_of_getLast? h]

namespace ScriptExpr

/-- The script expressions inside, from the outside in. -/
def nested (e : ScriptExpr) : List ScriptExpr := e.levels.tail

/-- The type, the texts of the arguments and the checksum, put together as a text. -/
def spelling (e : ScriptExpr) : String :=
  callOf e.type (e.children.map Expr.text) ++ e.checksum.elim "" ("#" ++ ·)

section Read

variable {ctx : Context} {network : Network} {parent : Option ScriptType} {text : String}
  {e : ScriptExpr}

theorem text_of_parse (h : parse ctx network parent text = .ok e) : e.text = text := by
  obtain ⟨call, hreads⟩ := parse_eq_ok_iff.mp h
  rw [ScriptExpr.text, hreads.label]

theorem Reads.texts {call : Call} (h : Reads ctx network parent text call e) :
    e.children.map Expr.text = call.args.map String.ofList := by
  cases e with
  | wrapped label w inner =>
    obtain ⟨arg, hargs, hinner⟩ := readChildren_wrapper_eq_ok_iff.mp h.readChildren_eq_ok
    have htext : inner.text = String.ofList arg := text_of_parse hinner
    rw [hargs, List.map_singleton, ← htext]
    rfl
  | _ =>
    have hleaf := leafArgs_of_readChildren h.readChildren_eq_ok h.shaped (by simp [ScriptExpr.type])
    exact (Outline.leaf.inj hleaf.2).2

theorem spelling_of_parse (h : parse ctx network parent text = .ok e) : e.text = e.spelling := by
  obtain ⟨call, hreads⟩ := parse_eq_ok_iff.mp h
  have hbody : String.ofList call.body = callOf e.type (e.children.map Expr.text) := by
    rw [hreads.body_eq, hreads.texts]
  rw [text_of_parse h, spelling, ← hbody]
  rcases hreads.text_eq with ⟨htext, hchecksum⟩ | ⟨-, hchecksum, htext⟩
  · rw [htext, hchecksum, Option.elim_none, String.append_empty]
  · rw [htext, hchecksum, Option.elim_some, String.append_assoc]

theorem parse_inner {label : Label} {w : Wrapper} {inner : ScriptExpr}
    (h : parse ctx network parent text = .ok (.wrapped label w inner)) :
    parse ctx network (some (.wrapper w)) inner.text = .ok inner := by
  obtain ⟨call, hreads⟩ := parse_eq_ok_iff.mp h
  obtain ⟨arg, -, hinner⟩ := readChildren_wrapper_eq_ok_iff.mp hreads.readChildren_eq_ok
  rwa [text_of_parse hinner]

/-- Each script inside is read from its own text, as an argument of the wrapper around it. -/
theorem parse_nested (h : parse ctx network parent text = .ok e) : ∀ inner ∈ e.nested,
    ∃ w, parse ctx network (some (.wrapper w)) inner.text = .ok inner := by
  cases e with
  | wrapped label w inner =>
    refine forall_mem_levels (fun _ w inner hlevel => ?_) ⟨w, parse_inner h⟩
    obtain ⟨_, hlevel⟩ := hlevel
    exact ⟨w, parse_inner hlevel⟩
  | _ => simp [nested, levels]

/-- Every level was read from a text of its own, so that none of them loses any of it. -/
theorem spelling_levels (h : parse ctx network parent text = .ok e) :
    ∀ level ∈ e.levels, level.text = level.spelling := by
  have hread : ∀ level ∈ e.levels, ∃ parent text, parse ctx network parent text = .ok level := by
    refine forall_mem_levels (fun _ w inner hlevel => ?_) ⟨parent, text, h⟩
    obtain ⟨_, _, hlevel⟩ := hlevel
    exact ⟨_, _, parse_inner hlevel⟩
  intro level hlevel
  obtain ⟨_, _, hlevel⟩ := hread level hlevel
  exact spelling_of_parse hlevel

end Read

section Under

variable (ctx : Context) (network : Network) {type outer : ScriptType} (args : List String)

theorem ofChars?_callOf (root : Bool) : Call.ofChars? root (callOf type args).toList =
    Call.ofChars? false (callOf type args).toList := by
  apply Call.ofChars?_of_getLast?
  rw [toList_callOf]
  exact getLast?_callText type _

theorem type_of_ofChars? {args : List String} {root : Bool} {call : Call}
    (h : Call.ofChars? root (callOf type args).toList = some call) : call.type = type := by
  rw [ofChars?_callOf] at h
  obtain ⟨args', htext⟩ := Call.eq_callText_of_ofChars? h
  rw [toList_callOf] at htext
  exact (callText_inj htext).symm

theorem parse_callOf_of_not_allowedUnder (h : type.allowedUnder outer = false) :
    ∃ fault, parse ctx network (some outer) (callOf type args) =
      .error (.grammar (callOf type args) fault) := by
  cases hcall : Call.ofChars? false (callOf type args).toList with
  | none => exact parse_of_ofChars?_eq_none hcall
  | some call =>
    refine parse_of_not_allowedIn hcall ?_
    rw [type_of_ofChars? hcall, ScriptType.allowedIn, Option.all_some, h]
    simp

theorem parse_callOf_of_allowedUnder (h : type.allowedUnder outer) :
    parse ctx network (some outer) (callOf type args) =
      parse ctx network none (callOf type args) := by
  -- The text is taken apart alike, so only the test for nesting could tell the two apart.
  rw [parse_eq, parse_eq, ofChars?_callOf, ofChars?_callOf args (none : Option ScriptType).isNone]
  cases hcall : Call.ofChars? false (callOf type args).toList with
  | none => rfl
  | some call =>
    have houter : call.type.allowedIn (some outer) = true := by
      rwa [type_of_ofChars? hcall, ScriptType.allowedIn, Option.all_some]
    have hroot : call.type.allowedIn none = true := rfl
    simp only [houter, hroot]

end Under

/-- What is read inside another call is read alone, too. -/
theorem parse_alone {ctx : Context} {network : Network} {outer : ScriptType} {text : String}
    {e : ScriptExpr} (h : parse ctx network (some outer) text = .ok e) :
    e.checksum = none ∧ parse ctx network none text = .ok e := by
  obtain ⟨call, hreads⟩ := parse_eq_ok_iff.mp h
  obtain ⟨htext, hchecksum⟩ := hreads.nested
  rw [hreads.body_eq] at htext
  refine ⟨hchecksum, ?_⟩
  have hallowed : e.type.allowedUnder outer := hreads.allowedIn
  rwa [htext, ← parse_callOf_of_allowedUnder ctx network _ hallowed, ← htext]

/-- What is read is spelled out at every level, and each call inside is read as it is alone. -/
theorem parse_compositional (ctx : Context) (network : Network) :
    (∀ (parent : Option ScriptType) (text : String) (e : ScriptExpr),
      parse ctx network parent text = .ok e →
        e.text = text ∧ (∀ level ∈ e.levels, level.text = level.spelling) ∧
          ∀ inner ∈ e.nested,
            inner.checksum = none ∧ parse ctx network none inner.text = .ok inner) ∧
      ∀ (type outer : ScriptType) (args : List String),
        (type.allowedUnder outer = false →
          ∃ fault, parse ctx network (some outer) (callOf type args) =
            .error (.grammar (callOf type args) fault)) ∧
          (type.allowedUnder outer = true →
            parse ctx network (some outer) (callOf type args) =
              parse ctx network none (callOf type args)) := by
  constructor
  · intro parent text e h
    refine ⟨text_of_parse h, spelling_levels h, fun inner hinner => ?_⟩
    obtain ⟨w, hparse⟩ := parse_nested h inner hinner
    exact parse_alone hparse
  · intro type outer args
    exact ⟨parse_callOf_of_not_allowedUnder ctx network args,
      parse_callOf_of_allowedUnder ctx network args⟩

theorem parse_compositional_wsh :
    (∃ e, parse {} .bitcoin none
        "sh(wsh(pk(0279be667ef9dcbbac55a06295ce870b07029bfcdb2dce28d959f2815b16f81798)))" = .ok e ∧
      e.nested.length = 2 ∧ (∀ level ∈ e.levels, level.text = level.spelling) ∧
        ∀ inner ∈ e.nested, parse {} .bitcoin none inner.text = .ok inner) ∧
      (∃ fault, parse {} .bitcoin (some (.wrapper .sh)) (callOf .raw ["00"]) =
        .error (.grammar (callOf .raw ["00"]) fault)) ∧
      parse {} .bitcoin (some (.wrapper .sh)) (callOf (.wrapper .wsh) ["raw(00)"]) =
        parse {} .bitcoin none (callOf (.wrapper .wsh) ["raw(00)"]) := by
  have hlength : (do
      let e ← parse {} .bitcoin none
        "sh(wsh(pk(0279be667ef9dcbbac55a06295ce870b07029bfcdb2dce28d959f2815b16f81798)))"
      return e.nested.length : Except Error Nat) = .ok 2 := by
    decide +kernel
  obtain ⟨e, hparse, hlength⟩ := Except.bind_eq_ok_iff.mp hlength
  have hread := (parse_compositional {} .bitcoin).1 none _ e hparse
  have hunder := (parse_compositional {} .bitcoin).2
  refine ⟨⟨e, hparse, Except.ok.inj hlength, hread.2.1, fun inner hinner => ?_⟩, ?_, ?_⟩
  · exact (hread.2.2 inner hinner).2
  · exact (hunder .raw (.wrapper .sh) ["00"]).1 rfl
  · exact (hunder (.wrapper .wsh) (.wrapper .sh) ["raw(00)"]).2 rfl

end ScriptExpr

end OutputDescriptor
