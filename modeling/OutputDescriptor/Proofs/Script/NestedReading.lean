import Mathlib.Data.List.Chain
import OutputDescriptor.Proofs.Script.ErrorPosition

/-!
How deep reading goes. A reading is recorded together with the texts that it has open at the same
time; whatever the text, these are three at most, each one shorter than the one it stands in.
-/
namespace OutputDescriptor

/-- A text that is read as a script expression, and the type of the call it stands in. -/
structure Entry where
  parent : Option ScriptType
  text : String
  deriving DecidableEq

/-! ### Recorded readings -/

/-- A result with the chains of entries that were open at the same time, outermost first. -/
structure Recorded (α : Type) where
  chains : List (List Entry)
  result : Except Error α

namespace Recorded

variable {α β : Type}

def plain (result : Except Error α) : Recorded α := ⟨[], result⟩

/-- What was read before a failure stays in the record. -/
instance : Monad Recorded where
  pure a := plain (.ok a)
  bind x f :=
    match x.result with
    | .ok a => ⟨x.chains ++ (f a).chains, (f a).result⟩
    | .error error => ⟨x.chains, .error error⟩

def mapError (f : Error → Error) (x : Recorded α) : Recorded α :=
  ⟨x.chains, x.result.mapError f⟩

/-- Everything that is read is read inside of the entry. -/
def inside (entry : Entry) (x : Recorded α) : Recorded α :=
  ⟨[entry] :: x.chains.map (entry :: ·), x.result⟩

@[simp] theorem result_plain (result : Except Error α) : (plain result).result = result := rfl

@[simp] theorem chains_plain (result : Except Error α) : (plain result).chains = [] := rfl

@[simp] theorem result_pure (a : α) : (pure a : Recorded α).result = .ok a := rfl

@[simp] theorem chains_pure (a : α) : (pure a : Recorded α).chains = [] := rfl

@[simp] theorem result_mapError (f : Error → Error) (x : Recorded α) :
    (x.mapError f).result = x.result.mapError f := rfl

@[simp] theorem chains_mapError (f : Error → Error) (x : Recorded α) :
    (x.mapError f).chains = x.chains := rfl

@[simp] theorem result_inside (entry : Entry) (x : Recorded α) :
    (x.inside entry).result = x.result := rfl

@[simp] theorem result_bind (x : Recorded α) (f : α → Recorded β) :
    (x >>= f).result = x.result >>= fun a => (f a).result := by
  change (match x.result with
    | .ok a => (⟨x.chains ++ (f a).chains, (f a).result⟩ : Recorded β)
    | .error error => ⟨x.chains, .error error⟩).result = _
  cases x.result <;> rfl

theorem mem_chains_inside {entry : Entry} {x : Recorded α} {chain : List Entry} :
    chain ∈ (x.inside entry).chains ↔
      chain = [entry] ∨ ∃ nested ∈ x.chains, chain = entry :: nested := by
  simp [inside, eq_comm]

theorem mem_chains_bind {x : Recorded α} {f : α → Recorded β} {chain : List Entry} :
    chain ∈ (x >>= f).chains ↔
      chain ∈ x.chains ∨ ∃ a, x.result = .ok a ∧ chain ∈ (f a).chains := by
  change chain ∈ (match x.result with
    | .ok a => (⟨x.chains ++ (f a).chains, (f a).result⟩ : Recorded β)
    | .error error => ⟨x.chains, .error error⟩).chains ↔ _
  cases x.result with
  | ok a => simp
  | error error => simp

end Recorded

namespace ScriptExpr

/-- Read arguments from left to right, up to the first failure. -/
def recordArgs {α : Type} (read : String → Recorded α) (position : Nat) :
    List (List Char) → Recorded (List α)
  | [] => return []
  | arg :: rest => do
    let text := String.ofList arg
    let expr ← (read text).mapError (.argument position text)
    return expr :: (← recordArgs read (position + 1) rest)

/-- Read a script expression and record what is read for it. Only wrappers have scripts for
arguments. -/
def record (ctx : Context) (network : Network) (parent : Option ScriptType) (text : String) :
    Recorded ScriptExpr :=
  .inside ⟨parent, text⟩ <|
    if text.toList.all (·.toNat < 128) then
      match Call.ofChars? parent.isNone text.toList with
      | none => .plain (.error (.grammar text .noCall))
      | some call =>
        if hallowed : call.type.allowedIn parent then do
          .plain call.verify
          .plain call.checkArity
          let children ← match htype : call.type with
            | .wrapper w => do
              have : ScriptType.nestingRank (some (.wrapper w)) < ScriptType.nestingRank parent :=
                ScriptType.nestingRank_lt (htype ▸ hallowed)
              let scripts ←
                recordArgs (fun a => record ctx network (some (.wrapper w)) a) 1 call.args
              pure (scripts.map .script)
            | .keyed _ | .multisig _ | .addr | .raw =>
              .plain (readChildren ctx network call.type call.args)
          .plain (ofChildren ⟨network, text, call.checksum.map String.ofList⟩ call.type children)
        else .plain (.error (.grammar text .nesting))
    else .plain (.error (.grammar text .nonAscii))
termination_by ScriptType.nestingRank parent

section Results

variable {ctx : Context} {network : Network}

theorem result_recordArgs {α : Type} (read : String → Recorded α) (position : Nat)
    (args : List (List Char)) :
    (recordArgs read position args).result = readArgs (fun a => (read a).result) position args := by
  induction args generalizing position with
  | nil => rfl
  | cons arg rest ih =>
    simp only [recordArgs, readArgs, Recorded.result_bind, Recorded.result_mapError,
      Recorded.result_pure, ih]
    rfl

theorem result_record (ctx : Context) (network : Network) (parent : Option ScriptType)
    (text : String) : (record ctx network parent text).result = parse ctx network parent text := by
  rw [record, parse_eq, Recorded.result_inside]
  split
  · cases Call.ofChars? parent.isNone text.toList with
    | none => rfl
    | some call =>
      by_cases hallowed : call.type.allowedIn parent
      · obtain ⟨type, args, body, checksum⟩ := call
        cases type with
        | wrapper w =>
          have : ScriptType.nestingRank (some (.wrapper w)) < ScriptType.nestingRank parent :=
            ScriptType.nestingRank_lt hallowed
          have hnested (arg : String) := result_record ctx network (some (.wrapper w)) arg
          simp only [dif_pos hallowed, if_pos hallowed, Recorded.result_bind,
            Recorded.result_plain, Recorded.result_pure, result_recordArgs, hnested, readChildren,
            bind_assoc]
          rfl
        | _ =>
          simp only [dif_pos hallowed, if_pos hallowed, Recorded.result_bind,
            Recorded.result_plain]
      · simp only [dif_neg hallowed, if_neg hallowed, Recorded.result_plain]
  · rfl
termination_by ScriptType.nestingRank parent

end Results

end ScriptExpr

/-! ### What a reading has open at the same time -/

/-- The inner entry is an argument of an admitted wrapper, and the arguments before it are read. -/
inductive Entry.Opens (ctx : Context) (network : Network) : Entry → Entry → Prop
  | argument {parent : Option ScriptType} {text : String} {call : Call} {w : Wrapper} {index : Nat}
      {arg : List Char} (hcall : call.Admitted parent text) (htype : call.type = .wrapper w)
      (harg : call.args[index]? = some arg)
      (hbefore : ∀ i < index, ∀ before, call.args[i]? = some before →
        ∃ e, ScriptExpr.parse ctx network (some (.wrapper w)) (String.ofList before) = .ok e) :
      Opens ctx network ⟨parent, text⟩ ⟨some (.wrapper w), String.ofList arg⟩

namespace ScriptExpr

section Chains

variable {ctx : Context} {network : Network} {parent : Option ScriptType} {text : String}
  {chain : List Entry}

theorem mem_chains_recordArgs {α : Type} {read : String → Recorded α} {position : Nat}
    {args : List (List Char)} : chain ∈ (recordArgs read position args).chains ↔
      ∃ (index : Nat) (arg : List Char), args[index]? = some arg ∧
        (∀ i < index, ∀ before, args[i]? = some before →
          ∃ a, (read (String.ofList before)).result = .ok a) ∧
        chain ∈ (read (String.ofList arg)).chains := by
  induction args generalizing position with
  | nil => simp [recordArgs]
  | cons first rest ih =>
    simp only [recordArgs, Recorded.mem_chains_bind, Recorded.chains_mapError,
      Recorded.result_mapError, Except.mapError_eq_ok_iff, Recorded.chains_pure, List.not_mem_nil,
      and_false, exists_false, or_false, ih]
    constructor
    · rintro (hfirst | ⟨a, ha, index, arg, harg, hbefore, hchain⟩)
      · exact ⟨0, first, rfl, fun i hi => absurd hi (Nat.not_lt_zero i), hfirst⟩
      · refine ⟨index + 1, arg, harg, fun i hi before h => ?_, hchain⟩
        cases i with
        | zero => exact Option.some.inj h ▸ ⟨a, ha⟩
        | succ i => exact hbefore i (Nat.lt_of_succ_lt_succ hi) before h
    · rintro ⟨index, arg, harg, hbefore, hchain⟩
      cases index with
      | zero => exact .inl (Option.some.inj harg ▸ hchain)
      | succ index =>
        obtain ⟨a, ha⟩ := hbefore 0 (Nat.succ_pos index) first rfl
        exact .inr ⟨a, ha, index, arg, harg,
          fun i hi => hbefore (i + 1) (Nat.succ_lt_succ hi), hchain⟩

theorem mem_chains_record : chain ∈ (record ctx network parent text).chains ↔
    chain = [⟨parent, text⟩] ∨ ∃ (call : Call) (w : Wrapper), call.Admitted parent text ∧
      call.type = .wrapper w ∧
        ∃ nested ∈ (recordArgs (record ctx network (some (.wrapper w))) 1 call.args).chains,
          chain = ⟨parent, text⟩ :: nested := by
  rw [record, Recorded.mem_chains_inside]
  refine or_congr_right ?_
  simp only [Call.admitted_iff]
  by_cases hascii : text.toList.all (·.toNat < 128)
  · rw [if_pos hascii]
    cases hcall : Call.ofChars? parent.isNone text.toList with
    | none => simp
    | some call =>
      by_cases hallowed : call.type.allowedIn parent
      · obtain ⟨type, args, body, checksum⟩ := call
        simp only [dif_pos hallowed, Recorded.mem_chains_bind, Recorded.chains_plain,
          Recorded.result_plain, List.not_mem_nil, false_or]
        cases type with
        | wrapper w =>
          simp only [Recorded.mem_chains_bind, Recorded.chains_plain, Recorded.chains_pure,
            List.not_mem_nil, and_false, exists_false, or_false]
          constructor
          · rintro ⟨nested, ⟨_, hverify, _, harity, hnested⟩, rfl⟩
            exact ⟨_, w, ⟨hascii, rfl, hallowed, hverify, harity⟩, rfl, nested, hnested, rfl⟩
          · rintro ⟨_, _, ⟨-, ⟨⟩, -, hverify, harity⟩, ⟨⟩, nested, hnested, rfl⟩
            exact ⟨nested, ⟨(), hverify, (), harity, hnested⟩, rfl⟩
        | _ => simp [Recorded.mem_chains_bind]
      · simp [hallowed]
  · simp [hascii]

/-- The chains of a reading are those that start with its text and go on with what each entry
opens. -/
theorem mem_chains_record_iff : chain ∈ (record ctx network parent text).chains ↔
    chain.head? = some ⟨parent, text⟩ ∧ chain.IsChain (Entry.Opens ctx network) := by
  induction chain generalizing parent text with
  | nil => simp [mem_chains_record]
  | cons entry nested ih =>
    rw [mem_chains_record]
    constructor
    · rintro (heq | ⟨call, w, hcall, htype, nested', hnested, heq⟩)
      · obtain ⟨rfl, rfl⟩ := List.cons.inj heq
        exact ⟨rfl, .singleton _⟩
      · obtain ⟨rfl, rfl⟩ := List.cons.inj heq
        obtain ⟨index, arg, harg, hbefore, hnested⟩ := mem_chains_recordArgs.mp hnested
        obtain ⟨hhead, hchain⟩ := ih.mp hnested
        simp only [result_record] at hbefore
        refine ⟨rfl, List.isChain_cons.mpr ⟨fun inner hinner => ?_, hchain⟩⟩
        obtain rfl := Option.some.inj (hhead.symm.trans hinner)
        exact .argument hcall htype harg hbefore
    · rintro ⟨hhead, hchain⟩
      obtain rfl := Option.some.inj hhead
      cases nested with
      | nil => exact .inl rfl
      | cons inner nested =>
        obtain ⟨hopens, hnested⟩ := List.isChain_cons_cons.mp hchain
        cases hopens with
        | @argument _ _ call w index arg hcall htype harg hbefore =>
          refine .inr ⟨call, w, hcall, htype, _, mem_chains_recordArgs.mpr ?_, rfl⟩
          refine ⟨index, arg, harg, ?_, ih.mpr ⟨rfl, hnested⟩⟩
          simpa only [result_record] using hbefore

end Chains

end ScriptExpr

namespace Entry.Opens

variable {ctx : Context} {network : Network} {outer inner : Entry}

theorem nestingRank_lt (h : Opens ctx network outer inner) :
    ScriptType.nestingRank inner.parent < ScriptType.nestingRank outer.parent := by
  cases h with
  | argument hcall htype => exact ScriptType.nestingRank_lt (htype ▸ hcall.allowed)

/-- What is opened stands behind the parenthesis of what it is opened from. -/
theorem exists_append (h : Opens ctx network outer inner) : ∃ before after,
    outer.text.toList = before ++ inner.text.toList ++ after ∧ before ≠ [] := by
  cases h with
  | @argument parent text call w index arg hcall htype harg hbefore =>
    obtain ⟨args, rest, htext, -, hbody, -, hargs⟩ := Call.ofChars?_eq_some_iff.mp hcall.shape
    rw [hargs] at harg
    have hinfix : arg <:+: args := by
      rw [← Call.intercalate_splitArgs args]
      exact isInfix_intercalate (List.mem_of_getElem? harg)
    obtain ⟨before, after, rfl⟩ := hinfix
    refine ⟨call.type.token.toList ++ '(' :: before, after ++ [')'] ++ rest, ?_, by simp⟩
    rw [htext, hbody, callText, String.toList_ofList]
    simp

theorem length_lt (h : Opens ctx network outer inner) :
    inner.text.length < outer.text.length := by
  obtain ⟨before, after, htext, hne⟩ := h.exists_append
  have hpos := List.length_pos_iff.mpr hne
  rw [← String.length_toList, ← String.length_toList, htext, List.length_append, List.length_append]
  omega

theorem ascii (h : Opens ctx network outer inner) : ∀ c ∈ inner.text.toList, c.toNat < 128 := by
  obtain ⟨before, after, htext, -⟩ := h.exists_append
  obtain ⟨hcall, -⟩ := h
  intro c hc
  refine hcall.ascii c ?_
  rw [htext, List.mem_append, List.mem_append]
  exact .inl (.inr hc)

end Entry.Opens

/-- A chain of entries is no longer than its first entry allows wrappers to be opened. -/
theorem length_le_of_isChain_opens {ctx : Context} {network : Network} {entry : Entry}
    {nested : List Entry} (h : (entry :: nested).IsChain (Entry.Opens ctx network)) :
    nested.length ≤ ScriptType.nestingRank entry.parent := by
  induction nested generalizing entry with
  | nil => exact Nat.zero_le _
  | cons inner nested ih =>
    obtain ⟨hopens, hnested⟩ := List.isChain_cons_cons.mp h
    exact Nat.lt_of_le_of_lt (ih hnested) hopens.nestingRank_lt

theorem ScriptType.nestingRank_le_one {parent : Option ScriptType} (h : parent ≠ none) :
    nestingRank parent ≤ 1 := by
  unfold nestingRank
  split
  · exact absurd rfl h
  · exact Nat.zero_le 1
  · exact Nat.le_refl 1

theorem ScriptType.eq_wsh_of_nestingRank {parent : Option ScriptType}
    (h : nestingRank parent = 0) : parent = some (.wrapper .wsh) := by
  unfold nestingRank at h
  split at h
  · cases h
  · rfl
  · cases h

/-- Where no wrapper can be opened, a call of one is refused for standing there. -/
theorem ScriptExpr.parse_wrapper_of_nestingRank {ctx : Context} {network : Network}
    {parent : Option ScriptType} {text : String} {call : Call} {w : Wrapper}
    (hrank : ScriptType.nestingRank parent = 0) (hascii : ∀ c ∈ text.toList, c.toNat < 128)
    (hcall : Call.ofChars? parent.isNone text.toList = some call) (htype : call.type = .wrapper w) :
    parse ctx network parent text = .error (.grammar text .nesting) := by
  have hallowed : ¬call.type.allowedIn parent := by
    rw [htype]
    intro h
    have hlt := ScriptType.nestingRank_lt h
    omega
  rw [parse_of_ofChars? hcall, if_neg hallowed, if_pos]
  simpa using hascii

/-- The recorded chains go from each entry to one that it opens, and have at most three entries. -/
theorem entries_nest_at_most_three_deep (ctx : Context) (network : Network)
    (parent : Option ScriptType) (text : String) :
    let recorded := ScriptExpr.record ctx network parent text
    recorded.result = ScriptExpr.parse ctx network parent text ∧
    (∀ chain, chain ∈ recorded.chains ↔
      chain.head? = some ⟨parent, text⟩ ∧ chain.IsChain (Entry.Opens ctx network)) ∧
    ∀ chain ∈ recorded.chains,
      chain.length ≤ 3 ∧ (parent ≠ none → chain.length ≤ 2) ∧
      chain.IsChain (fun outer inner => inner.text.length < outer.text.length) ∧
      ∀ third, chain[2]? = some third → third.parent = some (.wrapper .wsh) ∧
        ∀ (call : Call) (w : Wrapper),
          Call.ofChars? third.parent.isNone third.text.toList = some call →
          call.type = .wrapper w →
            ScriptExpr.parse ctx network third.parent third.text =
              .error (.grammar third.text .nesting) := by
  intro recorded
  refine ⟨ScriptExpr.result_record ctx network parent text,
    fun chain => ScriptExpr.mem_chains_record_iff, fun chain hmem => ?_⟩
  obtain ⟨hhead, hchain⟩ := ScriptExpr.mem_chains_record_iff.mp hmem
  obtain ⟨nested, rfl⟩ := List.head?_eq_some_iff.mp hhead
  have hlength : nested.length ≤ ScriptType.nestingRank parent := length_le_of_isChain_opens hchain
  have hrank := ScriptType.nestingRank_le_two parent
  simp only [List.length_cons]
  refine ⟨by omega, fun hne => ?_, hchain.imp fun _ _ h => h.length_lt, fun third hthird => ?_⟩
  · have := ScriptType.nestingRank_le_one hne
    omega
  · obtain ⟨second, rest, rfl⟩ : ∃ second rest, nested = second :: third :: rest := by
      match nested with
      | second :: _ :: rest => exact ⟨second, rest, by simpa using hthird⟩
    obtain ⟨hsecond, hchain⟩ := List.isChain_cons_cons.mp hchain
    obtain ⟨hthird, -⟩ := List.isChain_cons_cons.mp hchain
    have hlast : ScriptType.nestingRank third.parent = 0 := by
      have hsecond : _ < ScriptType.nestingRank parent := hsecond.nestingRank_lt
      have hthird := hthird.nestingRank_lt
      omega
    exact ⟨ScriptType.eq_wsh_of_nestingRank hlast,
      fun call w => ScriptExpr.parse_wrapper_of_nestingRank hlast hthird.ascii⟩

/-- Three entries are open where a call stands in two wrappers, and a third wrapper is refused. -/
theorem entries_nest_at_most_three_deep_wrappers :
    let second : Entry := ⟨some (.wrapper .sh), "wsh(sh(!))"⟩
    let third : Entry := ⟨some (.wrapper .wsh), "sh(!)"⟩
    let outer := ScriptExpr.record {} .testnet none "sh(wsh(sh(!)))"
    let inner := ScriptExpr.record {} .testnet second.parent second.text
    [⟨none, "sh(wsh(sh(!)))"⟩, second, third] ∈ outer.chains ∧
      [⟨none, "sh(wsh(sh(!)))"⟩, second, third].length ≤ 3 ∧
      [second, third] ∈ inner.chains ∧ [second, third].length ≤ 2 ∧
      ScriptExpr.parse {} .testnet third.parent third.text =
        .error (.grammar third.text .nesting) := by
  intro second third outer inner
  have houter : [⟨none, "sh(wsh(sh(!)))"⟩, second, third] ∈ outer.chains := by decide +kernel
  have hinner : [second, third] ∈ inner.chains := by decide +kernel
  obtain ⟨-, -, hchains⟩ := entries_nest_at_most_three_deep {} .testnet none "sh(wsh(sh(!)))"
  obtain ⟨hthree, -, -, hthird⟩ := hchains _ houter
  obtain ⟨-, -, hchains⟩ := entries_nest_at_most_three_deep {} .testnet second.parent second.text
  obtain ⟨-, htwo, -⟩ := hchains _ hinner
  obtain ⟨-, hrefused⟩ := hthird third rfl
  exact ⟨houter, hthree, hinner, htwo (by decide),
    hrefused ⟨.wrapper .sh, [['!']], "sh(!)".toList, none⟩ .sh (by decide) rfl⟩

end OutputDescriptor
