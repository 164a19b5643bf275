import OutputDescriptor.Proofs.Script.NestedReading
import OutputDescriptor.Token

/-!
What a text is refused for. Reading checks a call before it builds an expression from its arguments,
and of what building checks once more only the number of the arguments and the form of sorted keys
can still be wrong.
-/
namespace OutputDescriptor

/-! ### What building is given -/

theorem Checksum.isWellFormed_compute_of_ne {text : String} (h : compute text ≠ "") :
    isWellFormed (compute text) := by
  by_cases hprintable : ∀ c ∈ text.toList, isPrintable c
  · exact isWellFormed_compute hprintable
  · exact absurd (compute_of_not_printable hprintable) h

/-- A checksum that is the right one has the form of one. -/
theorem Call.Admitted.wellFormed {parent : Option ScriptType} {text : String} {call : Call}
    (h : call.Admitted parent text) (network : Network) :
    Label.WellFormed ⟨network, text, call.checksum.map String.ofList⟩ := by
  intro checksum hchecksum
  obtain ⟨found, hfound, rfl⟩ := Option.map_eq_some_iff.mp hchecksum
  obtain ⟨-, rest, -, hrest, -⟩ := Call.ofChars?_eq_some_iff.mp h.shape
  rw [hfound] at hrest
  have hlength : found.length = 8 := hrest.2.1.1
  rw [← h.verified found hfound]
  apply Checksum.isWellFormed_compute_of_ne
  rw [h.verified found hfound]
  intro hempty
  obtain rfl := String.ofList_eq_empty_iff.mp hempty
  cases hlength

namespace ScriptExpr

variable {ctx : Context} {network : Network} {parent : Option ScriptType} {text : String}
  {type : ScriptType} {args : List (List Char)} {children : List Expr} {error : Error}

theorem network_of_parse {e : ScriptExpr} (h : parse ctx network parent text = .ok e) :
    e.network = network := by
  obtain ⟨call, hreads⟩ := parse_eq_ok_iff.mp h
  exact congrArg Label.network hreads.label

theorem exists_of_readArgs {α : Type} {read : String → Except Error α} {wrap : α → Expr}
    (h : (do return (← readArgs read 1 args).map wrap : Except Error (List Expr)) = .ok children) :
    ∃ xs, children = xs.map wrap ∧
      List.Forall₂ (fun arg x => read (String.ofList arg) = .ok x) args xs := by
  obtain ⟨xs, hxs, h⟩ := Except.bind_eq_ok_iff.mp h
  exact ⟨xs, (Except.ok.inj h).symm, readArgs_eq_ok_iff.mp hxs⟩

theorem exists_of_readMultisigArgs (h : readMultisigArgs ctx network args = .ok children)
    (harity : 2 ≤ args.length) : ∃ threshold key keys,
      children = .number threshold :: .key key :: keys.map .key ∧
        threshold.network = network ∧ ∀ k ∈ key :: keys, k.network = network := by
  obtain ⟨arg, first, rest, rfl⟩ : ∃ arg first rest, args = arg :: first :: rest := by
    match args with
    | arg :: first :: rest => exact ⟨arg, first, rest, rfl⟩
  obtain ⟨numbers, hnumbers, h⟩ := Except.bind_eq_ok_iff.mp h
  obtain ⟨found, hfound, h⟩ := Except.bind_eq_ok_iff.mp h
  obtain ⟨threshold, others, hthreshold, hothers, rfl⟩ := List.forall₂_cons_left_iff.mp
    (readArgs_eq_ok_iff.mp hnumbers)
  obtain rfl := List.forall₂_nil_left_iff.mp hothers
  have hkeys := readArgs_eq_ok_iff.mp hfound
  have hnetwork : ∀ k ∈ found, k.network = network := by
    intro k hk
    obtain ⟨text, -, htext⟩ := exists_of_forall₂ hkeys.flip hk
    exact (KeyExpr.parse_network htext).1
  obtain ⟨key, keys, -, -, rfl⟩ := List.forall₂_cons_left_iff.mp hkeys
  exact ⟨threshold, key, keys, (Except.ok.inj h).symm, (NumberExpr.parse_network hthreshold).1,
    hnetwork⟩

theorem network_of_readChildren (h : readChildren ctx network type args = .ok children)
    (harity : type.argKinds.length ≤ args.length) :
    ∀ child ∈ children, child.network = network := by
  have hsame {α : Type} {read : String → Except Error α} {wrap : α → Expr}
      (hread : (do return (← readArgs read 1 args).map wrap : Except Error (List Expr)) =
        .ok children)
      (hwrap : ∀ text x, read text = .ok x → (wrap x).network = network) :
      ∀ child ∈ children, child.network = network := by
    obtain ⟨xs, rfl, hxs⟩ := exists_of_readArgs hread
    rw [List.forall_mem_map]
    intro x hx
    obtain ⟨arg, -, harg⟩ := exists_of_forall₂ hxs.flip hx
    exact hwrap _ x harg
  cases type with
  | wrapper w => exact hsame h fun text e he => network_of_parse he
  | keyed form => exact hsame h fun text key hkey => (KeyExpr.parse_network hkey).1
  | addr => exact hsame h fun text address haddress => (AddrExpr.parse_network haddress).1
  | raw => exact hsame h fun text hex hhex => (HexExpr.parse_network hhex).1
  | multisig sorted =>
    obtain ⟨threshold, key, keys, rfl, hthreshold, hkeys⟩ := exists_of_readMultisigArgs h harity
    rw [List.forall_mem_cons, ← List.map_cons (f := Expr.key), List.forall_mem_map]
    exact ⟨hthreshold, hkeys⟩

end ScriptExpr

/-- A wrapper has one argument if the first one is a call: what follows it belongs to it. -/
theorem Call.args_eq_singleton {root : Bool} {chars : List Char} {call inner : Call}
    {first : List Char} {rest : List (List Char)} (h : ofChars? root chars = some call)
    (hargs : call.args = first :: rest) (hfirst : ofChars? false first = some inner) :
    rest = [] := by
  obtain ⟨args, -, -, -, -, -, hsplit⟩ := ofChars?_eq_some_iff.mp h
  obtain ⟨nested, rfl⟩ := eq_callText_of_ofChars? hfirst
  obtain ⟨more, hmore⟩ : callText inner.type nested <+: args := by
    rw [← intercalate_splitArgs args, ← hsplit, hargs]
    exact isPrefix_intercalate _ rest
  have hstarts : startsCall args := by
    rw [← hmore, callText, List.append_assoc, List.cons_append]
    exact startsCall_of_token inner.type _
  rw [hargs, splitArgs, if_pos hstarts] at hsplit
  exact (List.cons.inj hsplit).2

/-! ### What building still refuses -/

/-- What can be wrong with the arguments of a call that were all read. -/
inductive ScriptType.Misfit : ScriptType → List Expr → ChildFault → Prop
  | several {type : ScriptType} {kind : ExprKind} {children : List Expr}
      (hkind : type.argKinds = [kind]) (hscript : kind ≠ .script) (h : 2 ≤ children.length) :
      Misfit type children (.single kind children.length)
  | oneKey (sorted : Bool) (threshold : NumberExpr) (key : KeyExpr) :
      Misfit (.multisig sorted) [.number threshold, .key key] (.tooFew 2)
  | uncompressed (threshold : NumberExpr) {keys : List KeyExpr} {key : KeyExpr}
      (h : 2 ≤ keys.length) (hfirst : keys.find? (!·.isCompressed) = some key) :
      Misfit (.multisig true) (.number threshold :: keys.map .key) (.uncompressed key.text)

theorem ScriptType.misfit_iff {type : ScriptType} {kind : ExprKind} {children : List Expr}
    {fault : ChildFault} (hkind : type.argKinds = [kind]) (hscript : kind ≠ .script) :
    type.Misfit children fault ↔ 2 ≤ children.length ∧ fault = .single kind children.length := by
  constructor
  · rintro (⟨hkind', -, h⟩ | _ | _)
    · obtain rfl := List.singleton_inj.mp (hkind.symm.trans hkind')
      exact ⟨h, rfl⟩
    · cases hkind
    · cases hkind
  · rintro ⟨h, rfl⟩
    exact .several hkind hscript h

theorem ScriptType.misfit_multisig_iff {sorted : Bool} {threshold : NumberExpr}
    {keys : List KeyExpr} {fault : ChildFault} :
    (multisig sorted).Misfit (.number threshold :: keys.map .key) fault ↔
      (keys.length = 1 ∧ fault = .tooFew 2) ∨ (sorted ∧ 2 ≤ keys.length ∧
        ∃ key, keys.find? (!·.isCompressed) = some key ∧ fault = .uncompressed key.text) := by
  constructor
  · generalize hchildren : Expr.number threshold :: keys.map .key = children
    rintro (⟨hkind, -, -⟩ | ⟨-, threshold', key⟩ | ⟨threshold', h, hfirst⟩)
    · cases hkind
    · obtain ⟨key', hkey, -⟩ := List.map_eq_singleton_iff.mp (List.cons.inj hchildren).2
      exact .inl ⟨by rw [hkey, List.length_singleton], rfl⟩
    · obtain rfl := List.map_injective_iff.mpr (fun _ _ => Expr.key.inj) (List.cons.inj hchildren).2
      exact .inr ⟨rfl, h, _, hfirst, rfl⟩
  · rintro (⟨hlength, rfl⟩ | ⟨rfl, hlength, key, hkey, rfl⟩)
    · obtain ⟨key, rfl⟩ := List.length_eq_one_iff.mp hlength
      exact .oneKey sorted threshold key
    · exact .uncompressed threshold hlength hkey

namespace ScriptExpr

section Misfit

variable {label : Label} {error : Error}

/-- Arguments that were all read as one kind are refused if there is not one of them. -/
theorem single_eq_error_iff {α β : Type} {type : ScriptType} (kind : ExprKind)
    {read : String → Except Error α} {pick : Expr → Option α} {wrap : α → Expr}
    {args : List (List Char)} {children : List Expr}
    (hread : (do return (← readArgs read 1 args).map wrap : Except Error (List Expr)) =
      .ok children)
    (harity : 1 ≤ args.length) (hpick : ∀ x, pick (wrap x) = some x)
    (hkind : type.argKinds = [kind]) (hscript : kind ≠ .script) (build : α → β) :
    (do return build (← single type kind pick children) : Except Error β) = .error error ↔
      ∃ fault, error = .children type fault ∧ type.Misfit children fault := by
  obtain ⟨xs, rfl, hxs⟩ := exists_of_readArgs hread
  rw [hxs.length_eq] at harity
  simp only [ScriptType.misfit_iff hkind hscript, List.length_map]
  match xs with
  | [x] => simp [single, hpick]
  | x :: y :: rest => simp [single, eq_comm]

theorem checkSortable_eq_error_iff {type : ScriptType} {keys : List KeyExpr} :
    checkSortable type keys = .error error ↔ ∃ key, keys.find? (!·.isCompressed) = some key ∧
      error = .children type (.uncompressed key.text) := by
  unfold checkSortable
  split
  · rename_i key hkey
    simp [hkey, eq_comm]
  · rename_i hnone
    simp [hnone]

theorem assemble_multisig_eq_error_iff {sorted : Bool} {threshold : NumberExpr}
    (keys : List KeyExpr) (hne : 1 ≤ keys.length) :
    assemble label (.multisig sorted) (.number threshold :: keys.map .key) = .error error ↔
      ∃ fault, error = .children (.multisig sorted) fault ∧
        (ScriptType.multisig sorted).Misfit (.number threshold :: keys.map .key) fault := by
  simp only [ScriptType.misfit_multisig_iff]
  by_cases hlength : 2 ≤ keys.length
  · have hkeys := (@thresholdAndKeys_eq_ok_iff (.multisig sorted) _ threshold keys).mpr
      ⟨rfl, hlength⟩
    have hmany : keys.length ≠ 1 := by omega
    rw [assemble, hkeys, Except.ok_bind]
    cases sorted with
    | false => simp [hmany, pure, Except.pure]
    | true =>
      have hcheck : (do
          checkSortable (.multisig true) keys
          return .multisig label true threshold keys : Except Error ScriptExpr) = .error error ↔
            checkSortable (.multisig true) keys = .error error := Except.map_eq_error_iff
      simp only [if_true, hcheck, checkSortable_eq_error_iff, hmany, hlength, false_and, true_and,
        false_or]
      constructor
      · rintro ⟨key, hkey, rfl⟩
        exact ⟨_, rfl, key, hkey, rfl⟩
      · rintro ⟨_, rfl, key, hkey, rfl⟩
        exact ⟨key, hkey, rfl⟩
  · have hone : keys.length = 1 := by omega
    have hfew : thresholdAndKeys (.multisig sorted) (.number threshold :: keys.map .key) =
        .error (.children (.multisig sorted) (.tooFew 2)) := by
      rw [thresholdAndKeys, if_pos (by simp [hone])]
      simp [hone]
    rw [assemble, hfew]
    simp [hone, bind, Except.bind, eq_comm]

end Misfit

variable {ctx : Context} {network : Network} {parent : Option ScriptType} {text : String}
  {children : List Expr} {call : Call} {error : Error}

/-- A wrapper that was admitted and whose arguments were read has one argument, which it wraps. -/
theorem exists_of_readChildren_wrapper {w : Wrapper} (hcall : call.Admitted parent text)
    (htype : call.type = .wrapper w)
    (hread : readChildren ctx network (.wrapper w) call.args = .ok children) :
    ∃ inner, children = [.script inner] ∧ w.wraps inner.type := by
  have harity := hcall.arity
  obtain ⟨scripts, rfl, hscripts⟩ := exists_of_readArgs hread
  rw [htype] at harity
  obtain ⟨first, rest, hargs⟩ := List.exists_cons_of_length_pos harity
  rw [hargs] at hscripts
  obtain ⟨inner, others, hinner, hothers, rfl⟩ := List.forall₂_cons_left_iff.mp hscripts
  obtain ⟨innerCall, hreads⟩ := parse_eq_ok_iff.mp hinner
  have hshape : Call.ofChars? false first = some innerCall := by
    simpa using hreads.shape
  -- the first argument is a call, so a comma after it would be part of it
  obtain rfl := Call.args_eq_singleton hcall.shape hargs hshape
  obtain rfl := List.forall₂_nil_left_iff.mp hothers
  refine ⟨inner, rfl, ?_⟩
  rw [← ScriptType.allowedIn_wrapper]
  exact hreads.allowedIn

theorem assemble_eq_error_iff {label : Label} (hcall : call.Admitted parent text)
    (hread : readChildren ctx network call.type call.args = .ok children) :
    assemble label call.type children = .error error ↔
      ∃ fault, error = .children call.type fault ∧ call.type.Misfit children fault := by
  have harity := hcall.arity
  obtain ⟨type, args, body, checksum⟩ := call
  cases type with
  | wrapper w =>
    obtain ⟨inner, rfl, hwraps⟩ := exists_of_readChildren_wrapper hcall rfl hread
    -- both tables agree, so that a script that was read here can be wrapped
    have hbuilt : assemble label (.wrapper w) [.script inner] = .ok (.wrapped label w inner) :=
      assemble_eq_ok_iff.mpr ⟨rfl, rfl, rfl, hwraps⟩
    rw [hbuilt]
    constructor
    · intro h
      cases h
    · rintro ⟨fault, -, hmisfit⟩
      cases hmisfit with
      | several hkind hscript => exact absurd (List.singleton_inj.mp hkind).symm hscript
  | keyed form => exact single_eq_error_iff .key hread harity (fun _ => rfl) rfl nofun _
  | addr => exact single_eq_error_iff .addr hread harity (fun _ => rfl) rfl nofun _
  | raw => exact single_eq_error_iff .hex hread harity (fun _ => rfl) rfl nofun _
  | multisig sorted =>
    obtain ⟨threshold, key, keys, rfl, -⟩ := exists_of_readMultisigArgs hread harity
    exact assemble_multisig_eq_error_iff (key :: keys) (Nat.succ_pos keys.length)

/-- With arguments that were all read, building fails for a misfit among them and for nothing else.
-/
theorem ofChildren_eq_error_iff (hcall : call.Admitted parent text)
    (hread : readChildren ctx network call.type call.args = .ok children) :
    ofChildren ⟨network, text, call.checksum.map String.ofList⟩ call.type children = .error error ↔
      ∃ fault, error = .children call.type fault ∧ call.type.Misfit children fault := by
  have hlabel := checkLabel_eq_ok_iff.mpr (hcall.wellFormed network)
  have hnetwork := (@checkNetwork_eq_ok_iff ⟨network, text, call.checksum.map String.ofList⟩
    call.type children).mpr (network_of_readChildren hread hcall.arity)
  rw [ofChildren, hlabel, Except.ok_bind, hnetwork, Except.ok_bind]
  exact assemble_eq_error_iff hcall hread

/-- A text is refused for the arguments of its call as a whole exactly if these are all read and are
a misfit. -/
theorem parse_eq_children_iff {type : ScriptType} {fault : ChildFault} :
    parse ctx network parent text = .error (.children type fault) ↔
      ∃ (call : Call) (children : List Expr), call.Admitted parent text ∧ call.type = type ∧
        readChildren ctx network type call.args = .ok children ∧ type.Misfit children fault := by
  constructor
  · intro h
    rcases parse_eq_error_cases h with ⟨_, heq⟩ | ⟨_, _, heq⟩ | ⟨_, _, heq⟩ |
      ⟨call, hcall, hread | ⟨children, hread, hbuild⟩⟩
    · cases heq
    · cases heq
    · cases heq
    · obtain ⟨index, arg, cause, -, heq⟩ := readChildren_eq_error_iff.mp hread
      cases heq
    · obtain ⟨fault', heq, hmisfit⟩ := (ofChildren_eq_error_iff hcall hread).mp hbuild
      obtain ⟨rfl, rfl⟩ := Error.children.inj heq
      exact ⟨call, children, hcall, rfl, hread, hmisfit⟩
  · rintro ⟨call, children, hcall, rfl, hread, hmisfit⟩
    rw [parse_of_admitted hcall, hread, Except.ok_bind]
    exact (ofChildren_eq_error_iff hcall hread).mpr ⟨fault, rfl, hmisfit⟩

end ScriptExpr

/-! ### The error behind all positions -/

namespace Error

theorem rootCause_of_isArgument {error : Error} (h : error.isArgument = false) :
    error.rootCause = error := by
  cases error <;> first | rfl | cases h

/-- Errors that a text itself can be refused with. -/
def isOfText : Error → Bool
  | .grammar .. | .checksumMismatch .. | .missingArguments .. | .children .. => true
  | error => error.isLeaf

theorem isOfText_of_isLeaf {error : Error} (h : error.isLeaf) : error.isOfText := by
  cases error <;> first | rfl | cases h

theorem kind_of_isOfText {error : Error} (h : error.isOfText) :
    error.kind ∉ [.keyRange, .payment, .unsupportedOutput] := by
  cases error <;> first | (cases h; done) | simp [kind]

end Error

namespace ScriptExpr

variable {ctx : Context} {network : Network} {parent : Option ScriptType} {text : String}
  {error : Error}

theorem isOfText_of_parse_eq_error (h : parse ctx network parent text = .error error)
    (hdirect : error.isArgument = false) : error.isOfText := by
  rcases parse_eq_error_cases h with ⟨fault, rfl⟩ | ⟨found, expected, rfl⟩ |
    ⟨expected, found, rfl⟩ | ⟨call, hcall, hread | ⟨children, hread, hbuild⟩⟩
  · rfl
  · rfl
  · rfl
  · obtain ⟨index, arg, cause, -, rfl⟩ := readChildren_eq_error_iff.mp hread
    cases hdirect
  · obtain ⟨fault, rfl, -⟩ := (ofChildren_eq_error_iff hcall hread).mp hbuild
    rfl

/-- Behind the positions is an error about a leaf, or the refusal of a text that was opened. -/
theorem exists_entry_of_parse_eq_error (hctx : ctx.scheme = KeyScheme.standard)
    (parent : Option ScriptType) {text : String} {error : Error}
    (h : parse ctx network parent text = .error error) :
    error.rootCause.isLeaf ∨ ∃ entry,
      Relation.ReflTransGen (Entry.Opens ctx network) ⟨parent, text⟩ entry ∧
        parse ctx network entry.parent entry.text = .error error.rootCause := by
  refine parse_error_induction (motive := fun parent text error =>
    error.rootCause.isLeaf ∨ ∃ entry,
      Relation.ReflTransGen (Entry.Opens ctx network) ⟨parent, text⟩ entry ∧
        parse ctx network entry.parent entry.text = .error error.rootCause)
    (fun {parent text error} herror hdirect => ?_)
    (fun {parent text call index arg cause} _ hkind hcause => ?_)
    (fun {parent text call w index arg cause} hcall htype hfails ih => ?_) parent h
  · refine .inr ⟨⟨parent, text⟩, .refl, ?_⟩
    rwa [Error.rootCause_of_isArgument hdirect]
  · have hleaf : cause.isLeaf := by
      rcases failsAtLeaf_parseAs hkind cause hcause with hleaf | hreturns
      · exact hleaf
      · exact KeyScheme.isLeaf_of_returns_standard (hctx ▸ hreturns)
    left
    rwa [Error.rootCause, Error.rootCause_of_isArgument (Error.isArgument_of_isLeaf hleaf)]
  · have hopens : Entry.Opens ctx network ⟨parent, text⟩ ⟨some (.wrapper w), arg⟩ := by
      have hopens := Entry.Opens.argument hcall htype hfails.arg hfails.before
      rwa [String.ofList_toList] at hopens
    rcases ih with hleaf | ⟨entry, hentry, herror⟩
    · exact .inl hleaf
    · exact .inr ⟨entry, .head hopens hentry, herror⟩

theorem isOfText_rootCause (hctx : ctx.scheme = KeyScheme.standard)
    (h : parse ctx network parent text = .error error) : error.rootCause.isOfText := by
  rcases exists_entry_of_parse_eq_error hctx parent h with hleaf | ⟨entry, -, herror⟩
  · exact Error.isOfText_of_isLeaf hleaf
  · exact isOfText_of_parse_eq_error herror error.isArgument_rootCause

theorem exists_misfit_of_rootCause (hctx : ctx.scheme = KeyScheme.standard)
    (h : parse ctx network parent text = .error error) {type : ScriptType} {fault : ChildFault}
    (hroot : error.rootCause = .children type fault) :
    ∃ (entry : Entry) (call : Call) (children : List Expr),
      Relation.ReflTransGen (Entry.Opens ctx network) ⟨parent, text⟩ entry ∧
        call.Admitted entry.parent entry.text ∧ call.type = type ∧
        readChildren ctx network type call.args = .ok children ∧ type.Misfit children fault := by
  rcases exists_entry_of_parse_eq_error hctx parent h with hleaf | ⟨entry, hentry, herror⟩
  · rw [hroot] at hleaf
    cases hleaf
  · rw [hroot] at herror
    obtain ⟨call, children, hmisfit⟩ := parse_eq_children_iff.mp herror
    exact ⟨entry, call, children, hentry, hmisfit⟩

end ScriptExpr

/-- Faults that building can only find in children that were not read for the call. -/
def ChildFault.isRuledOut : ChildFault → Bool
  | .foreign _ | .unexpected .. | .notWrappable _ | .threshold _ | .notKey .. => true
  | .single .. | .tooFew _ | .uncompressed _ => false

theorem ScriptType.Misfit.isRuledOut {type : ScriptType} {children : List Expr} {fault : ChildFault}
    (h : type.Misfit children fault) : fault.isRuledOut = false := by
  cases h <;> rfl

theorem Call.ofToken_of_ofChars? {root : Bool} {chars : List Char} {call : Call}
    (h : ofChars? root chars = some call) :
    ScriptType.ofToken (String.ofList (chars.takeWhile (· ≠ '('))) = .ok call.type := by
  obtain ⟨args, rest, rfl, -, hbody, -⟩ := ofChars?_eq_some_iff.mp h
  rw [hbody, callText, List.append_assoc, List.cons_append, takeWhile_token, String.ofList_toList,
    ScriptType.ofToken, ScriptType.ofToken?_token]

/-- A call is refused for its arguments as a whole only if they are too many, too few, or not
sortable. -/
theorem refused_arguments_do_not_fit (ctx : Context) (hctx : ctx.scheme = KeyScheme.standard)
    (network : Network) :
    (∀ parent text error, ScriptExpr.parse ctx network parent text = .error error →
      (∀ checksum, error.rootCause ≠ .checksumFormat checksum) ∧
      (∀ token, error.rootCause ≠ .scriptType token) ∧
      error.rootCause.kind ∉ [.keyRange, .payment, .unsupportedOutput] ∧
      ∀ type fault, error.rootCause = .children type fault → fault.isRuledOut = false ∧
        ∃ (entry : Entry) (call : Call) (children : List Expr),
          Relation.ReflTransGen (Entry.Opens ctx network) ⟨parent, text⟩ entry ∧
          call.Admitted entry.parent entry.text ∧ call.type = type ∧
          ScriptExpr.readChildren ctx network type call.args = .ok children ∧
          type.Misfit children fault) ∧
    (∀ parent text type fault,
      ScriptExpr.parse ctx network parent text = .error (.children type fault) ↔
        ∃ (call : Call) (children : List Expr), call.Admitted parent text ∧ call.type = type ∧
          ScriptExpr.readChildren ctx network type call.args = .ok children ∧
          type.Misfit children fault) ∧
    (∀ (root : Bool) (chars : List Char) (call : Call), Call.ofChars? root chars = some call →
      ScriptType.ofToken (String.ofList (chars.takeWhile (· ≠ '('))) = .ok call.type) ∧
    ∀ (w : Wrapper) (type : ScriptType), type.allowedUnder (.wrapper w) = w.wraps type := by
  refine ⟨fun parent text error h => ?_,
    fun parent text type fault => ScriptExpr.parse_eq_children_iff,
    fun root chars call => Call.ofToken_of_ofChars?,
    fun w type => ScriptType.allowedIn_wrapper type w⟩
  have hsort := ScriptExpr.isOfText_rootCause hctx h
  refine ⟨fun checksum hroot => ?_, fun token hroot => ?_, Error.kind_of_isOfText hsort,
    fun type fault hroot => ?_⟩
  · rw [hroot] at hsort
    cases hsort
  · rw [hroot] at hsort
    cases hsort
  · obtain ⟨entry, call, children, hentry, hcall, htype, hread, hmisfit⟩ :=
      ScriptExpr.exists_misfit_of_rootCause hctx h hroot
    exact ⟨hmisfit.isRuledOut, entry, call, children, hentry, hcall, htype, hread, hmisfit⟩

/-- A threshold with one key is refused inside of two wrappers, where the arguments are read. -/
theorem refused_arguments_do_not_fit_one_key :
    let text :=
      "sh(wsh(multi(1,0279be667ef9dcbbac55a06295ce870b07029bfcdb2dce28d959f2815b16f81798)))"
    ∃ error, ScriptExpr.parse {} .testnet none text = .error error ∧
      error.rootCause = .children (.multisig false) (.tooFew 2) ∧
      error.rootCause.kind ∉ [.keyRange, .payment, .unsupportedOutput] ∧
      ∃ (entry : Entry) (call : Call) (children : List Expr),
        Relation.ReflTransGen (Entry.Opens {} .testnet) ⟨none, text⟩ entry ∧
        call.Admitted entry.parent entry.text ∧ call.type = .multisig false ∧
        ScriptExpr.readChildren {} .testnet (.multisig false) call.args = .ok children ∧
        ScriptExpr.parse {} .testnet entry.parent entry.text =
          .error (.children (.multisig false) (.tooFew 2)) ∧
        ScriptType.ofToken (String.ofList (entry.text.toList.takeWhile (· ≠ '('))) =
          .ok (.multisig false) := by
  intro text
  obtain ⟨hrefused, hfit, htoken, -⟩ := refused_arguments_do_not_fit {} rfl .testnet
  let inner := "multi(1,0279be667ef9dcbbac55a06295ce870b07029bfcdb2dce28d959f2815b16f81798)"
  let error : Error := .argument 1 ("wsh(" ++ inner ++ ")")
    (.argument 1 inner (.children (.multisig false) (.tooFew 2)))
  have herror : ScriptExpr.parse {} .testnet none text = .error error := by decide +kernel
  obtain ⟨-, -, hkind, hchildren⟩ := hrefused none text error herror
  obtain ⟨-, entry, call, children, hopens, hcall, htype, hread, hmisfit⟩ := hchildren _ _ rfl
  refine ⟨error, herror, rfl, hkind, entry, call, children, hopens, hcall, htype, hread, ?_, ?_⟩
  · exact (hfit _ _ _ _).mpr ⟨call, children, hcall, htype, hread, hmisfit⟩
  · rw [htoken _ _ call hcall.shape, htype]

end OutputDescriptor
