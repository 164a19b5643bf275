import OutputDescriptor.Proofs.Script.Failures

/-! Where a text that is refused goes wrong: an error that names an argument names the leftmost one
that is no expression of the kind that stands there, and says what reading that argument alone says. -/
namespace OutputDescriptor

/-! ### The arguments of a call -/

namespace ScriptType

def argKind (type : ScriptType) (index : Nat) : ExprKind :=
  (type.argKinds[index]?.or type.argKinds.getLast?).getD .script

theorem argKind_of_argKinds {type : ScriptType} {kind : ExprKind} (h : type.argKinds = [kind])
    (index : Nat) : type.argKind index = kind := by
  cases index <;> simp [argKind, h]

theorem argKind_multisig_succ (sorted : Bool) (index : Nat) :
    (multisig sorted).argKind (index + 1) = .key := by
  cases index <;> simp [argKind, argKinds]

theorem argKind_ne_script {type : ScriptType} (h : ∀ w, type ≠ .wrapper w) (index : Nat) :
    type.argKind index ≠ .script := by
  cases type with
  | wrapper w => exact absurd rfl (h w)
  | multisig sorted =>
    cases index with
    | zero => exact nofun
    | succ index => simp [argKind_multisig_succ]
  | keyed form => simp [argKind_of_argKinds (show (keyed form).argKinds = [.key] from rfl)]
  | addr => simp [argKind_of_argKinds (show addr.argKinds = [.addr] from rfl)]
  | raw => simp [argKind_of_argKinds (show raw.argKinds = [.hex] from rfl)]

theorem nestingRank_le_two (parent : Option ScriptType) : nestingRank parent ≤ 2 := by
  unfold nestingRank
  split <;> decide

end ScriptType

/-- Read a text as an expression of some kind. A script is read as one inside a call of the type. -/
def Expr.parseAs (ctx : Context) (network : Network) (type : ScriptType) (kind : ExprKind)
    (text : String) : Except Error Expr :=
  match kind with
  | .script => (ScriptExpr.parse ctx network (some type) text).map .script
  | .key => (KeyExpr.parse ctx network text).map .key
  | .addr => (AddrExpr.parse network text).map .addr
  | .hex => (HexExpr.parse network text).map .hex
  | .number => (NumberExpr.parse network text).map .number

/-- Two steps fail if the first one does, and otherwise if the second does. -/
theorem argument_bind_eq_error_iff {α β γ : Type} {position : Nat} {text : String}
    {x : Except Error α} {rest : Except Error β} {f : α → β → γ} {error : Error} :
    (x.mapError (.argument position text) >>= fun a => rest.map (f a)) = .error error ↔
      (∃ cause, x = .error cause ∧ error = .argument position text cause) ∨
        (∃ a, x = .ok a) ∧ rest = .error error := by
  cases x with
  | error cause => simp [Except.mapError, bind, Except.bind, eq_comm]
  | ok a =>
    change rest.map (f a) = _ ↔ _
    simp [Except.map_eq_error_iff]

/-- The argument with the index is the first that is not read, and fails so when read alone. -/
structure FailsFirst {α : Type} (read : Nat → String → Except Error α) (args : List (List Char))
    (index : Nat) (text : String) (cause : Error) : Prop where
  arg : args[index]? = some text.toList
  before : ∀ i < index, ∀ arg, args[i]? = some arg → ∃ x, read i (String.ofList arg) = .ok x
  fails : read index text = .error cause

namespace FailsFirst

variable {α β : Type} {args : List (List Char)} {index : Nat} {text : String} {cause : Error}

theorem not_nil {read : Nat → String → Except Error α} :
    ¬FailsFirst read [] index text cause := by
  rintro ⟨harg, -, -⟩
  cases harg

theorem cons_zero_iff {read : Nat → String → Except Error α} {arg : List Char}
    {rest : List (List Char)} : FailsFirst read (arg :: rest) 0 text cause ↔
      text = String.ofList arg ∧ read 0 text = .error cause := by
  constructor
  · rintro ⟨harg, -, hfails⟩
    exact ⟨by rw [Option.some.inj harg, String.ofList_toList], hfails⟩
  · rintro ⟨rfl, hfails⟩
    exact ⟨by rw [String.toList_ofList]; rfl, fun i hi => absurd hi (Nat.not_lt_zero i), hfails⟩

theorem cons_succ_iff {read : Nat → String → Except Error α} {arg : List Char}
    {rest : List (List Char)} : FailsFirst read (arg :: rest) (index + 1) text cause ↔
      (∃ x, read 0 (String.ofList arg) = .ok x) ∧
        FailsFirst (fun i => read (i + 1)) rest index text cause := by
  constructor
  · rintro ⟨harg, hbefore, hfails⟩
    exact ⟨hbefore 0 (Nat.succ_pos index) arg rfl, harg,
      fun i hi => hbefore (i + 1) (Nat.succ_lt_succ hi), hfails⟩
  · rintro ⟨hfirst, harg, hbefore, hfails⟩
    refine ⟨harg, fun i hi found hfound => ?_, hfails⟩
    cases i with
    | zero => exact Option.some.inj hfound ▸ hfirst
    | succ i => exact hbefore i (Nat.lt_of_succ_lt_succ hi) found hfound

/-- Either the first argument fails, or it does not and one of the others does. -/
theorem exists_cons_iff {read : Nat → String → Except Error α} {arg : List Char}
    {rest : List (List Char)} {position : Nat} {error : Error} :
    (∃ index text cause, FailsFirst read (arg :: rest) index text cause ∧
        error = .argument (position + index) text cause) ↔
      (∃ cause, read 0 (String.ofList arg) = .error cause ∧
        error = .argument position (String.ofList arg) cause) ∨
        (∃ x, read 0 (String.ofList arg) = .ok x) ∧ ∃ index text cause,
          FailsFirst (fun i => read (i + 1)) rest index text cause ∧
            error = .argument (position + 1 + index) text cause := by
  constructor
  · rintro ⟨index, text, cause, h, rfl⟩
    cases index with
    | zero =>
      obtain ⟨rfl, hfails⟩ := cons_zero_iff.mp h
      exact .inl ⟨cause, hfails, rfl⟩
    | succ index =>
      obtain ⟨hfirst, hrest⟩ := cons_succ_iff.mp h
      exact .inr ⟨hfirst, index, text, cause, hrest, by rw [Nat.add_right_comm, Nat.add_assoc]⟩
  · rintro (⟨cause, hfails, rfl⟩ | ⟨hfirst, index, text, cause, hrest, rfl⟩)
    · exact ⟨0, _, cause, cons_zero_iff.mpr ⟨rfl, hfails⟩, rfl⟩
    · refine ⟨index + 1, text, cause, cons_succ_iff.mpr ⟨hfirst, hrest⟩, ?_⟩
      rw [Nat.add_right_comm, Nat.add_assoc]

theorem map_iff {read : String → Except Error α} (wrap : α → β) :
    FailsFirst (fun _ text => (read text).map wrap) args index text cause ↔
      FailsFirst (fun _ => read) args index text cause := by
  have hok (arg : List Char) := Except.exists_map_eq_ok_iff (read (String.ofList arg)) wrap
  constructor
  · rintro ⟨harg, hbefore, hfails⟩
    exact ⟨harg, fun i hi arg h => (hok arg).mp (hbefore i hi arg h),
      Except.map_eq_error_iff.mp hfails⟩
  · rintro ⟨harg, hbefore, hfails⟩
    exact ⟨harg, fun i hi arg h => (hok arg).mpr (hbefore i hi arg h),
      Except.map_eq_error_iff.mpr hfails⟩

end FailsFirst

namespace ScriptExpr

variable {ctx : Context} {network : Network} {args : List (List Char)} {error : Error}

/-- Arguments are read from the left, and the first failure ends it. -/
theorem readArgs_eq_error_iff {α : Type} {read : String → Except Error α} {position : Nat} :
    readArgs read position args = .error error ↔ ∃ index text cause,
      FailsFirst (fun _ => read) args index text cause ∧
        error = .argument (position + index) text cause := by
  induction args generalizing position with
  | nil =>
    constructor
    · intro h
      cases h
    · rintro ⟨index, text, cause, hfails, -⟩
      exact absurd hfails FailsFirst.not_nil
  | cons arg rest ih =>
    rw [FailsFirst.exists_cons_iff, ← ih]
    exact argument_bind_eq_error_iff

theorem readChildren_multisig_cons (sorted : Bool) (arg : List Char) (rest : List (List Char)) :
    readChildren ctx network (.multisig sorted) (arg :: rest) = (do
      let threshold ← (NumberExpr.parse network (.ofList arg)).mapError (.argument 1 (.ofList arg))
      (readArgs (KeyExpr.parse ctx network) 2 rest).map fun keys =>
        .number threshold :: keys.map .key) := by
  have hfirst : readArgs (NumberExpr.parse network) 1 [arg] =
      ((NumberExpr.parse network (.ofList arg)).mapError (.argument 1 (.ofList arg))).map
        ([·]) := rfl
  change (do
    let threshold ← readArgs (NumberExpr.parse network) 1 [arg]
    let keys ← readArgs (KeyExpr.parse ctx network) 2 rest
    return threshold.map Expr.number ++ keys.map Expr.key) = _
  rw [hfirst]
  cases NumberExpr.parse network (.ofList arg) with
  | error cause => rfl
  | ok threshold => rfl

/-- Reading the arguments of a call fails at the first that is not what the call takes there. -/
theorem readChildren_eq_error_iff {type : ScriptType} :
    readChildren ctx network type args = .error error ↔ ∃ index text cause,
      FailsFirst (fun i => Expr.parseAs ctx network type (type.argKind i)) args index text cause ∧
        error = .argument (index + 1) text cause := by
  have hsame {α : Type} {kind : ExprKind} (htype : type.argKinds = [kind])
      {read : String → Except Error α} {wrap : α → Expr}
      (hread : Expr.parseAs ctx network type kind = fun text => (read text).map wrap) :
      (do return (← readArgs read 1 args).map wrap : Except Error (List Expr)) = .error error ↔
        ∃ index text cause,
          FailsFirst (fun i => Expr.parseAs ctx network type (type.argKind i)) args index text
            cause ∧ error = .argument (index + 1) text cause := by
    change (readArgs read 1 args).map (List.map wrap) = _ ↔ _
    simp only [Except.map_eq_error_iff, readArgs_eq_error_iff, ScriptType.argKind_of_argKinds htype,
      hread, FailsFirst.map_iff, Nat.add_comm 1]
  cases type with
  | wrapper w => exact hsame rfl rfl
  | keyed form => exact hsame rfl rfl
  | addr => exact hsame rfl rfl
  | raw => exact hsame rfl rfl
  | multisig sorted =>
    cases args with
    | nil =>
      constructor
      · intro h
        cases h
      · rintro ⟨index, text, cause, hfails, -⟩
        exact absurd hfails FailsFirst.not_nil
    | cons arg rest =>
      have hkeys (i : Nat) : Expr.parseAs ctx network (.multisig sorted)
          ((ScriptType.multisig sorted).argKind (i + 1)) =
            fun text => (KeyExpr.parse ctx network text).map .key := by
        rw [ScriptType.argKind_multisig_succ]
        rfl
      have hfirst (text : String) : Expr.parseAs ctx network (.multisig sorted)
          ((ScriptType.multisig sorted).argKind 0) text =
            (NumberExpr.parse network text).map .number := rfl
      simp only [Nat.add_comm _ 1]
      rw [readChildren_multisig_cons, argument_bind_eq_error_iff, readArgs_eq_error_iff,
        FailsFirst.exists_cons_iff]
      simp only [hfirst, hkeys, Except.map_eq_error_iff, Except.exists_map_eq_ok_iff,
        FailsFirst.map_iff]

end ScriptExpr

/-- The text has the shape of a call that may stand here, enough arguments, and no wrong checksum.
-/
structure Call.Admitted (parent : Option ScriptType) (text : String) (call : Call) : Prop where
  ascii : ∀ c ∈ text.toList, c.toNat < 128
  shape : Call.ofChars? parent.isNone text.toList = some call
  allowed : call.type.allowedIn parent
  verified : ∀ checksum, call.checksum = some checksum →
    Checksum.compute (String.ofList call.body) = String.ofList checksum
  arity : call.type.argKinds.length ≤ call.args.length

theorem Call.admitted_iff {parent : Option ScriptType} {text : String} {call : Call} :
    call.Admitted parent text ↔ text.toList.all (·.toNat < 128) ∧
      Call.ofChars? parent.isNone text.toList = some call ∧ call.type.allowedIn parent ∧
        call.verify = .ok () ∧ call.checkArity = .ok () := by
  rw [List.all_eq_true, Call.verify_eq_ok_iff, Call.checkArity_eq_ok_iff]
  simp only [decide_eq_true_iff]
  exact ⟨fun h => ⟨h.ascii, h.shape, h.allowed, h.verified, h.arity⟩,
    fun ⟨hascii, hshape, hallowed, hverified, harity⟩ =>
      ⟨hascii, hshape, hallowed, hverified, harity⟩⟩

instance {parent : Option ScriptType} {text : String} {call : Call} :
    Decidable (call.Admitted parent text) := decidable_of_iff _ Call.admitted_iff.symm

namespace ScriptExpr

variable {ctx : Context} {network : Network} {parent : Option ScriptType} {text : String}

theorem parse_of_admitted {call : Call} (h : call.Admitted parent text) :
    parse ctx network parent text = (do
      let children ← readChildren ctx network call.type call.args
      ofChildren ⟨network, text, call.checksum.map String.ofList⟩ call.type children) := by
  obtain ⟨hascii, hshape, hallowed, hverify, harity⟩ := Call.admitted_iff.mp h
  rw [parse_of_ofChars? hshape, if_pos hascii, if_pos hallowed, readCall, hverify, harity]
  rfl

/-- A text is refused for its form, or else it is a call whose arguments are not read, or do not fit
each other. -/
theorem parse_eq_error_cases {error : Error} (h : parse ctx network parent text = .error error) :
    (∃ fault, error = .grammar text fault) ∨
      (∃ found expected, error = .checksumMismatch found expected) ∨
      (∃ expected found, error = .missingArguments expected found) ∨
      ∃ call : Call, call.Admitted parent text ∧
        (readChildren ctx network call.type call.args = .error error ∨
          ∃ children, readChildren ctx network call.type call.args = .ok children ∧
            ofChildren ⟨network, text, call.checksum.map String.ofList⟩ call.type children =
              .error error) := by
  have hgrammar (hfault : ∃ fault, parse ctx network parent text =
      .error (.grammar text fault)) : ∃ fault, error = .grammar text fault := by
    obtain ⟨fault, hfault⟩ := hfault
    exact ⟨fault, Except.error.inj (h.symm.trans hfault)⟩
  cases hshape : Call.ofChars? parent.isNone text.toList with
  | none => exact .inl (hgrammar (parse_of_ofChars?_eq_none hshape))
  | some call =>
    by_cases hallowed : call.type.allowedIn parent
    · by_cases hascii : text.toList.all (·.toNat < 128)
      · rw [parse_of_ofChars? hshape, if_pos hascii, if_pos hallowed, readCall] at h
        cases hverify : call.verify with
        | error e =>
          rw [hverify] at h
          obtain rfl := Except.error.inj h
          exact .inr (.inl (Call.eq_checksumMismatch_of_verify hverify))
        | ok _ =>
          rw [hverify, Except.ok_bind] at h
          cases harity : call.checkArity with
          | error e =>
            rw [harity] at h
            obtain rfl := Except.error.inj h
            exact .inr (.inr (.inl (Call.eq_missingArguments_of_checkArity harity)))
          | ok _ =>
            rw [harity, Except.ok_bind] at h
            have hadmitted : call.Admitted parent text :=
              Call.admitted_iff.mpr ⟨hascii, hshape, hallowed, hverify, harity⟩
            refine .inr (.inr (.inr ⟨call, hadmitted, ?_⟩))
            cases hchildren : readChildren ctx network call.type call.args with
            | error e =>
              rw [hchildren] at h
              exact .inl (congrArg _ (Except.error.inj h))
            | ok children =>
              rw [hchildren] at h
              exact .inr ⟨children, rfl, h⟩
      · refine .inl (hgrammar ⟨.nonAscii, ?_⟩)
        rw [parse_of_ofChars? hshape, if_neg hascii]
    · exact .inl (hgrammar (parse_of_not_allowedIn hshape hallowed))

/-- Only reading the arguments of an admitted call ends in an error that names an argument. -/
theorem exists_admitted_of_parse_eq_error {error : Error}
    (h : parse ctx network parent text = .error error) (hargument : error.isArgument) :
    ∃ call : Call, call.Admitted parent text ∧
      readChildren ctx network call.type call.args = .error error := by
  rcases parse_eq_error_cases h with ⟨fault, rfl⟩ | ⟨found, expected, rfl⟩ |
    ⟨expected, found, rfl⟩ | ⟨call, hadmitted, hchildren | ⟨children, -, h⟩⟩
  · cases hargument
  · cases hargument
  · cases hargument
  · exact ⟨call, hadmitted, hchildren⟩
  · rw [ofChildren_namesNoArgument _ _ _ error h] at hargument
    cases hargument

/-- An error that names an argument names the first one that is not read as what stands there. -/
theorem parse_eq_argument_iff {position : Nat} {arg : String} {cause : Error} :
    parse ctx network parent text = .error (.argument position arg cause) ↔
      ∃ (call : Call) (index : Nat), call.Admitted parent text ∧ position = index + 1 ∧
        FailsFirst (fun i => Expr.parseAs ctx network call.type (call.type.argKind i)) call.args
          index arg cause := by
  constructor
  · intro h
    obtain ⟨call, hadmitted, hchildren⟩ := exists_admitted_of_parse_eq_error h rfl
    obtain ⟨index, found, reason, hfails, heq⟩ := readChildren_eq_error_iff.mp hchildren
    obtain ⟨rfl, rfl, rfl⟩ := Error.argument.inj heq
    exact ⟨call, index, hadmitted, rfl, hfails⟩
  · rintro ⟨call, index, hadmitted, rfl, hfails⟩
    have hchildren := readChildren_eq_error_iff.mpr ⟨index, arg, cause, hfails, rfl⟩
    rw [parse_of_admitted hadmitted, hchildren]
    rfl

theorem parse_of_first_fails (call : Call) {arg : String} {cause : Error}
    (h : call.Admitted parent text) (harg : call.args[0]? = some arg.toList)
    (hfails : Expr.parseAs ctx network call.type (call.type.argKind 0) arg = .error cause) :
    parse ctx network parent text = .error (.argument 1 arg cause) :=
  parse_eq_argument_iff.mpr
    ⟨call, 0, h, rfl, harg, fun i hi => absurd hi (Nat.not_lt_zero i), hfails⟩

/-! ### How deep positions are nested -/

/-- Reading an argument of a kind other than scripts fails for its text, or else as the scheme does. -/
theorem failsAtLeaf_parseAs {type : ScriptType} {kind : ExprKind} (hkind : kind ≠ .script) :
    ctx.scheme.FailsAtLeaf (Expr.parseAs ctx network type kind text) := by
  cases kind with
  | script => exact absurd rfl hkind
  | key => exact (KeyExpr.failsAtLeaf_parse network text).map _
  | addr => exact ((AddrExpr.isLeaf_of_parse network text).mono fun _ => .inl).map _
  | hex => exact ((HexExpr.isLeaf_of_parse network text).mono fun _ => .inl).map _
  | number => exact ((NumberExpr.isLeaf_of_parse network text).mono fun _ => .inl).map _

/-- The induction on what is read inside of a text that is refused. -/
theorem parse_error_induction {motive : Option ScriptType → String → Error → Prop}
    (direct : ∀ {parent text error}, parse ctx network parent text = .error error →
      error.isArgument = false → motive parent text error)
    (leaf : ∀ {parent text} {call : Call} {index arg cause}, call.Admitted parent text →
      call.type.argKind index ≠ .script →
      Expr.parseAs ctx network call.type (call.type.argKind index) arg = .error cause →
      motive parent text (.argument (index + 1) arg cause))
    (nested : ∀ {parent text} {call : Call} {w index arg cause}, call.Admitted parent text →
      call.type = .wrapper w →
      FailsFirst (fun _ => parse ctx network (some (.wrapper w))) call.args index arg cause →
      motive (some (.wrapper w)) arg cause → motive parent text (.argument (index + 1) arg cause))
    (parent : Option ScriptType) {text : String} {error : Error}
    (h : parse ctx network parent text = .error error) : motive parent text error := by
  cases error with
  | argument position arg cause =>
    obtain ⟨call, index, hadmitted, rfl, hfails⟩ := parse_eq_argument_iff.mp h
    cases htype : call.type with
    | wrapper w =>
      have hlt : ScriptType.nestingRank (some (.wrapper w)) < ScriptType.nestingRank parent :=
        ScriptType.nestingRank_lt (htype ▸ hadmitted.allowed)
      have hscript (i : Nat) : (ScriptType.wrapper w).argKind i = .script :=
        ScriptType.argKind_of_argKinds rfl i
      have hinner : FailsFirst (fun _ => parse ctx network (some (.wrapper w))) call.args index arg
          cause := by
        simp only [htype, hscript] at hfails
        exact (FailsFirst.map_iff Expr.script).mp hfails
      exact nested hadmitted htype hinner
        (parse_error_induction direct leaf nested (some (.wrapper w)) hinner.fails)
    | _ =>
      have hkind : call.type.argKind index ≠ .script :=
        ScriptType.argKind_ne_script (by simp [htype]) index
      exact leaf hadmitted hkind hfails.fails
  | _ => exact direct h rfl
termination_by ScriptType.nestingRank parent

end ScriptExpr

/-- An error in an argument of an argument, and so on. The outermost position comes first. -/
def Error.located (positions : List (Nat × String)) (root : Error) : Error :=
  positions.foldr (fun position cause => .argument position.1 position.2 cause) root

/-- One position is put before an error for every call that is opened, and at most three are. -/
theorem ScriptExpr.exists_located {ctx : Context} {network : Network} (parent : Option ScriptType)
    {text : String} {error : Error} (h : parse ctx network parent text = .error error) :
    ∃ positions root, positions.length ≤ ScriptType.nestingRank parent + 1 ∧
      error = .located positions root ∧ (root.isArgument → ctx.scheme.Returns root) := by
  refine parse_error_induction (motive := fun parent text error =>
    ∃ positions root, positions.length ≤ ScriptType.nestingRank parent + 1 ∧
      error = .located positions root ∧ (root.isArgument → ctx.scheme.Returns root))
    (fun {parent text error} _ hdirect => ?_)
    (fun {parent text call index arg cause} _ hkind hcause => ?_)
    (fun {parent text call w index arg cause} hadmitted htype _ ih => ?_) parent h
  · exact ⟨[], error, Nat.zero_le _, rfl, by simp [hdirect]⟩
  · refine ⟨[(index + 1, arg)], cause, Nat.le_add_left 1 _, rfl, fun hargument => ?_⟩
    rcases failsAtLeaf_parseAs hkind cause hcause with hleaf | hreturns
    · rw [Error.isArgument_of_isLeaf hleaf] at hargument
      cases hargument
    · exact hreturns
  · obtain ⟨positions, root, hlength, rfl, hroot⟩ := ih
    have hlt : ScriptType.nestingRank (some (.wrapper w)) < ScriptType.nestingRank parent :=
      ScriptType.nestingRank_lt (htype ▸ hadmitted.allowed)
    exact ⟨(index + 1, arg) :: positions, root, by simp only [List.length_cons]; omega, rfl, hroot⟩

/-- An error names an argument exactly if the call is admitted and the argument is the first not
read. -/
theorem argument_error_names_first_failure (ctx : Context) (network : Network)
    (parent : Option ScriptType) (text : String) :
    (∀ position arg cause,
      ScriptExpr.parse ctx network parent text = .error (.argument position arg cause) ↔
        ∃ (call : Call) (index : Nat), call.Admitted parent text ∧ position = index + 1 ∧
          FailsFirst (fun i => Expr.parseAs ctx network call.type (call.type.argKind i)) call.args
            index arg cause) ∧
    (∀ call, Call.ofChars? parent.isNone text.toList = some call →
      (∀ i arg, call.args[i]? = some arg → ∃ e,
        Expr.parseAs ctx network call.type (call.type.argKind i) (String.ofList arg) = .ok e) →
      ∀ error, ScriptExpr.parse ctx network parent text = .error error →
        error.isArgument = false) ∧
    (∀ error, ScriptExpr.parse ctx network parent text = .error error →
      ∃ positions root, positions.length ≤ 3 ∧ error = .located positions root ∧
        (root.isArgument → ctx.scheme.Returns root)) ∧
    (∀ error, KeyScheme.standard.Returns error → error.isArgument = false) ∧
    ∀ error : Error, error.kind = error.rootCause.kind ∧ error.rootCause.isArgument = false := by
  refine ⟨fun _ _ _ => ScriptExpr.parse_eq_argument_iff, fun call hcall hargs error h => ?_,
    fun error h => ?_, fun _ => KeyScheme.isArgument_of_returns_standard, fun error => ?_⟩
  · cases error with
    | argument position arg cause =>
      obtain ⟨call', index, hadmitted, -, hfails⟩ := ScriptExpr.parse_eq_argument_iff.mp h
      obtain rfl := Option.some.inj (hcall.symm.trans hadmitted.shape)
      obtain ⟨e, he⟩ := hargs index _ hfails.arg
      have hfails := hfails.fails
      rw [String.ofList_toList, hfails] at he
      cases he
    | _ => rfl
  · obtain ⟨positions, root, hlength, heq, hroot⟩ := ScriptExpr.exists_located parent h
    have hrank := ScriptType.nestingRank_le_two parent
    exact ⟨positions, root, by omega, heq, hroot⟩
  · exact ⟨error.kind_rootCause.symm, error.isArgument_rootCause⟩

/-- The first of three arguments that are all wrong is reported, and a key inside of two wrappers is
reported with three positions. -/
theorem argument_error_names_first_failure_testnet :
    ScriptExpr.parse {} .testnet none "multi(bla,x,y)" =
      .error (.argument 1 "bla" (.number "bla")) ∧
    ScriptExpr.parse {} .testnet none "sh(wsh(pk(!)))" =
      .error (.argument 1 "wsh(pk(!))" (.argument 1 "pk(!)" (.argument 1 "!"
        (.key "!" .expression)))) := by
  have hfirst {type : ScriptType} {rest : List (List Char)} {arg : String} {cause : Error}
      (hfails : Expr.parseAs {} .testnet type (type.argKind 0) arg = .error cause) :
      FailsFirst (fun i => Expr.parseAs {} .testnet type (type.argKind i)) (arg.toList :: rest) 0 arg
        cause :=
    FailsFirst.cons_zero_iff.mpr ⟨String.ofList_toList.symm, hfails⟩
  have hwrong (parent : Option ScriptType) (text : String) (arg : String) (cause : Error) :=
    ((argument_error_names_first_failure {} .testnet parent text).1 1 arg cause).mpr
  have hpk := hwrong (some (.wrapper .wsh)) "pk(!)" "!" (.key "!" .expression)
    ⟨⟨.keyed .pk, ["!".toList], "pk(!)".toList, none⟩, 0, by decide, rfl, hfirst (by decide)⟩
  have hwsh := hwrong (some (.wrapper .sh)) "wsh(pk(!))" "pk(!)" _
    ⟨⟨.wrapper .wsh, ["pk(!)".toList], "wsh(pk(!))".toList, none⟩, 0, by decide, rfl,
      hfirst (Except.map_eq_error_iff.mpr hpk)⟩
  constructor
  · exact hwrong none "multi(bla,x,y)" "bla" _
      ⟨⟨.multisig false, ["bla".toList, ['x'], ['y']], "multi(bla,x,y)".toList, none⟩, 0, by decide,
        rfl, hfirst (by decide)⟩
  · exact hwrong none "sh(wsh(pk(!)))" "wsh(pk(!))" _
      ⟨⟨.wrapper .sh, ["wsh(pk(!))".toList], "sh(wsh(pk(!)))".toList, none⟩, 0, by decide, rfl,
        hfirst (Except.map_eq_error_iff.mpr hwsh)⟩

/-- The standard keys, but for public keys, which are all refused with one error. -/
def KeyScheme.refusingPublicKeys (error : Error) : KeyScheme :=
  { KeyScheme.standard with decodePublicKey := fun _ => .error error }

/-- The positions that are put before an error are determined, and so is the error behind them. -/
theorem Error.located_inj {positions positions' : List (Nat × String)} {root root' : Error}
    (hroot : root.isArgument = false) (hroot' : root'.isArgument = false)
    (h : located positions root = located positions' root') :
    positions = positions' ∧ root = root' := by
  induction positions generalizing positions' with
  | nil =>
    cases positions' with
    | nil => exact ⟨rfl, h⟩
    | cons position rest =>
      obtain rfl : root = _ := h
      cases hroot
  | cons position rest ih =>
    cases positions' with
    | nil =>
      obtain rfl : _ = root' := h
      cases hroot'
    | cons position' rest' =>
      obtain ⟨hindex, htext, hrest⟩ := Error.argument.inj h
      obtain ⟨rfl, rfl⟩ := ih hrest
      exact ⟨congrArg (· :: rest) (Prod.ext hindex htext), rfl⟩

/-- A scheme may add positions of its own, and an argument list that starts with a call is not
split. -/
theorem exists_located_five_and_unsplit_argument :
    (∃ scheme error, ScriptExpr.parse ⟨{}, scheme⟩ .bitcoin none "sh(wsh(pk(02ab)))" = .error error ∧
      ∀ positions root, error = .located positions root → root.isArgument = false →
        positions.length = 5) ∧
    ("sh(a),b".toList.splitOn ',').head? = some "sh(a)".toList ∧
    ScriptExpr.parse {} .testnet none "pk(sh(a),b)" =
      .error (.argument 1 "sh(a),b" (.key "sh(a),b" .expression)) := by
  refine ⟨?_, by decide, ?_⟩
  · let own : Error := .located [(1, "02"), (2, "ab")] (.hex "ab")
    let ctx : Context := ⟨{}, .refusingPublicKeys own⟩
    have hpk : ScriptExpr.parse ctx .bitcoin (some (.wrapper .wsh)) "pk(02ab)" =
        .error (.argument 1 "02ab" own) :=
      ScriptExpr.parse_of_first_fails ⟨.keyed .pk, ["02ab".toList], "pk(02ab)".toList, none⟩
        (by decide) rfl (by decide)
    have hwsh : ScriptExpr.parse ctx .bitcoin (some (.wrapper .sh)) "wsh(pk(02ab))" =
        .error (.argument 1 "pk(02ab)" (.argument 1 "02ab" own)) :=
      ScriptExpr.parse_of_first_fails
        ⟨.wrapper .wsh, ["pk(02ab)".toList], "wsh(pk(02ab))".toList, none⟩ (by decide) rfl
        (Except.map_eq_error_iff.mpr hpk)
    have hsh : ScriptExpr.parse ctx .bitcoin none "sh(wsh(pk(02ab)))" = .error (.argument 1
        "wsh(pk(02ab))" (.argument 1 "pk(02ab)" (.argument 1 "02ab" own))) :=
      ScriptExpr.parse_of_first_fails
        ⟨.wrapper .sh, ["wsh(pk(02ab))".toList], "sh(wsh(pk(02ab)))".toList, none⟩ (by decide) rfl
        (Except.map_eq_error_iff.mpr hwsh)
    refine ⟨_, _, hsh, fun positions root heq hroot => ?_⟩
    have hlocated : Error.located [(1, "wsh(pk(02ab))"), (1, "pk(02ab)"), (1, "02ab"), (1, "02"),
        (2, "ab")] (.hex "ab") = .located positions root := heq
    obtain ⟨rfl, -⟩ := Error.located_inj rfl hroot hlocated
    rfl
  · exact ScriptExpr.parse_of_first_fails
      ⟨.keyed .pk, ["sh(a),b".toList], "pk(sh(a),b)".toList, none⟩ (by decide) rfl (by decide)

end OutputDescriptor
