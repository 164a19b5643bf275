import OutputDescriptor.Proofs.Script.Rebuilding

/-! Errors that name an argument of a call, and what does not end in one: reading an argument of any
kind but a script, and building a call from its arguments. -/
namespace OutputDescriptor

namespace Error

def isArgument : Error → Bool
  | .argument .. => true
  | _ => false

/-- Errors about the text of an argument that is no script. -/
def isLeaf : Error → Bool
  | .number _ | .hex _ | .address _ | .key .. | .nonexistentIndex .. | .derivation _ => true
  | _ => false

theorem isArgument_of_isLeaf {error : Error} (h : error.isLeaf) : error.isArgument = false := by
  cases error <;> first | rfl | cases h

theorem isArgument_rootCause (error : Error) : error.rootCause.isArgument = false := by
  induction error with
  | argument _ _ _ ih => exact ih
  | _ => rfl

end Error

abbrev NamesNoArgument {α : Type} (x : Except Error α) : Prop :=
  FailsOnly (fun error => error.isArgument = false) x

/-- An error that a scheme gives for its own part. -/
inductive KeyScheme.Returns (scheme : KeyScheme) : Error → Prop
  | decodeExtendedKey {text : String} {network : Network} {error : Error}
      (h : scheme.decodeExtendedKey text network = .error error) : Returns scheme error
  | deriveChild {key : ExtendedKey} {index : Nat} {hardened : Bool} {error : Error}
      (h : scheme.deriveChild key index hardened = .error error) : Returns scheme error
  | decodePublicKey {text : String} {error : Error}
      (h : scheme.decodePublicKey text = .error error) : Returns scheme error
  | decodePrivateKey {text : String} {network : Network} {error : Error}
      (h : scheme.decodePrivateKey text network = .error error) : Returns scheme error

/-- The standard scheme fails for the text of a key or for its children only. -/
theorem KeyScheme.isLeaf_of_returns_standard {error : Error}
    (h : KeyScheme.standard.Returns error) : error.isLeaf := by
  have hdecode {α : Type} {key : Option α} {text : String} {fault : KeyFault}
      (h : KeyScheme.orKeyError key text fault = .error error) : error.isLeaf := by
    cases key with
    | none => exact Except.error.inj h ▸ rfl
    | some key => cases h
  cases h with
  | decodeExtendedKey h => exact hdecode h
  | decodePublicKey h => exact hdecode h
  | decodePrivateKey h => exact hdecode h
  | @deriveChild key index hardened error h =>
    change key.deriveChild index hardened = _ at h
    fun_induction key.deriveChild index hardened with
    | case1 index hindex found hchild =>
      obtain rfl := Except.error.inj h
      unfold ExtendedKey.child? at hchild
      split at hchild
      · exact Except.error.inj hchild ▸ rfl
      · split at hchild
        · exact Except.error.inj hchild ▸ rfl
        · cases hchild
    | case2 => cases h
    | case3 index hindex hchild ih => exact ih h
    | case4 index hindex => exact Except.error.inj h ▸ rfl

/-- No error of the scheme's own names an argument. -/
theorem KeyScheme.isArgument_of_returns_standard {error : Error}
    (h : KeyScheme.standard.Returns error) : error.isArgument = false :=
  Error.isArgument_of_isLeaf (isLeaf_of_returns_standard h)

/-- An error of the computation is about the text of an argument, or one of the scheme's own. -/
abbrev KeyScheme.FailsAtLeaf {α : Type} (scheme : KeyScheme) (x : Except Error α) : Prop :=
  FailsOnly (fun error => error.isLeaf ∨ scheme.Returns error) x

theorem KeyScheme.failsAtLeaf_error {α : Type} {scheme : KeyScheme} {error : Error}
    (h : error.isLeaf) : scheme.FailsAtLeaf (.error error : Except Error α) := .error (.inl h)

namespace KeyExpr

open KeyScheme

variable {ctx : Context}

theorem failsAtLeaf_descend (text : String) (key : ExtendedKey) (step : PathStep) :
    ctx.scheme.FailsAtLeaf (descend ctx text key step) := by
  have hindex : ctx.scheme.FailsAtLeaf (ChildNumber.ofIndex step.index step.hardened) := by
    unfold ChildNumber.ofIndex
    split
    · exact .ok _
    · exact failsAtLeaf_error rfl
  unfold descend
  dsimp only
  split
  · exact failsAtLeaf_error rfl
  · refine .bind hindex fun _ => .bind (fun error h => .inr (.deriveChild h)) fun child => ?_
    split
    · exact failsAtLeaf_error rfl
    · exact .ok _

theorem failsAtLeaf_decodePair (network : Network) (text : String) (parts : KeyText) :
    ctx.scheme.FailsAtLeaf (decodePair ctx network text parts) := by
  unfold decodePair
  dsimp only
  split
  · refine .bind (fun error h => .inr (.decodeExtendedKey h)) fun key => ?_
    exact .bind (.foldlM (failsAtLeaf_descend text) _ key) fun _ => .ok _
  · split
    · exact failsAtLeaf_error rfl
    · split
      · exact .bind (fun error h => .inr (.decodePublicKey h)) fun _ => .ok _
      · exact .bind (fun error h => .inr (.decodePrivateKey h)) fun _ => .ok _

/-- Reading a key fails for its text, or else as the scheme does. -/
theorem failsAtLeaf_parse (network : Network) (text : String) :
    ctx.scheme.FailsAtLeaf (parse ctx network text) := by
  unfold parse
  split
  · exact failsAtLeaf_error rfl
  · exact .bind (failsAtLeaf_decodePair network text _) fun pair => .ok _

end KeyExpr

theorem NumberExpr.isLeaf_of_parse (network : Network) (text : String) :
    FailsOnly (·.isLeaf) (parse network text) := by
  unfold parse
  split
  · exact .error rfl
  · split
    · exact .ok _
    · exact .error rfl

theorem HexExpr.isLeaf_of_parse (network : Network) (text : String) :
    FailsOnly (·.isLeaf) (parse network text) := by
  unfold parse
  split
  · exact .error rfl
  · split
    · exact .ok _
    · exact .error rfl

theorem AddrExpr.isLeaf_of_parse (network : Network) (text : String) :
    FailsOnly (·.isLeaf) (parse network text) := by
  refine .bind ?_ fun _ => .ok _
  unfold Address.ofText
  split
  · exact .error rfl
  · split
    · exact .ok _
    · exact .error rfl

namespace ScriptExpr

/-- What is wrong with the arguments as a whole is not blamed on one of them. -/
theorem ofChildren_namesNoArgument (label : Label) (type : ScriptType) (children : List Expr) :
    NamesNoArgument (ofChildren label type children) := by
  have hlabel : NamesNoArgument (checkLabel label) := by
    unfold checkLabel
    split
    · exact .error rfl
    · exact .ok _
  have harguments : FailsForChildren type
      (checkNetwork label type children >>= fun _ => assemble label type children) :=
    failsForChildren_checkNetwork.bind fun _ => failsForChildren_assemble
  refine hlabel.bind fun _ error h => ?_
  obtain ⟨fault, rfl⟩ := harguments error h
  rfl

end ScriptExpr

namespace Call

theorem eq_checksumMismatch_of_verify {call : Call} {error : Error}
    (h : call.verify = .error error) : ∃ found expected, error = .checksumMismatch found expected := by
  unfold verify at h
  split at h
  · cases h
  · dsimp only at h
    split at h
    · cases h
    · exact ⟨_, _, (Except.error.inj h).symm⟩

theorem eq_missingArguments_of_checkArity {call : Call} {error : Error}
    (h : call.checkArity = .error error) :
    ∃ expected found, error = .missingArguments expected found := by
  unfold checkArity at h
  dsimp only at h
  split at h
  · exact ⟨_, _, (Except.error.inj h).symm⟩
  · cases h

end Call

end OutputDescriptor
