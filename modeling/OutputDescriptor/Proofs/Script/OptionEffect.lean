import OutputDescriptor.Proofs.Evaluation.Policies

/-! What the options decide: whether a text is refused for an index that does not exist, and nothing
else of what is read. Without wildcards they decide nothing. -/
namespace OutputDescriptor

theorem Error.isNonexistentIndex_iff {error : Error} : error.isNonexistentIndex ↔
    ∃ index hardened, error.rootCause = .nonexistentIndex index hardened := by
  unfold isNonexistentIndex
  split <;> simp_all

/-! ### Two runs -/

/-- The strict one of two attempts has the result of the other, or fails for an index that does not
exist. -/
def AgreesUnlessMissing {α : Type} (strict ignoring : Except Error α) : Prop :=
  strict = ignoring ∨ ∃ error, strict = .error error ∧ error.isNonexistentIndex

namespace AgreesUnlessMissing

variable {α β : Type} {strict ignoring : Except Error α}

theorem refl (x : Except Error α) : AgreesUnlessMissing x x := .inl rfl

theorem argument (h : AgreesUnlessMissing strict ignoring) (position : Nat) (text : String) :
    AgreesUnlessMissing (strict.mapError (.argument position text))
      (ignoring.mapError (.argument position text)) := by
  rcases h with rfl | ⟨error, rfl, hmissing⟩
  · exact refl _
  · exact .inr ⟨_, rfl, hmissing⟩

theorem bind (h : AgreesUnlessMissing strict ignoring) {f g : α → Except Error β}
    (hfg : ∀ a, AgreesUnlessMissing (f a) (g a)) :
    AgreesUnlessMissing (strict >>= f) (ignoring >>= g) := by
  rcases h with rfl | ⟨error, rfl, hmissing⟩
  · cases strict with
    | error error => exact refl _
    | ok a => exact hfg a
  · exact .inr ⟨error, rfl, hmissing⟩

theorem foldlM {f g : β → α → Except Error β} (h : ∀ b a, AgreesUnlessMissing (f b a) (g b a))
    (items : List α) (start : β) :
    AgreesUnlessMissing (items.foldlM f start) (items.foldlM g start) := by
  induction items generalizing start with
  | nil => exact refl _
  | cons item rest ih =>
    simp only [List.foldlM_cons]
    exact (h start item).bind ih

theorem readArgs {read read' : String → Except Error α}
    (h : ∀ text, AgreesUnlessMissing (read text) (read' text)) (position : Nat)
    (args : List (List Char)) : AgreesUnlessMissing (ScriptExpr.readArgs read position args)
      (ScriptExpr.readArgs read' position args) := by
  induction args generalizing position with
  | nil => exact refl _
  | cons arg rest ih =>
    unfold ScriptExpr.readArgs
    apply ((h _).argument position _).bind
    intro a
    exact (ih (position + 1)).bind fun _ => refl _

theorem eq_ok (h : AgreesUnlessMissing strict ignoring) {a : α} (hstrict : strict = .ok a) :
    ignoring = .ok a := by
  rcases h with rfl | ⟨error, rfl, -⟩
  · exact hstrict
  · cases hstrict

end AgreesUnlessMissing

variable {scheme : KeyScheme} {network : Network}

namespace KeyExpr

/-- The option is looked at only where the child is not the one that was asked for. -/
theorem descend_agrees (text : String) (key : ExtendedKey) (step : PathStep) :
    AgreesUnlessMissing (descend ⟨⟨false⟩, scheme⟩ text key step)
      (descend ⟨⟨true⟩, scheme⟩ text key step) := by
  unfold descend
  split
  · exact .refl _
  · apply (AgreesUnlessMissing.refl _).bind
    intro requested
    apply (AgreesUnlessMissing.refl _).bind
    intro child
    by_cases hsame : child.childNumber = requested
    · simp [hsame, AgreesUnlessMissing]
    · right
      refine ⟨.nonexistentIndex step.index step.hardened, ?_, rfl⟩
      simp [hsame, throw, throwThe, MonadExceptOf.throw]

theorem decodePair_agrees (text : String) (parts : KeyText) :
    AgreesUnlessMissing (decodePair ⟨⟨false⟩, scheme⟩ network text parts)
      (decodePair ⟨⟨true⟩, scheme⟩ network text parts) := by
  by_cases hextended : parts.isExtended
  · simp only [decodePair_of_extended hextended]
    apply (AgreesUnlessMissing.refl _).bind
    intro base
    exact (AgreesUnlessMissing.foldlM (descend_agrees text) _ _).bind fun _ => .refl _
  · simp only [decodePair, if_neg hextended]
    exact .refl _

theorem parse_agrees (text : String) : AgreesUnlessMissing (parse ⟨⟨false⟩, scheme⟩ network text)
    (parse ⟨⟨true⟩, scheme⟩ network text) := by
  unfold parse
  split
  · exact .refl _
  · exact (decodePair_agrees _ _).bind fun _ => .refl _

end KeyExpr

namespace ScriptExpr

theorem readChildren_agrees {type : ScriptType}
    (hinner : ∀ w, type = .wrapper w → ∀ text,
      AgreesUnlessMissing (parse ⟨⟨false⟩, scheme⟩ network (some (.wrapper w)) text)
        (parse ⟨⟨true⟩, scheme⟩ network (some (.wrapper w)) text))
    (args : List (List Char)) :
    AgreesUnlessMissing (readChildren ⟨⟨false⟩, scheme⟩ network type args)
      (readChildren ⟨⟨true⟩, scheme⟩ network type args) := by
  cases type with
  | wrapper w => exact (AgreesUnlessMissing.readArgs (hinner w rfl) 1 args).bind fun _ => .refl _
  | keyed form =>
    exact (AgreesUnlessMissing.readArgs KeyExpr.parse_agrees 1 args).bind fun _ => .refl _
  | multisig sorted =>
    unfold readChildren readMultisigArgs
    apply (AgreesUnlessMissing.refl _).bind
    intro threshold
    exact (AgreesUnlessMissing.readArgs KeyExpr.parse_agrees 2 _).bind fun _ => .refl _
  | addr => exact .refl _
  | raw => exact .refl _

/-- Reading agrees inside every call, as each wrapper leaves less room for others. -/
theorem parse_agrees (parent : Option ScriptType) (text : String) :
    AgreesUnlessMissing (parse ⟨⟨false⟩, scheme⟩ network parent text)
      (parse ⟨⟨true⟩, scheme⟩ network parent text) := by
  cases hcall : Call.ofChars? parent.isNone text.toList with
  | none =>
    simp only [parse_eq, hcall]
    exact .refl _
  | some call =>
    simp only [parse_of_ofChars? hcall]
    split
    · by_cases hallowed : call.type.allowedIn parent
      · simp only [if_pos hallowed, readCall]
        apply (AgreesUnlessMissing.refl _).bind
        intro _
        apply (AgreesUnlessMissing.refl _).bind
        intro _
        refine (readChildren_agrees (fun w hw inner => ?_) call.args).bind fun _ => .refl _
        have : ScriptType.nestingRank (some (.wrapper w)) < ScriptType.nestingRank parent :=
          ScriptType.nestingRank_lt (hw ▸ hallowed)
        exact parse_agrees (some (.wrapper w)) inner
      · simp only [if_neg hallowed]
        exact .refl _
    · exact .refl _
termination_by ScriptType.nestingRank parent

end ScriptExpr

/-! ### Expressions without wildcards -/

namespace ScriptExpr

variable {e : ScriptExpr}

theorem payments_keyed_congr {key : KeyExpr} {ctx ctx' : Context}
    (h : key.presentKeys ctx = key.presentKeys ctx') (label : Label) (form : KeyForm) :
    (keyed label form key).payments ctx = (keyed label form key).payments ctx' := by
  by_cases hnetwork : form = .combo → key.network = label.network
  · rw [payments_keyed hnetwork, payments_keyed hnetwork, KeyForm.payments, KeyForm.payments, h]
  · obtain ⟨rfl, hforeign⟩ := Classical.not_imp.mp hnetwork
    rw [payments_combo, payments_combo]
    cases hscripts : derivedScripts (keyed label .combo key) with
    | error error => rfl
    | ok scripts => exact absurd (derivedScripts_combo_eq_ok_iff.mp hscripts).1 hforeign

/-- Fixed keys are not derived when they are evaluated, and none of them is dropped. -/
theorem payments_of_isRanged_eq_false (h : e.isRanged = false) (ctx ctx' : Context) :
    e.payments ctx = e.payments ctx' := by
  induction e with
  | wrapped label wrapper inner ih => rw [payments_wrapped, payments_wrapped, ih h]
  | keyed label form key =>
    have hkey : key.isRanged = false := by simpa [isRanged, keys] using h
    apply payments_keyed_congr
    rw [KeyExpr.presentKeys_of_isRanged_eq_false hkey, KeyExpr.presentKeys_of_isRanged_eq_false hkey]
  | multisig label sorted threshold keys =>
    have hkeys : ∀ key ∈ keys, key.isRanged = false := by
      simpa [isRanged, ScriptExpr.keys] using h
    simp only [payments_multisig, KeySet.ofKeys_of_fixed hkeys]
  | addr => rfl
  | raw => rfl

theorem outputScripts_of_isRanged_eq_false (h : e.isRanged = false) (ctx ctx' : Context) :
    e.outputScripts ctx = e.outputScripts ctx' := by
  unfold outputScripts
  rw [payments_of_isRanged_eq_false h ctx ctx']

theorem addresses_of_isRanged_eq_false (h : e.isRanged = false) (ctx ctx' : Context) :
    e.addresses ctx = e.addresses ctx' := by
  unfold addresses
  rw [payments_of_isRanged_eq_false h ctx ctx']

/-- The option admits only texts that name a missing child, and changes no evaluation but that of
ranges. -/
theorem options_act_on_missing_indices (scheme : KeyScheme) (network : Network)
    (parent : Option ScriptType) (text : String) :
    (∀ e, parse ⟨⟨false⟩, scheme⟩ network parent text = .ok e →
      parse ⟨⟨true⟩, scheme⟩ network parent text = .ok e) ∧
    (∀ e, parse ⟨⟨true⟩, scheme⟩ network parent text = .ok e →
      parse ⟨⟨false⟩, scheme⟩ network parent text = .ok e ∨
        ∃ error, parse ⟨⟨false⟩, scheme⟩ network parent text = .error error ∧
          ∃ index hardened, error.rootCause = .nonexistentIndex index hardened) ∧
    ∀ e : ScriptExpr, e.isRanged = false → ∀ ctx ctx' : Context,
      e.payments ctx = e.payments ctx' ∧ e.outputScripts ctx = e.outputScripts ctx' ∧
        e.addresses ctx = e.addresses ctx' := by
  have hagrees := @parse_agrees scheme network parent text
  refine ⟨fun e => hagrees.eq_ok, fun e hignoring => ?_, fun e hfixed ctx ctx' => ⟨?_, ?_, ?_⟩⟩
  · rcases hagrees with hsame | ⟨error, herror, hmissing⟩
    · left
      rw [hsame, hignoring]
    · right
      exact ⟨error, herror, Error.isNonexistentIndex_iff.mp hmissing⟩
  · exact payments_of_isRanged_eq_false hfixed ctx ctx'
  · exact outputScripts_of_isRanged_eq_false hfixed ctx ctx'
  · exact addresses_of_isRanged_eq_false hfixed ctx ctx'

/-- The child of odd index does not exist, and the next one stands in for it if it may. -/
theorem options_act_on_missing_indices_sparse :
    let k : ExtendedKey := ⟨.test, 0, ⟨[0, 0, 0, 0], rfl⟩, ⟨0, false, by decide⟩,
      ⟨List.replicate 32 0, rfl⟩, .point .generator⟩
    let scheme : KeyScheme := { KeyScheme.sparse with decodeExtendedKey := fun _ _ => .ok k }
    let e : ScriptExpr := .keyed ⟨.testnet, "pk(tpub/1)", none⟩ .pk
      ⟨.testnet, "tpub/1", none, .extended k .itself⟩
    parse ⟨⟨true⟩, scheme⟩ .testnet none "pk(tpub/1)" = .ok e ∧
      (∃ error, parse ⟨⟨false⟩, scheme⟩ .testnet none "pk(tpub/1)" = .error error ∧
        ∃ index hardened, error.rootCause = .nonexistentIndex index hardened) ∧
      parse ⟨⟨true⟩, scheme⟩ .testnet none "pk(tpub/2)" =
        parse ⟨⟨false⟩, scheme⟩ .testnet none "pk(tpub/2)" ∧
      e.payments ⟨⟨false⟩, scheme⟩ = e.payments {} := by
  intro k scheme e
  have hread : parse ⟨⟨true⟩, scheme⟩ .testnet none "pk(tpub/1)" = .ok e := by decide +kernel
  have hrefused : parse ⟨⟨false⟩, scheme⟩ .testnet none "pk(tpub/1)" ≠ .ok e := by decide +kernel
  have heven : ∃ found, parse ⟨⟨false⟩, scheme⟩ .testnet none "pk(tpub/2)" = .ok found :=
    ⟨.keyed ⟨.testnet, "pk(tpub/2)", none⟩ .pk ⟨.testnet, "tpub/2", none, .extended k .itself⟩,
      by decide +kernel⟩
  obtain ⟨found, hfound⟩ := heven
  obtain ⟨-, hmissing, hfixed⟩ := options_act_on_missing_indices scheme .testnet none "pk(tpub/1)"
  refine ⟨hread, (hmissing e hread).resolve_left hrefused, ?_, (hfixed e rfl _ _).1⟩
  have hkept := (options_act_on_missing_indices scheme .testnet none "pk(tpub/2)").1 found hfound
  rw [hkept, hfound]

end ScriptExpr

end OutputDescriptor
