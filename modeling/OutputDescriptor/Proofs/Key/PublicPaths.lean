import OutputDescriptor.Proofs.Key.Printed
import OutputDescriptor.Proofs.Script.Reachable

/-! The public counterpart of an extended key, along unhardened paths: what is read after it is the
public counterpart of what is read after the key itself. -/
namespace OutputDescriptor

def KeyPair.neuter : KeyPair → KeyPair
  | .extended k tail => .extended k.neuter tail
  | pair => pair

/-- The term has no mark of a hardened index. -/
def Unmarked (term : List Char) : Prop := unmark term = (term, false)

theorem PathStep.Spelled.hardened_eq_false {step : PathStep} {term : List Char}
    (h : step.Spelled term) (hterm : Unmarked term) : step.hardened = false := by
  cases h with
  | plain zeros index => rfl
  | hardened zeros index hmark =>
    rw [Unmarked, unmark_concat hmark] at hterm
    exact absurd (Prod.mk.inj hterm).2 (by decide)

theorem KeyText.hardened_eq_false_of_stepsOf? {terms : List (List Char)} {steps : List PathStep}
    {wildcard : Wildcard} (h : stepsOf? terms = some (steps, wildcard))
    (hterms : ∀ term ∈ terms, Unmarked term) :
    (∀ step ∈ steps, step.hardened = false) ∧ wildcard ≠ .hardened := by
  obtain ⟨fixed, star, rfl, hfixed, hstar⟩ := stepsOf?_eq_some_iff.mp h
  rw [List.forall_mem_append] at hterms
  constructor
  · intro step hstep
    obtain ⟨term, hterm, hspelled⟩ := exists_of_forall₂ hfixed hstep
    exact hspelled.hardened_eq_false (hterms.1 term hterm)
  · rintro rfl
    cases hstar with
    | @hardened mark hmark =>
      have hterm := List.forall_mem_singleton.mp hterms.2
      rw [Unmarked, show ['*', mark] = ['*'] ++ [mark] from rfl, unmark_concat hmark] at hterm
      exact absurd (Prod.mk.inj hterm).2 (by decide)

namespace KeyExpr

variable {options : Options}

theorem descend_neuter {text : String} (k : ExtendedKey) {step : PathStep}
    (h : step.hardened = false) :
    descend ⟨options, .standard⟩ text k.neuter step =
      (descend ⟨options, .standard⟩ text k step).map ExtendedKey.neuter := by
  by_cases hindex : step.index < hardenedBase
  · rw [descend_of_lt hindex, descend_of_lt hindex]
    change (k.neuter.deriveChild step.index step.hardened >>= _) =
      (k.deriveChild step.index step.hardened >>= _).map _
    rw [h, k.deriveChild_neuter]
    cases k.deriveChild step.index false with
    | error error => rfl
    | ok child =>
      change (if _ then _ else _) = Except.map _ (if _ then _ else _)
      split <;> rfl
  · have hout : ChildNumber.ofIndex step.index step.hardened =
        .error (.derivation (.indexOutOfRange step.index)) := by
      rw [ChildNumber.ofIndex, ChildNumber.of?, dif_neg hindex]
    unfold descend
    rw [hout]
    split <;> rfl

theorem foldlM_descend_neuter {text : String} (k : ExtendedKey) {steps : List PathStep}
    (h : ∀ step ∈ steps, step.hardened = false) :
    steps.foldlM (descend ⟨options, .standard⟩ text) k.neuter =
      (steps.foldlM (descend ⟨options, .standard⟩ text) k).map ExtendedKey.neuter := by
  induction steps generalizing k with
  | nil => rfl
  | cons step rest ih =>
    rw [List.forall_mem_cons] at h
    rw [List.foldlM_cons, List.foldlM_cons, descend_neuter k h.1]
    cases descend ⟨options, .standard⟩ text k step with
    | error error => rfl
    | ok child => exact ih child h.2

theorem outcomeFrom_neuter (k : ExtendedKey) {terms : List (List Char)}
    (h : ∀ term ∈ terms, Unmarked term) :
    outcomeFrom ⟨options, .standard⟩ k.neuter terms =
      (outcomeFrom ⟨options, .standard⟩ k terms).map KeyPair.neuter := by
  unfold outcomeFrom
  cases hsteps : KeyText.stepsOf? terms with
  | none => rfl
  | some found =>
    obtain ⟨steps, wildcard⟩ := found
    obtain ⟨hunhardened, -⟩ := KeyText.hardened_eq_false_of_stepsOf? hsteps h
    simp only [foldlM_descend_neuter k hunhardened]
    cases steps.foldlM (descend ⟨options, .standard⟩ "") k <;> rfl

/-- Without a mark at its end, a path does not end in hardened children. -/
theorem outcomeFrom_ne_hardened {k : ExtendedKey} {terms : List (List Char)} {pair : KeyPair}
    (h : outcomeFrom ⟨options, .standard⟩ k terms = .ok pair)
    (hterms : ∀ term ∈ terms, Unmarked term) :
    ∀ child range, pair ≠ .extended child (.children true range) := by
  unfold outcomeFrom at h
  split at h
  · cases h
  · rename_i steps wildcard hsteps
    obtain ⟨-, hwildcard⟩ := KeyText.hardened_eq_false_of_stepsOf? hsteps hterms
    obtain ⟨found, -, hpair⟩ := Except.bind_eq_ok_iff.mp (Except.mapError_eq_ok_iff.mp h)
    cases hpair
    intro child range hsame
    cases wildcard with
    | none => cases hsame
    | unhardened => cases hsame
    | hardened => exact hwildcard rfl

/-- The public counterpart of a key that was read is read from the text that it is printed as. -/
theorem parse_neuter {network : Network} {text : String} {key : KeyExpr} {k : ExtendedKey}
    {tail : KeyTail} (h : parse ⟨options, .standard⟩ network text = .ok key)
    (hk : key.pair = .extended k tail) :
    parse ⟨options, .standard⟩ network k.neuter.toText =
      .ok ⟨network, k.neuter.toText, none, .extended k.neuter .itself⟩ := by
  have hnetwork : k.neuter.network = network.kind := by
    rw [← (parse_network h).1]
    exact onNetwork_of_parse rfl h k tail hk
  have hprinted : KeyScheme.standard.decodeExtendedKey k.neuter.toText network = .ok k.neuter :=
    KeyScheme.decodeExtendedKey_eq_ok_iff.mpr ⟨k.neuter.ofText?_toText, hnetwork⟩
  exact @parse_token network options ExtendedKey.deriveChild _ _ hprinted

/-- Unhardened terms lead from public counterpart to public counterpart, and fail in the same way.
-/
theorem outcome_neuter {network : Network} {text : String} {key : KeyExpr} {k : ExtendedKey}
    (h : parse ⟨options, .standard⟩ network text = .ok key) (hk : key.pair = .extended k .itself)
    {terms : List (List Char)} (hslash : ∀ term ∈ terms, '/' ∉ term)
    (hterms : ∀ term ∈ terms, Unmarked term) :
    outcome ⟨options, .standard⟩ network (k.neuter.toText ++ KeyText.pathText terms) =
      (outcome ⟨options, .standard⟩ network (text ++ KeyText.pathText terms)).map
        KeyPair.neuter := by
  rw [outcome_append (parse_neuter h hk) rfl hslash, outcome_append h hk hslash,
    outcomeFrom_neuter k hterms]

end KeyExpr

end OutputDescriptor
