import OutputDescriptor.Key.Text

/-! Reading key expressions. -/
namespace OutputDescriptor

namespace KeyText

def isExtended (text : KeyText) : Bool :=
  (ExtendedKey.publicMarks ++ ExtendedKey.secretMarks).any (·.isPrefixOf text.key)

/-- Public keys start with the byte that tells their form. -/
def isPublicKey (text : KeyText) : Bool :=
  ["02".toList, "03".toList, "04".toList].any (·.isPrefixOf text.key)

def tail (text : KeyText) : KeyTail :=
  match text.wildcard with
  | .none => .itself
  | .unhardened => .children false KeyRange.standard
  | .hardened => .children true KeyRange.standard

end KeyText

namespace KeyExpr

variable {ctx : Context}

def descend (ctx : Context) (text : String) (key : ExtendedKey) (step : PathStep) :
    Except Error ExtendedKey := do
  if wordBound ≤ step.index then
    throw (.key text .path)
  let requested ← ChildNumber.ofIndex step.index step.hardened
  let child ← ctx.scheme.deriveChild key step.index step.hardened
  if child.childNumber ≠ requested ∧ ¬ctx.options.ignoreNonexistentIndex then
    throw (.nonexistentIndex step.index step.hardened)
  return child.key

/-- The child at an index is taken if it was asked for, or if another may stand in for it. -/
def Steps (ctx : Context) (key : ExtendedKey) (index : Nat) (hardened : Bool)
    (child : DerivedChild) : Prop :=
  ctx.scheme.deriveChild key index hardened = .ok child ∧
    (child.childNumber.index = index ∧ child.childNumber.hardened = hardened ∨
      ctx.options.ignoreNonexistentIndex)

theorem descend_of_lt {text : String} {key : ExtendedKey} {step : PathStep}
    (h : step.index < hardenedBase) : descend ctx text key step =
      ctx.scheme.deriveChild key step.index step.hardened >>= fun child =>
        if child.childNumber ≠ ⟨step.index, step.hardened, h⟩ ∧
            ¬ctx.options.ignoreNonexistentIndex then
          .error (.nonexistentIndex step.index step.hardened)
        else .ok child.key := by
  have hword : ¬wordBound ≤ step.index := by
    have : hardenedBase ≤ wordBound := by decide
    omega
  unfold descend
  rw [if_neg hword]
  simp only [ChildNumber.ofIndex_of_lt h, Except.ok_bind]
  rfl

theorem lt_of_descend_eq_ok {text : String} {key child : ExtendedKey} {step : PathStep}
    (h : descend ctx text key step = .ok child) : step.index < hardenedBase := by
  unfold descend at h
  split at h
  · cases h
  · obtain ⟨requested, hrequested, -⟩ := Except.bind_eq_ok_iff.mp h
    rw [← (ChildNumber.ofIndex_eq_ok_iff.mp hrequested).1]
    exact requested.index_lt

theorem descend_eq_ok_iff {text : String} {key child : ExtendedKey} {step : PathStep} :
    descend ctx text key step = .ok child ↔
      step.index < hardenedBase ∧ ∃ derived, Steps ctx key step.index step.hardened derived ∧
        derived.key = child := by
  by_cases hindex : step.index < hardenedBase
  · rw [descend_of_lt hindex, Except.bind_eq_ok_iff, and_iff_right hindex]
    refine exists_congr fun derived => ?_
    have hnumber : derived.childNumber = ⟨step.index, step.hardened, hindex⟩ ↔
        derived.childNumber.index = step.index ∧ derived.childNumber.hardened = step.hardened :=
      ChildNumber.eq_iff
    rw [Steps, and_assoc, ← hnumber]
    refine and_congr_right fun _ => ?_
    split
    · simp_all
    · simp_all [Classical.or_iff_not_imp_left]
  · constructor
    · intro h
      exact absurd (lt_of_descend_eq_ok h) hindex
    · intro h
      exact absurd h.1 hindex

theorem network_foldlM_descend (hscheme : ctx.scheme.KeepsNetwork) {text : String}
    {key child : ExtendedKey} {steps : List PathStep}
    (h : steps.foldlM (descend ctx text) key = .ok child) : child.network = key.network := by
  induction steps generalizing key with
  | nil =>
    cases h
    rfl
  | cons step rest ih =>
    rw [List.foldlM_cons] at h
    obtain ⟨next, hnext, h⟩ := Except.bind_eq_ok_iff.mp h
    obtain ⟨-, derived, ⟨hderived, -⟩, rfl⟩ := descend_eq_ok_iff.mp hnext
    exact (ih h).trans (hscheme key step.index step.hardened derived hderived)

/-- Decode the key of a text that was taken apart. Only extended keys have children. -/
def decodePair (ctx : Context) (network : Network) (text : String) (parts : KeyText) :
    Except Error KeyPair := do
  let token := String.ofList parts.key
  if parts.isExtended then
    let key ← ctx.scheme.decodeExtendedKey token network
    let key ← parts.steps.foldlM (descend ctx text) key
    return .extended key parts.tail
  else if parts.steps ≠ [] ∨ parts.wildcard ≠ .none then
    throw (.key text .pathOnSingleKey)
  else if parts.isPublicKey then
    return .publicOnly (← ctx.scheme.decodePublicKey token)
  else
    return .withPrivate (← ctx.scheme.decodePrivateKey token network)

/-- What a text that was taken apart stands for. Only an extended key has a path, which is followed
step by step. -/
inductive Decoded (ctx : Context) (network : Network) (text : String) (parts : KeyText) :
    KeyPair → Prop
  | extended {base k : ExtendedKey} (hextended : parts.isExtended)
      (hbase : ctx.scheme.decodeExtendedKey (String.ofList parts.key) network = .ok base)
      (hsteps : parts.steps.foldlM (descend ctx text) base = .ok k) :
      Decoded ctx network text parts (.extended k parts.tail)
  | publicOnly {key : PublicKey} (hextended : ¬parts.isExtended)
      (hpath : parts.steps = [] ∧ parts.wildcard = .none) (hpublic : parts.isPublicKey)
      (hkey : ctx.scheme.decodePublicKey (String.ofList parts.key) = .ok key) :
      Decoded ctx network text parts (.publicOnly key)
  | withPrivate {key : PrivateKey} (hextended : ¬parts.isExtended)
      (hpath : parts.steps = [] ∧ parts.wildcard = .none) (hpublic : ¬parts.isPublicKey)
      (hkey : ctx.scheme.decodePrivateKey (String.ofList parts.key) network = .ok key) :
      Decoded ctx network text parts (.withPrivate key)

theorem decodePair_eq_ok_iff {network : Network} {text : String} {parts : KeyText} {pair : KeyPair} :
    decodePair ctx network text parts = .ok pair ↔ Decoded ctx network text parts pair := by
  unfold decodePair
  constructor
  · intro h
    split at h
    · rename_i hextended
      obtain ⟨base, hbase, h⟩ := Except.bind_eq_ok_iff.mp h
      obtain ⟨k, hsteps, h⟩ := Except.bind_eq_ok_iff.mp h
      cases h
      exact .extended hextended hbase hsteps
    · rename_i hextended
      split at h
      · cases h
      · rename_i hpath
        have hpath : parts.steps = [] ∧ parts.wildcard = .none := by simpa using hpath
        split at h
        · rename_i hpublic
          obtain ⟨key, hkey, h⟩ := Except.bind_eq_ok_iff.mp h
          cases h
          exact .publicOnly hextended hpath hpublic hkey
        · rename_i hpublic
          obtain ⟨key, hkey, h⟩ := Except.bind_eq_ok_iff.mp h
          cases h
          exact .withPrivate hextended hpath hpublic hkey
  · intro h
    cases h with
    | extended hextended hbase hsteps =>
      rw [if_pos hextended]
      exact Except.bind_eq_ok_iff.mpr ⟨_, hbase, Except.bind_eq_ok_iff.mpr ⟨_, hsteps, rfl⟩⟩
    | publicOnly hextended hpath hpublic hkey =>
      rw [if_neg hextended, if_neg (by simp [hpath]), if_pos hpublic]
      exact Except.bind_eq_ok_iff.mpr ⟨_, hkey, rfl⟩
    | withPrivate hextended hpath hpublic hkey =>
      rw [if_neg hextended, if_neg (by simp [hpath]), if_neg hpublic]
      exact Except.bind_eq_ok_iff.mpr ⟨_, hkey, rfl⟩

theorem decodePair_eq_extended_iff {network : Network} {text : String} {parts : KeyText}
    {k : ExtendedKey} {tail : KeyTail} :
    decodePair ctx network text parts = .ok (.extended k tail) ↔ parts.isExtended ∧
      ∃ base, ctx.scheme.decodeExtendedKey (String.ofList parts.key) network = .ok base ∧
        parts.steps.foldlM (descend ctx text) base = .ok k ∧ tail = parts.tail := by
  rw [decodePair_eq_ok_iff]
  constructor
  · intro h
    cases h with
    | extended hextended hbase hsteps => exact ⟨hextended, _, hbase, hsteps, rfl⟩
  · rintro ⟨hextended, base, hbase, hsteps, rfl⟩
    exact .extended hextended hbase hsteps

def parse (ctx : Context) (network : Network) (text : String) : Except Error KeyExpr :=
  match KeyText.ofChars? text.toList with
  | none => .error (.key text .expression)
  | some parts => do
    let pair ← decodePair ctx network text parts
    return ⟨network, text, parts.origin, pair⟩

theorem parse_eq_ok_iff {network : Network} {text : String} {key : KeyExpr} :
    parse ctx network text = .ok key ↔ ∃ parts pair, KeyText.ofChars? text.toList = some parts ∧
      decodePair ctx network text parts = .ok pair ∧ key = ⟨network, text, parts.origin, pair⟩ := by
  unfold parse
  constructor
  · intro h
    split at h
    · cases h
    · rename_i parts hparts
      obtain ⟨pair, hpair, h⟩ := Except.bind_eq_ok_iff.mp h
      exact ⟨parts, pair, hparts, hpair, (Except.ok.inj h).symm⟩
  · rintro ⟨parts, pair, hparts, hpair, rfl⟩
    rw [hparts]
    exact Except.bind_eq_ok_iff.mpr ⟨pair, hpair, rfl⟩

end KeyExpr

end OutputDescriptor
