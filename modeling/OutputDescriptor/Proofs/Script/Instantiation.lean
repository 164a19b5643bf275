import OutputDescriptor.Proofs.Key.Substitution
import OutputDescriptor.Proofs.Script.Acceptance

/-! Expressions at one index: what is read from a text whose wildcards are replaced by the index. -/
namespace OutputDescriptor

namespace KeyExpr

/-- The child that a wildcard key has at an index. Any other key stays as it is. -/
def pairAt (ctx : Context) (text : String) (index : Nat) : KeyPair → Except Error KeyPair
  | .extended k (.children hardened _) => do
    return .extended (← descend ctx text k ⟨index, hardened⟩) .itself
  | pair => .ok pair

/-- The key expression at one index, with the text that says so. -/
def instantiate (ctx : Context) (index : Nat) (key : KeyExpr) : Except Error KeyExpr :=
  let text := substituteIndex index key.text
  return { key with text, pair := ← pairAt ctx text index key.pair }

variable {ctx : Context} {network : Network} {index : Nat}

theorem foldlM_descend_text {text text' : String} {key child : ExtendedKey}
    {steps : List PathStep} (h : steps.foldlM (descend ctx text) key = .ok child) :
    steps.foldlM (descend ctx text') key = .ok child := by
  induction steps generalizing key with
  | nil => exact h
  | cons step rest ih =>
    rw [List.foldlM_cons] at h ⊢
    obtain ⟨next, hnext, h⟩ := Except.bind_eq_ok_iff.mp h
    have hnext' : descend ctx text' key step = .ok next :=
      descend_eq_ok_iff.mpr (descend_eq_ok_iff.mp hnext)
    exact Except.bind_eq_ok_iff.mpr ⟨next, hnext', ih h⟩

theorem decodePair_of_extended {text : String} {parts : KeyText} (h : parts.isExtended) :
    decodePair ctx network text parts =
      ctx.scheme.decodeExtendedKey (String.ofList parts.key) network >>= fun base =>
        parts.steps.foldlM (descend ctx text) base >>= fun k => .ok (.extended k parts.tail) := by
  rw [decodePair, if_pos h]
  rfl

/-- Only extended keys have wildcards, so all others are decoded as before. -/
theorem decodePair_of_not_extended {text text' : String} {parts : KeyText} {pair : KeyPair}
    (hextended : ¬parts.isExtended) (h : decodePair ctx network text parts = .ok pair) :
    decodePair ctx network text' (parts.atIndex index) = .ok pair ∧
      ∀ k tail, pair ≠ .extended k tail := by
  have hextended' : ¬(parts.atIndex index).isExtended := hextended
  have hempty (hpath : parts.steps = [] ∧ parts.wildcard = .none) :
      (parts.atIndex index).steps = [] ∧ (parts.atIndex index).wildcard = .none := by
    simp [KeyText.atIndex, hpath, Wildcard.stepAt]
  rw [decodePair_eq_ok_iff]
  cases decodePair_eq_ok_iff.mp h with
  | extended hparts => exact absurd hparts hextended
  | publicOnly _ hpath hpublic hkey =>
    exact ⟨.publicOnly hextended' (hempty hpath) hpublic hkey, by simp⟩
  | withPrivate _ hpath hpublic hkey =>
    exact ⟨.withPrivate hextended' (hempty hpath) hpublic hkey, by simp⟩

theorem decodePair_atIndex {text text' : String} {parts : KeyText} {pair : KeyPair}
    (h : decodePair ctx network text parts = .ok pair) :
    decodePair ctx network text' (parts.atIndex index) = pairAt ctx text' index pair := by
  by_cases hextended : parts.isExtended
  · obtain ⟨origin, key, steps, wildcard⟩ := parts
    rw [decodePair_of_extended hextended] at h
    obtain ⟨base, hbase, h⟩ := Except.bind_eq_ok_iff.mp h
    obtain ⟨k, hk, h⟩ := Except.bind_eq_ok_iff.mp h
    have hk' := @foldlM_descend_text ctx text text' base k steps hk
    have hextended' : (KeyText.atIndex index ⟨origin, key, steps, wildcard⟩).isExtended := hextended
    rw [decodePair_of_extended hextended']
    simp only [KeyText.atIndex, hbase, List.foldlM_append, Except.ok_bind, hk']
    cases h
    cases wildcard with
    | none => rfl
    | unhardened =>
      change (descend ctx text' k ⟨index, false⟩ >>= .ok) >>= _ = _
      rw [bind_assoc]
      rfl
    | hardened =>
      change (descend ctx text' k ⟨index, true⟩ >>= .ok) >>= _ = _
      rw [bind_assoc]
      rfl
  · obtain ⟨hpair, hne⟩ := @decodePair_of_not_extended ctx network index text text' _ _ hextended h
    rw [hpair]
    unfold pairAt
    split
    · exact absurd rfl (hne _ _)
    · rfl

theorem parse_substituteIndex {text : String} {key : KeyExpr}
    (h : parse ctx network text = .ok key) :
    parse ctx network (substituteIndex index text) = key.instantiate ctx index := by
  obtain ⟨parts, pair, hparts, hpair, rfl⟩ := parse_eq_ok_iff.mp h
  have hparts' := @KeyText.ofChars?_substitute index _ _ hparts
  have hpair' := @decodePair_atIndex ctx network index text (substituteIndex index text) _ _ hpair
  rw [parse, toList_substituteIndex, hparts']
  simp only [hpair']
  rfl

theorem network_instantiate {key child : KeyExpr} (h : key.instantiate ctx index = .ok child) :
    child.network = key.network := by
  obtain ⟨pair, -, h⟩ := Except.bind_eq_ok_iff.mp h
  cases h
  rfl

/-- Keys with a wildcard are extended, so that they and their children are compressed. -/
theorem isCompressed_instantiate {key child : KeyExpr}
    (h : key.instantiate ctx index = .ok child) : child.isCompressed = key.isCompressed := by
  obtain ⟨network, text, origin, pair⟩ := key
  obtain ⟨found, hfound, h⟩ := Except.bind_eq_ok_iff.mp h
  cases h
  unfold pairAt at hfound
  split at hfound
  · rename_i k hardened range hpair
    obtain ⟨derived, -, hfound⟩ := Except.bind_eq_ok_iff.mp hfound
    cases hfound
    cases hpair
    rfl
  · cases hfound
    rfl

end KeyExpr

/-! ### Errors up to their position -/

/-- Two attempts have the same result, or fail for the same reason. -/
def SameCause {α : Type} (x y : Except Error α) : Prop :=
  x.mapError Error.rootCause = y.mapError Error.rootCause

namespace SameCause

variable {α β : Type} {x y : Except Error α}

theorem refl (x : Except Error α) : SameCause x x := rfl

theorem argument (h : SameCause x y) (position : Nat) (text : String) :
    SameCause (x.mapError (.argument position text)) y := by
  rw [SameCause, ← h]
  cases x <;> rfl

theorem bind (h : SameCause x y) {f g : α → Except Error β}
    (hfg : ∀ a, y = .ok a → SameCause (f a) (g a)) : SameCause (x >>= f) (y >>= g) :=
  Except.mapError_bind_congr h hfg

theorem ok_iff (h : SameCause x y) {a : α} : x = .ok a ↔ y = .ok a := by
  have hcause : x.mapError Error.rootCause = y.mapError Error.rootCause := h
  constructor
  · intro hx
    exact Except.mapError_eq_ok_iff.mp (hcause ▸ Except.mapError_eq_ok_iff.mpr hx)
  · intro hy
    exact Except.mapError_eq_ok_iff.mp (hcause ▸ Except.mapError_eq_ok_iff.mpr hy)

theorem mapM_readArgs {read : String → Except Error α} {f : β → Except Error α}
    {args : List (List Char)} {xs : List β}
    (h : List.Forall₂ (fun arg x => SameCause (read (String.ofList arg)) (f x)) args xs)
    (position : Nat) : SameCause (ScriptExpr.readArgs read position args) (xs.mapM f) := by
  induction h generalizing position with
  | nil => exact refl _
  | cons hhead _ ih =>
    rw [List.mapM_cons]
    refine (hhead.argument _ _).bind fun a _ => ?_
    exact (ih (position + 1)).bind fun rest _ => refl _

end SameCause

end OutputDescriptor
