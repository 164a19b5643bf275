import OutputDescriptor.Key.Expr
import OutputDescriptor.Text.Decimal

/-! The parts of a key text: origin, key and path. -/
namespace OutputDescriptor

structure PathStep where
  index : Nat
  hardened : Bool
  deriving DecidableEq, Repr

/-- A key text taken apart, before the key itself is decoded. -/
structure KeyText where
  origin : Option KeyOrigin
  key : List Char
  steps : List PathStep
  wildcard : Wildcard
  deriving DecidableEq

def isHardenedMark (c : Char) : Bool := c = '\x27' || c = 'h'

def unmark (term : List Char) : List Char × Bool :=
  if term.getLast?.any isHardenedMark then (term.dropLast, true) else (term, false)

namespace PathStep

def ofChars? (term : List Char) : Option PathStep :=
  (decimal? (unmark term).1).map (⟨·, (unmark term).2⟩)

end PathStep

namespace KeyText

def wildcardOf? (term : List Char) : Option Wildcard :=
  if (unmark term).1 = ['*'] then some (if (unmark term).2 then .hardened else .unhardened)
  else none

/-- The terms of a path. Only the last one can be a wildcard. -/
def stepsOf? : List (List Char) → Option (List PathStep × Wildcard)
  | [] => some ([], .none)
  | [term] =>
    match wildcardOf? term with
    | some wildcard => some ([], wildcard)
    | none => (PathStep.ofChars? term).map fun step => ([step], .none)
  | term :: rest => do
    let step ← PathStep.ofChars? term
    let (steps, wildcard) ← stepsOf? rest
    return (step :: steps, wildcard)

/-- The terms of a path text, which is empty or starts with a slash. -/
def terms? : List Char → Option (List (List Char))
  | [] => some []
  | '/' :: rest => some (rest.splitOn '/')
  | _ => none

/-- An origin without its brackets: eight hexadecimal digits and a fixed path. -/
def originOf? (text : List Char) : Option KeyOrigin := do
  let path := text.drop 8
  let bytes ← Hex.decodeChars (text.take 8)
  let fingerprint ← FixedBytes.take? 4 bytes
  let terms ← terms? path
  let _ ← terms.mapM PathStep.ofChars?
  return ⟨fingerprint, if path = [] then none else some (String.ofList path)⟩

/-- A key and its path. The shortest key text has four characters. -/
def ofKeyAndPath? (origin : Option KeyOrigin) (text : List Char) : Option KeyText := do
  let key := text.takeWhile Char.isAlphanum
  let terms ← terms? (text.drop key.length)
  let (steps, wildcard) ← stepsOf? terms
  if 4 ≤ key.length then some ⟨origin, key, steps, wildcard⟩ else none

def ofChars? : List Char → Option KeyText
  | '[' :: rest => do
    let inside := rest.takeWhile (· ≠ ']')
    let origin ← originOf? inside
    match rest.drop inside.length with
    | ']' :: text => ofKeyAndPath? (some origin) text
    | _ => none
  | text => ofKeyAndPath? none text

end KeyText

end OutputDescriptor
