import OutputDescriptor.Checksum
import OutputDescriptor.Error

/-! The shape of a call: a type, its arguments in parentheses, and a checksum after a complete
descriptor. -/
namespace OutputDescriptor

/-- A call taken apart, before its arguments are read. -/
structure Call where
  type : ScriptType
  args : List (List Char)
  /-- The call without its checksum. -/
  body : List Char
  checksum : Option (List Char)
  deriving DecidableEq, Repr

namespace Call

/-- Any lower-case letters and digits are taken for a checksum, which may then turn out wrong. -/
def isChecksumChar (c : Char) : Bool := c.isLower || c.isDigit

def splitChecksum (text : List Char) : List Char × Option (List Char) :=
  match text.drop (text.length - 9) with
  | '#' :: checksum =>
    if checksum.length = Checksum.length ∧ checksum.all isChecksumChar then
      (text.take (text.length - 9), some checksum)
    else (text, none)
  | _ => (text, none)

def splitBody? (body : List Char) : Option (ScriptType × List Char) := do
  let head := body.takeWhile (· ≠ '(')
  let type ← ScriptType.ofToken? (String.ofList head)
  match body.drop head.length with
  | '(' :: rest => if rest.getLast? = some ')' then some (type, rest.dropLast) else none
  | _ => none

def startsCall (text : List Char) : Bool :=
  let head := text.takeWhile (· ≠ '(')
  head.length < text.length && (ScriptType.ofToken? (String.ofList head)).isSome

/-- A text that starts with a call is a single argument, whatever commas it holds. -/
def splitArgs (text : List Char) : List (List Char) :=
  if startsCall text then [text] else text.splitOn ','

/-- No argument may be empty. Only a complete descriptor may have a checksum. -/
def ofChars? (root : Bool) (text : List Char) : Option Call := do
  let (body, checksum) := if root then splitChecksum text else (text, none)
  let (type, args) ← splitBody? body
  if (args.splitOn ',').all (· ≠ []) then some ⟨type, splitArgs args, body, checksum⟩ else none

/-- The checksum, if there is one, must be that of the text before it. -/
def verify (call : Call) : Except Error Unit :=
  match call.checksum with
  | none => .ok ()
  | some checksum =>
    let found := String.ofList checksum
    let expected := Checksum.compute (String.ofList call.body)
    if expected = found then .ok () else .error (.checksumMismatch found expected)

def checkArity (call : Call) : Except Error Unit :=
  let expected := call.type.argKinds.length
  if call.args.length < expected then .error (.missingArguments expected call.args.length)
  else .ok ()

end Call

end OutputDescriptor
