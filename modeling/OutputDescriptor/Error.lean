import OutputDescriptor.Key.ChildNumber
import OutputDescriptor.Output.Template
import OutputDescriptor.Script.Kind
import OutputDescriptor.Text.Hex

/-! What can go wrong when a descriptor is read, built or evaluated, and how it is worded. -/
namespace OutputDescriptor

inductive GrammarFault
  | nonAscii
  | noCall
  | nesting
  deriving DecidableEq, Repr

inductive ChildFault
  | foreign (child : String)
  | unexpected (expected found : ExprKind)
  | single (expected : ExprKind) (count : Nat)
  | notWrappable (type : ScriptType)
  | tooFew (count : Nat)
  | threshold (found : ExprKind)
  | notKey (position : Nat) (found : ExprKind)
  | uncompressed (key : String)
  deriving DecidableEq, Repr

inductive KeyFault
  | unknownType
  | wildcard
  | expression
  | path
  | pathOnSingleKey
  | extendedKey
  | publicKey
  | privateKey
  deriving DecidableEq, Repr

/-- Why a child key was not derived. A key scheme may state reasons of its own. -/
inductive DerivationFault
  | indexOutOfRange (index : Nat)
  | hardenedFromPublic
  | tooDeep
  | other (reason : String)
  deriving DecidableEq, Repr

inductive PaymentFault
  | keyCount (count : Nat)
  | threshold (needed count : Nat)
  | redeemScriptSize (size : Nat)
  | uncompressedKey
  | uncompressedKeyInWitness
  | noAddress (template : Template)
  deriving DecidableEq, Repr

inductive Error
  | grammar (text : String) (fault : GrammarFault)
  | missingArguments (expected found : Nat)
  | number (text : String)
  | hex (text : String)
  | address (text : String)
  | scriptType (token : String)
  | checksumMismatch (found expected : String)
  | checksumFormat (checksum : String)
  | children (type : ScriptType) (fault : ChildFault)
  | key (text : String) (fault : KeyFault)
  | nonexistentIndex (index : Nat) (hardened : Bool)
  | derivation (fault : DerivationFault)
  | range (start count : Nat)
  | notRanged (text : String)
  | rangeMismatch (first : KeyRange) (position : Nat) (other : KeyRange)
  | output (script : Bytes)
  | payment (fault : PaymentFault)
  | argument (position : Nat) (text : String) (cause : Error)
  deriving DecidableEq, Repr

inductive ErrorKind
  | grammar
  | checksumMismatch
  | structural
  | keyDecode
  | derivation
  | unsupportedOutput
  | keyRange
  | payment
  deriving DecidableEq, Repr

def maxMultisigKeys : Nat := 20

/-- The most bytes that a spend can push onto the stack at once. -/
def maxScriptElementSize : Nat := 520

def GrammarFault.message : GrammarFault → String
  | .nonAscii => "non-ascii input"
  | .noCall => "no matching script expression"
  | .nesting => "script type not allowed at this nesting level"

def ChildFault.message : ChildFault → String
  | .foreign child => "child " ++ child ++ " belongs to a different network"
  | .unexpected expected found => "expected " ++ expected.token ++ ", got " ++ found.token
  | .single expected 0 => "expected a single " ++ expected.token ++ ", got no children"
  | .single expected count =>
    "expected a single " ++ expected.token ++ ", got " ++ toString count ++ " children"
  | .notWrappable type => type.token ++ " script cannot be wrapped"
  | .tooFew count => s!"expected a number and at least 2 keys, got {count} children"
  | .threshold found => "expected number as first child, got " ++ found.token
  | .notKey position found =>
    "expected key as child #" ++ toString position ++ ", got " ++ found.token
  | .uncompressed key => "uncompressed public key (" ++ key ++ ")"

def KeyFault.message : KeyFault → String
  | .unknownType => "unknown key type"
  | .wildcard => "invalid path wildcard"
  | .expression => "invalid key expression"
  | .path => "invalid derivation path"
  | .pathOnSingleKey => "derivation path on a non-extended key"
  | .extendedKey => "invalid extended key"
  | .publicKey => "invalid public key"
  | .privateKey => "invalid (WIF formatted) private key"

def DerivationFault.message : DerivationFault → String
  | .indexOutOfRange index => s!"child number {index} is invalid (not within [0, 2^31 - 1])"
  | .hardenedFromPublic => "cannot derive hardened key from public key"
  | .tooDeep => "cannot derive child of depth 256 or higher"
  | .other reason => reason

namespace PaymentFault

def template : PaymentFault → Template
  | .keyCount _ | .threshold _ _ => .p2ms
  | .redeemScriptSize _ => .p2sh
  | .uncompressedKey => .p2wpkh
  | .uncompressedKeyInWitness => .p2wsh
  | .noAddress template => template

def message : PaymentFault → String
  | .keyCount count =>
    "invalid number of keys (" ++ toString count ++ "); expected 1..=" ++ toString maxMultisigKeys
  | .threshold needed count => s!"invalid threshold ({needed}) for {count} keys"
  | .redeemScriptSize size => s!"redeem script too large ({size} > {maxScriptElementSize})"
  | .uncompressedKey => "segwit public keys must always be compressed"
  | .uncompressedKeyInWitness => "witness script contains uncompressed pubkey"
  | .noAddress _ => "script is not a p2pkh, p2sh or witness program"

end PaymentFault

namespace Error

/-- The error behind all argument positions. -/
def rootCause : Error → Error
  | .argument _ _ cause => cause.rootCause
  | error => error

def kind : Error → ErrorKind
  | .argument _ _ cause => cause.kind
  | .grammar .. | .missingArguments .. | .number _ | .hex _ | .address _ | .scriptType _ => .grammar
  | .checksumMismatch .. => .checksumMismatch
  | .checksumFormat _ | .children .. => .structural
  | .key .. => .keyDecode
  | .nonexistentIndex .. | .derivation _ => .derivation
  | .range .. | .notRanged _ | .rangeMismatch .. => .keyRange
  | .output _ => .unsupportedOutput
  | .payment _ => .payment

theorem kind_rootCause (error : Error) : error.rootCause.kind = error.kind := by
  induction error with
  | argument _ _ _ ih => exact ih
  | _ => rfl

def message : Error → String
  | .grammar text fault => "no matching text (" ++ text ++ "): " ++ fault.message
  | .missingArguments expected found => s!"missing arguments; expected: {expected}, got: {found}"
  | .number text => s!"invalid number ({text})"
  | .hex text => s!"invalid hex string ({text})"
  | .address text => s!"invalid bitcoin address ({text})"
  | .scriptType token => s!"unknown script type ({token})"
  | .checksumMismatch found expected => s!"invalid checksum ({found}); expected '{expected}'"
  | .checksumFormat checksum => s!"invalid checksum format ({checksum})"
  | .children type fault =>
    "[" ++ type.token ++ "] inconsistent child expressions; " ++ fault.message
  | .key text fault => fault.message ++ " (" ++ text ++ ")"
  | .nonexistentIndex index hardened =>
    "error deriving extended key: nonexistent index (" ++ pathIndexText index hardened ++ ")"
  | .derivation fault => "error deriving extended key: " ++ fault.message
  | .range start count => s!"invalid key range (start: {start}, count: {count})"
  | .notRanged text => s!"key is not from range ({text})"
  | .rangeMismatch first position other =>
    "key range mismatch; key #1: " ++ first.text ++ ", key #" ++ toString position ++ ": " ++
      other.text
  | .output script => "non-standard output script (" ++ Hex.encode script ++ ")"
  | .payment fault =>
    "error deriving " ++ fault.template.token ++ " payment: " ++ fault.message
  | .argument position text cause =>
    "error parsing argument #" ++ toString position ++ " (" ++ text ++ "): " ++ cause.message

end Error

end OutputDescriptor
