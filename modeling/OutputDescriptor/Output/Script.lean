import OutputDescriptor.Key.Single
import OutputDescriptor.Output.Instruction

/-! Scripts that pay to keys, written and recognised. -/
namespace OutputDescriptor

namespace Instruction

def key? : Instruction → Option PublicKey
  | .push data => PublicKey.ofBytes? data
  | .op _ => none

def isPush : Instruction → Bool
  | .push _ => true
  | .op _ => false

/-- Of all keys only the uncompressed ones have 65 bytes. -/
def pushesUncompressedKey : Instruction → Bool
  | .push data => data.length = 65 && (PublicKey.ofBytes? data).isSome
  | .op _ => false

end Instruction

namespace Script

def checkSig : UInt8 := 0xac

def checkMultisig : UInt8 := 0xae

def opReturn : UInt8 := 0x6a

def opDup : UInt8 := 0x76

def opHash160 : UInt8 := 0xa9

def opEqual : UInt8 := 0x87

def opEqualVerify : UInt8 := 0x88

def payToKey (key : PublicKey) : Bytes := Instruction.pushBytes key.toBytes ++ [checkSig]

def multisig (threshold : Nat) (keys : List PublicKey) : Bytes :=
  Instruction.numberBytes threshold ++
    keys.flatMap (fun key => Instruction.pushBytes key.toBytes) ++
      Instruction.numberBytes keys.length ++ [checkMultisig]

def payToKeyHash (hash : FixedBytes 20) : Bytes :=
  [opDup, opHash160] ++ Instruction.pushBytes hash.val ++ [opEqualVerify, checkSig]

def payToScriptHash (hash : FixedBytes 20) : Bytes :=
  [opHash160] ++ Instruction.pushBytes hash.val ++ [opEqual]

/-- Witness outputs of version 0 pay to the hash of a key or of a script. -/
def payToWitnessHash {n : Nat} (hash : FixedBytes n) : Bytes :=
  [0] ++ Instruction.pushBytes hash.val

def payToKey? (script : Bytes) : Option PublicKey :=
  match Instruction.ofScript? script with
  | some [push, .op code] => if code = checkSig then push.key? else none
  | _ => none

/-- The threshold and the keys of a multisig script whose numbers have codes of their own. -/
def multisig? (script : Bytes) : Option (Nat × List PublicKey) := do
  let instructions ← Instruction.ofScript? script
  let threshold ← instructions.head?
  let last ← instructions.tail.getLast?
  let body := instructions.tail.dropLast
  let total ← body.getLast?
  if last = .op checkMultisig then
    let m ← threshold.number?
    let n ← total.number?
    let keys ← body.dropLast.mapM Instruction.key?
    if m ≤ n ∧ n = keys.length then some (m, keys) else none
  else none

/-- Only data is pushed after the code that ends the script. -/
def isNullData (script : Bytes) : Bool :=
  script.head? = some opReturn &&
    (Instruction.ofScript? script).any fun instructions =>
      instructions.tail.all Instruction.isPush

/-- Instructions after one that is cut short do not count. -/
def hasUncompressedKey (script : Bytes) : Bool :=
  (Instruction.ofScript script).1.any Instruction.pushesUncompressedKey

end Script

end OutputDescriptor
