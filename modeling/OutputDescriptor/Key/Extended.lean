import OutputDescriptor.Key.ChildNumber
import OutputDescriptor.Key.Single

/-! Extended keys: a public or secret key with what is needed to derive its children. -/
namespace OutputDescriptor

inductive KeyMaterial
  | point (point : Point)
  | secret (secret : SecretKey)
  deriving DecidableEq

structure ExtendedKey where
  network : NetworkKind
  depth : UInt8
  parentFingerprint : FixedBytes 4
  childNumber : ChildNumber
  chainCode : FixedBytes 32
  material : KeyMaterial
  deriving DecidableEq

def KeyMaterial.publicPoint : KeyMaterial → Point
  | .point p => p
  | .secret s => s.point

namespace ExtendedKey

def isPrivate (key : ExtendedKey) : Bool :=
  match key.material with
  | .point _ => false
  | .secret _ => true

/-- The public keys of extended keys are always compressed. -/
def publicKey (key : ExtendedKey) : PublicKey := ⟨key.material.publicPoint, true⟩

def neuter (key : ExtendedKey) : ExtendedKey :=
  { key with material := .point key.material.publicPoint }

/-- The first bytes of the hash of the public key, by which children name their parent. -/
def fingerprint (key : ExtendedKey) : FixedBytes 4 :=
  (hash160 key.publicKey.toBytes).take 4 (by decide)

def versionNumber : NetworkKind → Bool → Nat
  | .main, false => 0x0488b21e
  | .main, true => 0x0488ade4
  | .test, false => 0x043587cf
  | .test, true => 0x04358394

/-- A secret is written after a zero byte, so that it is as long as a public key. -/
def materialBytes (key : ExtendedKey) : Bytes :=
  match key.material with
  | .point _ => key.publicKey.toBytes
  | .secret s => 0 :: s.toBytes

def toPayload (key : ExtendedKey) : Bytes :=
  Bytes.ofNat 4 (versionNumber key.network key.isPrivate) ++ key.depth ::
    key.parentFingerprint.val ++ Bytes.ofNat 4 key.childNumber.toNat ++ key.chainCode.val ++
      key.materialBytes

def toText (key : ExtendedKey) : String := String.ofList (Base58.encodeCheck key.toPayload)

/-- The byte before a secret may have any value. -/
def materialOfBytes? (secret : Bool) (bytes : Bytes) : Option KeyMaterial :=
  if secret then (SecretKey.of? (Bytes.toNat (bytes.drop 1))).map .secret
  else (PublicKey.ofBytes? bytes).map fun key => .point key.point

def ofPayload? (secret : Bool) (payload : Bytes) : Option ExtendedKey := do
  let version := Bytes.toNat (payload.take 4)
  let network ← [NetworkKind.main, .test].find? (versionNumber · secret = version)
  let depth ← payload[4]?
  let parentFingerprint ← FixedBytes.take? 4 (payload.drop 5)
  let childNumber := ChildNumber.ofNat (Bytes.toNat ((payload.drop 9).take 4))
  let chainCode ← FixedBytes.take? 32 (payload.drop 13)
  let material ← materialOfBytes? secret (payload.drop 45)
  if payload.length = 78 then
    some ⟨network, depth, parentFingerprint, childNumber, chainCode, material⟩
  else none

/-- The beginnings of the texts of extended keys. The version bytes are chosen to give them. -/
def secretMarks : List (List Char) := ["xprv".toList, "tprv".toList]

def publicMarks : List (List Char) := ["xpub".toList, "tpub".toList]

/-- The mark tells whether a secret is read. -/
def ofText? (text : String) : Option ExtendedKey := do
  let secret := secretMarks.any (·.isPrefixOf text.toList)
  ofPayload? secret (← Base58.decodeCheck? text.toList)

end ExtendedKey

end OutputDescriptor
