import OutputDescriptor.Curve.Group
import OutputDescriptor.Network
import OutputDescriptor.Text.Base58
import OutputDescriptor.Text.Hex

/-! Public keys, secrets, and the text formats of single keys. -/
namespace OutputDescriptor

/-- A point, and whether it is written as one coordinate or as both. -/
structure PublicKey where
  point : Point
  compressed : Bool
  deriving DecidableEq

namespace PublicKey

/-- The first byte tells the parity of the second coordinate, or that both follow. -/
def toBytes (key : PublicKey) : Bytes :=
  let x := Bytes.ofNat 32 key.point.x.val
  if key.compressed then (if key.point.y.isOdd then 3 else 2) :: x
  else 4 :: x ++ Bytes.ofNat 32 key.point.y.val

/-- Keys that give both coordinates and the parity are refused. -/
def ofBytes? (bytes : Bytes) : Option PublicKey := do
  let tag ← bytes.head?
  let x ← Coordinate.ofNat? (Bytes.toNat ((bytes.drop 1).take 32))
  if bytes.length = 33 ∧ (tag = 2 ∨ tag = 3) then
    let point ← Point.lift? x (tag = 3)
    return ⟨point, true⟩
  else if bytes.length = 65 ∧ tag = 4 then
    let y ← Coordinate.ofNat? (Bytes.toNat (bytes.drop 33))
    let point ← Point.of? x y
    return ⟨point, false⟩
  else none

def ofHex? (text : String) : Option PublicKey := do ofBytes? (← Hex.decode? text)

def toHex (key : PublicKey) : String := Hex.encode key.toBytes

end PublicKey

/-- A secret number below the group order together with its public point. -/
structure SecretKey where
  scalar : Nat
  point : Point
  scalar_lt : scalar < groupOrder
  multiple : Point.ofScalar? scalar = some point
  deriving DecidableEq

namespace SecretKey

/-- Zero is no secret, as its multiple is the point at infinity. -/
def of? (scalar : Nat) : Option SecretKey :=
  if h : scalar < groupOrder then
    match hp : Point.ofScalar? scalar with
    | some point => some ⟨scalar, point, h, hp⟩
    | none => none
  else none

def toBytes (secret : SecretKey) : Bytes := Bytes.ofNat 32 secret.scalar

end SecretKey

structure PrivateKey where
  network : NetworkKind
  compressed : Bool
  secret : SecretKey
  deriving DecidableEq

namespace PrivateKey

def publicKey (key : PrivateKey) : PublicKey := ⟨key.secret.point, key.compressed⟩

def versionByte : NetworkKind → UInt8
  | .main => 128
  | .test => 239

/-- A key whose public key is compressed has a trailing one. -/
def toText (key : PrivateKey) : String :=
  let mark : Bytes := if key.compressed then [1] else []
  String.ofList (Base58.encodeCheck (versionByte key.network :: key.secret.toBytes ++ mark))

/-- The trailing byte may have any value. -/
def ofPayload? (payload : Bytes) : Option PrivateKey := do
  let version ← payload.head?
  let secret ← SecretKey.of? (Bytes.toNat ((payload.drop 1).take 32))
  let compressed ←
    if payload.length = 33 then some false else if payload.length = 34 then some true else none
  let network ← [NetworkKind.main, .test].find? (versionByte · = version)
  return ⟨network, compressed, secret⟩

def ofText? (text : String) : Option PrivateKey := do
  ofPayload? (← Base58.decodeCheck? text.toList)

end PrivateKey

end OutputDescriptor
