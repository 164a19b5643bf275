import OutputDescriptor.Except
import OutputDescriptor.Key.Scheme

/-! Key expressions, and the public keys that they stand for. -/
namespace OutputDescriptor

/-- Where a key comes from: the fingerprint of a master key and the path from it. -/
structure KeyOrigin where
  fingerprint : FixedBytes 4
  /-- The path as written, with the slash before it. -/
  path : Option String
  deriving DecidableEq

def KeyOrigin.text (origin : KeyOrigin) : String :=
  "[" ++ Hex.encode origin.fingerprint.val ++ origin.path.getD "" ++ "]"

inductive KeyType
  | single
  | extended
  deriving DecidableEq, Repr

def KeyType.token : KeyType → String
  | .single => "ecpair"
  | .extended => "extpair"

/-- The last term of a key path, if it stands for all children. -/
inductive Wildcard
  | none
  | unhardened
  | hardened
  deriving DecidableEq, Repr

namespace Wildcard

def isHardened : Wildcard → Bool
  | .hardened => true
  | .none | .unhardened => false

def token : Wildcard → String
  | .none => ""
  | .unhardened => "/*"
  | .hardened => "/*'"

end Wildcard

/-- An extended key stands for itself or for a range of its children. -/
inductive KeyTail
  | itself
  | children (hardened : Bool) (range : KeyRange)
  deriving DecidableEq

inductive KeyPair
  | publicOnly (key : PublicKey)
  | withPrivate (key : PrivateKey)
  | extended (key : ExtendedKey) (tail : KeyTail)
  deriving DecidableEq

/-- A key argument. An extended key is already derived along the fixed part of its path. -/
structure KeyExpr where
  network : Network
  text : String
  origin : Option KeyOrigin
  pair : KeyPair
  deriving DecidableEq

namespace KeyExpr

def type (key : KeyExpr) : KeyType :=
  match key.pair with
  | .publicOnly _ | .withPrivate _ => .single
  | .extended _ _ => .extended

/-- The public key before any wildcard is expanded. -/
def publicKey (key : KeyExpr) : PublicKey :=
  match key.pair with
  | .publicOnly k => k
  | .withPrivate k => k.publicKey
  | .extended k _ => k.publicKey

def isCompressed (key : KeyExpr) : Bool := key.publicKey.compressed

def wildcard (key : KeyExpr) : Wildcard :=
  match key.pair with
  | .extended _ (.children hardened _) => if hardened then .hardened else .unhardened
  | _ => .none

def range? (key : KeyExpr) : Option KeyRange :=
  match key.pair with
  | .extended _ (.children _ range) => some range
  | _ => none

def isRanged (key : KeyExpr) : Bool := key.range?.isSome

def withRange? (key : KeyExpr) (range : KeyRange) : Option KeyExpr :=
  match key.pair with
  | .extended k (.children hardened _) =>
    some { key with pair := .extended k (.children hardened range) }
  | _ => none

def setRange (key : KeyExpr) (range : KeyRange) : Except Error KeyExpr :=
  match key.withRange? range with
  | some key => .ok key
  | none => .error (.notRanged key.text)

/-- Set the range in place. A key that cannot have one stays as it is. -/
def assignRange (range : KeyRange) (key : KeyExpr) : KeyExpr × Except Error Unit :=
  match key.setRange range with
  | .ok ranged => (ranged, .ok ())
  | .error e => (key, .error e)

/-- The key at an index of a wildcard; nothing if it does not exist and none stands in for it. -/
def childPublicKey (ctx : Context) (key : ExtendedKey) (hardened : Bool) (index : Nat) :
    Except Error (Option PublicKey) := do
  let child ← ctx.scheme.deriveChild key index hardened
  let requested ← ChildNumber.ofIndex index hardened
  if child.childNumber = requested ∨ ctx.options.ignoreNonexistentIndex then
    return some child.key.publicKey
  else return none

section

variable {ctx : Context} {k : ExtendedKey} {index : Nat} {hardened : Bool}

theorem childPublicKey_of_lt (h : index < hardenedBase) : childPublicKey ctx k hardened index =
      ctx.scheme.deriveChild k index hardened >>= fun child =>
        .ok (if child.childNumber = ⟨index, hardened, h⟩ ∨ ctx.options.ignoreNonexistentIndex then
          some child.key.publicKey else none) := by
  unfold childPublicKey
  simp only [ChildNumber.ofIndex_of_lt h, Except.ok_bind]
  refine bind_congr fun child => ?_
  split <;> rfl

theorem lt_of_childPublicKey_eq_ok {found : Option PublicKey} (h : childPublicKey ctx k hardened index = .ok found) :
    index < hardenedBase := by
  obtain ⟨child, -, h⟩ := Except.bind_eq_ok_iff.mp h
  obtain ⟨requested, hrequested, -⟩ := Except.bind_eq_ok_iff.mp h
  rw [← (ChildNumber.ofIndex_eq_ok_iff.mp hrequested).1]
  exact requested.index_lt

end

/-- The public keys that the expression stands for, one for each index of its range. -/
def publicKeys (ctx : Context) (key : KeyExpr) : Except Error (List (Option PublicKey)) :=
  match key.pair with
  | .extended k (.children hardened range) =>
    range.indices.mapM (childPublicKey ctx k hardened)
  | _ => .ok [some key.publicKey]

end KeyExpr

end OutputDescriptor
