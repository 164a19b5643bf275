import OutputDescriptor.Key.Derivation

/-! How the text of keys is decoded and how children are derived. -/
namespace OutputDescriptor

/-- The operations on keys that reading and evaluating a descriptor relies on. -/
structure KeyScheme where
  decodeExtendedKey : String → Network → Except Error ExtendedKey
  deriveChild : ExtendedKey → Nat → Bool → Except Error DerivedChild
  decodePublicKey : String → Except Error PublicKey
  decodePrivateKey : String → Network → Except Error PrivateKey

namespace KeyScheme

/-- A key of another kind of network is refused. -/
def decodeExtendedKey? (text : String) (network : Network) : Option ExtendedKey :=
  (ExtendedKey.ofText? text).filter (·.network = network.kind)

def decodePrivateKey? (text : String) (network : Network) : Option PrivateKey :=
  (PrivateKey.ofText? text).filter (·.network = network.kind)

def orKeyError {α : Type} (key : Option α) (text : String) (fault : KeyFault) : Except Error α :=
  match key with
  | some key => .ok key
  | none => .error (.key text fault)

theorem orKeyError_eq_ok_iff {α : Type} {found : Option α} {text : String}
    {fault : KeyFault} {key : α} : orKeyError found text fault = .ok key ↔ found = some key := by
  cases found with
  | none => simp [orKeyError]
  | some found => simp [orKeyError]

theorem orKeyError_filter_eq_ok_iff {α : Type} {found : Option α} {P : α → Prop} [DecidablePred P]
    {text : String} {fault : KeyFault} {key : α} :
    orKeyError (found.filter (P ·)) text fault = .ok key ↔ found = some key ∧ P key := by
  rw [orKeyError_eq_ok_iff, Option.filter_eq_some_iff, decide_eq_true_iff]

/-- Keys as wallets write them, with the standard derivation of children. -/
def standard : KeyScheme where
  decodeExtendedKey text network := orKeyError (decodeExtendedKey? text network) text .extendedKey
  deriveChild := ExtendedKey.deriveChild
  decodePublicKey text := orKeyError (PublicKey.ofHex? text) text .publicKey
  decodePrivateKey text network := orKeyError (decodePrivateKey? text network) text .privateKey

theorem decodeExtendedKey_eq_ok_iff {text : String} {network : Network} {key : ExtendedKey} :
    standard.decodeExtendedKey text network = .ok key ↔
      ExtendedKey.ofText? text = some key ∧ key.network = network.kind :=
  orKeyError_filter_eq_ok_iff

theorem decodePrivateKey_eq_ok_iff {text : String} {network : Network} {key : PrivateKey} :
    standard.decodePrivateKey text network = .ok key ↔
      PrivateKey.ofText? text = some key ∧ key.network = network.kind :=
  orKeyError_filter_eq_ok_iff

/-- Children are keys of the same kind of network. -/
def KeepsNetwork (scheme : KeyScheme) : Prop :=
  ∀ key index hardened child, scheme.deriveChild key index hardened = .ok child →
    child.key.network = key.network

theorem keepsNetwork_standard : standard.KeepsNetwork :=
  fun _ _ _ _ => ExtendedKey.network_deriveChild

end KeyScheme

/-- If the child at an index does not exist, the next one either stands in for it or is left out. -/
structure Options where
  ignoreNonexistentIndex : Bool := true
  deriving DecidableEq, Repr

/-- What reading and evaluating a descriptor depends on besides its text. -/
structure Context where
  options : Options := {}
  scheme : KeyScheme := KeyScheme.standard

end OutputDescriptor
