import OutputDescriptor.Hash.Sha512
import OutputDescriptor.Key.Extended
import OutputDescriptor.Limits

/-! Children of extended keys. -/
namespace OutputDescriptor

/-- A child key, and the child number it really has: an index without a key is skipped. -/
structure DerivedChild where
  key : ExtendedKey
  childNumber : ChildNumber
  deriving DecidableEq

/-- The key of a child, or nothing if the tweak leads out of the group. -/
def KeyMaterial.tweak? (material : KeyMaterial) (tweak : Nat) : Option KeyMaterial :=
  if groupOrder ≤ tweak then none
  else
    match material with
    | .point p => (p.tweak? tweak).map .point
    | .secret s => (SecretKey.of? ((tweak + s.scalar) % groupOrder)).map .secret

namespace ExtendedKey

/-- Hardened children depend on the secret, the others on the public key alone. -/
def childSeed (parent : ExtendedKey) (number : ChildNumber) : FixedBytes 64 :=
  let key := if number.hardened then parent.materialBytes else parent.publicKey.toBytes
  hmacSha512 parent.chainCode.val (key ++ Bytes.ofNat 4 number.toNat)

/-- The child with the given number; nothing if there is no key at that number. -/
def child? (parent : ExtendedKey) (number : ChildNumber) : Except Error (Option ExtendedKey) :=
  if number.hardened ∧ ¬parent.isPrivate then .error (.derivation .hardenedFromPublic)
  else if parent.depth = 255 then .error (.derivation .tooDeep)
  else
    let seed := parent.childSeed number
    .ok <| (parent.material.tweak? (Bytes.toNat (seed.val.take 32))).map fun material =>
      { network := parent.network
        depth := parent.depth + 1
        parentFingerprint := parent.fingerprint
        childNumber := number
        chainCode := seed.drop 32
        material }

theorem network_child? {parent child : ExtendedKey} {number : ChildNumber}
    (h : parent.child? number = .ok (some child)) : child.network = parent.network := by
  unfold child? at h
  split at h
  · cases h
  · split at h
    · cases h
    · obtain ⟨material, -, rfl⟩ := Option.map_eq_some_iff.mp (Except.ok.inj h)
      rfl

/-- The child at an index, or at the first index after it that has a key. -/
def deriveChild (parent : ExtendedKey) (index : Nat) (hardened : Bool) :
    Except Error DerivedChild :=
  if h : index < hardenedBase then
    match parent.child? ⟨index, hardened, h⟩ with
    | .error e => .error e
    | .ok (some key) => .ok ⟨key, ⟨index, hardened, h⟩⟩
    | .ok none => parent.deriveChild (index + 1) hardened
  else .error (.derivation (.indexOutOfRange index))
termination_by hardenedBase - index

theorem network_deriveChild {parent : ExtendedKey} {index : Nat} {hardened : Bool}
    {child : DerivedChild} (h : parent.deriveChild index hardened = .ok child) :
    child.key.network = parent.network := by
  fun_induction deriveChild parent index hardened with
  | case1 => cases h
  | case2 index hindex key hkey =>
    cases h
    exact network_child? hkey
  | case3 _ _ _ ih => exact ih h
  | case4 => cases h

end ExtendedKey

end OutputDescriptor
