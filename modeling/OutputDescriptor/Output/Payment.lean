import OutputDescriptor.Limits
import OutputDescriptor.Output.Address
import OutputDescriptor.Output.Script

/-! Payments: output scripts of a known form, with their addresses and the scripts behind them. -/
namespace OutputDescriptor

namespace Template

def fits (template : Template) (script : Bytes) : Bool :=
  match template with
  | .p2pkh => (Address.ofScriptAs? .bitcoin script .p2pkh).isSome
  | .p2wpkh => (Address.ofScriptAs? .bitcoin script .p2wpkh).isSome
  | .p2sh => (Address.ofScriptAs? .bitcoin script .p2sh).isSome
  | .p2wsh => (Address.ofScriptAs? .bitcoin script .p2wsh).isSome
  | .p2pk => (Script.payToKey? script).isSome
  | .p2ms => (Script.multisig? script).isSome
  | .nulldata => Script.isNullData script

/-- The templates in the order in which an output script is compared with them. -/
def all : List Template := [.p2wpkh, .p2pkh, .p2wsh, .p2sh, .p2pk, .p2ms, .nulldata]

/-- The templates in the order in which an address is compared with them. -/
def withAddress : List Template := [.p2wpkh, .p2pkh, .p2wsh, .p2sh]

end Template

def Address.ofText (text : String) (network : Network) :
    Except Error { address : Address // address.isFor network } :=
  match Address.ofChars? text.toList with
  | none => .error (.address text)
  | some address =>
    if h : address.isFor network then .ok ⟨address, h⟩ else .error (.address text)

theorem Instruction.pushBytes_val {n : Nat} (bytes : FixedBytes n) :
    pushBytes bytes.val = UInt8.ofNat n :: bytes.val := by
  rw [pushBytes, bytes.property]

theorem Address.script_eq (address : Address) : address.script =
    match address with
    | .p2pkh _ hash => Script.payToKeyHash hash
    | .p2sh _ hash => Script.payToScriptHash hash
    | .p2wpkh _ hash => Script.payToWitnessHash hash
    | .p2wsh _ hash => Script.payToWitnessHash hash := by
  cases address with
  | p2pkh _ hash =>
    simp only [Script.payToKeyHash, Instruction.pushBytes_val]
    rfl
  | p2sh _ hash =>
    simp only [Script.payToScriptHash, Instruction.pushBytes_val]
    rfl
  | p2wpkh _ hash | p2wsh _ hash =>
    simp only [Script.payToWitnessHash, Instruction.pushBytes_val]
    exact List.append_nil _

structure Payment where
  template : Template
  outputScript : Bytes
  address : Option Address
  redeemScript : Option Bytes
  deriving DecidableEq

namespace Payment

def ofAddress (address : Address) : Payment :=
  ⟨address.kind.template, address.script, some address, none⟩

def p2pk (key : PublicKey) : Payment := ⟨.p2pk, Script.payToKey key, none, none⟩

def p2pkh (key : PublicKey) (network : Network) : Payment :=
  let hash := hash160 key.toBytes
  ⟨.p2pkh, Script.payToKeyHash hash, some (.p2pkh network.kind hash), none⟩

/-- Witness outputs take compressed keys only. -/
def p2wpkh (key : PublicKey) (network : Network) : Except Error Payment :=
  let hash := hash160 key.toBytes
  if key.compressed then
    .ok ⟨.p2wpkh, Script.payToWitnessHash hash, some (.p2wpkh network hash), none⟩
  else .error (.payment .uncompressedKey)

def p2ms (threshold : Nat) (keys : List PublicKey) : Except Error Payment := do
  checkMultisig threshold keys.length
  return ⟨.p2ms, Script.multisig threshold keys, none, none⟩

def p2sh (redeem : Payment) (network : Network) : Except Error Payment := do
  let script := redeem.outputScript
  checkRedeemScriptSize script.length
  let address := Address.p2sh network.kind (hash160 script)
  return ⟨.p2sh, address.script, some address, some script⟩

/-- Commit to the output script of another payment, which may not push an uncompressed key. -/
def p2wsh (witness : Payment) (network : Network) : Except Error Payment :=
  let script := witness.outputScript
  let hash := sha256 script
  if Script.hasUncompressedKey script then .error (.payment .uncompressedKeyInWitness)
  else .ok ⟨.p2wsh, Script.payToWitnessHash hash, some (.p2wsh network hash), some script⟩

def ofAddressText (text : String) (network : Network) : Except Error Payment := do
  let address ← Address.ofText text network
  match Template.withAddress.find? (·.addressKind? = some address.val.kind) with
  | some template => return ⟨template, address.val.script, some address.val, none⟩
  | none => throw (.address text)

/-- Read an output script by the first template that fits it, which fails if it lacks an address. -/
def classify (templates : List Template) (fault : Template → PaymentFault) (script : Bytes)
    (network : Network) : Except Error Payment :=
  match templates.find? (·.fits script) with
  | none => .error (.output script)
  | some template =>
    if template.hasAddress then
      match Address.ofScript? network script with
      | some address => .ok ⟨template, script, some address, none⟩
      | none => .error (.payment (fault template))
    else .ok ⟨template, script, none, none⟩

def ofOutputScript (script : Bytes) (network : Network) : Except Error Payment :=
  classify Template.all .noAddress script network

theorem p2pkh_eq_ofAddress (key : PublicKey) (network : Network) :
    p2pkh key network = ofAddress (.p2pkh network.kind (hash160 key.toBytes)) := by
  rw [ofAddress, Address.script_eq]
  rfl

theorem p2wpkh_eq_ofAddress {key : PublicKey} (h : key.compressed) (network : Network) :
    p2wpkh key network = .ok (ofAddress (.p2wpkh network (hash160 key.toBytes))) := by
  rw [ofAddress, Address.script_eq]
  exact if_pos h

theorem p2wsh_eq_ofAddress {witness : Payment}
    (h : Script.hasUncompressedKey witness.outputScript = false) (network : Network) :
    p2wsh witness network =
      .ok { ofAddress (.p2wsh network (sha256 witness.outputScript)) with
        redeemScript := some witness.outputScript } := by
  rw [ofAddress, Address.script_eq]
  exact if_neg (Bool.eq_false_iff.mp h)

/-- An address always has one of the templates that it is compared with. -/
theorem ofAddressText_eq (text : String) (network : Network) : ofAddressText text network =
    (Address.ofText text network).map fun address => ofAddress address.val := by
  have hfound (kind : AddressKind) :
      Template.withAddress.find? (·.addressKind? = some kind) = some kind.template := by
    cases kind <;> rfl
  rw [ofAddressText]
  cases Address.ofText text network with
  | error e => rfl
  | ok address =>
    change (match Template.withAddress.find? _ with | some _ => _ | none => _) = _
    rw [hfound]
    rfl

end Payment

end OutputDescriptor
