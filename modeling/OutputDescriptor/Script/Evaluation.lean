import OutputDescriptor.Script.Build
import OutputDescriptor.Script.Range

/-! The payments, output scripts and addresses that a script expression stands for. -/
namespace OutputDescriptor

/-- Keep what exists. A child that stands in for the one before it is listed twice, and once is
dropped. -/
def Context.present {α : Type} [BEq α] (ctx : Context) (items : List (Option α)) : List α :=
  let found := items.filterMap id
  if ctx.options.ignoreNonexistentIndex then found.eraseReps else found

def KeyExpr.presentKeys (ctx : Context) (key : KeyExpr) : Except Error (List PublicKey) :=
  (key.publicKeys ctx).map ctx.present

namespace KeySet

/-- The order of keys in a sorted multisig script is that of their bytes. -/
def sort (keys : List PublicKey) : List PublicKey :=
  keys.mergeSort fun a b => decide (a.toBytes ≤ b.toBytes)

/-- The key of an expression at a position of the common range. A key without wildcard is the same
at all positions. -/
def keyAt (position : Nat) (key : KeyExpr) (resolved : List (Option PublicKey)) :
    Option PublicKey :=
  (resolved[if key.isRanged then position else 0]?).join

def atPosition (sorted : Bool) (entries : List (KeyExpr × List (Option PublicKey)))
    (position : Nat) : Option (List PublicKey) :=
  (entries.mapM fun (key, resolved) => keyAt position key resolved).map fun keys =>
    if sorted then sort keys else keys

/-- The key sets of a multisig call, one for every position of the common range. -/
def ofKeys (ctx : Context) (sorted : Bool) (keys : List KeyExpr) :
    Except Error (List (List PublicKey)) := do
  let range ← commonRange keys
  let resolved ← keys.mapM (·.publicKeys ctx)
  let positions := List.range (range.elim 1 KeyRange.count)
  return ctx.present (positions.map (atPosition sorted (keys.zip resolved)))

end KeySet

def Wrapper.payment (wrapper : Wrapper) (inner : Payment) (network : Network) :
    Except Error Payment :=
  match wrapper with
  | .sh => Payment.p2sh inner network
  | .wsh => Payment.p2wsh inner network

namespace ScriptExpr

/-- The calls that a combination of forms stands for. Only a compressed key has witness forms. -/
def derivedScripts (script : ScriptExpr) : Except Error (List ScriptExpr) :=
  match script with
  | .keyed label .combo key => do
    let call (type : ScriptType) (text : String) (child : Expr) : Except Error ScriptExpr :=
      ofChildren ⟨label.network, text, none⟩ type [child]
    let pk ← call (.keyed .pk) ("pk(" ++ key.text ++ ")") (.key key)
    let pkh ← call (.keyed .pkh) ("pkh(" ++ key.text ++ ")") (.key key)
    if key.isCompressed then
      let wpkh ← call (.keyed .wpkh) ("wpkh(" ++ key.text ++ ")") (.key key)
      let nested ← call (.wrapper .sh) ("sh(wpkh(" ++ key.text ++ "))") (.script wpkh)
      return [pk, pkh, wpkh, nested]
    else return [pk, pkh]
  | _ => .ok []

/-- One payment for every index of the range, in order, if the payments of a combination are known. -/
def paymentsWith (ctx : Context) (combination : ScriptExpr → Except Error (List Payment)) :
    ScriptExpr → Except Error (List Payment)
  | .wrapped label wrapper inner => do
    (← inner.paymentsWith ctx combination).mapM (wrapper.payment · label.network)
  | .keyed label form key =>
    match form with
    | .pk => return (← key.presentKeys ctx).map Payment.p2pk
    | .pkh => return (← key.presentKeys ctx).map (Payment.p2pkh · label.network)
    | .wpkh => do (← key.presentKeys ctx).mapM (Payment.p2wpkh · label.network)
    | .combo => combination (.keyed label .combo key)
  | .multisig _ sorted threshold keys => do
    (← KeySet.ofKeys ctx sorted keys).mapM (Payment.p2ms threshold.value)
  | .addr _ address => .ok [address.payment]
  | .raw label hex => do return [← Payment.ofOutputScript hex.value label.network]

/-- A combination has the payments of the calls derived from it, none of which is one itself. -/
def payments (ctx : Context) (script : ScriptExpr) : Except Error (List Payment) :=
  script.paymentsWith ctx fun combination => do
    let scripts ← combination.derivedScripts
    return (← scripts.mapM (paymentsWith ctx fun _ => .ok [])).flatten

section Payments

variable (ctx : Context) (label : Label)

theorem payments_wrapped (wrapper : Wrapper) (inner : ScriptExpr) :
    (wrapped label wrapper inner).payments ctx =
      inner.payments ctx >>= List.mapM (wrapper.payment · label.network) := rfl

theorem payments_multisig (sorted : Bool) (threshold : NumberExpr) (keys : List KeyExpr) :
    (multisig label sorted threshold keys).payments ctx =
      KeySet.ofKeys ctx sorted keys >>= List.mapM (Payment.p2ms threshold.value) := rfl

theorem payments_raw (hex : HexExpr) : (raw label hex).payments ctx =
    (Payment.ofOutputScript hex.value label.network).map ([·]) := rfl

end Payments

/-- A raw script stands for its bytes, standard or not. -/
def outputScripts (ctx : Context) (script : ScriptExpr) : Except Error (List Bytes) :=
  match script with
  | .raw _ hex => .ok [hex.value]
  | _ => (script.payments ctx).map (·.map Payment.outputScript)

/-- Scripts without addresses are not evaluated, and a raw script need not be standard. -/
def addresses (ctx : Context) (script : ScriptExpr) : Except Error (List Address) :=
  match script with
  | .keyed _ .pk _ | .multisig _ _ _ _ => .ok []
  | .raw label hex =>
    match Payment.ofOutputScript hex.value label.network with
    | .ok payment => .ok payment.address.toList
    | .error (.output _) => .ok []
    | .error e => .error e
  | _ => (script.payments ctx).map (·.filterMap Payment.address)

end ScriptExpr

end OutputDescriptor
