/-! The standard forms of output scripts and the kinds of addresses. -/
namespace OutputDescriptor

inductive Template
  | p2pkh
  | p2wpkh
  | p2sh
  | p2wsh
  | p2pk
  | p2ms
  | nulldata
  deriving DecidableEq, Repr

inductive AddressKind
  | p2pkh
  | p2sh
  | p2wpkh
  | p2wsh
  deriving DecidableEq, Repr

namespace Template

def token : Template → String
  | .p2pkh => "p2pkh"
  | .p2wpkh => "p2wpkh"
  | .p2sh => "p2sh"
  | .p2wsh => "p2wsh"
  | .p2pk => "p2pk"
  | .p2ms => "p2ms"
  | .nulldata => "nulldata"

def addressKind? : Template → Option AddressKind
  | .p2pkh => some .p2pkh
  | .p2wpkh => some .p2wpkh
  | .p2sh => some .p2sh
  | .p2wsh => some .p2wsh
  | .p2pk | .p2ms | .nulldata => none

def hasAddress (template : Template) : Bool := template.addressKind?.isSome

end Template

namespace AddressKind

def template : AddressKind → Template
  | .p2pkh => .p2pkh
  | .p2sh => .p2sh
  | .p2wpkh => .p2wpkh
  | .p2wsh => .p2wsh

def token (kind : AddressKind) : String := kind.template.token

def ofToken? : String → Option AddressKind
  | "p2pkh" => some .p2pkh
  | "p2sh" => some .p2sh
  | "p2wpkh" => some .p2wpkh
  | "p2wsh" => some .p2wsh
  | _ => none

theorem addressKind?_template (kind : AddressKind) : kind.template.addressKind? = some kind := by
  cases kind <;> rfl

end AddressKind

end OutputDescriptor
