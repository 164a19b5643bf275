import OutputDescriptor.Key.Expr

/-! Reading the names of types. -/
namespace OutputDescriptor

def ScriptType.ofToken (token : String) : Except Error ScriptType :=
  match ScriptType.ofToken? token with
  | some type => .ok type
  | none => .error (.scriptType token)

def KeyType.ofToken : String → Except Error KeyType
  | "ecpair" => .ok .single
  | "extpair" => .ok .extended
  | token => .error (.key token .unknownType)

/-- The slash before a wildcard may be left out, and either sign of a hardened index is read. -/
def Wildcard.ofToken : String → Except Error Wildcard
  | "" => .ok .none
  | "/*" | "*" => .ok .unhardened
  | "/*'" | "/*h" | "*'" | "*h" => .ok .hardened
  | token => .error (.key token .wildcard)

namespace AddressKind

def ofToken (token : String) : Except Error AddressKind :=
  match ofToken? token with
  | some kind => .ok kind
  | none => .error (.address token)

def ofTemplate (template : Template) : Except Error AddressKind :=
  match template.addressKind? with
  | some kind => .ok kind
  | none => .error (.address template.token)

end AddressKind

end OutputDescriptor
