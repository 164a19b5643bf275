import OutputDescriptor.Key.Expr
import OutputDescriptor.Script.Leaf

/-! Script expressions, and the expressions that they are made of. -/
namespace OutputDescriptor

/-- What every script expression carries besides its arguments. -/
structure Label where
  network : Network
  text : String
  checksum : Option String
  deriving DecidableEq

inductive ScriptExpr
  | wrapped (label : Label) (wrapper : Wrapper) (inner : ScriptExpr)
  | keyed (label : Label) (form : KeyForm) (key : KeyExpr)
  | multisig (label : Label) (sorted : Bool) (threshold : NumberExpr) (keys : List KeyExpr)
  | addr (label : Label) (address : AddrExpr)
  | raw (label : Label) (hex : HexExpr)
  deriving DecidableEq

inductive Expr
  | script (script : ScriptExpr)
  | key (key : KeyExpr)
  | addr (address : AddrExpr)
  | hex (hex : HexExpr)
  | number (number : NumberExpr)
  deriving DecidableEq

namespace ScriptExpr

def label : ScriptExpr → Label
  | .wrapped label _ _ | .keyed label _ _ | .multisig label _ _ _ | .addr label _ | .raw label _ =>
    label

def type : ScriptExpr → ScriptType
  | .wrapped _ wrapper _ => .wrapper wrapper
  | .keyed _ form _ => .keyed form
  | .multisig _ sorted _ _ => .multisig sorted
  | .addr _ _ => .addr
  | .raw _ _ => .raw

def network (script : ScriptExpr) : Network := script.label.network

/-- The text the expression was read from, with its checksum. -/
def text (script : ScriptExpr) : String := script.label.text

def checksum (script : ScriptExpr) : Option String := script.label.checksum

def children : ScriptExpr → List Expr
  | .wrapped _ _ inner => [.script inner]
  | .keyed _ _ key => [.key key]
  | .multisig _ _ threshold keys => .number threshold :: keys.map .key
  | .addr _ address => [.addr address]
  | .raw _ hex => [.hex hex]

def inner? : ScriptExpr → Option ScriptExpr
  | .wrapped _ _ inner => some inner
  | _ => none

def key? : ScriptExpr → Option KeyExpr
  | .keyed _ _ key => some key
  | _ => none

def threshold? : ScriptExpr → Option NumberExpr
  | .multisig _ _ threshold _ => some threshold
  | _ => none

def keys : ScriptExpr → List KeyExpr
  | .keyed _ _ key => [key]
  | .multisig _ _ _ keys => keys
  | _ => []

def addr? : ScriptExpr → Option AddrExpr
  | .addr _ address => some address
  | _ => none

def hex? : ScriptExpr → Option HexExpr
  | .raw _ hex => some hex
  | _ => none

end ScriptExpr

namespace Expr

def kind : Expr → ExprKind
  | .script _ => .script
  | .key _ => .key
  | .addr _ => .addr
  | .hex _ => .hex
  | .number _ => .number

def network : Expr → Network
  | .script e => e.network
  | .key e => e.network
  | .addr e => e.network
  | .hex e => e.network
  | .number e => e.network

def text : Expr → String
  | .script e => e.text
  | .key e => e.text
  | .addr e => e.text
  | .hex e => e.text
  | .number e => e.text

end Expr

end OutputDescriptor
