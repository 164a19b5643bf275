/-! The kinds of expressions and of script calls, and which call may stand inside which. -/
namespace OutputDescriptor

inductive ExprKind
  | script
  | key
  | addr
  | hex
  | number
  deriving DecidableEq, Repr

def ExprKind.token : ExprKind → String
  | .script => "script"
  | .key => "key"
  | .addr => "addr"
  | .hex => "hex"
  | .number => "number"

/-- Calls that commit to the script they wrap by its hash. -/
inductive Wrapper
  | sh
  | wsh
  deriving DecidableEq, Repr

inductive KeyForm
  | pk
  | pkh
  | wpkh
  | combo
  deriving DecidableEq, Repr

/-- The types of script calls, by the shape of their arguments. -/
inductive ScriptType
  | wrapper (wrapper : Wrapper)
  | keyed (form : KeyForm)
  | multisig (sorted : Bool)
  | addr
  | raw
  deriving DecidableEq, Repr

namespace ScriptType

def all : List ScriptType :=
  [.wrapper .sh, .wrapper .wsh, .keyed .pk, .keyed .pkh, .keyed .wpkh, .keyed .combo,
    .multisig false, .multisig true, .addr, .raw]

def token : ScriptType → String
  | .wrapper .sh => "sh"
  | .wrapper .wsh => "wsh"
  | .keyed .pk => "pk"
  | .keyed .pkh => "pkh"
  | .keyed .wpkh => "wpkh"
  | .keyed .combo => "combo"
  | .multisig false => "multi"
  | .multisig true => "sortedmulti"
  | .addr => "addr"
  | .raw => "raw"

def ofToken? (token : String) : Option ScriptType :=
  all.find? (·.token = token)

theorem ofToken?_token (type : ScriptType) : ofToken? type.token = some type := by
  match type with
  | .wrapper .sh | .wrapper .wsh | .keyed .pk | .keyed .pkh | .keyed .wpkh | .keyed .combo
  | .multisig false | .multisig true | .addr | .raw => decide

theorem ofToken?_eq_some_iff {token : String} {type : ScriptType} :
    ofToken? token = some type ↔ token = type.token := by
  constructor
  · intro h
    have htoken := List.find?_some h
    exact (of_decide_eq_true htoken).symm
  · rintro rfl
    exact ofToken?_token type

theorem isLower_of_mem_token (type : ScriptType) :
    ∀ c ∈ type.token.toList, c.isLower := by
  match type with
  | .wrapper .sh | .wrapper .wsh | .keyed .pk | .keyed .pkh | .keyed .wpkh | .keyed .combo
  | .multisig false | .multisig true | .addr | .raw => exact List.all_eq_true.mp (by decide)

/-- The kinds of the arguments in order. The last kind is that of all further arguments. -/
def argKinds : ScriptType → List ExprKind
  | .wrapper _ => [.script]
  | .keyed _ => [.key]
  | .multisig _ => [.number, .key]
  | .addr => [.addr]
  | .raw => [.hex]

/-- Whether a call of this type may be read as an argument of a call of type `parent`. -/
def allowedUnder (type parent : ScriptType) : Bool :=
  match type with
  | .wrapper .sh | .keyed .combo | .addr | .raw => false
  | .wrapper .wsh | .keyed .wpkh => parent ≠ .wrapper .wsh
  | .keyed .pk | .keyed .pkh | .multisig _ => true

/-- A complete descriptor, which has no parent, may be a call of any type. -/
def allowedIn (type : ScriptType) (parent : Option ScriptType) : Bool :=
  parent.all type.allowedUnder

/-- How many more wrappers can be opened inside a call of the given type. -/
def nestingRank : Option ScriptType → Nat
  | none => 2
  | some (.wrapper .wsh) => 0
  | some _ => 1

theorem nestingRank_lt {parent : Option ScriptType} {w : Wrapper}
    (h : (wrapper w).allowedIn parent = true) :
    nestingRank (some (.wrapper w)) < nestingRank parent := by
  match parent, w with
  | none, .sh | none, .wsh => decide
  | some p, .sh => simp [allowedIn, allowedUnder] at h
  | some (.wrapper .wsh), .wsh => simp [allowedIn, allowedUnder] at h
  | some (.wrapper .sh), .wsh | some (.keyed _), .wsh | some (.multisig _), .wsh
  | some .addr, .wsh | some .raw, .wsh => simp [nestingRank]

end ScriptType

def Wrapper.wraps : Wrapper → ScriptType → Bool
  | .sh, .wrapper .wsh | .sh, .keyed .wpkh => true
  | _, .keyed .pk | _, .keyed .pkh | _, .multisig _ => true
  | _, _ => false

theorem Wrapper.wraps_wsh_iff {type : ScriptType} : Wrapper.wsh.wraps type ↔
    type ∈ [.keyed .pk, .keyed .pkh, .multisig false, .multisig true] := by
  cases type with
  | wrapper w => cases w <;> decide
  | keyed form => cases form <;> decide
  | multisig sorted => cases sorted <;> decide
  | addr => decide
  | raw => decide

theorem Wrapper.wraps_sh_iff {type : ScriptType} : Wrapper.sh.wraps type ↔
    Wrapper.wsh.wraps type ∨ type = .keyed .wpkh ∨ type = .wrapper .wsh := by
  cases type with
  | wrapper w => cases w <;> decide
  | keyed form => cases form <;> decide
  | multisig sorted => cases sorted <;> decide
  | addr => decide
  | raw => decide

end OutputDescriptor
