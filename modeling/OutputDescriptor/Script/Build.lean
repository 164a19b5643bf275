import OutputDescriptor.Checksum
import OutputDescriptor.Except
import OutputDescriptor.Script.Expr

/-! Building a script expression from its arguments. -/
namespace OutputDescriptor

/-- A checksum, if there is one, has the form of one. -/
def Label.WellFormed (label : Label) : Prop :=
  ∀ checksum, label.checksum = some checksum → Checksum.isWellFormed checksum

namespace ScriptExpr

def single {α : Type} (type : ScriptType) (expected : ExprKind) (pick : Expr → Option α) :
    List Expr → Except Error α
  | [child] =>
    match pick child with
    | some x => .ok x
    | none => .error (.children type (.unexpected expected child.kind))
  | children => .error (.children type (.single expected children.length))

theorem single_eq_ok_iff {α : Type} {type : ScriptType} {expected : ExprKind}
    {pick : Expr → Option α} {wrap : α → Expr}
    (hpick : ∀ child x, pick child = some x ↔ child = wrap x) {children : List Expr} {x : α} :
    single type expected pick children = .ok x ↔ children = [wrap x] := by
  constructor
  · intro h
    unfold single at h
    split at h
    · rename_i child
      split at h
      · rename_i found hfound
        cases h
        rw [(hpick child x).mp hfound]
      · cases h
    · cases h
  · rintro rfl
    rw [single, (hpick (wrap x) x).mpr rfl]

def singleScript (type : ScriptType) : List Expr → Except Error ScriptExpr :=
  single type .script fun | .script e => some e | _ => none

def singleKey (type : ScriptType) : List Expr → Except Error KeyExpr :=
  single type .key fun | .key e => some e | _ => none

def singleAddr (type : ScriptType) : List Expr → Except Error AddrExpr :=
  single type .addr fun | .addr e => some e | _ => none

def singleHex (type : ScriptType) : List Expr → Except Error HexExpr :=
  single type .hex fun | .hex e => some e | _ => none

section Single

variable {type : ScriptType} {children : List Expr}

theorem singleScript_eq_ok_iff {inner : ScriptExpr} :
    singleScript type children = .ok inner ↔ children = [.script inner] :=
  single_eq_ok_iff fun child x => by cases child <;> simp

theorem singleKey_eq_ok_iff {key : KeyExpr} :
    singleKey type children = .ok key ↔ children = [.key key] :=
  single_eq_ok_iff fun child x => by cases child <;> simp

theorem singleAddr_eq_ok_iff {address : AddrExpr} :
    singleAddr type children = .ok address ↔ children = [.addr address] :=
  single_eq_ok_iff fun child x => by cases child <;> simp

theorem singleHex_eq_ok_iff {hex : HexExpr} :
    singleHex type children = .ok hex ↔ children = [.hex hex] :=
  single_eq_ok_iff fun child x => by cases child <;> simp

end Single

def keysFrom (type : ScriptType) (position : Nat) : List Expr → Except Error (List KeyExpr)
  | [] => .ok []
  | .key key :: rest => do return key :: (← keysFrom type (position + 1) rest)
  | other :: _ => .error (.children type (.notKey position other.kind))

theorem keysFrom_eq_ok_iff {type : ScriptType} {position : Nat} {children : List Expr}
    {keys : List KeyExpr} :
    keysFrom type position children = .ok keys ↔ children = keys.map .key := by
  fun_induction keysFrom type position children generalizing keys with
  | case1 => simp [eq_comm]
  | case2 position key rest ih =>
    rw [Except.bind_eq_ok_iff]
    constructor
    · rintro ⟨others, hothers, h⟩
      cases h
      rw [ih.mp hothers]
      rfl
    · intro h
      cases keys with
      | nil => cases h
      | cons first others =>
        cases h
        exact ⟨others, ih.mpr rfl, rfl⟩
  | case3 position other rest hkey =>
    constructor
    · intro h
      cases h
    · intro h
      cases keys with
      | nil => cases h
      | cons first others => exact absurd (List.cons.inj h).1 (hkey first)

def thresholdAndKeys (type : ScriptType) (children : List Expr) :
    Except Error (NumberExpr × List KeyExpr) :=
  if children.length < 3 then .error (.children type (.tooFew children.length))
  else
    match children with
    | [] => .error (.children type (.tooFew 0))
    | .number threshold :: rest => do return (threshold, ← keysFrom type 2 rest)
    | other :: _ => .error (.children type (.threshold other.kind))

theorem thresholdAndKeys_eq_ok_iff {type : ScriptType} {children : List Expr}
    {threshold : NumberExpr} {keys : List KeyExpr} :
    thresholdAndKeys type children = .ok (threshold, keys) ↔
      children = .number threshold :: keys.map .key ∧ 2 ≤ keys.length := by
  constructor
  · intro h
    unfold thresholdAndKeys at h
    split at h
    · cases h
    · rename_i hlength
      split at h
      · cases h
      · rename_i number rest
        obtain ⟨others, hothers, h⟩ := Except.bind_eq_ok_iff.mp h
        cases h
        have hrest := keysFrom_eq_ok_iff.mp hothers
        rw [hrest, List.length_cons, List.length_map] at hlength
        exact ⟨by rw [hrest], by omega⟩
      · cases h
  · rintro ⟨rfl, hlength⟩
    have hkeys : keysFrom type 2 (keys.map .key) = .ok keys := keysFrom_eq_ok_iff.mpr rfl
    rw [thresholdAndKeys, if_neg (by rw [List.length_cons, List.length_map]; omega), hkeys]
    rfl

/-- Keys are sorted by their compressed form, so uncompressed ones have no place among them. -/
def checkSortable (type : ScriptType) (keys : List KeyExpr) : Except Error Unit :=
  match keys.find? (!·.isCompressed) with
  | some key => .error (.children type (.uncompressed key.text))
  | none => .ok ()

theorem checkSortable_eq_ok_iff {type : ScriptType} {keys : List KeyExpr} :
    checkSortable type keys = .ok () ↔ ∀ key ∈ keys, key.isCompressed := by
  unfold checkSortable
  split
  · rename_i key hkey
    constructor
    · intro h
      cases h
    · intro h
      have huncompressed := List.find?_some hkey
      rw [h key (List.mem_of_find?_eq_some hkey)] at huncompressed
      cases huncompressed
  · rename_i hnone
    simpa using hnone

def checkLabel (label : Label) : Except Error Unit :=
  match label.checksum.filter (!Checksum.isWellFormed ·) with
  | some checksum => .error (.checksumFormat checksum)
  | none => .ok ()

theorem checkLabel_eq_ok_iff {label : Label} : checkLabel label = .ok () ↔ label.WellFormed := by
  unfold checkLabel Label.WellFormed
  cases label.checksum with
  | none => simp
  | some checksum => cases h : Checksum.isWellFormed checksum <;> simp [Option.filter, h]

def checkNetwork (label : Label) (type : ScriptType) (children : List Expr) : Except Error Unit :=
  match children.find? (·.network ≠ label.network) with
  | some child => .error (.children type (.foreign child.text))
  | none => .ok ()

theorem checkNetwork_eq_ok_iff {label : Label} {type : ScriptType} {children : List Expr} :
    checkNetwork label type children = .ok () ↔
      ∀ child ∈ children, child.network = label.network := by
  unfold checkNetwork
  split
  · rename_i child hchild
    constructor
    · intro h
      cases h
    · intro h
      have hforeign := List.find?_some hchild
      rw [decide_eq_true_iff] at hforeign
      exact absurd (h child (List.mem_of_find?_eq_some hchild)) hforeign
  · rename_i hnone
    simpa using hnone

/-- The arguments fit the type. -/
def Shaped : ScriptExpr → Prop
  | .wrapped _ wrapper inner => wrapper.wraps inner.type
  | .multisig _ sorted _ keys => 2 ≤ keys.length ∧ (sorted → ∀ key ∈ keys, key.isCompressed)
  | .keyed .. | .addr .. | .raw .. => True

/-- The expression of a type with the given arguments, if they fit the type. -/
def assemble (label : Label) (type : ScriptType) (children : List Expr) :
    Except Error ScriptExpr := do
  match type with
  | .wrapper wrapper =>
    let inner ← singleScript type children
    if wrapper.wraps inner.type then return .wrapped label wrapper inner
    else throw (.children type (.notWrappable inner.type))
  | .keyed form => return .keyed label form (← singleKey type children)
  | .multisig sorted =>
    let (threshold, keys) ← thresholdAndKeys type children
    if sorted then checkSortable type keys
    return .multisig label sorted threshold keys
  | .addr => return .addr label (← singleAddr type children)
  | .raw => return .raw label (← singleHex type children)

theorem shaped_of_assemble {label : Label} {type : ScriptType} {children : List Expr}
    {e : ScriptExpr} (h : assemble label type children = .ok e) :
    e.label = label ∧ e.type = type ∧ e.children = children ∧ e.Shaped := by
  cases type with
  | wrapper wrapper =>
    obtain ⟨inner, hinner, h⟩ := Except.bind_eq_ok_iff.mp h
    split at h
    · rename_i hwraps
      cases h
      exact ⟨rfl, rfl, (singleScript_eq_ok_iff.mp hinner).symm, hwraps⟩
    · cases h
  | keyed form =>
    obtain ⟨key, hkey, h⟩ := Except.bind_eq_ok_iff.mp h
    cases h
    exact ⟨rfl, rfl, (singleKey_eq_ok_iff.mp hkey).symm, trivial⟩
  | multisig sorted =>
    obtain ⟨⟨threshold, keys⟩, hkeys, h⟩ := Except.bind_eq_ok_iff.mp h
    obtain ⟨hchildren, hlength⟩ := thresholdAndKeys_eq_ok_iff.mp hkeys
    cases sorted with
    | false =>
      cases h
      exact ⟨rfl, rfl, hchildren.symm, hlength, by simp⟩
    | true =>
      obtain ⟨_, hsortable, h⟩ := Except.bind_eq_ok_iff.mp h
      cases h
      exact ⟨rfl, rfl, hchildren.symm, hlength, fun _ => checkSortable_eq_ok_iff.mp hsortable⟩
  | addr =>
    obtain ⟨address, haddress, h⟩ := Except.bind_eq_ok_iff.mp h
    cases h
    exact ⟨rfl, rfl, (singleAddr_eq_ok_iff.mp haddress).symm, trivial⟩
  | raw =>
    obtain ⟨hex, hhex, h⟩ := Except.bind_eq_ok_iff.mp h
    cases h
    exact ⟨rfl, rfl, (singleHex_eq_ok_iff.mp hhex).symm, trivial⟩

theorem assemble_children {e : ScriptExpr} (hshaped : e.Shaped) :
    assemble e.label e.type e.children = .ok e := by
  cases e with
  | wrapped label wrapper inner =>
    exact Except.bind_eq_ok_iff.mpr ⟨inner, singleScript_eq_ok_iff.mpr rfl, if_pos hshaped⟩
  | keyed label form key =>
    exact Except.bind_eq_ok_iff.mpr ⟨key, singleKey_eq_ok_iff.mpr rfl, rfl⟩
  | multisig label sorted threshold keys =>
    obtain ⟨hlength, hsortable⟩ := hshaped
    have hkeys := (@thresholdAndKeys_eq_ok_iff (.multisig sorted) _ threshold keys).mpr
      ⟨rfl, hlength⟩
    refine Except.bind_eq_ok_iff.mpr ⟨(threshold, keys), hkeys, ?_⟩
    cases sorted with
    | false => rfl
    | true =>
      have hsort := (@checkSortable_eq_ok_iff (.multisig true) keys).mpr (hsortable rfl)
      exact Except.bind_eq_ok_iff.mpr ⟨(), hsort, rfl⟩
  | addr label address =>
    exact Except.bind_eq_ok_iff.mpr ⟨address, singleAddr_eq_ok_iff.mpr rfl, rfl⟩
  | raw label hex =>
    exact Except.bind_eq_ok_iff.mpr ⟨hex, singleHex_eq_ok_iff.mpr rfl, rfl⟩

theorem assemble_eq_ok_iff {label : Label} {type : ScriptType} {children : List Expr}
    {e : ScriptExpr} :
    assemble label type children = .ok e ↔
      e.label = label ∧ e.type = type ∧ e.children = children ∧ e.Shaped := by
  constructor
  · exact shaped_of_assemble
  · rintro ⟨rfl, rfl, rfl, hshaped⟩
    exact assemble_children hshaped

/-- The expression of a type with the given arguments, if they fit the type and each other. -/
def ofChildren (label : Label) (type : ScriptType) (children : List Expr) :
    Except Error ScriptExpr := do
  checkLabel label
  checkNetwork label type children
  assemble label type children

/-- Building checks the checksum, the networks and the shape, and keeps what it is given. -/
theorem ofChildren_eq_ok_iff {label : Label} {type : ScriptType} {children : List Expr}
    {e : ScriptExpr} :
    ofChildren label type children = .ok e ↔
      label.WellFormed ∧ (∀ child ∈ children, child.network = label.network) ∧
        e.label = label ∧ e.type = type ∧ e.children = children ∧ e.Shaped := by
  rw [ofChildren, Except.bind_eq_ok_iff]
  constructor
  · rintro ⟨_, hlabel, h⟩
    obtain ⟨_, hnetwork, h⟩ := Except.bind_eq_ok_iff.mp h
    exact ⟨checkLabel_eq_ok_iff.mp hlabel, checkNetwork_eq_ok_iff.mp hnetwork,
      assemble_eq_ok_iff.mp h⟩
  · rintro ⟨hlabel, hnetwork, h⟩
    exact ⟨(), checkLabel_eq_ok_iff.mpr hlabel, Except.bind_eq_ok_iff.mpr
      ⟨(), checkNetwork_eq_ok_iff.mpr hnetwork, assemble_eq_ok_iff.mpr h⟩⟩

end ScriptExpr

end OutputDescriptor
