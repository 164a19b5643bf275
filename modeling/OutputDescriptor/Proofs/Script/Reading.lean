import OutputDescriptor.Proofs.Script.CallShape
import OutputDescriptor.Proofs.Traversal
import OutputDescriptor.Script.Build
import OutputDescriptor.Script.Parser

/-! Reading a script expression in terms of the call it is and of the arguments of that call. -/
namespace OutputDescriptor

theorem ScriptType.allowedIn_wrapper (type : ScriptType) (w : Wrapper) :
    type.allowedIn (some (.wrapper w)) = w.wraps type := by
  cases w <;> cases type with
  | wrapper inner => cases inner <;> rfl
  | keyed form => cases form <;> rfl
  | multisig sorted => rfl
  | addr => rfl
  | raw => rfl

theorem NumberExpr.parse_network {network : Network} {text : String} {number : NumberExpr}
    (h : parse network text = .ok number) : number.network = network ∧ number.text = text := by
  unfold parse at h
  split at h
  · cases h
  · split at h
    · cases h
      exact ⟨rfl, rfl⟩
    · cases h

theorem HexExpr.parse_network {network : Network} {text : String} {hex : HexExpr}
    (h : parse network text = .ok hex) : hex.network = network ∧ hex.text = text := by
  unfold parse at h
  split at h
  · cases h
  · split at h
    · cases h
      exact ⟨rfl, rfl⟩
    · cases h

theorem AddrExpr.parse_network {network : Network} {text : String} {address : AddrExpr}
    (h : parse network text = .ok address) : address.network = network ∧ address.text = text := by
  obtain ⟨decoded, -, h⟩ := Except.bind_eq_ok_iff.mp h
  cases h
  exact ⟨rfl, rfl⟩

theorem KeyExpr.parse_network {ctx : Context} {network : Network} {text : String} {key : KeyExpr}
    (h : parse ctx network text = .ok key) : key.network = network ∧ key.text = text := by
  unfold parse at h
  split at h
  · cases h
  · obtain ⟨pair, -, h⟩ := Except.bind_eq_ok_iff.mp h
    cases h
    exact ⟨rfl, rfl⟩

namespace ScriptExpr

theorem readArgs_eq_ok_iff {α : Type} {read : String → Except Error α} {position : Nat}
    {args : List (List Char)} {xs : List α} :
    readArgs read position args = .ok xs ↔
      List.Forall₂ (fun arg x => read (String.ofList arg) = .ok x) args xs := by
  induction args generalizing position xs with
  | nil =>
    rw [readArgs, List.forall₂_nil_left_iff]
    exact ⟨fun h => (Except.ok.inj h).symm, fun h => congrArg Except.ok h.symm⟩
  | cons arg rest ih =>
    rw [readArgs, List.forall₂_cons_left_iff, Except.bind_eq_ok_iff]
    constructor
    · rintro ⟨x, hx, h⟩
      obtain ⟨others, hothers, h⟩ := Except.bind_eq_ok_iff.mp h
      exact ⟨x, others, Except.mapError_eq_ok_iff.mp hx, ih.mp hothers, (Except.ok.inj h).symm⟩
    · rintro ⟨x, others, hx, hothers, rfl⟩
      exact ⟨x, Except.mapError_eq_ok_iff.mpr hx, Except.bind_eq_ok_iff.mpr
        ⟨others, ih.mpr hothers, rfl⟩⟩

theorem readArgs_eq_ok_singleton_iff {α β : Type} {read : String → Except Error α} {position : Nat}
    {args : List (List Char)} {wrap : α → β} (hwrap : Function.Injective wrap) {x : α} :
    (do return (← readArgs read position args).map wrap : Except Error (List β)) = .ok [wrap x] ↔
      ∃ arg, args = [arg] ∧ read (String.ofList arg) = .ok x := by
  rw [Except.bind_eq_ok_iff]
  constructor
  · rintro ⟨xs, hxs, h⟩
    obtain ⟨y, rfl, hy⟩ := List.map_eq_singleton_iff.mp (Except.ok.inj h)
    obtain rfl := hwrap hy
    obtain ⟨arg, args, harg, hargs, rfl⟩ := List.forall₂_cons_right_iff.mp
      (readArgs_eq_ok_iff.mp hxs)
    obtain rfl := List.forall₂_nil_right_iff.mp hargs
    exact ⟨arg, rfl, harg⟩
  · rintro ⟨arg, rfl, harg⟩
    exact ⟨[x], readArgs_eq_ok_iff.mpr (.cons harg .nil), rfl⟩

/-- Read the arguments of a call as its type takes them. -/
def readChildren (ctx : Context) (network : Network) (type : ScriptType)
    (args : List (List Char)) : Except Error (List Expr) :=
  match type with
  | .wrapper w => do
    return (← readArgs (parse ctx network (some (.wrapper w))) 1 args).map .script
  | .keyed _ => do return (← readArgs (KeyExpr.parse ctx network) 1 args).map .key
  | .multisig _ => readMultisigArgs ctx network args
  | .addr => do return (← readArgs (AddrExpr.parse network) 1 args).map .addr
  | .raw => do return (← readArgs (HexExpr.parse network) 1 args).map .hex

section

variable {ctx : Context} {network : Network} {args : List (List Char)}

theorem readChildren_wrapper_eq_ok_iff {w : Wrapper} {inner : ScriptExpr} :
    readChildren ctx network (.wrapper w) args = .ok [.script inner] ↔
      ∃ arg, args = [arg] ∧
        parse ctx network (some (.wrapper w)) (String.ofList arg) = .ok inner :=
  readArgs_eq_ok_singleton_iff fun _ _ => Expr.script.inj

theorem readChildren_keyed_eq_ok_iff {form : KeyForm} {key : KeyExpr} :
    readChildren ctx network (.keyed form) args = .ok [.key key] ↔
      ∃ arg, args = [arg] ∧ KeyExpr.parse ctx network (String.ofList arg) = .ok key :=
  readArgs_eq_ok_singleton_iff fun _ _ => Expr.key.inj

theorem readChildren_addr_eq_ok_iff {address : AddrExpr} :
    readChildren ctx network .addr args = .ok [.addr address] ↔
      ∃ arg, args = [arg] ∧ AddrExpr.parse network (String.ofList arg) = .ok address :=
  readArgs_eq_ok_singleton_iff fun _ _ => Expr.addr.inj

theorem readChildren_raw_eq_ok_iff {hex : HexExpr} :
    readChildren ctx network .raw args = .ok [.hex hex] ↔
      ∃ arg, args = [arg] ∧ HexExpr.parse network (String.ofList arg) = .ok hex :=
  readArgs_eq_ok_singleton_iff fun _ _ => Expr.hex.inj

theorem readChildren_multisig_eq_ok_iff {sorted : Bool} {threshold : NumberExpr}
    {keys : List KeyExpr} :
    readChildren ctx network (.multisig sorted) args = .ok (.number threshold :: keys.map .key) ↔
      ∃ arg rest, args = arg :: rest ∧
        NumberExpr.parse network (String.ofList arg) = .ok threshold ∧
        List.Forall₂ (fun arg key => KeyExpr.parse ctx network (String.ofList arg) = .ok key)
          rest keys := by
  rw [readChildren]
  constructor
  · intro h
    cases args with
    | nil =>
      change Except.ok [] = _ at h
      cases h
    | cons arg rest =>
      obtain ⟨numbers, hnumbers, hread⟩ := Except.bind_eq_ok_iff.mp h
      obtain ⟨found, hfound, hread⟩ := Except.bind_eq_ok_iff.mp hread
      obtain ⟨number, others, hnumber, hothers, rfl⟩ := List.forall₂_cons_left_iff.mp
        (readArgs_eq_ok_iff.mp hnumbers)
      obtain rfl := List.forall₂_nil_left_iff.mp hothers
      obtain ⟨hhead, htail⟩ := List.cons_eq_cons.mp (Except.ok.inj hread)
      obtain rfl := Expr.number.inj hhead
      obtain rfl := List.map_injective_iff.mpr (fun _ _ => Expr.key.inj) htail
      exact ⟨arg, rest, rfl, hnumber, readArgs_eq_ok_iff.mp hfound⟩
  · rintro ⟨arg, rest, rfl, hthreshold, hkeys⟩
    have hnumbers : readArgs (NumberExpr.parse network) 1 [arg] = .ok [threshold] :=
      readArgs_eq_ok_iff.mpr (.cons hthreshold .nil)
    exact Except.bind_eq_ok_iff.mpr ⟨[threshold], hnumbers, Except.bind_eq_ok_iff.mpr
      ⟨keys, readArgs_eq_ok_iff.mpr hkeys, rfl⟩⟩

end

theorem parse_eq (ctx : Context) (network : Network) (parent : Option ScriptType)
    (text : String) :
    parse ctx network parent text =
      if text.toList.all (·.toNat < 128) then
        match Call.ofChars? parent.isNone text.toList with
        | none => .error (.grammar text .noCall)
        | some call =>
          if call.type.allowedIn parent then do
            call.verify
            call.checkArity
            let children ← readChildren ctx network call.type call.args
            ofChildren ⟨network, text, call.checksum.map String.ofList⟩ call.type children
          else .error (.grammar text .nesting)
      else .error (.grammar text .nonAscii) := by
  rw [parse]
  congr 1
  cases Call.ofChars? parent.isNone text.toList with
  | none => rfl
  | some call =>
    obtain ⟨type, args, body, checksum⟩ := call
    cases type <;> simp only [readChildren, bind_assoc, pure_bind, dite_eq_ite]

/-- Read the arguments of a call that may stand where it does, and build the expression. -/
def readCall (ctx : Context) (network : Network) (text : String) (call : Call) :
    Except Error ScriptExpr := do
  call.verify
  call.checkArity
  let children ← readChildren ctx network call.type call.args
  ofChildren ⟨network, text, call.checksum.map String.ofList⟩ call.type children

section

variable {ctx : Context} {network : Network} {parent : Option ScriptType} {text : String}

theorem parse_of_ofChars? {call : Call}
    (h : Call.ofChars? parent.isNone text.toList = some call) :
    parse ctx network parent text =
      if text.toList.all (·.toNat < 128) then
        if call.type.allowedIn parent then readCall ctx network text call
        else .error (.grammar text .nesting)
      else .error (.grammar text .nonAscii) := by
  rw [parse_eq, h]
  rfl

theorem parse_of_ofChars?_eq_none (h : Call.ofChars? parent.isNone text.toList = none) :
    ∃ fault, parse ctx network parent text = .error (.grammar text fault) := by
  rw [parse_eq, h]
  split
  · exact ⟨.noCall, rfl⟩
  · exact ⟨.nonAscii, rfl⟩

theorem parse_of_not_allowedIn {call : Call}
    (h : Call.ofChars? parent.isNone text.toList = some call)
    (hallowed : ¬call.type.allowedIn parent) :
    ∃ fault, parse ctx network parent text = .error (.grammar text fault) := by
  rw [parse_of_ofChars? h, if_neg hallowed]
  split
  · exact ⟨.nesting, rfl⟩
  · exact ⟨.nonAscii, rfl⟩

end

/-- The text is accepted as the expression by way of the call. -/
structure Reads (ctx : Context) (network : Network) (parent : Option ScriptType) (text : String)
    (call : Call) (e : ScriptExpr) : Prop where
  ascii : ∀ c ∈ text.toList, c.toNat < 128
  shape : Call.ofChars? parent.isNone text.toList = some call
  allowed : call.type.allowedIn parent
  verified : call.verify = .ok ()
  arity : call.checkArity = .ok ()
  children : readChildren ctx network call.type call.args = .ok e.children
  built : ofChildren ⟨network, text, call.checksum.map String.ofList⟩ call.type e.children = .ok e

section

variable {ctx : Context} {network : Network} {parent : Option ScriptType} {text : String}
  {e : ScriptExpr}

theorem parse_eq_ok_iff :
    parse ctx network parent text = .ok e ↔ ∃ call, Reads ctx network parent text call e := by
  rw [parse_eq]
  constructor
  · intro h
    split at h
    · rename_i hascii
      split at h
      · cases h
      · rename_i call hcall
        split at h
        · rename_i hallowed
          obtain ⟨_, hverify, h⟩ := Except.bind_eq_ok_iff.mp h
          obtain ⟨_, harity, h⟩ := Except.bind_eq_ok_iff.mp h
          obtain ⟨children, hchildren, h⟩ := Except.bind_eq_ok_iff.mp h
          obtain ⟨-, -, -, -, rfl, -⟩ := ofChildren_eq_ok_iff.mp h
          refine ⟨call, ?_, hcall, hallowed, hverify, harity, hchildren, h⟩
          intro c hc
          simpa using List.all_eq_true.mp hascii c hc
        · cases h
    · cases h
  · rintro ⟨call, h⟩
    have hascii : text.toList.all (·.toNat < 128) := by
      rw [List.all_eq_true]
      exact fun c hc => decide_eq_true (h.ascii c hc)
    simp only [if_pos hascii, h.shape, if_pos h.allowed, h.verified, h.arity, h.children]
    exact h.built

theorem Reads.label {call : Call} (h : Reads ctx network parent text call e) :
    e.label = ⟨network, text, call.checksum.map String.ofList⟩ := by
  obtain ⟨-, -, hlabel, -⟩ := ofChildren_eq_ok_iff.mp h.built
  exact hlabel

theorem Reads.type {call : Call} (h : Reads ctx network parent text call e) :
    e.type = call.type := by
  obtain ⟨-, -, -, htype, -⟩ := ofChildren_eq_ok_iff.mp h.built
  exact htype

theorem Reads.allowedIn {call : Call} (h : Reads ctx network parent text call e) :
    e.type.allowedIn parent := by
  rw [h.type]
  exact h.allowed

theorem Reads.readChildren_eq_ok {call : Call} (h : Reads ctx network parent text call e) :
    readChildren ctx network e.type call.args = .ok e.children := by
  rw [h.type]
  exact h.children

theorem Reads.shaped {call : Call} (h : Reads ctx network parent text call e) : e.Shaped := by
  obtain ⟨-, -, -, -, -, hshaped⟩ := ofChildren_eq_ok_iff.mp h.built
  exact hshaped

end

end ScriptExpr

namespace Call

theorem verify_eq_ok_iff {call : Call} : call.verify = .ok () ↔
    ∀ checksum, call.checksum = some checksum →
      Checksum.compute (String.ofList call.body) = String.ofList checksum := by
  unfold verify
  cases call.checksum with
  | none => simp
  | some checksum => simp

theorem checkArity_eq_ok_iff {call : Call} :
    call.checkArity = .ok () ↔ call.type.argKinds.length ≤ call.args.length := by
  unfold checkArity
  simp

end Call

end OutputDescriptor
