import OutputDescriptor.Key.Parser
import OutputDescriptor.Script.Build
import OutputDescriptor.Script.Call

/-! Reading script expressions. -/
namespace OutputDescriptor.ScriptExpr

/-- Read arguments from left to right. A failure is reported with the position of its argument. -/
def readArgs {α : Type} (read : String → Except Error α) (position : Nat) :
    List (List Char) → Except Error (List α)
  | [] => .ok []
  | arg :: rest => do
    let text := String.ofList arg
    let expr ← (read text).mapError (.argument position text)
    return expr :: (← readArgs read (position + 1) rest)

def readMultisigArgs (ctx : Context) (network : Network) (args : List (List Char)) :
    Except Error (List Expr) := do
  let threshold ← readArgs (NumberExpr.parse network) 1 (args.take 1)
  let keys ← readArgs (KeyExpr.parse ctx network) 2 (args.drop 1)
  return threshold.map .number ++ keys.map .key

/-- Read a script expression that stands inside a call of type `parent`, or a complete descriptor
if there is no parent. -/
def parse (ctx : Context) (network : Network) (parent : Option ScriptType) (text : String) :
    Except Error ScriptExpr :=
  if text.toList.all (·.toNat < 128) then
    match Call.ofChars? parent.isNone text.toList with
    | none => .error (.grammar text .noCall)
    | some call =>
      if hallowed : call.type.allowedIn parent then do
        call.verify
        call.checkArity
        let children ← match htype : call.type with
          | .wrapper w => do
            have : ScriptType.nestingRank (some (.wrapper w)) < ScriptType.nestingRank parent :=
              ScriptType.nestingRank_lt (htype ▸ hallowed)
            let scripts ← readArgs (fun a => parse ctx network (some (.wrapper w)) a) 1 call.args
            pure (scripts.map .script)
          | .keyed _ => do
            pure ((← readArgs (KeyExpr.parse ctx network) 1 call.args).map .key)
          | .multisig _ => readMultisigArgs ctx network call.args
          | .addr => do pure ((← readArgs (AddrExpr.parse network) 1 call.args).map .addr)
          | .raw => do pure ((← readArgs (HexExpr.parse network) 1 call.args).map .hex)
        ofChildren ⟨network, text, call.checksum.map String.ofList⟩ call.type children
      else .error (.grammar text .nesting)
  else .error (.grammar text .nonAscii)
termination_by ScriptType.nestingRank parent

/-- Read a complete descriptor for the network of the given name. -/
def ofText (text : String) (network : Option String) (ctx : Context := {}) :
    Except Error ScriptExpr :=
  parse ctx (Network.ofName network) none text

end OutputDescriptor.ScriptExpr
