import OutputDescriptor.Bytes

/-! Scripts as sequences of instructions. -/
namespace OutputDescriptor

inductive Instruction
  | push (data : Bytes)
  | op (code : UInt8)
  deriving DecidableEq, Repr

namespace Instruction

/-- How many bytes after a push code tell the length of the data. Short pushes have the length as
their code. -/
def lengthSize? (code : UInt8) : Option Nat :=
  if code ≤ 0x4b then some 0
  else if code = 0x4c then some 1
  else if code = 0x4d then some 2
  else if code = 0x4e then some 4
  else none

/-- The instruction of a code and the bytes after it that belong to it, unless they are cut short.
-/
def ofCode? (code : UInt8) (rest : Bytes) : Option (Instruction × Nat) :=
  match lengthSize? code with
  | none => some (.op code, 0)
  | some size =>
    let field := rest.take size
    let length := if size = 0 then code.toNat else Bytes.toNat field.reverse
    let data := (rest.drop size).take length
    if field.length = size ∧ data.length = length then some (.push data, size + length) else none

/-- The instructions before the first one that is cut short, and whether there is none such. -/
def ofScript : Bytes → List Instruction × Bool
  | [] => ([], true)
  | code :: rest =>
    match ofCode? code rest with
    | none => ([], false)
    | some (instruction, used) =>
      let (others, complete) := ofScript (rest.drop used)
      (instruction :: others, complete)
termination_by script => script.length
decreasing_by simp only [List.length_drop, List.length_cons]; omega

def ofScript? (script : Bytes) : Option (List Instruction) :=
  if (ofScript script).2 then some (ofScript script).1 else none

/-- The number that one of the sixteen number codes stands for. -/
def number? : Instruction → Option Nat
  | .op code => if 0x51 ≤ code ∧ code ≤ 0x60 then some (code.toNat - 0x50) else none
  | .push _ => none

/-- A number below 128 as a script writes it: by its code, or as one byte if it has none. -/
def numberBytes (value : Nat) : Bytes :=
  if 1 ≤ value ∧ value ≤ 16 then [UInt8.ofNat (0x50 + value)] else [1, UInt8.ofNat value]

def pushBytes (data : Bytes) : Bytes := UInt8.ofNat data.length :: data

end Instruction

end OutputDescriptor
