import OutputDescriptor.Output.Script
import OutputDescriptor.Proofs.Key.Bytes
import OutputDescriptor.Proofs.Traversal

/-! The instructions of the scripts that pay to keys, and the keys that are read back from them. -/
namespace OutputDescriptor

namespace Instruction

theorem ofScript?_cons {code : UInt8} {rest : Bytes} {instruction : Instruction} {used : Nat}
    (h : ofCode? code rest = some (instruction, used)) :
    ofScript? (code :: rest) = (ofScript? (rest.drop used)).map (instruction :: ·) := by
  have hscript : ofScript (code :: rest) = (instruction :: (ofScript (rest.drop used)).1,
      (ofScript (rest.drop used)).2) := by
    rw [ofScript, h]
  rw [ofScript?, ofScript?, hscript]
  dsimp only
  split
  · rfl
  · rfl

theorem ofScript?_op {code : UInt8} (h : lengthSize? code = none) (rest : Bytes) :
    ofScript? (code :: rest) = (ofScript? rest).map (.op code :: ·) := by
  have hcode : ofCode? code rest = some (.op code, 0) := by
    rw [ofCode?, h]
  exact ofScript?_cons hcode

theorem lengthSize?_eq_none {code : UInt8} (h : 0x4e < code.toNat) : lengthSize? code = none := by
  simp only [lengthSize?, UInt8.le_iff_toNat_le, ← UInt8.toNat_inj, UInt8.reduceToNat]
  rw [if_neg (by omega), if_neg (by omega), if_neg (by omega), if_neg (by omega)]

theorem ofScript?_pushBytes {data : Bytes} (h : data.length ≤ 75) (rest : Bytes) :
    ofScript? (pushBytes data ++ rest) = (ofScript? rest).map (.push data :: ·) := by
  have hlength : (UInt8.ofNat data.length).toNat = data.length :=
    UInt8.toNat_ofNat_of_lt (Nat.lt_of_le_of_lt h (by decide))
  have hsize : lengthSize? (UInt8.ofNat data.length) = some 0 := by
    have hshort : UInt8.ofNat data.length ≤ 0x4b := by
      rw [UInt8.le_iff_toNat_le, hlength]
      exact h
    rw [lengthSize?, if_pos hshort]
  have hcode : ofCode? (UInt8.ofNat data.length) (data ++ rest) =
      some (.push data, data.length) := by
    simp [ofCode?, hsize, hlength]
  rw [pushBytes, List.cons_append, ofScript?_cons hcode, List.drop_left]

theorem ofScript?_nil : ofScript? [] = some [] := by
  simp [ofScript?, ofScript]

/-- The instruction that puts a small number on the stack. -/
def ofNumber (value : Nat) : Instruction :=
  if 1 ≤ value ∧ value ≤ 16 then .op (UInt8.ofNat (0x50 + value)) else .push [UInt8.ofNat value]

theorem ofScript?_numberBytes (value : Nat) (rest : Bytes) :
    ofScript? (numberBytes value ++ rest) = (ofScript? rest).map (ofNumber value :: ·) := by
  unfold numberBytes ofNumber
  split
  · rename_i hcode
    have hbyte : 0x50 + value < 256 := by omega
    have hvalue : (UInt8.ofNat (0x50 + value)).toNat = 0x50 + value :=
      UInt8.toNat_ofNat_of_lt hbyte
    apply ofScript?_op
    apply lengthSize?_eq_none
    omega
  · have hlength : [UInt8.ofNat value].length ≤ 75 := by simp
    exact ofScript?_pushBytes hlength rest

/-- Only the numbers that have codes of their own are read back. -/
theorem number?_ofNumber (value : Nat) :
    (ofNumber value).number? = if 1 ≤ value ∧ value ≤ 16 then some value else none := by
  unfold ofNumber
  split
  · rename_i hcode
    have hbyte : 0x50 + value < 256 := by omega
    have hvalue : (UInt8.ofNat (0x50 + value)).toNat = 0x50 + value :=
      UInt8.toNat_ofNat_of_lt hbyte
    simp only [number?, UInt8.le_iff_toNat_le, hvalue, UInt8.reduceToNat]
    rw [if_pos (by omega), Nat.add_sub_cancel_left]
  · rfl

theorem ofScript?_keys (keys : List PublicKey) (rest : Bytes) :
    ofScript? (keys.flatMap (fun key => pushBytes key.toBytes) ++ rest) =
      (ofScript? rest).map (keys.map (fun key => push key.toBytes) ++ ·) := by
  induction keys with
  | nil => simp
  | cons key keys ih =>
    have hlength : key.toBytes.length ≤ 75 := Nat.le_trans key.length_toBytes_le (by decide)
    rw [List.flatMap_cons, List.append_assoc, ofScript?_pushBytes hlength, ih, Option.map_map]
    rfl

theorem length_pushKeys (keys : List PublicKey) :
    (keys.flatMap fun key => pushBytes key.toBytes).length =
      34 * keys.countP (·.compressed) + 66 * keys.countP (!·.compressed) := by
  induction keys with
  | nil => simp
  | cons key keys ih =>
    rw [List.flatMap_cons, List.length_append, ih, pushBytes, List.length_cons, key.length_toBytes]
    cases h : key.compressed <;> simp [h] <;> omega

theorem key?_push (key : PublicKey) : key? (.push key.toBytes) = some key :=
  key.ofBytes?_toBytes

end Instruction

namespace Script

open Instruction

theorem ofScript?_payToKey (key : PublicKey) :
    ofScript? (payToKey key) = some [.push key.toBytes, .op checkSig] := by
  have hlength : key.toBytes.length ≤ 75 := Nat.le_trans key.length_toBytes_le (by decide)
  rw [payToKey, ofScript?_pushBytes hlength, ofScript?_op rfl, ofScript?_nil]
  rfl

theorem payToKey?_payToKey (key : PublicKey) : payToKey? (payToKey key) = some key := by
  rw [payToKey?, ofScript?_payToKey]
  exact key?_push key

theorem ofScript?_multisig (threshold : Nat) (keys : List PublicKey) :
    ofScript? (multisig threshold keys) = some (ofNumber threshold ::
      (keys.map (fun key => .push key.toBytes) ++ [ofNumber keys.length, .op checkMultisig])) := by
  rw [multisig, List.append_assoc, List.append_assoc, ofScript?_numberBytes, ofScript?_keys,
    ofScript?_numberBytes, ofScript?_op rfl, ofScript?_nil]
  rfl

/-- A multisig script is read back unless it has more keys than the largest number with a code. -/
theorem multisig?_multisig {threshold : Nat} {keys : List PublicKey} (hpos : 1 ≤ threshold)
    (hle : threshold ≤ keys.length) :
    multisig? (multisig threshold keys) =
      if keys.length ≤ 16 then some (threshold, keys) else none := by
  have hkeys : (keys.map fun key => Instruction.push key.toBytes).mapM key? = some keys := by
    rw [mapM_eq_some_iff, List.forall₂_map_left_iff, List.forall₂_same]
    exact fun key _ => key?_push key
  have hbody : keys.map (fun key => Instruction.push key.toBytes) ++
      [ofNumber keys.length, .op checkMultisig] =
        (keys.map (fun key => Instruction.push key.toBytes) ++ [ofNumber keys.length]) ++
          [.op checkMultisig] := by
    rw [List.append_assoc]
    rfl
  have hread : multisig? (multisig threshold keys) = (do
      let m ← (ofNumber threshold).number?
      let n ← (ofNumber keys.length).number?
      if m ≤ n ∧ n = keys.length then some (m, keys) else none) := by
    rw [multisig?, ofScript?_multisig, hbody]
    simp [hkeys]
  rw [hread, number?_ofNumber, number?_ofNumber]
  by_cases hcodes : keys.length ≤ 16
  · rw [if_pos (by omega), if_pos (by omega), if_pos hcodes]
    simp [hle]
  · rw [if_neg (show ¬(1 ≤ keys.length ∧ keys.length ≤ 16) by omega), if_neg hcodes]
    cases (if 1 ≤ threshold ∧ threshold ≤ 16 then some threshold else none) <;> rfl

end Script

end OutputDescriptor
