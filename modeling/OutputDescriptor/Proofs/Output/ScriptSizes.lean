import OutputDescriptor.Proofs.Output.Reclassification

/-! How long the scripts of payments are, and which of them push an uncompressed key. -/
namespace OutputDescriptor

namespace Instruction

@[simp] theorem pushesUncompressedKey_op (code : UInt8) :
    (op code).pushesUncompressedKey = false := rfl

@[simp] theorem pushesUncompressedKey_push (key : PublicKey) :
    (push key.toBytes).pushesUncompressedKey = !key.compressed := by
  unfold pushesUncompressedKey
  cases h : key.compressed <;> simp [key.length_toBytes, key.ofBytes?_toBytes, h]

theorem pushesUncompressedKey_of_length_ne {data : Bytes} (h : data.length ≠ 65) :
    (push data).pushesUncompressedKey = false := by
  simp [pushesUncompressedKey, h]

@[simp] theorem pushesUncompressedKey_ofNumber (value : Nat) :
    (ofNumber value).pushesUncompressedKey = false := by
  unfold ofNumber
  split <;> simp [pushesUncompressedKey_of_length_ne]

theorem length_numberBytes {value : Nat} (hpos : 1 ≤ value) (hle : value ≤ 16) :
    (numberBytes value).length = 1 := by
  simp [numberBytes, hpos, hle]

end Instruction

namespace Script

theorem hasUncompressedKey_of_ofScript? {script : Bytes} {instructions : List Instruction}
    (h : Instruction.ofScript? script = some instructions) :
    hasUncompressedKey script = instructions.any Instruction.pushesUncompressedKey := by
  unfold Instruction.ofScript? at h
  split at h
  · rw [hasUncompressedKey, Option.some.inj h]
  · cases h

theorem hasUncompressedKey_payToKey (key : PublicKey) :
    hasUncompressedKey (payToKey key) = !key.compressed := by
  rw [hasUncompressedKey_of_ofScript? (ofScript?_payToKey key)]
  simp

theorem hasUncompressedKey_multisig (threshold : Nat) (keys : List PublicKey) :
    hasUncompressedKey (multisig threshold keys) = keys.any (!·.compressed) := by
  rw [hasUncompressedKey_of_ofScript? (ofScript?_multisig threshold keys)]
  simp [List.any_map, Function.comp_def]

/-- A script that pays to the hash of a key does not hold the key. -/
theorem hasUncompressedKey_keyHash (kind : NetworkKind) (hash : FixedBytes 20) :
    hasUncompressedKey (Address.p2pkh kind hash).script = false := by
  have hpush : [0x14] ++ hash.val = Instruction.pushBytes hash.val := by
    rw [Instruction.pushBytes, hash.property]
    rfl
  have hscript : (Address.p2pkh kind hash).script =
      0x76 :: 0xa9 :: (Instruction.pushBytes hash.val ++ [0x88, 0xac]) := by
    rw [← hpush]
    rfl
  have hlength : hash.val.length ≤ 75 := by
    rw [hash.property]
    decide
  have hread : Instruction.ofScript? (Address.p2pkh kind hash).script =
      some [.op 0x76, .op 0xa9, .push hash.val, .op 0x88, .op 0xac] := by
    rw [hscript, Instruction.ofScript?_op rfl, Instruction.ofScript?_op rfl,
      Instruction.ofScript?_pushBytes hlength, Instruction.ofScript?_op rfl,
      Instruction.ofScript?_op rfl, Instruction.ofScript?_nil]
    rfl
  have hne : hash.val.length ≠ 65 := by
    rw [hash.property]
    decide
  rw [hasUncompressedKey_of_ofScript? hread]
  simp [Instruction.pushesUncompressedKey_of_length_ne hne]

theorem length_payToKey_le (key : PublicKey) : (payToKey key).length ≤ 67 := by
  have hkey := key.length_toBytes_le
  simp only [payToKey, Instruction.pushBytes, List.length_append, List.length_cons, List.length_nil]
  omega

/-- Both numbers have codes of their own unless there are so many keys that they alone are too long. -/
theorem length_multisig_le_iff {threshold : Nat} {keys : List PublicKey} (hpos : 1 ≤ threshold)
    (hle : threshold ≤ keys.length) : (multisig threshold keys).length ≤ maxScriptElementSize ↔
      34 * keys.countP (·.compressed) + 66 * keys.countP (!·.compressed) + 3 ≤ 520 := by
  have hlength : (multisig threshold keys).length =
      (Instruction.numberBytes threshold).length +
        (34 * keys.countP (·.compressed) + 66 * keys.countP (!·.compressed)) +
          (Instruction.numberBytes keys.length).length + 1 := by
    simp only [multisig, List.length_append, Instruction.length_pushKeys, List.length_singleton]
  have hkeys := keys.length_eq_countP_add_countP (·.compressed)
  simp only [Bool.not_eq_true, Bool.decide_eq_false] at hkeys
  unfold maxScriptElementSize
  by_cases hcodes : keys.length ≤ 16
  · rw [hlength, Instruction.length_numberBytes hpos (by omega),
      Instruction.length_numberBytes (by omega) hcodes]
    omega
  · omega

end Script

theorem Address.length_script_le (address : Address) : address.script.length ≤ 34 := by
  cases address with
  | p2pkh _ hash | p2sh _ hash | p2wpkh _ hash | p2wsh _ hash =>
    have hhash := hash.property
    simp only [script, frame, kind, Address.hash, List.length_append, List.length_cons,
      List.length_nil, hhash]
    omega

end OutputDescriptor
