import OutputDescriptor.Proofs.Checksum.Residue
import OutputDescriptor.Proofs.Traversal
import OutputDescriptor.Script.Leaf
import OutputDescriptor.Text.Segwit

/-! The text of a witness address, in either case, is the only one that is read as it. -/
namespace OutputDescriptor

namespace Symbol

theorem ofChar?_eq_some_iff {c : Char} {s : Symbol} : ofChar? c = some s ↔ c = s.toChar := by
  constructor
  · intro h
    obtain ⟨i, hi, rfl⟩ := Option.map_eq_some_iff.mp h
    obtain ⟨hlt, hchar, -⟩ := List.findIdx?_eq_some_iff_getElem.mp hi
    have hindex : (BitVec.ofNat 5 i).toNat = i := Nat.mod_eq_of_lt hlt
    rw [toChar, hindex, List.getD_eq_getElem?_getD, List.getElem?_eq_getElem hlt]
    exact (beq_iff_eq.mp hchar).symm
  · rintro rfl
    exact ofChar?_toChar s

theorem mapM_ofChar?_eq_some_iff {text : List Char} {symbols : List Symbol} :
    text.mapM ofChar? = some symbols ↔ text = symbols.map toChar := by
  rw [mapM_eq_some_iff]
  constructor
  · intro h
    induction h with
    | nil => rfl
    | cons hhead _ ih => rw [ofChar?_eq_some_iff.mp hhead, ih, List.map_cons]
  · rintro rfl
    rw [List.forall₂_map_left_iff, List.forall₂_same]
    exact fun s _ => ofChar?_toChar s

theorem toChar_ne_one : ∀ s : Symbol, s.toChar ≠ '1' := by decide

end Symbol

namespace SegwitText

theorem uniformCase_iff {text : List Char} : uniformCase text ↔
    (∀ c ∈ text, c.isUpper = false) ∨ ∀ c ∈ text, c.isLower = false := by
  rw [uniformCase, Bool.not_eq_true', Bool.and_eq_false_iff, List.any_eq_false,
    List.any_eq_false]
  simp

theorem splitSeparator?_append (part : List Char) {data : List Char} (h : '1' ∉ data) :
    splitSeparator? (part ++ '1' :: data) = some (part, data) := by
  have htail : ((part ++ '1' :: data).reverse.takeWhile (· ≠ '1')).reverse = data := by
    have hall : ∀ c ∈ data.reverse, decide (c ≠ '1') = true := by
      intro c hc
      refine decide_eq_true ?_
      rintro rfl
      exact h (List.mem_reverse.mp hc)
    rw [List.reverse_append, List.reverse_cons, List.append_assoc,
      List.takeWhile_append_of_pos hall]
    simp
  have hlen : (part ++ '1' :: data).length - data.length - 1 = part.length := by
    rw [List.length_append, List.length_cons]
    omega
  have hlt : data.length < (part ++ '1' :: data).length := by
    rw [List.length_append, List.length_cons]
    omega
  rw [splitSeparator?, htail, if_pos hlt, hlen, List.take_left]

theorem length_symbolsOfBytes (bytes : Bytes) :
    (symbolsOfBytes bytes).length = (8 * bytes.length + 4) / 5 := by
  simp [symbolsOfBytes]

/-- Bytes and the bits that pad them fill whole symbols. -/
theorem pow_mul_padding {length count padding : Nat} (h : 8 * length + padding = 5 * count) :
    256 ^ length * 2 ^ padding = 32 ^ count := by
  rw [show 256 = 2 ^ 8 by rfl, show 32 = 2 ^ 5 by rfl, ← Nat.pow_mul, ← Nat.pow_mul, ← Nat.pow_add,
    h]

theorem ofDigits_symbolsOfBytes (bytes : Bytes) :
    ofDigits 32 ((symbolsOfBytes bytes).map BitVec.toNat) =
      Bytes.toNat bytes <<< (5 * (symbolsOfBytes bytes).length - 8 * bytes.length) := by
  have hroom : 8 * bytes.length ≤ 5 * (symbolsOfBytes bytes).length := by
    rw [length_symbolsOfBytes]
    omega
  rw [length_symbolsOfBytes] at hroom ⊢
  rw [symbolsOfBytes, Symbol.map_toNat_map_ofNat fun d hd => lt_of_mem_digits (by decide) hd,
    ofDigits_digits]
  generalize (8 * bytes.length + 4) / 5 = count at hroom
  apply Nat.mod_eq_of_lt
  have hbytes := Bytes.toNat_lt bytes
  calc Bytes.toNat bytes <<< (5 * count - 8 * bytes.length)
      = Bytes.toNat bytes * 2 ^ (5 * count - 8 * bytes.length) := Nat.shiftLeft_eq _ _
    _ < 256 ^ bytes.length * 2 ^ (5 * count - 8 * bytes.length) :=
        Nat.mul_lt_mul_of_pos_right hbytes (Nat.two_pow_pos _)
    _ = 32 ^ count := pow_mul_padding (Nat.add_sub_cancel' hroom)

/-- Only the symbols of a byte string are read as it. -/
theorem bytesOfSymbols?_eq_some_iff {symbols : List Symbol} {bytes : Bytes} :
    bytesOfSymbols? symbols = some bytes ↔ symbols = symbolsOfBytes bytes := by
  constructor
  · intro h
    obtain ⟨⟨hpadding, hwhole⟩, h⟩ := Option.ite_none_right_eq_some.mp h
    have h := Option.some.inj h
    have hlen : bytes.length = 5 * symbols.length / 8 := by rw [← h, Bytes.length_ofNat]
    have hlt := ofDigits_lt (Symbol.lt_of_mem_map_toNat symbols)
    have hdigits := digits_ofDigits (Symbol.lt_of_mem_map_toNat symbols)
    rw [List.length_map] at hlt hdigits
    generalize ofDigits 32 (symbols.map BitVec.toNat) = value at h hwhole hlt hdigits
    have hshift : 5 * ((8 * bytes.length + 4) / 5) - 8 * bytes.length = 5 * symbols.length % 8 := by
      omega
    have hcount : (8 * bytes.length + 4) / 5 = symbols.length := by omega
    have hvalue : Bytes.toNat bytes = value >>> (5 * symbols.length % 8) := by
      rw [← h, Bytes.toNat_ofNat]
      apply Nat.mod_eq_of_lt
      rw [Nat.shiftRight_eq_div_pow, Nat.div_lt_iff_lt_mul (Nat.two_pow_pos _)]
      exact Nat.lt_of_lt_of_eq hlt (pow_mul_padding (Nat.div_add_mod _ 8)).symm
    rw [symbolsOfBytes, hshift, hcount, hvalue, hwhole, hdigits, Symbol.map_ofNat_map_toNat]
  · rintro rfl
    have hlen := length_symbolsOfBytes bytes
    have hvalue := ofDigits_symbolsOfBytes bytes
    have hpadding : 5 * (symbolsOfBytes bytes).length - 8 * bytes.length =
        5 * (symbolsOfBytes bytes).length % 8 := by omega
    have hcount : 5 * (symbolsOfBytes bytes).length / 8 = bytes.length := by omega
    have hsmall : 5 * (symbolsOfBytes bytes).length % 8 ≤ 4 := by omega
    rw [bytesOfSymbols?, hvalue, hpadding, Nat.shiftLeft_shiftRight, if_pos ⟨hsmall, rfl⟩, hcount,
      Bytes.ofNat_toNat]

/-- The symbols of a witness address before its check symbols. -/
def dataSymbols (address : SegwitText) : List Symbol :=
  address.version :: symbolsOfBytes address.program

def checkSymbols (address : SegwitText) : List Symbol :=
  (code address.version).checkSymbols
    ((code address.version).run 1 (expand address.humanReadablePart ++ address.dataSymbols))

theorem encode_eq (address : SegwitText) :
    encode address = address.humanReadablePart ++
      '1' :: (address.dataSymbols ++ address.checkSymbols).map Symbol.toChar :=
  rfl

theorem length_checkSymbols (address : SegwitText) : address.checkSymbols.length = 6 := by
  rw [checkSymbols, ResidueCode.checkSymbols, length_unpackSymbols]

theorem length_encode (address : SegwitText) : (encode address).length =
    address.humanReadablePart.length + (8 * address.program.length + 4) / 5 + 8 := by
  rw [encode_eq, List.length_append, List.length_cons, List.length_map, List.length_append,
    length_checkSymbols, dataSymbols, List.length_cons, length_symbolsOfBytes]
  omega

/-- The symbols of a text are complete if they are those that its address is written with. -/
theorem complete_iff (address : SegwitText) {symbols : List Symbol} :
    symbols.head? = some address.version ∧
      bytesOfSymbols? ((symbols.drop 1).take (symbols.length - 7)) = some address.program ∧
      7 ≤ symbols.length ∧
      (code address.version).run 1 (expand address.humanReadablePart ++ symbols) =
        (code address.version).target ↔
    symbols = address.dataSymbols ++ address.checkSymbols := by
  have hrun (check : List Symbol) (hcheck : check.length = 6) :
      (code address.version).run 1 (expand address.humanReadablePart ++
        (address.dataSymbols ++ check)) = (code address.version).target ↔
      check = address.checkSymbols := by
    rw [← List.append_assoc, ResidueCode.run_append]
    exact (code address.version).run_eq_target_iff (by decide) hcheck
  constructor
  · rintro ⟨hhead, hprogram, hseven, htarget⟩
    obtain ⟨rest, rfl⟩ := List.head?_eq_some_iff.mp hhead
    rw [List.length_cons] at hseven
    have hpayload : rest.take (rest.length - 6) = symbolsOfBytes address.program := by
      have := bytesOfSymbols?_eq_some_iff.mp hprogram
      rwa [List.length_cons, Nat.add_sub_add_right] at this
    have hsplit : address.version :: rest =
        address.dataSymbols ++ rest.drop (rest.length - 6) := by
      rw [dataSymbols, ← hpayload, List.cons_append, List.take_append_drop]
    have hsix : (rest.drop (rest.length - 6)).length = 6 := by
      rw [List.length_drop]
      omega
    rw [hsplit] at htarget ⊢
    rw [(hrun _ hsix).mp htarget]
  · rintro rfl
    have hsix := address.length_checkSymbols
    have hlen : (address.dataSymbols ++ address.checkSymbols).length =
        (symbolsOfBytes address.program).length + 7 := by
      rw [List.length_append, hsix, dataSymbols, List.length_cons]
    refine ⟨rfl, ?_, by omega, (hrun _ hsix).mpr rfl⟩
    rw [hlen, Nat.add_sub_cancel, bytesOfSymbols?_eq_some_iff]
    exact List.take_left

/-- A text is read as the address that its lower-case form is written for. -/
theorem decode?_eq_some_iff {text : List Char} {address : SegwitText} :
    decode? text = some address ↔ text.map Char.toLower = encode address ∧ uniformCase text ∧
      text.length ≤ maxLength ∧ humanReadablePartOk address.humanReadablePart ∧
        address.version.toNat ≤ 16 ∧ programSizeOk address.version address.program.length := by
  constructor
  · intro h
    obtain ⟨⟨part, data⟩, hsplit, h⟩ := Option.bind_eq_some_iff.mp h
    obtain ⟨symbols, hsymbols, h⟩ := Option.bind_eq_some_iff.mp h
    obtain ⟨version, hversion, h⟩ := Option.bind_eq_some_iff.mp h
    obtain ⟨program, hprogram, h⟩ := Option.bind_eq_some_iff.mp h
    obtain ⟨⟨hcase, hlength, hpart, hsixteen, hseven, htarget, hsize⟩, h⟩ :=
      Option.ite_none_right_eq_some.mp h
    obtain rfl := Option.some.inj h
    refine ⟨?_, hcase, hlength, hpart, hsixteen, hsize⟩
    have hcomplete := (complete_iff ⟨part, version, program⟩).mp
      ⟨hversion, hprogram, hseven, htarget⟩
    rw [splitSeparator?_eq_some hsplit, Symbol.mapM_ofChar?_eq_some_iff.mp hsymbols, hcomplete,
      encode_eq]
  · rintro ⟨htext, hcase, hlength, hpart, hversion, hsize⟩
    have hone : '1' ∉ (address.dataSymbols ++ address.checkSymbols).map Symbol.toChar := by
      intro h
      obtain ⟨s, -, hs⟩ := List.mem_map.mp h
      exact s.toChar_ne_one hs
    obtain ⟨hhead, hprogram, hseven, htarget⟩ := (complete_iff address).mpr rfl
    have hsplit := splitSeparator?_append address.humanReadablePart hone
    rw [← encode_eq, ← htext] at hsplit
    refine Option.bind_eq_some_iff.mpr ⟨_, hsplit, ?_⟩
    refine Option.bind_eq_some_iff.mpr ⟨_, Symbol.mapM_ofChar?_eq_some_iff.mpr rfl, ?_⟩
    refine Option.bind_eq_some_iff.mpr ⟨_, hhead, ?_⟩
    refine Option.bind_eq_some_iff.mpr ⟨_, hprogram, ?_⟩
    exact if_pos ⟨hcase, hlength, hpart, hversion, hseven, htarget, hsize⟩

end SegwitText

end OutputDescriptor
