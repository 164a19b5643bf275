import OutputDescriptor.Proofs.Text.Digits
import OutputDescriptor.Proofs.Traversal
import OutputDescriptor.Text.Base58

/-! Base58 text and the bytes it stands for determine each other. Both directions write a number
anew in the other base, and keep the zeros in front of it. -/
namespace OutputDescriptor

/-- The digits of a number in another base, after as many zeros as stood in front of it. -/
def recode (source target count : Nat) (ds : List Nat) : List Nat :=
  List.replicate (ds.takeWhile (· == 0)).length 0 ++
    (digits target count (ofDigits source ds)).dropWhile (· == 0)

theorem takeWhile_zero_eq_replicate (ds : List Nat) :
    ds.takeWhile (· == 0) = List.replicate (ds.takeWhile (· == 0)).length 0 := by
  refine List.eq_replicate_iff.mpr ⟨rfl, fun d hd => ?_⟩
  simpa using List.all_eq_true.mp List.all_takeWhile d hd

/-- Zeros and a string that does not start with one. -/
theorem replicate_append_dropWhile_zero (ds : List Nat) :
    List.replicate (ds.takeWhile (· == 0)).length 0 ++ ds.dropWhile (· == 0) = ds := by
  rw [← takeWhile_zero_eq_replicate, List.takeWhile_append_dropWhile]

theorem ofDigits_dropWhile_zero (base : Nat) (ds : List Nat) :
    ofDigits base (ds.dropWhile (· == 0)) = ofDigits base ds := by
  have h := ofDigits_replicate_zero_append base (ds.takeWhile (· == 0)).length
    (ds.dropWhile (· == 0))
  rw [replicate_append_dropWhile_zero] at h
  exact h.symm

theorem head?_dropWhile_zero (ds : List Nat) : (ds.dropWhile (· == 0)).head? ≠ some 0 := by
  intro h
  have hhead := List.head?_dropWhile_not (· == 0) ds
  rw [h] at hhead
  simp at hhead

theorem pow_le_ofDigits {base d : Nat} {ds : List Nat} (h : d ≠ 0) :
    base ^ ds.length ≤ ofDigits base (d :: ds) := by
  induction ds using List.reverseRecOn with
  | nil =>
    have : 1 ≤ d := by omega
    simpa [ofDigits] using this
  | append_singleton ds e ih =>
    rw [← List.cons_append, ofDigits_append_singleton, List.length_append, List.length_singleton,
      Nat.pow_succ]
    have := Nat.mul_le_mul_right base ih
    omega

section Trim

variable {base count : Nat} {ds : List Nat} (hhead : ds.head? ≠ some 0)
include hhead

theorem length_le_of_ofDigits_lt (hbase : 1 < base) (h : ofDigits base ds < base ^ count) :
    ds.length ≤ count := by
  cases ds with
  | nil => exact Nat.zero_le count
  | cons d ds =>
    have hd : d ≠ 0 := fun hd => hhead (congrArg some hd)
    have hpow : base ^ ds.length < base ^ count := Nat.lt_of_le_of_lt (pow_le_ofDigits hd) h
    exact (Nat.pow_lt_pow_iff_right hbase).mp hpow

theorem dropWhile_replicate_zero_append (n : Nat) :
    (List.replicate n 0 ++ ds).dropWhile (· == 0) = ds := by
  induction n with
  | zero =>
    cases ds with
    | nil => rfl
    | cons d ds =>
      have hd : d ≠ 0 := fun hd => hhead (congrArg some hd)
      exact List.dropWhile_cons_of_neg (by simpa using hd)
  | succ n ih => simpa [List.replicate_succ] using ih

theorem length_takeWhile_replicate_zero_append (n : Nat) :
    ((List.replicate n 0 ++ ds).takeWhile (· == 0)).length = n := by
  have h := congrArg List.length (replicate_append_dropWhile_zero (List.replicate n 0 ++ ds))
  rw [dropWhile_replicate_zero_append hhead, List.length_append, List.length_append,
    List.length_replicate, List.length_replicate] at h
  omega

/-- The digits of a number are those that write it, after zeros. -/
theorem dropWhile_digits (hbase : 0 < base) (hlt : ∀ d ∈ ds, d < base)
    (hlen : ds.length ≤ count) :
    (digits base count (ofDigits base ds)).dropWhile (· == 0) = ds := by
  have hpadded : ∀ d ∈ List.replicate (count - ds.length) 0 ++ ds, d < base := by
    rw [List.forall_mem_append]
    refine ⟨fun d hd => ?_, hlt⟩
    rw [List.eq_of_mem_replicate hd]
    exact hbase
  have hdigits := digits_ofDigits hpadded
  rw [ofDigits_replicate_zero_append, List.length_append, List.length_replicate,
    Nat.sub_add_cancel hlen] at hdigits
  rw [hdigits, dropWhile_replicate_zero_append hhead]

end Trim

section Recode

variable {source target count : Nat} {ds : List Nat}

theorem lt_of_mem_recode (source count : Nat) (ds : List Nat) (htarget : 0 < target) :
    ∀ d ∈ recode source target count ds, d < target := by
  rw [recode, List.forall_mem_append]
  refine ⟨fun d hd => ?_, fun d hd => ?_⟩
  · rw [List.eq_of_mem_replicate hd]
    exact htarget
  · exact lt_of_mem_digits htarget ((List.dropWhile_suffix _).mem hd)

theorem ofDigits_recode (hlt : ∀ d ∈ ds, d < source)
    (hcount : source ^ ds.length ≤ target ^ count) :
    ofDigits target (recode source target count ds) = ofDigits source ds := by
  have hvalue := Nat.lt_of_lt_of_le (ofDigits_lt hlt) hcount
  rw [recode, ofDigits_replicate_zero_append, ofDigits_dropWhile_zero, ofDigits_digits,
    Nat.mod_eq_of_lt hvalue]

/-- Recoding back restores the digits if there is room for the number both ways. -/
theorem recode_recode {back : Nat} (hsource : 1 < source) (htarget : 0 < target)
    (hlt : ∀ d ∈ ds, d < source) (hcount : source ^ ds.length ≤ target ^ count)
    (hback : target ^ (recode source target count ds).length ≤ source ^ back) :
    recode target source back (recode source target count ds) = ds := by
  have hvalue : ofDigits source ds < source ^ back := by
    have h := ofDigits_lt (lt_of_mem_recode source count ds htarget)
    rw [ofDigits_recode hlt hcount] at h
    exact Nat.lt_of_lt_of_le h hback
  have hzeros : ((recode source target count ds).takeWhile (· == 0)).length =
      (ds.takeWhile (· == 0)).length :=
    length_takeWhile_replicate_zero_append (head?_dropWhile_zero _) _
  have hrest : (digits source back (ofDigits source ds)).dropWhile (· == 0) =
      ds.dropWhile (· == 0) := by
    rw [← ofDigits_dropWhile_zero] at hvalue ⊢
    have hhead := head?_dropWhile_zero ds
    exact dropWhile_digits hhead (by omega) (fun d hd => hlt d ((List.dropWhile_suffix _).mem hd))
      (length_le_of_ofDigits_lt hhead hsource hvalue)
  rw [recode, hzeros, ofDigits_recode hlt hcount, hrest, replicate_append_dropWhile_zero]

end Recode

namespace Base58

theorem digitOf?_eq_some_iff {c : Char} {d : Nat} :
    digitOf? c = some d ↔ d < 58 ∧ c = charOf d := by
  constructor
  · intro h
    obtain ⟨hlt, hchar, -⟩ := List.findIdx?_eq_some_iff_getElem.mp h
    refine ⟨hlt, ?_⟩
    rw [charOf, List.getD_eq_getElem?_getD, List.getElem?_eq_getElem hlt]
    exact (beq_iff_eq.mp hchar).symm
  · rintro ⟨hlt, rfl⟩
    have hall : ∀ d < 58, digitOf? (charOf d) = some d := by decide
    exact hall d hlt

theorem mapM_digitOf?_eq_some_iff {text : List Char} {ds : List Nat} :
    text.mapM digitOf? = some ds ↔ (∀ d ∈ ds, d < 58) ∧ text = ds.map charOf := by
  rw [mapM_eq_some_iff]
  constructor
  · intro h
    induction h with
    | nil => simp
    | cons hhead _ ih =>
      obtain ⟨hlt, rfl⟩ := digitOf?_eq_some_iff.mp hhead
      obtain ⟨hall, rfl⟩ := ih
      exact ⟨List.forall_mem_cons.mpr ⟨hlt, hall⟩, rfl⟩
  · rintro ⟨hall, rfl⟩
    rw [List.forall₂_map_left_iff, List.forall₂_same]
    exact fun d hd => digitOf?_eq_some_iff.mpr ⟨hall d hd, rfl⟩

theorem encode_eq (bytes : Bytes) :
    encode bytes = (recode 256 58 (2 * bytes.length) (bytes.map UInt8.toNat)).map charOf := by
  have hzeros : (bytes.map UInt8.toNat).takeWhile (· == 0) =
      (bytes.takeWhile (· == 0)).map UInt8.toNat := by
    rw [List.takeWhile_map]
    congr 2
    funext byte
    simp [← UInt8.toNat_inj]
  rw [encode, recode, hzeros, List.length_map, List.map_append, List.map_replicate]
  rfl

theorem decode?_eq_some_iff_recode {text : List Char} {bytes : Bytes} :
    decode? text = some bytes ↔ ∃ ds : List Nat, (∀ d ∈ ds, d < 58) ∧ text = ds.map charOf ∧
      bytes = (recode 58 256 ds.length ds).map UInt8.ofNat := by
  have hbytes (ds : List Nat) : (recode 58 256 ds.length ds).map UInt8.ofNat =
      List.replicate (ds.takeWhile (· == 0)).length 0 ++
        ((digits 256 ds.length (ofDigits 58 ds)).dropWhile (· == 0)).map UInt8.ofNat := by
    rw [recode, List.map_append, List.map_replicate]
    rfl
  constructor
  · intro h
    obtain ⟨ds, hds, h⟩ := Option.bind_eq_some_iff.mp h
    obtain ⟨hlt, rfl⟩ := mapM_digitOf?_eq_some_iff.mp hds
    refine ⟨ds, hlt, rfl, ?_⟩
    rw [hbytes, ← Option.some.inj h, List.length_map]
  · rintro ⟨ds, hlt, rfl, rfl⟩
    refine Option.bind_eq_some_iff.mpr ⟨ds, mapM_digitOf?_eq_some_iff.mpr ⟨hlt, rfl⟩, ?_⟩
    rw [hbytes, List.length_map]
    rfl

/-- The number of a byte string that does not start with zero tells how its text begins. -/
theorem exists_encode_eq_append {bytes : Bytes} (hbytes : bytes.head? ≠ some 0) {d rest : Nat}
    {front : List Nat} (hd : d ≠ 0) (hlt : ∀ e ∈ d :: front, e < 58)
    (h : Bytes.toNat bytes / 58 ^ rest = ofDigits 58 (d :: front)) :
    ∃ tail, encode bytes = (d :: front).map charOf ++ tail ∧ tail.length = rest := by
  let ds := (d :: front) ++ digits 58 rest (Bytes.toNat bytes)
  have hvalue : ofDigits 58 ds = Bytes.toNat bytes := by
    rw [ofDigits_append, length_digits, ofDigits_digits, ← h, Nat.div_add_mod']
  have hhead : ds.head? ≠ some 0 := fun hzero => hd (Option.some.inj hzero)
  have hdigits : ∀ e ∈ ds, e < 58 := List.forall_mem_append.mpr
    ⟨hlt, fun e he => lt_of_mem_digits (by decide) he⟩
  have hlength : ds.length ≤ 2 * bytes.length := by
    refine length_le_of_ofDigits_lt hhead (show 1 < 58 by decide) ?_
    rw [hvalue, Nat.pow_mul]
    exact Nat.lt_of_lt_of_le (Bytes.toNat_lt bytes) (Nat.pow_le_pow_left (by decide) _)
  have hfirst : (bytes.map UInt8.toNat).head? ≠ some 0 := by
    rw [List.head?_map]
    intro hzero
    obtain ⟨byte, hbyte, hzero⟩ := Option.map_eq_some_iff.mp hzero
    exact hbytes (hbyte.trans (congrArg some (UInt8.toNat_inj.mp hzero)))
  have hzeros : ((bytes.map UInt8.toNat).takeWhile (· == 0)).length = 0 :=
    length_takeWhile_replicate_zero_append hfirst 0
  have hrecode : recode 256 58 (2 * bytes.length) (bytes.map UInt8.toNat) = ds := by
    rw [recode, hzeros, List.replicate_zero, List.nil_append]
    change (digits 58 _ (Bytes.toNat bytes)).dropWhile (· == 0) = ds
    rw [← hvalue, dropWhile_digits hhead (by decide) hdigits hlength]
  refine ⟨(digits 58 rest (Bytes.toNat bytes)).map charOf, ?_, ?_⟩
  · rw [encode_eq, hrecode, List.map_append]
  · rw [List.length_map, length_digits]

/-- The text of a byte string is the only one that is read as it. -/
theorem decode?_eq_some_iff {text : List Char} {bytes : Bytes} :
    decode? text = some bytes ↔ text = encode bytes := by
  -- A byte takes fewer than two digits, and a digit less than a byte.
  have htwo (n : Nat) : 256 ^ n ≤ 58 ^ (2 * n) := by
    rw [Nat.pow_mul]
    exact Nat.pow_le_pow_left (by decide) n
  have hone (n : Nat) : 58 ^ n ≤ 256 ^ n := Nat.pow_le_pow_left (by decide) n
  rw [decode?_eq_some_iff_recode, encode_eq]
  constructor
  · rintro ⟨ds, hlt, rfl, rfl⟩
    have hbytes := lt_of_mem_recode 58 ds.length ds (show 0 < 256 by decide)
    rw [Bytes.map_toNat_map_ofNat hbytes, List.length_map,
      recode_recode (by decide) (by decide) hlt (hone _) (htwo _)]
  · rintro rfl
    have hdigits := lt_of_mem_recode 256 (2 * bytes.length) (bytes.map UInt8.toNat)
      (show 0 < 58 by decide)
    have hroom : 256 ^ (bytes.map UInt8.toNat).length ≤ 58 ^ (2 * bytes.length) := by
      rw [List.length_map]
      exact htwo bytes.length
    refine ⟨_, hdigits, rfl, ?_⟩
    rw [recode_recode (by decide) (by decide) (Bytes.lt_of_mem_map_toNat bytes) hroom (hone _),
      Bytes.map_ofNat_map_toNat]

theorem length_checkBytes (payload : Bytes) : (checkBytes payload).length = 4 := by
  rw [checkBytes, List.length_take, (sha256d payload).property]
  rfl

theorem decodeCheck?_eq_some_iff {text : List Char} {payload : Bytes} :
    decodeCheck? text = some payload ↔ text = encodeCheck payload := by
  rw [encodeCheck, ← decode?_eq_some_iff]
  constructor
  · intro h
    obtain ⟨bytes, hbytes, h⟩ := Option.bind_eq_some_iff.mp h
    obtain ⟨⟨-, hcheck⟩, h⟩ := Option.ite_none_right_eq_some.mp h
    have hpayload : bytes.take (bytes.length - 4) = payload := Option.some.inj h
    rw [hpayload] at hcheck
    rw [hbytes, ← hpayload, ← hcheck.trans (congrArg checkBytes hpayload.symm),
      List.take_append_drop]
  · intro h
    refine Option.bind_eq_some_iff.mpr ⟨_, h, ?_⟩
    have hlen : (payload ++ checkBytes payload).length - 4 = payload.length := by
      rw [List.length_append, length_checkBytes, Nat.add_sub_cancel]
    have hfour : 4 ≤ (payload ++ checkBytes payload).length := by
      rw [List.length_append, length_checkBytes]
      exact Nat.le_add_left 4 _
    rw [hlen, List.take_left, List.drop_left, if_pos ⟨hfour, rfl⟩]

theorem encodeCheck_injective : Function.Injective encodeCheck := by
  intro a b h
  have ha : decodeCheck? (encodeCheck a) = some a := decodeCheck?_eq_some_iff.mpr rfl
  rw [h, decodeCheck?_eq_some_iff.mpr rfl] at ha
  exact (Option.some.inj ha).symm

end Base58

end OutputDescriptor
