import OutputDescriptor.Proofs.Output.Reclassification
import OutputDescriptor.Proofs.Output.TemplateOrder

/-! Scripts as the encodings of their instructions. The same data can be pushed in several forms, so
that a script which is recognised as one for some keys is the script written for them up to the forms
in which the keys are pushed. -/
namespace OutputDescriptor

/-- How the length of pushed data is written: as the code itself, or in bytes after a code. -/
inductive PushForm
  | direct
  | byte
  | word
  | longWord
  deriving DecidableEq, Repr

namespace PushForm

def size : PushForm → Nat
  | .direct => 0
  | .byte => 1
  | .word => 2
  | .longWord => 4

/-- What stands before data of some length. The bytes of a length are written lowest first. -/
def header : PushForm → Nat → Bytes
  | .direct, length => [UInt8.ofNat length]
  | .byte, length => 0x4c :: (Bytes.ofNat 1 length).reverse
  | .word, length => 0x4d :: (Bytes.ofNat 2 length).reverse
  | .longWord, length => 0x4e :: (Bytes.ofNat 4 length).reverse

def bound : PushForm → Nat
  | .direct => 76
  | .byte => 256
  | .word => 256 ^ 2
  | .longWord => 256 ^ 4

def push (form : PushForm) (data : Bytes) : Bytes := form.header data.length ++ data

theorem push_direct (data : Bytes) : direct.push data = Instruction.pushBytes data := rfl

theorem lt_bound_of_lt {form : PushForm} {length : Nat} (h : length < 76) : length < form.bound := by
  cases form <;> simp only [bound] <;> omega

theorem length_push (form : PushForm) (data : Bytes) :
    (form.push data).length = (direct.push data).length + form.size := by
  cases form <;> simp [push, header, size] <;> omega

theorem size_eq_zero_iff {form : PushForm} : form.size = 0 ↔ form = .direct := by
  cases form <;> decide

end PushForm

namespace Instruction

/-- The bytes that an instruction can be written as. -/
inductive Encodes : Instruction → Bytes → Prop
  | op {code : UInt8} (h : lengthSize? code = none) : Encodes (.op code) [code]
  | push (form : PushForm) {data : Bytes} (h : data.length < form.bound) :
      Encodes (.push data) (form.push data)

theorem lengthSize?_eq_some {code : UInt8} {size : Nat} (h : lengthSize? code = some size) :
    (code.toNat < 76 ∧ size = 0) ∨ (code = 0x4c ∧ size = 1) ∨ (code = 0x4d ∧ size = 2) ∨
      (code = 0x4e ∧ size = 4) := by
  unfold lengthSize? at h
  split at h
  · rename_i hshort
    rw [UInt8.le_iff_toNat_le] at hshort
    exact .inl ⟨Nat.lt_succ_of_le hshort, (Option.some.inj h).symm⟩
  · split at h
    · exact .inr (.inl ⟨‹_›, (Option.some.inj h).symm⟩)
    · split at h
      · exact .inr (.inr (.inl ⟨‹_›, (Option.some.inj h).symm⟩))
      · split at h
        · exact .inr (.inr (.inr ⟨‹_›, (Option.some.inj h).symm⟩))
        · cases h

/-- The header that is read before data is one of those that can be written before it. -/
theorem exists_header {code : UInt8} {size : Nat} {field data : Bytes}
    (hsize : lengthSize? code = some size) (hfield : field.length = size)
    (hlength : data.length = if size = 0 then code.toNat else Bytes.toNat field.reverse) :
    ∃ form : PushForm, data.length < form.bound ∧ form.header data.length = code :: field := by
  have hlong (hpos : 0 < size) :
      data.length < 256 ^ size ∧ (Bytes.ofNat size data.length).reverse = field := by
    rw [if_neg (by omega)] at hlength
    have hbound := Bytes.toNat_lt field.reverse
    rw [← hlength, List.length_reverse, hfield] at hbound
    have hbytes := Bytes.ofNat_eq_of_toNat (List.length_reverse.trans hfield) hlength
    exact ⟨hbound, by rw [hbytes, List.reverse_reverse]⟩
  rcases lengthSize?_eq_some hsize with ⟨hcode, rfl⟩ | ⟨rfl, rfl⟩ | ⟨rfl, rfl⟩ | ⟨rfl, rfl⟩
  · rw [if_pos rfl] at hlength
    refine ⟨.direct, hlength ▸ hcode, ?_⟩
    rw [List.eq_nil_of_length_eq_zero hfield, PushForm.header, hlength, UInt8.ofNat_toNat]
  · obtain ⟨hbound, hbytes⟩ := hlong (by decide)
    exact ⟨.byte, hbound, congrArg _ hbytes⟩
  · obtain ⟨hbound, hbytes⟩ := hlong (by decide)
    exact ⟨.word, hbound, congrArg _ hbytes⟩
  · obtain ⟨hbound, hbytes⟩ := hlong (by decide)
    exact ⟨.longWord, hbound, congrArg _ hbytes⟩

/-- An instruction that is read stands at the start of the script, in one of the ways to write it. -/
theorem exists_encodes_of_ofCode? {code : UInt8} {rest : Bytes} {instruction : Instruction}
    {used : Nat} (h : ofCode? code rest = some (instruction, used)) :
    ∃ part, instruction.Encodes part ∧ code :: rest = part ++ rest.drop used := by
  unfold ofCode? at h
  split at h
  · rename_i hcode
    cases h
    exact ⟨[code], .op hcode, rfl⟩
  · rename_i size hsize
    simp only [Option.ite_none_right_eq_some, Option.some.injEq, Prod.mk.injEq] at h
    obtain ⟨⟨hfield, hlength⟩, rfl, rfl⟩ := h
    obtain ⟨form, hbound, hheader⟩ := exists_header hsize hfield hlength
    refine ⟨_, .push form hbound, ?_⟩
    rw [PushForm.push, hheader, List.cons_append, List.cons_append, List.append_assoc,
      ← List.drop_drop, List.take_append_drop, List.take_append_drop]

theorem ofCode?_of_lengthSize? {code : UInt8} {size : Nat} (hcode : lengthSize? code = some size)
    (hpos : 0 < size) {data : Bytes} (hbound : data.length < 256 ^ size) (rest : Bytes) :
    ofCode? code ((Bytes.ofNat size data.length).reverse ++ (data ++ rest)) =
      some (.push data, size + data.length) := by
  have hfield : (Bytes.ofNat size data.length).reverse.length = size := by
    rw [List.length_reverse, Bytes.length_ofNat]
  have hnumber : Bytes.toNat (Bytes.ofNat size data.length) = data.length := by
    rw [Bytes.toNat_ofNat, Nat.mod_eq_of_lt hbound]
  simp [ofCode?, hcode, List.take_left' hfield, List.drop_left' hfield, hnumber, hpos.ne']

/-- An instruction is read from whatever it is written as, and reading goes on after it. -/
theorem ofScript?_append_of_encodes {instruction : Instruction} {part : Bytes}
    (h : instruction.Encodes part) (rest : Bytes) :
    ofScript? (part ++ rest) = (ofScript? rest).map (instruction :: ·) := by
  have hlong {code : UInt8} {size : Nat} (hcode : lengthSize? code = some size) (hpos : 0 < size)
      {data : Bytes} (hbound : data.length < 256 ^ size) :
      ofScript? (code :: (Bytes.ofNat size data.length).reverse ++ data ++ rest) =
        (ofScript? rest).map (.push data :: ·) := by
    have hdrop : ((Bytes.ofNat size data.length).reverse ++ (data ++ rest)).drop
        (size + data.length) = rest := by
      rw [← List.append_assoc]
      exact List.drop_left' (by simp)
    rw [List.cons_append, List.cons_append, List.append_assoc,
      ofScript?_cons (ofCode?_of_lengthSize? hcode hpos hbound rest), hdrop]
  cases h with
  | op hcode => exact ofScript?_op hcode rest
  | @push form data hbound =>
    cases form with
    | direct => exact ofScript?_pushBytes (Nat.le_of_lt_succ hbound) rest
    | byte => exact hlong rfl (by decide) hbound
    | word => exact hlong rfl (by decide) hbound
    | longWord => exact hlong rfl (by decide) hbound

theorem ofScript?_cons_eq_none {code : UInt8} {rest : Bytes} (h : ofCode? code rest = none) :
    ofScript? (code :: rest) = none := by
  simp [ofScript?, ofScript, h]

/-- A script is read as instructions exactly if it consists of what they can be written as. -/
theorem ofScript?_eq_some_iff {script : Bytes} {instructions : List Instruction} :
    ofScript? script = some instructions ↔
      ∃ parts, List.Forall₂ Encodes instructions parts ∧ script = parts.flatten := by
  constructor
  · intro h
    induction instructions generalizing script with
    | nil =>
      refine ⟨[], .nil, ?_⟩
      cases script with
      | nil => rfl
      | cons code rest =>
        cases hcode : ofCode? code rest with
        | none => simp [ofScript?_cons_eq_none hcode] at h
        | some found => simp [ofScript?_cons hcode] at h
    | cons instruction others ih =>
      obtain ⟨code, rest, used, rfl, hcode⟩ := exists_ofCode?_of_ofScript? h
      rw [ofScript?_cons hcode] at h
      obtain ⟨others', hothers, heq⟩ := Option.map_eq_some_iff.mp h
      obtain ⟨-, rfl⟩ := List.cons_eq_cons.mp heq
      obtain ⟨part, hpart, hscript⟩ := exists_encodes_of_ofCode? hcode
      obtain ⟨parts, hparts, hrest⟩ := ih hothers
      refine ⟨part :: parts, .cons hpart hparts, ?_⟩
      rw [List.flatten_cons, ← hrest, hscript]
  · rintro ⟨parts, hparts, rfl⟩
    induction hparts with
    | nil => exact ofScript?_nil
    | cons hpart _ ih => rw [List.flatten_cons, ofScript?_append_of_encodes hpart, ih]; rfl

theorem encodes_key (form : PushForm) (key : PublicKey) :
    (Instruction.push key.toBytes).Encodes (form.push key.toBytes) := by
  have hlength : key.toBytes.length < 76 := Nat.lt_of_le_of_lt key.length_toBytes_le (by decide)
  exact .push form (PushForm.lt_bound_of_lt hlength)

theorem exists_push_of_key? {instruction : Instruction} {key : PublicKey} {part : Bytes}
    (hkey : instruction.key? = some key) (hpart : instruction.Encodes part) :
    ∃ form : PushForm, part = form.push key.toBytes := by
  cases hpart with
  | op => cases hkey
  | push form => exact ⟨form, by rw [PublicKey.ofBytes?_eq_some_iff.mp hkey]⟩

/-- Small numbers have one form only. -/
theorem eq_numberBytes_of_number? {instruction : Instruction} {value : Nat} {part : Bytes}
    (hnumber : instruction.number? = some value) (hpart : instruction.Encodes part) :
    1 ≤ value ∧ value ≤ 16 ∧ part = numberBytes value := by
  cases hpart with
  | push => cases hnumber
  | op hcode =>
    simp only [number?, Option.ite_none_right_eq_some, UInt8.le_iff_toNat_le, UInt8.reduceToNat,
      Option.some.injEq] at hnumber
    obtain ⟨hrange, rfl⟩ := hnumber
    refine ⟨by omega, by omega, ?_⟩
    rw [numberBytes, if_pos (by omega), Nat.add_sub_cancel' (by omega), UInt8.ofNat_toNat]

theorem eq_singleton_of_encodes_op {code : UInt8} {part : Bytes}
    (h : (Instruction.op code).Encodes part) : part = [code] := by
  cases h
  rfl

end Instruction

namespace Script

open Instruction

/-! ### Scripts of one key -/

def payToKeyAs (form : PushForm) (key : PublicKey) : Bytes :=
  form.push key.toBytes ++ [checkSig]

theorem payToKeyAs_direct (key : PublicKey) : payToKeyAs .direct key = payToKey key := rfl

theorem payToKeyAs_eq_payToKey_iff {form : PushForm} {key : PublicKey} :
    payToKeyAs form key = payToKey key ↔ form = .direct := by
  constructor
  · intro h
    have hlength := congrArg List.length h
    rw [← payToKeyAs_direct, payToKeyAs, payToKeyAs, List.length_append, List.length_append,
      PushForm.length_push] at hlength
    exact PushForm.size_eq_zero_iff.mp (by omega)
  · rintro rfl
    rfl

theorem payToKey?_eq_some_iff {script : Bytes} {key : PublicKey} :
    payToKey? script = some key ↔ ∃ form, script = payToKeyAs form key := by
  constructor
  · intro h
    unfold payToKey? at h
    split at h
    · rename_i push code hscript
      obtain ⟨rfl, hkey⟩ := Option.ite_none_right_eq_some.mp h
      obtain ⟨parts, hparts, rfl⟩ := ofScript?_eq_some_iff.mp hscript
      obtain ⟨first, others, hfirst, hothers, rfl⟩ := List.forall₂_cons_left_iff.mp hparts
      obtain ⟨second, rest, hsecond, hrest, rfl⟩ := List.forall₂_cons_left_iff.mp hothers
      obtain rfl := List.forall₂_nil_left_iff.mp hrest
      obtain ⟨form, rfl⟩ := exists_push_of_key? hkey hfirst
      obtain rfl := eq_singleton_of_encodes_op hsecond
      exact ⟨form, rfl⟩
    · cases h
  · rintro ⟨form, rfl⟩
    have hread : ofScript? (payToKeyAs form key) = ofScript? (payToKey key) := by
      rw [← payToKeyAs_direct, payToKeyAs, payToKeyAs,
        ofScript?_append_of_encodes (encodes_key form key),
        ofScript?_append_of_encodes (encodes_key .direct key)]
    rw [payToKey?, hread]
    exact payToKey?_payToKey key

/-! ### Scripts of several keys -/

def pushKeysAs (pushes : List (PushForm × PublicKey)) : Bytes :=
  pushes.flatMap fun push => push.1.push push.2.toBytes

/-- The multisig script of keys that are pushed in some forms. -/
def multisigAs (threshold : Nat) (pushes : List (PushForm × PublicKey)) : Bytes :=
  numberBytes threshold ++ pushKeysAs pushes ++ numberBytes pushes.length ++ [checkMultisig]

variable {threshold : Nat} {pushes : List (PushForm × PublicKey)}

theorem length_pushKeysAs (pushes : List (PushForm × PublicKey)) :
    (pushKeysAs pushes).length =
      ((pushes.map (·.2)).flatMap fun key => pushBytes key.toBytes).length +
        (pushes.map (·.1.size)).sum := by
  induction pushes with
  | nil => rfl
  | cons push pushes ih =>
    rw [pushKeysAs] at ih ⊢
    rw [List.flatMap_cons, List.length_append, ih, PushForm.length_push, PushForm.push_direct]
    simp only [List.map_cons, List.flatMap_cons, List.length_append, List.sum_cons]
    omega

theorem pushKeysAs_of_direct (h : ∀ push ∈ pushes, push.1 = .direct) :
    pushKeysAs pushes = (pushes.map (·.2)).flatMap fun key => pushBytes key.toBytes := by
  rw [pushKeysAs, List.flatMap_map]
  refine List.flatMap_congr fun push hpush => ?_
  rw [h push hpush, PushForm.push_direct]

/-- A multisig script is the written one exactly if no key is pushed in a longer form than needed.
-/
theorem multisigAs_eq_multisig_iff :
    multisigAs threshold pushes = multisig threshold (pushes.map (·.2)) ↔
      ∀ push ∈ pushes, push.1 = .direct := by
  constructor
  · intro h push hpush
    have hlength := congrArg List.length h
    simp only [multisigAs, multisig, List.length_append, length_pushKeysAs, List.length_map]
      at hlength
    have hzero : (pushes.map (·.1.size)).sum = 0 := by omega
    have hsize := List.sum_eq_zero_iff.mp hzero push.1.size (List.mem_map_of_mem hpush)
    exact PushForm.size_eq_zero_iff.mp hsize
  · intro h
    rw [multisigAs, multisig, pushKeysAs_of_direct h, List.length_map]

/-- In whatever forms the keys are pushed, the instructions are the same. -/
theorem ofScript?_multisigAs :
    ofScript? (multisigAs threshold pushes) =
      ofScript? (multisig threshold (pushes.map (·.2))) := by
  have hkeys (rest : Bytes) : ofScript? (pushKeysAs pushes ++ rest) =
      (ofScript? rest).map ((pushes.map (·.2)).map (fun key => push key.toBytes) ++ ·) := by
    induction pushes with
    | nil => simp [pushKeysAs]
    | cons push pushes ih =>
      rw [pushKeysAs, List.flatMap_cons, List.append_assoc,
        ofScript?_append_of_encodes (encodes_key push.1 push.2), ← pushKeysAs, ih, Option.map_map]
      rfl
  simp only [multisigAs, multisig, List.append_assoc, ofScript?_numberBytes, ofScript?_keys, hkeys,
    List.length_map]

theorem exists_pushes {instructions : List Instruction} {keys : List PublicKey}
    {parts : List Bytes} (hkeys : List.Forall₂ (fun i key => key? i = some key) instructions keys)
    (hparts : List.Forall₂ Encodes instructions parts) :
    ∃ pushes : List (PushForm × PublicKey), pushes.map (·.2) = keys ∧
      parts.flatten = pushKeysAs pushes := by
  induction hparts generalizing keys with
  | nil =>
    obtain rfl := List.forall₂_nil_left_iff.mp hkeys
    exact ⟨[], rfl, rfl⟩
  | cons hpart _ ih =>
    obtain ⟨key, others, hkey, hothers, rfl⟩ := List.forall₂_cons_left_iff.mp hkeys
    obtain ⟨form, rfl⟩ := exists_push_of_key? hkey hpart
    obtain ⟨pushes, rfl, hflat⟩ := ih hothers
    refine ⟨(form, key) :: pushes, rfl, ?_⟩
    rw [List.flatten_cons, hflat]
    rfl

theorem exists_instructions_of_multisig? {script : Bytes} {keys : List PublicKey}
    (h : multisig? script = some (threshold, keys)) :
    threshold ≤ keys.length ∧ ∃ first middle total,
      ofScript? script = some (first :: (middle ++ [total, .op checkMultisig])) ∧
        first.number? = some threshold ∧ middle.mapM key? = some keys ∧
          total.number? = some keys.length := by
  obtain ⟨instructions, hscript, h⟩ := Option.bind_eq_some_iff.mp h
  obtain ⟨first, hfirst, h⟩ := Option.bind_eq_some_iff.mp h
  obtain ⟨last, hlast, h⟩ := Option.bind_eq_some_iff.mp h
  obtain ⟨total, htotal, h⟩ := Option.bind_eq_some_iff.mp h
  obtain ⟨rfl, h⟩ := Option.ite_none_right_eq_some.mp h
  obtain ⟨m, hm, h⟩ := Option.bind_eq_some_iff.mp h
  obtain ⟨n, hn, h⟩ := Option.bind_eq_some_iff.mp h
  obtain ⟨found, hkeys, h⟩ := Option.bind_eq_some_iff.mp h
  obtain ⟨⟨hle, rfl⟩, heq⟩ := Option.ite_none_right_eq_some.mp h
  obtain ⟨rfl, rfl⟩ := Prod.mk.inj (Option.some.inj heq)
  refine ⟨hle, first, _, total, ?_, hm, hkeys, hn⟩
  have hfront := List.dropLast_append_getLast? _ htotal
  have hback := List.dropLast_append_getLast? _ hlast
  obtain ⟨others, rfl⟩ := List.head?_eq_some_iff.mp hfirst
  rw [hscript, List.append_cons, hfront, hback]
  rfl

/-- A script is read as multisig exactly if its numbers have codes, whatever forms its keys are
pushed in. -/
theorem multisig?_eq_some_iff {script : Bytes} {keys : List PublicKey} :
    multisig? script = some (threshold, keys) ↔
      1 ≤ threshold ∧ threshold ≤ keys.length ∧ keys.length ≤ 16 ∧
        ∃ pushes : List (PushForm × PublicKey), pushes.map (·.2) = keys ∧
          script = multisigAs threshold pushes := by
  constructor
  · intro h
    obtain ⟨hle, first, middle, total, hscript, hm, hkeys, hn⟩ :=
      exists_instructions_of_multisig? h
    obtain ⟨parts, hparts, rfl⟩ := ofScript?_eq_some_iff.mp hscript
    obtain ⟨head, others, hhead, hothers, rfl⟩ := List.forall₂_cons_left_iff.mp hparts
    have hfront := (List.forall₂_take_append _ _ _ hothers.flip).flip
    have hback := (List.forall₂_drop_append _ _ _ hothers.flip).flip
    obtain ⟨count, rest, hcount, hrest, hend⟩ := List.forall₂_cons_left_iff.mp hback
    obtain ⟨check, rest, hcheck, hnil, rfl⟩ := List.forall₂_cons_left_iff.mp hrest
    obtain rfl := List.forall₂_nil_left_iff.mp hnil
    obtain ⟨hpos, -, rfl⟩ := eq_numberBytes_of_number? hm hhead
    obtain ⟨-, hcodes, rfl⟩ := eq_numberBytes_of_number? hn hcount
    obtain rfl := eq_singleton_of_encodes_op hcheck
    obtain ⟨pushes, rfl, hflat⟩ := exists_pushes (mapM_eq_some_iff.mp hkeys) hfront
    refine ⟨hpos, hle, hcodes, pushes, rfl, ?_⟩
    rw [← List.take_append_drop middle.length others, hend, List.flatten_cons, List.flatten_append,
      hflat, multisigAs, List.length_map]
    simp
  · rintro ⟨hpos, hle, hcodes, pushes, rfl, rfl⟩
    rw [multisig?, ofScript?_multisigAs]
    have hread := multisig?_multisig hpos hle
    rwa [if_pos hcodes] at hread

end Script

/-- A script that is classified as paying to keys is the one written for them, up to push forms. -/
theorem key_scripts_up_to_push_forms {script : Bytes} {network : Network} {payment : Payment}
    (h : Payment.ofOutputScript script network = .ok payment) :
    (payment.template = .p2pk → ∃ key form, script = Script.payToKeyAs form key ∧
      (script = (Payment.p2pk key).outputScript ↔ form = .direct)) ∧
    (payment.template = .p2ms → ∃ threshold pushes made,
      Payment.p2ms threshold (pushes.map (·.2)) = .ok made ∧
        script = Script.multisigAs threshold pushes ∧
          (script = made.outputScript ↔ ∀ push ∈ pushes, push.1 = .direct)) := by
  have hfits : payment.template.fits script :=
    Payment.fits_iff_exists_ofOutputScript.mpr ⟨payment, h, rfl⟩
  constructor
  · intro htemplate
    rw [htemplate] at hfits
    obtain ⟨key, hkey⟩ := Option.isSome_iff_exists.mp hfits
    obtain ⟨form, rfl⟩ := Script.payToKey?_eq_some_iff.mp hkey
    exact ⟨key, form, rfl, Script.payToKeyAs_eq_payToKey_iff⟩
  · intro htemplate
    rw [htemplate] at hfits
    obtain ⟨⟨threshold, keys⟩, hkeys⟩ := Option.isSome_iff_exists.mp hfits
    obtain ⟨hpos, hle, hcodes, pushes, rfl, rfl⟩ := Script.multisig?_eq_some_iff.mp hkeys
    have hmade := Payment.p2ms_eq_ok_iff.mpr ⟨hpos, hle, by omega, rfl⟩
    exact ⟨threshold, pushes, _, hmade, rfl, Script.multisigAs_eq_multisig_iff⟩

/-- A key pushed with its length in a byte of its own is recognised, also in a multisig script. -/
theorem key_scripts_up_to_push_forms_byte :
    let key : PublicKey := ⟨.generator, true⟩
    (∃ key' form, Script.payToKeyAs .byte key = Script.payToKeyAs form key' ∧
      (Script.payToKeyAs .byte key = (Payment.p2pk key').outputScript ↔ form = .direct)) ∧
    ∃ threshold pushes made, Payment.p2ms threshold (pushes.map (·.2)) = .ok made ∧
      Script.multisigAs 1 [(.direct, key), (.byte, key)] = Script.multisigAs threshold pushes ∧
        (Script.multisigAs 1 [(.direct, key), (.byte, key)] = made.outputScript ↔
          ∀ push ∈ pushes, push.1 = .direct) := by
  intro key
  have hone : Template.fits .p2pk (Script.payToKeyAs .byte key) :=
    Option.isSome_iff_exists.mpr ⟨key, Script.payToKey?_eq_some_iff.mpr ⟨.byte, rfl⟩⟩
  have htwo : Template.fits .p2ms (Script.multisigAs 1 [(.direct, key), (.byte, key)]) :=
    Option.isSome_iff_exists.mpr ⟨(1, [key, key]), Script.multisig?_eq_some_iff.mpr
      ⟨by decide, by decide, by decide, _, rfl, rfl⟩⟩
  exact ⟨(key_scripts_up_to_push_forms (Payment.ofOutputScript_of_fits hone .bitcoin)).1 rfl,
    (key_scripts_up_to_push_forms (Payment.ofOutputScript_of_fits htwo .bitcoin)).2 rfl⟩

/-- A script of 36 bytes that pays to a key, but is written for none. -/
theorem exists_p2pk_not_canonical :
    let script : Bytes := 0x4c :: 33 :: PublicKey.toBytes ⟨.generator, true⟩ ++ [0xac]
    (∃ payment, Payment.ofOutputScript script .bitcoin = .ok payment ∧ payment.template = .p2pk) ∧
      ¬∃ key, (Payment.p2pk key).outputScript = script := by
  intro script
  have hscript : script = Script.payToKeyAs .byte ⟨.generator, true⟩ := rfl
  have hread : Script.payToKey? script = some ⟨.generator, true⟩ :=
    Script.payToKey?_eq_some_iff.mpr ⟨.byte, hscript⟩
  have hfits : Template.fits .p2pk script := Option.isSome_iff_exists.mpr ⟨_, hread⟩
  refine ⟨⟨_, Payment.ofOutputScript_of_fits hfits .bitcoin, rfl⟩, ?_⟩
  rintro ⟨key, hkey⟩
  have hcanonical : Script.payToKey key = script := hkey
  have hsame := Script.payToKey?_payToKey key
  rw [hcanonical, hread] at hsame
  rw [← Option.some.inj hsame, hscript] at hcanonical
  exact absurd (Script.payToKeyAs_eq_payToKey_iff.mp hcanonical.symm) (by decide)

end OutputDescriptor
