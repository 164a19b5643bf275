import OutputDescriptor.Proofs.Output.Consistency
import OutputDescriptor.Proofs.Output.KeyScripts

/-! Which template an output script has. The first byte of a script tells the templates apart, so
that the order in which they are tried does not matter. -/
namespace OutputDescriptor

/-! ### The first instruction of a script -/

namespace Instruction

theorem exists_ofCode?_of_ofScript? {script : Bytes} {instruction : Instruction}
    {others : List Instruction} (h : ofScript? script = some (instruction :: others)) :
    ∃ code rest used, script = code :: rest ∧ ofCode? code rest = some (instruction, used) := by
  have hscript : (ofScript script).1 = instruction :: others := by
    unfold ofScript? at h
    split at h
    · exact Option.some.inj h
    · cases h
  cases script with
  | nil =>
    rw [ofScript] at hscript
    cases hscript
  | cons code rest =>
    rw [ofScript] at hscript
    split at hscript
    · cases hscript
    · rename_i found used hcode
      obtain ⟨rfl, -⟩ := List.cons_eq_cons.mp hscript
      exact ⟨code, rest, used, rfl, hcode⟩

theorem eq_of_ofCode?_op {code found : UInt8} {rest : Bytes} {used : Nat}
    (h : ofCode? code rest = some (.op found, used)) : found = code := by
  unfold ofCode? at h
  split at h
  · cases h
    rfl
  · simp at h

/-- The code of a push of some data is one of the first, but not the very first. -/
theorem code_of_ofCode?_push {code : UInt8} {rest data : Bytes} {used : Nat}
    (h : ofCode? code rest = some (.push data, used)) (hne : data ≠ []) :
    code ≠ 0 ∧ code ≤ 0x4e := by
  unfold ofCode? at h
  cases hsize : lengthSize? code with
  | none =>
    rw [hsize] at h
    cases h
  | some size =>
    have hcode : code ≤ 0x4e := by
      by_contra hlarge
      rw [UInt8.le_iff_toNat_le, Nat.not_le] at hlarge
      rw [lengthSize?_eq_none hlarge] at hsize
      cases hsize
    refine ⟨?_, hcode⟩
    rintro rfl
    rw [show lengthSize? 0 = some 0 from rfl] at h
    simp at h
    exact hne h.1

theorem eq_push_of_key? {instruction : Instruction} {key : PublicKey}
    (h : instruction.key? = some key) : ∃ data, instruction = .push data ∧ data ≠ [] := by
  cases instruction with
  | op code => cases h
  | push data =>
    refine ⟨data, rfl, ?_⟩
    rintro rfl
    cases h

theorem eq_op_of_number? {instruction : Instruction} {value : Nat}
    (h : instruction.number? = some value) :
    ∃ code, instruction = .op code ∧ 0x51 ≤ code ∧ code ≤ 0x60 := by
  cases instruction with
  | push data => cases h
  | op code =>
    simp only [number?, Option.ite_none_right_eq_some] at h
    exact ⟨code, rfl, h.1⟩

end Instruction

namespace Script

theorem exists_code_of_payToKey? {script : Bytes} {key : PublicKey}
    (h : payToKey? script = some key) :
    ∃ code rest, script = code :: rest ∧ code ≠ 0 ∧ code ≤ 0x4e := by
  unfold payToKey? at h
  split at h
  · rename_i push code hscript
    obtain ⟨first, rest, used, rfl, hfirst⟩ := Instruction.exists_ofCode?_of_ofScript? hscript
    split at h
    · obtain ⟨data, rfl, hdata⟩ := Instruction.eq_push_of_key? h
      exact ⟨first, rest, rfl, Instruction.code_of_ofCode?_push hfirst hdata⟩
    · cases h
  · cases h

theorem exists_code_of_multisig? {script : Bytes} {params : Nat × List PublicKey}
    (h : multisig? script = some params) :
    ∃ code rest, script = code :: rest ∧ 0x51 ≤ code ∧ code ≤ 0x60 := by
  obtain ⟨instructions, hscript, h⟩ := Option.bind_eq_some_iff.mp h
  obtain ⟨threshold, hthreshold, h⟩ := Option.bind_eq_some_iff.mp h
  obtain ⟨last, -, h⟩ := Option.bind_eq_some_iff.mp h
  obtain ⟨total, -, h⟩ := Option.bind_eq_some_iff.mp h
  split at h
  · obtain ⟨m, hm, -⟩ := Option.bind_eq_some_iff.mp h
    obtain ⟨others, rfl⟩ := List.head?_eq_some_iff.mp hthreshold
    obtain ⟨first, rest, used, rfl, hfirst⟩ := Instruction.exists_ofCode?_of_ofScript? hscript
    obtain ⟨code, rfl, hcode⟩ := Instruction.eq_op_of_number? hm
    rw [Instruction.eq_of_ofCode?_op hfirst] at hcode
    exact ⟨first, rest, rfl, hcode⟩
  · cases h

end Script

/-! ### The template of a script -/

/-- The bytes of an output script: a hash and what stands around it. -/
def AddressKind.scriptLength : AddressKind → Nat
  | .p2pkh => 25
  | .p2sh => 23
  | .p2wpkh => 22
  | .p2wsh => 34

namespace Template

/-- The template that a script with this first byte can have; scripts that begin with zero may have
the form of either witness output. -/
def ofFirst (code : UInt8) : Template :=
  if code = 0 then .p2wpkh
  else if code ≤ 0x4e then .p2pk
  else if code ≤ 0x60 then .p2ms
  else if code = 0x6a then .nulldata
  else if code = 0x76 then .p2pkh
  else .p2sh

theorem exists_first_of_fits {template : Template} {script : Bytes} (h : template.fits script) :
    ∃ code rest, script = code :: rest ∧
      (template = ofFirst code ∨ template = .p2wsh ∧ code = 0) := by
  cases template with
  | p2pkh | p2sh | p2wpkh | p2wsh =>
    obtain ⟨address, haddress⟩ := Option.isSome_iff_exists.mp h
    obtain ⟨hash, hhash, -⟩ := Option.map_eq_some_iff.mp haddress
    rw [enclosed?_eq_some_iff.mp hhash]
    exact ⟨_, _, rfl, by decide⟩
  | p2pk =>
    obtain ⟨key, hkey⟩ := Option.isSome_iff_exists.mp h
    obtain ⟨code, rest, rfl, hne, hle⟩ := Script.exists_code_of_payToKey? hkey
    refine ⟨code, rest, rfl, .inl ?_⟩
    rw [ofFirst, if_neg hne, if_pos hle]
  | p2ms =>
    obtain ⟨params, hparams⟩ := Option.isSome_iff_exists.mp h
    obtain ⟨code, rest, rfl, hlow, hhigh⟩ := Script.exists_code_of_multisig? hparams
    simp only [UInt8.le_iff_toNat_le, UInt8.reduceToNat] at hlow
    refine ⟨code, rest, rfl, .inl ?_⟩
    have hne : code ≠ 0 := by
      rintro rfl
      simp at hlow
    have hlt : ¬code ≤ 0x4e := by
      simp only [UInt8.le_iff_toNat_le, UInt8.reduceToNat]
      omega
    rw [ofFirst, if_neg hne, if_neg hlt, if_pos hhigh]
  | nulldata =>
    have hhead : script.head? = some Script.opReturn := by
      simp only [fits, Script.isNullData, Bool.and_eq_true, decide_eq_true_eq] at h
      exact h.1
    obtain ⟨rest, rfl⟩ := List.head?_eq_some_iff.mp hhead
    exact ⟨_, _, rfl, by decide⟩

theorem length_of_fits (kind : AddressKind) {script : Bytes} (h : kind.template.fits script) :
    script.length = kind.scriptLength := by
  cases kind with
  | p2pkh | p2sh | p2wpkh | p2wsh =>
    obtain ⟨address, haddress⟩ := Option.isSome_iff_exists.mp h
    obtain ⟨hash, hhash, -⟩ := Option.map_eq_some_iff.mp haddress
    rw [enclosed?_eq_some_iff.mp hhash, List.length_append, List.length_append, hash.property]
    rfl

/-- No script fits two templates. -/
theorem eq_of_fits {t t' : Template} {script : Bytes} (h : t.fits script) (h' : t'.fits script) :
    t = t' := by
  obtain ⟨code, rest, rfl, hfirst⟩ := exists_first_of_fits h
  obtain ⟨code', rest', hsame, hfirst'⟩ := exists_first_of_fits h'
  obtain ⟨rfl, -⟩ := List.cons_eq_cons.mp hsame
  rcases hfirst with rfl | ⟨rfl, rfl⟩
  · rcases hfirst' with rfl | ⟨rfl, rfl⟩
    · rfl
    · have hshort := length_of_fits .p2wpkh h
      have hlong := length_of_fits .p2wsh h'
      exact absurd (hshort.symm.trans hlong) (by decide)
  · rcases hfirst' with rfl | ⟨rfl, -⟩
    · have hshort := length_of_fits .p2wpkh h'
      have hlong := length_of_fits .p2wsh h
      exact absurd (hshort.symm.trans hlong) (by decide)
    · rfl

theorem mem_all (template : Template) : template ∈ all := by
  cases template <;> decide

/-- In whatever order all templates are tried, the one that comes first is the only one. -/
theorem find?_eq_some_iff {templates : List Template} (hall : ∀ t : Template, t ∈ templates)
    {template : Template} {script : Bytes} :
    templates.find? (·.fits script) = some template ↔ template.fits script := by
  constructor
  · exact List.find?_some
  · intro h
    cases hfound : templates.find? (·.fits script) with
    | none =>
      exact absurd h (List.find?_eq_none.mp hfound template (hall template))
    | some found =>
      have hfits := List.find?_some hfound
      rw [eq_of_fits hfits h]

end Template

theorem AddressKind.template_of_addressKind? {template : Template} {kind : AddressKind}
    (h : template.addressKind? = some kind) : kind.template = template := by
  cases template <;> cases h <;> rfl

namespace Address

theorem isSome_ofScriptAs?_iff (network : Network) {script : Bytes} {kind : AddressKind} :
    (ofScriptAs? network script kind).isSome ↔ kind.template.fits script := by
  rw [isSome_ofScriptAs? network .bitcoin,
    Template.fits_of_addressKind? (AddressKind.addressKind?_template kind)]

theorem ofScript?_of_fits {script : Bytes} {kind : AddressKind} (h : kind.template.fits script)
    (network : Network) : ofScript? network script = ofScriptAs? network script kind := by
  obtain ⟨address, haddress⟩ :=
    Option.isSome_iff_exists.mp ((isSome_ofScriptAs?_iff network).mpr h)
  have hother : ∀ other, other ≠ kind → ofScriptAs? network script other = none := by
    intro other hne
    by_contra hsome
    have hfits := (isSome_ofScriptAs?_iff network).mp (Option.isSome_iff_ne_none.mpr hsome)
    have hsame := congrArg Template.addressKind? (Template.eq_of_fits hfits h)
    rw [AddressKind.addressKind?_template, AddressKind.addressKind?_template] at hsame
    exact hne (Option.some.inj hsame)
  rw [haddress]
  cases kind <;> simp [ofScript?, hother, haddress]

end Address

namespace Payment

/-- A script that fits a template with addresses has one, so the fault is never reported. -/
theorem classify_of_fits {templates : List Template} (hall : ∀ t : Template, t ∈ templates)
    (fault : Template → PaymentFault) {template : Template} {script : Bytes}
    (h : template.fits script) (network : Network) :
    classify templates fault script network = .ok ⟨template, script,
      template.addressKind?.bind (Address.ofScriptAs? network script), none⟩ := by
  rw [classify, (Template.find?_eq_some_iff hall).mpr h]
  cases hkind : template.addressKind? with
  | none =>
    have haddress : template.hasAddress = false := by rw [Template.hasAddress, hkind]; rfl
    simp only [haddress]
    rfl
  | some kind =>
    have haddress : template.hasAddress = true := by rw [Template.hasAddress, hkind]; rfl
    obtain rfl := AddressKind.template_of_addressKind? hkind
    obtain ⟨address, hread⟩ := Option.isSome_iff_exists.mp
      ((Address.isSome_ofScriptAs?_iff network).mpr h)
    simp only [haddress, Address.ofScript?_of_fits h network, hread, Option.bind_some, if_true]

theorem classify_of_not_fits (templates : List Template) (fault : Template → PaymentFault)
    {script : Bytes} (h : ∀ template : Template, ¬template.fits script) (network : Network) :
    classify templates fault script network = .error (.output script) := by
  have hnone : templates.find? (·.fits script) = none :=
    List.find?_eq_none.mpr fun template _ => h template
  rw [classify, hnone]

theorem ofOutputScript_of_fits {template : Template} {script : Bytes} (h : template.fits script)
    (network : Network) :
    ofOutputScript script network = .ok ⟨template, script,
      template.addressKind?.bind (Address.ofScriptAs? network script), none⟩ :=
  classify_of_fits Template.mem_all _ h network

theorem ofOutputScript_of_not_fits {script : Bytes}
    (h : ∀ template : Template, ¬template.fits script) (network : Network) :
    ofOutputScript script network = .error (.output script) :=
  classify_of_not_fits _ _ h network

theorem ofOutputScript_eq_ok_iff {script : Bytes} {network : Network} {payment : Payment} :
    ofOutputScript script network = .ok payment ↔ payment.template.fits script ∧
      payment = ⟨payment.template, script,
        payment.template.addressKind?.bind (Address.ofScriptAs? network script), none⟩ := by
  constructor
  · intro h
    by_cases hfits : ∃ template : Template, template.fits script
    · obtain ⟨template, hfits⟩ := hfits
      rw [ofOutputScript_of_fits hfits] at h
      rw [← Except.ok.inj h]
      exact ⟨hfits, rfl⟩
    · rw [ofOutputScript_of_not_fits (not_exists.mp hfits)] at h
      cases h
  · rintro ⟨hfits, heq⟩
    rw [ofOutputScript_of_fits hfits, ← heq]

/-- Reading an output script fails in one way only: no template fits it. -/
theorem ofOutputScript_eq_error_iff {script : Bytes} {network : Network} {error : Error} :
    ofOutputScript script network = .error error ↔
      (∀ template : Template, ¬template.fits script) ∧ error = .output script := by
  constructor
  · intro h
    have hfits : ∀ template : Template, ¬template.fits script := by
      intro template hfits
      rw [ofOutputScript_of_fits hfits] at h
      cases h
    rw [ofOutputScript_of_not_fits hfits] at h
    exact ⟨hfits, (Except.error.inj h).symm⟩
  · rintro ⟨hfits, rfl⟩
    exact ofOutputScript_of_not_fits hfits network

end Payment

end OutputDescriptor
