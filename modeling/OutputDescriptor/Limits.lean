import OutputDescriptor.Error

/-! Bounds on child numbers, ranges, multisig scripts and redeem scripts, checked with an error. -/
namespace OutputDescriptor

def ChildNumber.ofIndex (index : Nat) (hardened : Bool) : Except Error ChildNumber :=
  match ChildNumber.of? index hardened with
  | some number => .ok number
  | none => .error (.derivation (.indexOutOfRange index))

theorem ChildNumber.ofIndex_eq_ok_iff {index : Nat} {hardened : Bool} {number : ChildNumber} :
    ofIndex index hardened = .ok number ↔ number.index = index ∧ number.hardened = hardened := by
  obtain ⟨found, mark, hfound⟩ := number
  unfold ofIndex of?
  by_cases hindex : index < hardenedBase
  · simp only [dif_pos hindex, Except.ok.injEq, mk.injEq, eq_comm]
  · rw [dif_neg hindex]
    constructor
    · intro h
      cases h
    · rintro ⟨rfl, -⟩
      exact absurd hfound hindex

theorem ChildNumber.ofIndex_of_lt {index : Nat} {hardened : Bool} (h : index < hardenedBase) :
    ofIndex index hardened = .ok ⟨index, hardened, h⟩ := ofIndex_eq_ok_iff.mpr ⟨rfl, rfl⟩

def KeyRange.ofBounds (start count : Nat) : Except Error KeyRange :=
  match KeyRange.of? start count with
  | some range => .ok range
  | none => .error (.range start count)

/-- The number of keys is looked at before the threshold. -/
def checkMultisig (threshold keys : Nat) : Except Error Unit :=
  if keys = 0 ∨ maxMultisigKeys < keys then .error (.payment (.keyCount keys))
  else if threshold = 0 ∨ keys < threshold then .error (.payment (.threshold threshold keys))
  else .ok ()

def checkRedeemScriptSize (size : Nat) : Except Error Unit :=
  if maxScriptElementSize < size then .error (.payment (.redeemScriptSize size)) else .ok ()

end OutputDescriptor
