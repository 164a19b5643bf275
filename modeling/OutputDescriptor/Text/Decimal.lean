/-! Numbers written in decimal. -/
namespace OutputDescriptor

/-- The number written by a nonempty run of decimal digits. Leading zeros are allowed. -/
def decimal? (text : List Char) : Option Nat :=
  if text ≠ [] ∧ text.all Char.isDigit then
    some (text.foldl (fun value c => value * 10 + (c.toNat - 48)) 0)
  else none

theorem decimal?_eq_some {text : List Char} {value : Nat} (h : decimal? text = some value) :
    text ≠ [] ∧ ∀ c ∈ text, c.isDigit := by
  unfold decimal? at h
  split at h
  · rename_i hdigits
    exact ⟨hdigits.1, List.all_eq_true.mp hdigits.2⟩
  · cases h

/-- Written numbers must fit 32 bits. -/
def wordBound : Nat := 0x100000000

end OutputDescriptor
