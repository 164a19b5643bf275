/-! The characters of the arguments that are no calls. -/
namespace OutputDescriptor

/-- The characters of arguments that are no calls. -/
def isLeafChar (c : Char) : Bool := c.isAlphanum || ['[', ']', '/', '\x27', '*'].contains c

/-- The characters of arguments without brackets and wildcards. -/
def isPathChar (c : Char) : Bool := c.isAlphanum || ['/', '\x27'].contains c

theorem isLeafChar_of_isPathChar {c : Char} (h : isPathChar c) : isLeafChar c := by
  have hsub : ∀ d ∈ ['/', '\x27'], d ∈ ['[', ']', '/', '\x27', '*'] := by simp
  simp only [isPathChar, isLeafChar, Bool.or_eq_true, List.contains_iff_mem] at h ⊢
  exact h.imp_right (hsub c)

theorem isPathChar_of_isAlphanum {c : Char} (h : c.isAlphanum) : isPathChar c := by
  rw [isPathChar, h, Bool.true_or]

theorem isAlphanum_iff {c : Char} : c.isAlphanum ↔ (c.isUpper ∨ c.isLower) ∨ c.isDigit := by
  change ((c.isUpper || c.isLower) || c.isDigit) = true ↔ _
  rw [Bool.or_eq_true, Bool.or_eq_true]

theorem isAlphanum_of_isDigit {c : Char} (h : c.isDigit) : c.isAlphanum :=
  isAlphanum_iff.mpr (.inr h)

theorem isAlphanum_of_toLower {c : Char} (h : c.toLower.isAlphanum) : c.isAlphanum := by
  unfold Char.toLower at h
  split at h
  · rename_i hupper
    have hupper : c.isUpper := decide_eq_true hupper
    exact isAlphanum_iff.mpr (.inl (.inl hupper))
  · exact h

theorem mem_of_findIdx? {alphabet : List Char} {c : Char} {i : Nat}
    (h : alphabet.findIdx? (· == c) = some i) : c ∈ alphabet := by
  have hany := congrArg Option.isSome h
  rw [List.findIdx?_isSome] at hany
  simpa using hany

theorem isAlphanum_of_mapM {α : Type} {read : Char → Option α} {text : List Char} {xs : List α}
    (hread : ∀ c x, read c = some x → c.isAlphanum) (h : text.mapM read = some xs) :
    ∀ c ∈ text, c.isAlphanum := by
  induction text generalizing xs with
  | nil => simp
  | cons c rest ih =>
    rw [List.mapM_cons] at h
    obtain ⟨x, hx, h⟩ := Option.bind_eq_some_iff.mp h
    obtain ⟨others, hothers, -⟩ := Option.bind_eq_some_iff.mp h
    rw [List.forall_mem_cons]
    exact ⟨hread c x hx, ih hothers⟩

end OutputDescriptor
