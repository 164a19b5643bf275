/-! The pieces of a text between the occurrences of a separator, and what they become when something
is put before, after or into the text. -/
namespace OutputDescriptor

variable {sep : Char}

/-! ### Texts put together -/

theorem forall_mem_intercalate {p : Char → Prop} {parts : List (List Char)} (hsep : p sep)
    (h : ∀ part ∈ parts, ∀ c ∈ part, p c) : ∀ c ∈ [sep].intercalate parts, p c := by
  induction parts with
  | nil => simp
  | cons part rest ih =>
    rw [List.forall_mem_cons] at h
    cases rest with
    | nil =>
      rw [List.intercalate_singleton]
      exact h.1
    | cons next rest =>
      rw [List.intercalate_cons_cons, List.forall_mem_append, List.forall_mem_append,
        List.forall_mem_singleton]
      exact ⟨⟨h.1, hsep⟩, ih h.2⟩

theorem isPrefix_intercalate (part : List Char) (rest : List (List Char)) :
    part <+: [sep].intercalate (part :: rest) := by
  cases rest with
  | nil => exact ⟨[], by rw [List.append_nil, List.intercalate_singleton]⟩
  | cons next rest =>
    rw [List.intercalate_cons_cons, List.append_assoc]
    exact List.prefix_append _ _

theorem isInfix_intercalate {parts : List (List Char)} {part : List Char} (h : part ∈ parts) :
    part <:+: [sep].intercalate parts := by
  induction parts with
  | nil => cases h
  | cons first rest ih =>
    rcases List.mem_cons.mp h with rfl | h
    · exact (isPrefix_intercalate part rest).isInfix
    · cases rest with
      | nil => cases h
      | cons next rest =>
        rw [List.intercalate_cons_cons]
        exact (ih h).trans (List.suffix_append _ _).isInfix

/-! ### Texts taken apart -/

theorem splitOn_cons_self (text : List Char) : (sep :: text).splitOn sep = [] :: text.splitOn sep :=
  List.splitOn_append_cons_self_of_not_mem List.not_mem_nil text

theorem splitOn_cons_of_ne {c : Char} (hc : c ≠ sep) (text : List Char) :
    (c :: text).splitOn sep = (text.splitOn sep).modifyHead (c :: ·) := by
  rw [List.splitOn_cons_eq_if_modifyHead, if_neg (by simpa using hc)]

theorem exists_splitOn_eq_cons (sep : Char) (text : List Char) :
    ∃ first others, text.splitOn sep = first :: others :=
  List.exists_cons_of_ne_nil (List.splitOn_ne_nil sep text)

theorem not_mem_of_mem_splitOn {text piece : List Char} (h : piece ∈ text.splitOn sep) :
    sep ∉ piece := by
  induction text generalizing piece with
  | nil =>
    rw [List.splitOn_nil, List.mem_singleton] at h
    rw [h]
    exact List.not_mem_nil
  | cons c rest ih =>
    by_cases hc : c = sep
    · rw [hc, splitOn_cons_self] at h
      rcases List.mem_cons.mp h with rfl | h
      · exact List.not_mem_nil
      · exact ih h
    · obtain ⟨first, others, hrest⟩ := exists_splitOn_eq_cons sep rest
      rw [splitOn_cons_of_ne hc, hrest, List.modifyHead_cons] at h
      rw [hrest] at ih
      rcases List.mem_cons.mp h with rfl | h
      · rw [List.mem_cons, not_or]
        exact ⟨Ne.symm hc, ih List.mem_cons_self⟩
      · exact ih (List.mem_cons_of_mem _ h)

/-- What stands before a text without a separator of its own goes to the first piece. -/
theorem splitOn_append_left {before : List Char} (hbefore : sep ∉ before) (text : List Char) :
    (before ++ text).splitOn sep = (text.splitOn sep).modifyHead (before ++ ·) := by
  obtain ⟨first, others, htext⟩ := exists_splitOn_eq_cons sep text
  rw [htext, List.modifyHead_cons]
  induction before with
  | nil => exact htext
  | cons c rest ih =>
    rw [List.mem_cons, not_or] at hbefore
    rw [List.cons_append, splitOn_cons_of_ne (Ne.symm hbefore.1), ih hbefore.2,
      List.modifyHead_cons, List.cons_append]

/-- What follows a text without a separator of its own goes to the last piece. -/
theorem splitOn_append_right {after : List Char} (hafter : sep ∉ after) (text : List Char) :
    ∃ init last, text.splitOn sep = init ++ [last] ∧
      (text ++ after).splitOn sep = init ++ [last ++ after] := by
  induction text with
  | nil => exact ⟨[], [], List.splitOn_nil sep, List.splitOn_eq_singleton hafter⟩
  | cons c rest ih =>
    obtain ⟨init, last, hrest, happend⟩ := ih
    by_cases hc : c = sep
    · refine ⟨[] :: init, last, ?_, ?_⟩
      · rw [hc, splitOn_cons_self, hrest, List.cons_append]
      · rw [hc, List.cons_append, splitOn_cons_self, happend, List.cons_append]
    · rw [List.cons_append, splitOn_cons_of_ne hc, hrest, splitOn_cons_of_ne hc, happend]
      cases init with
      | nil => exact ⟨[], c :: last, rfl, rfl⟩
      | cons first others => exact ⟨(c :: first) :: others, last, rfl, rfl⟩

/-- Replacing characters of a text by others commutes with taking it apart, if separators are
neither replaced nor brought in. -/
theorem splitOn_flatMap {f : Char → List Char} (hsep : f sep = [sep])
    (hf : ∀ c, c ≠ sep → sep ∉ f c) (text : List Char) :
    (text.flatMap f).splitOn sep = (text.splitOn sep).map (·.flatMap f) := by
  induction text with
  | nil => rw [List.flatMap_nil, List.splitOn_nil, List.map_singleton, List.flatMap_nil]
  | cons c rest ih =>
    rw [List.flatMap_cons]
    by_cases hc : c = sep
    · rw [hc, hsep, List.singleton_append, splitOn_cons_self, splitOn_cons_self, ih, List.map_cons,
        List.flatMap_nil]
    · obtain ⟨first, others, hrest⟩ := exists_splitOn_eq_cons sep rest
      rw [splitOn_append_left (hf c hc), ih, splitOn_cons_of_ne hc, hrest, List.modifyHead_cons,
        List.map_cons, List.map_cons, List.modifyHead_cons, List.flatMap_cons]

/-- No piece of the text is empty. -/
def NoEmptyPiece (sep : Char) (text : List Char) : Prop := ∀ piece ∈ text.splitOn sep, piece ≠ []

theorem NoEmptyPiece.append_left {text : List Char} (h : NoEmptyPiece sep text)
    {before : List Char} (hbefore : sep ∉ before) : NoEmptyPiece sep (before ++ text) := by
  obtain ⟨first, others, htext⟩ := exists_splitOn_eq_cons sep text
  rw [NoEmptyPiece, htext, List.forall_mem_cons] at h
  rw [NoEmptyPiece, splitOn_append_left hbefore, htext, List.modifyHead_cons, List.forall_mem_cons]
  exact ⟨fun hnil => h.1 (List.append_eq_nil_iff.mp hnil).2, h.2⟩

theorem NoEmptyPiece.append_right {text : List Char} (h : NoEmptyPiece sep text)
    {after : List Char} (hafter : sep ∉ after) : NoEmptyPiece sep (text ++ after) := by
  obtain ⟨init, last, htext, happend⟩ := splitOn_append_right hafter text
  rw [NoEmptyPiece, htext, List.forall_mem_append, List.forall_mem_singleton] at h
  rw [NoEmptyPiece, happend, List.forall_mem_append, List.forall_mem_singleton]
  exact ⟨h.1, fun hnil => h.2 (List.append_eq_nil_iff.mp hnil).1⟩

end OutputDescriptor
