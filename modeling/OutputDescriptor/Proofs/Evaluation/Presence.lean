import Mathlib.Data.List.Destutter
import OutputDescriptor.Script.Evaluation

/-! Keeping what exists, and dropping what stands in for its neighbour. -/
namespace OutputDescriptor

variable {α β : Type} [DecidableEq α] [DecidableEq β]

theorem eraseRepsBy_loop_eq [BEq α] [LawfulBEq α] (a : α) (xs found : List α) :
    List.eraseRepsBy.loop (· == ·) a xs found = found.reverse ++ xs.destutter' (· ≠ ·) a := by
  induction xs generalizing a found with
  | nil => simp [List.eraseRepsBy.loop]
  | cons x xs ih =>
    rw [List.eraseRepsBy.loop]
    by_cases h : a = x
    · rw [beq_iff_eq.mpr h, List.destutter'_cons_neg (h := not_not.mpr h)]
      exact ih a found
    · rw [beq_false_of_ne h, List.destutter'_cons_pos (h := h)]
      simpa using ih x (a :: found)

theorem eraseReps_eq_destutter [BEq α] [LawfulBEq α] (xs : List α) :
    xs.eraseReps = xs.destutter (· ≠ ·) := by
  cases xs with
  | nil => rfl
  | cons x xs => exact eraseRepsBy_loop_eq x xs []

/-- Of values that belong to consecutive numbers, those are kept that differ from the one just
before. -/
theorem destutter_map_range' (f : Nat → α) (start count : Nat) :
    ((List.range' start count).map f).destutter (· ≠ ·) =
      (List.range' start count).flatMap fun i =>
        if start < i ∧ f (i - 1) = f i then [] else [f i] := by
  -- The value before the next one is put in front, since destutter' compares with it.
  have htail (count next : Nat) (h : start < next) :
      f (next - 1) :: (List.range' next count).flatMap
          (fun i => if start < i ∧ f (i - 1) = f i then [] else [f i]) =
        ((List.range' next count).map f).destutter' (· ≠ ·) (f (next - 1)) := by
    induction count generalizing next with
    | zero => rfl
    | succ count ih =>
      have hrest := ih (next + 1) (by omega)
      rw [Nat.add_sub_cancel] at hrest
      rw [List.range'_succ, List.map_cons, List.flatMap_cons]
      by_cases hsame : f (next - 1) = f next
      · rw [if_pos ⟨h, hsame⟩, List.nil_append, hsame, hrest,
          List.destutter'_cons_neg (h := not_not.mpr rfl)]
      · rw [if_neg (fun hand => hsame hand.2), List.destutter'_cons_pos (h := hsame),
          List.singleton_append, hrest]
  cases count with
  | zero => rfl
  | succ count =>
    have hrest := htail count (start + 1) (by omega)
    rw [Nat.add_sub_cancel] at hrest
    rw [List.range'_succ, List.map_cons, List.destutter_cons', List.flatMap_cons,
      if_neg (fun hand => Nat.lt_irrefl _ hand.1), ← hrest]
    rfl

section

variable [BEq α] [LawfulBEq α] [BEq β] [LawfulBEq β]

theorem Context.mem_of_mem_present {ctx : Context} {items : List (Option α)} {x : α}
    (h : x ∈ ctx.present items) : some x ∈ items := by
  have hsub : ctx.present items ⊆ items.filterMap id := by
    unfold present
    split
    · rw [eraseReps_eq_destutter]
      exact (List.destutter_sublist _ _).subset
    · exact List.Subset.refl _
  obtain ⟨item, hitem, hsome⟩ := List.mem_filterMap.mp (hsub h)
  exact (show item = some x from hsome) ▸ hitem

theorem Context.present_eq_nil_iff {ctx : Context} {items : List (Option α)} :
    ctx.present items = [] ↔ ∀ item ∈ items, item = none := by
  have hfound : items.filterMap id = [] ↔ ∀ item ∈ items, item = none := by
    simp [List.filterMap_eq_nil_iff]
  rw [← hfound]
  unfold present
  split
  · rw [eraseReps_eq_destutter, List.destutter_eq_nil]
  · rfl

theorem Context.present_map (ctx : Context) {f : α → β} (hf : Function.Injective f)
    (items : List (Option α)) :
    ctx.present (items.map (Option.map f)) = (ctx.present items).map f := by
  have hfound : (items.map (Option.map f)).filterMap id = (items.filterMap id).map f := by
    rw [List.filterMap_map, List.map_filterMap]
    rfl
  unfold present
  rw [hfound]
  split
  · rw [eraseReps_eq_destutter, eraseReps_eq_destutter, List.map_destutter_ne _ hf]
  · rfl

theorem Context.present_singleton (ctx : Context) (x : α) : ctx.present [some x] = [x] := by
  unfold present
  split
  · rw [eraseReps_eq_destutter]
    rfl
  · rfl

/-- What the number of an item adds to those that are kept. -/
def Context.kept (ctx : Context) (start : Nat) (f : Nat → Option α) (i : Nat) : List α :=
  if ctx.options.ignoreNonexistentIndex ∧ start < i ∧ f (i - 1) = f i then [] else (f i).toList

theorem Context.present_map_range' (ctx : Context) {start count : Nat} {f : Nat → Option α}
    (h : ctx.options.ignoreNonexistentIndex → ∀ i ∈ List.range' start count, (f i).isSome) :
    ctx.present ((List.range' start count).map f) =
      (List.range' start count).flatMap (ctx.kept start f) := by
  simp only [present]
  by_cases hignore : ctx.options.ignoreNonexistentIndex = true
  · rw [if_pos hignore, eraseReps_eq_destutter]
    have hall : (((List.range' start count).map f).filterMap id).map some =
        (List.range' start count).map f := by
      rw [List.map_filterMap, List.filterMap_map, ← List.filterMap_eq_map]
      refine List.filterMap_congr fun i hi => ?_
      obtain ⟨x, hx⟩ := Option.isSome_iff_exists.mp (h hignore i hi)
      simp [hx]
    have hkept := List.map_destutter_ne (((List.range' start count).map f).filterMap id)
      fun _ _ => Option.some.inj
    rw [hall, destutter_map_range'] at hkept
    have hback := congrArg (List.filterMap id) hkept
    rw [List.filterMap_map, List.filterMap_flatMap] at hback
    refine Eq.trans (by simp) (hback.trans ?_)
    refine List.flatMap_congr fun i hi => ?_
    unfold kept
    split
    · rename_i hskip
      rw [if_pos ⟨hignore, hskip⟩]
      rfl
    · rename_i hskip
      rw [if_neg fun hand => hskip hand.2]
      cases f i <;> rfl
  · rw [if_neg hignore, List.filterMap_map, List.filterMap_eq_flatMap_toList]
    refine List.flatMap_congr fun i _ => ?_
    rw [kept, if_neg fun hand => hignore hand.1]
    rfl

end

end OutputDescriptor
