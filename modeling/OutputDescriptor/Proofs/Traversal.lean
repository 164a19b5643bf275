import Mathlib.Data.List.Forall2
import OutputDescriptor.Except

/-! Traversals that may fail, as relations between what they are given and what they return. -/
namespace OutputDescriptor

/-- In a monad where a sequence is pure only if its parts are, so is a traversal. -/
theorem mapM_eq_pure_iff {m : Type → Type} [Monad m] [LawfulMonad m]
    (hpure : ∀ {α : Type} {a b : α}, (pure a : m α) = pure b ↔ a = b)
    (hbind : ∀ {α β : Type} {x : m α} {f : α → m β} {b : β},
      x >>= f = pure b ↔ ∃ a, x = pure a ∧ f a = pure b)
    {α β : Type} {f : α → m β} {xs : List α} {ys : List β} :
    xs.mapM f = pure ys ↔ List.Forall₂ (fun x y => f x = pure y) xs ys := by
  induction xs generalizing ys with
  | nil => rw [List.mapM_nil, List.forall₂_nil_left_iff, hpure, eq_comm]
  | cons x xs ih =>
    rw [List.mapM_cons, List.forall₂_cons_left_iff, hbind]
    constructor
    · rintro ⟨y, hy, h⟩
      obtain ⟨rest, hrest, hys⟩ := hbind.mp h
      exact ⟨y, rest, hy, ih.mp hrest, (hpure.mp hys).symm⟩
    · rintro ⟨y, rest, hy, hrest, rfl⟩
      exact ⟨y, hy, hbind.mpr ⟨rest, ih.mpr hrest, rfl⟩⟩

theorem mapM_eq_ok_iff {ε α β : Type} {f : α → Except ε β} {xs : List α} {ys : List β} :
    xs.mapM f = .ok ys ↔ List.Forall₂ (fun x y => f x = .ok y) xs ys :=
  @mapM_eq_pure_iff (Except ε) _ _ (Iff.of_eq (Except.ok.injEq _ _)) Except.bind_eq_ok_iff _ _ _ _ _

theorem mapM_eq_some_iff {α β : Type} {f : α → Option β} {xs : List α} {ys : List β} :
    xs.mapM f = some ys ↔ List.Forall₂ (fun x y => f x = some y) xs ys :=
  @mapM_eq_pure_iff Option _ _ Option.some_inj Option.bind_eq_some_iff _ _ _ _ _

theorem exists_of_forall₂ {α β : Type} {r : α → β → Prop} {xs : List α} {ys : List β}
    (h : List.Forall₂ r xs ys) {x : α} (hx : x ∈ xs) : ∃ y ∈ ys, r x y := by
  induction h with
  | nil => cases hx
  | cons hhead _ ih =>
    rcases List.mem_cons.mp hx with rfl | hx
    · exact ⟨_, List.mem_cons_self, hhead⟩
    · obtain ⟨y, hy, hxy⟩ := ih hx
      exact ⟨y, List.mem_cons_of_mem _ hy, hxy⟩

theorem exists_forall₂_of_forall_exists {α β : Type} {r : α → β → Prop} {xs : List α}
    (h : ∀ x ∈ xs, ∃ y, r x y) : ∃ ys, List.Forall₂ r xs ys := by
  induction xs with
  | nil => exact ⟨[], .nil⟩
  | cons x xs ih =>
    rw [List.forall_mem_cons] at h
    obtain ⟨y, hy⟩ := h.1
    obtain ⟨ys, hys⟩ := ih h.2
    exact ⟨y :: ys, .cons hy hys⟩

theorem exists_mapM_eq_ok_iff {ε α β : Type} {f : α → Except ε β} {xs : List α} :
    (∃ ys, xs.mapM f = .ok ys) ↔ ∀ x ∈ xs, ∃ y, f x = .ok y := by
  simp only [mapM_eq_ok_iff]
  constructor
  · rintro ⟨ys, h⟩ x hx
    obtain ⟨y, -, hy⟩ := exists_of_forall₂ h hx
    exact ⟨y, hy⟩
  · exact exists_forall₂_of_forall_exists

/-- A traversal succeeds if every step does, and then returns what the steps return. -/
theorem mapM_eq_ok_map_iff {ε α β : Type} {f : α → Except ε β} {g : α → β}
    (hg : ∀ x y, f x = .ok y → g x = y) {xs : List α} {ys : List β} :
    xs.mapM f = .ok ys ↔ (∀ x ∈ xs, f x = .ok (g x)) ∧ ys = xs.map g := by
  rw [mapM_eq_ok_iff]
  constructor
  · intro h
    induction h with
    | nil => exact ⟨by simp, rfl⟩
    | @cons x y _ _ hhead _ ih =>
      obtain rfl := hg x y hhead
      rw [List.forall_mem_cons, List.map_cons, ← ih.2]
      exact ⟨⟨hhead, ih.1⟩, rfl⟩
  · rintro ⟨h, rfl⟩
    rw [List.forall₂_map_right_iff, List.forall₂_same]
    exact h

theorem mapM_congr {ε α β : Type} {f g : α → Except ε β} {xs : List α}
    (h : ∀ x ∈ xs, f x = g x) : xs.mapM f = xs.mapM g := by
  induction xs with
  | nil => rfl
  | cons x xs ih =>
    rw [List.forall_mem_cons] at h
    rw [List.mapM_cons, List.mapM_cons, h.1, ih h.2]

/-- Changing what the steps return changes what the traversal returns, and not whether it fails. -/
theorem mapM_map_eq {ε α β γ : Type} (f : α → Except ε β) (g : β → γ) (xs : List α) :
    xs.mapM (fun x => (f x).map g) = (xs.mapM f).map (List.map g) := by
  induction xs with
  | nil => rfl
  | cons x xs ih =>
    rw [List.mapM_cons, List.mapM_cons, ih]
    cases f x with
    | error error => rfl
    | ok b => cases xs.mapM f <;> rfl

/-- A traversal fails as the first step does that fails. -/
theorem exists_append_of_mapM_eq_error {ε α β : Type} {f : α → Except ε β} {xs : List α} {error : ε}
    (h : xs.mapM f = .error error) : ∃ before x after, xs = before ++ x :: after ∧
      f x = .error error ∧ ∀ y ∈ before, ∃ b, f y = .ok b := by
  induction xs with
  | nil => cases h
  | cons x xs ih =>
    rw [List.mapM_cons] at h
    cases hx : f x with
    | error e =>
      rw [hx] at h
      exact ⟨[], x, xs, rfl, hx.trans (congrArg _ (Except.error.inj h)), by simp⟩
    | ok b =>
      have hrest : xs.mapM f = .error error := by
        cases hmap : xs.mapM f with
        | error e => simpa [hx, hmap, bind, Except.bind] using h
        | ok bs => simp [hx, hmap, bind, Except.bind, pure, Except.pure] at h
      obtain ⟨before, y, after, rfl, herror, hbefore⟩ := ih hrest
      refine ⟨x :: before, y, after, rfl, herror, ?_⟩
      rw [List.forall_mem_cons]
      exact ⟨⟨b, hx⟩, hbefore⟩

theorem exists_of_mapM_eq_error {ε α β : Type} {f : α → Except ε β} {xs : List α} {error : ε}
    (h : xs.mapM f = .error error) : ∃ x ∈ xs, f x = .error error := by
  obtain ⟨before, x, after, rfl, herror, -⟩ := exists_append_of_mapM_eq_error h
  exact ⟨x, by simp, herror⟩

theorem exists_first_of_mapM_eq_error {ε β : Type} {f : Nat → Except ε β} {start count : Nat}
    {error : ε} (h : (List.range' start count).mapM f = .error error) :
    ∃ i ∈ List.range' start count, f i = .error error ∧
      ∀ j ∈ List.range' start count, j < i → ∃ b, f j = .ok b := by
  obtain ⟨before, i, after, hrange, herror, hbefore⟩ := exists_append_of_mapM_eq_error h
  obtain ⟨k, -, rfl, hafter⟩ := List.range'_eq_append_iff.mp hrange
  obtain ⟨rfl, -, -⟩ := List.range'_eq_cons_iff.mp hafter.symm
  refine ⟨start + k * 1, ?_, herror, fun j hj hlt => hbefore j ?_⟩
  · rw [hrange]
    simp
  · rw [List.mem_range'_1] at hj ⊢
    omega

theorem exists_of_mapM_eq_some {α β : Type} {f : α → Option β} {xs : List α} {ys : List β}
    (h : xs.mapM f = some ys) {x : α} (hx : x ∈ xs) : ∃ y ∈ ys, f x = some y :=
  exists_of_forall₂ (mapM_eq_some_iff.mp h) hx

end OutputDescriptor
