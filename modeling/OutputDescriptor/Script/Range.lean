import OutputDescriptor.Script.Expr

/-! The range that the wildcard keys of a script expression share. -/
namespace OutputDescriptor

/-- The range of the first wildcard key, which all others must have. Another one is reported with
its position. -/
def commonRange (keys : List KeyExpr) : Except Error (Option KeyRange) :=
  match keys.filterMap KeyExpr.range? with
  | [] => .ok none
  | first :: others =>
    match (others.zipIdx 2).find? (·.1 ≠ first) with
    | some (other, position) => .error (.rangeMismatch first position other)
    | none => .ok (some first)

/-- The range at an index, counted from zero, is the earliest that is not as the first one. -/
structure FirstDifference (ranges : List KeyRange) (first : KeyRange) (index : Nat)
    (other : KeyRange) : Prop where
  head : ranges[0]? = some first
  found : ranges[index]? = some other
  differs : other ≠ first
  before : ∀ i < index, ranges[i]? = some first

theorem firstDifference_cons_iff {head first other : KeyRange} {others : List KeyRange}
    {index : Nat} : FirstDifference (head :: others) first index other ↔
      head = first ∧ ∃ i, index = i + 1 ∧ others[i]? = some other ∧ other ≠ first ∧
        ∀ j < i, others[j]? = some first := by
  constructor
  · rintro ⟨hhead, hother, hdiffers, hbefore⟩
    have hhead : head = first := Option.some.inj hhead
    cases index with
    | zero => exact absurd ((Option.some.inj hother).symm.trans hhead) hdiffers
    | succ i =>
      refine ⟨hhead, i, rfl, hother, hdiffers, fun j hj => ?_⟩
      exact hbefore (j + 1) (by omega)
  · rintro ⟨rfl, i, rfl, hother, hdiffers, hbefore⟩
    refine ⟨rfl, hother, hdiffers, fun j hj => ?_⟩
    cases j with
    | zero => rfl
    | succ j => exact hbefore j (by omega)

theorem find?_zipIdx_eq_some_iff {first other : KeyRange} {others : List KeyRange}
    {position : Nat} : (others.zipIdx 2).find? (·.1 ≠ first) = some (other, position) ↔
      ∃ i, position = 2 + i ∧ others[i]? = some other ∧ other ≠ first ∧
        ∀ j < i, others[j]? = some first := by
  rw [List.find?_eq_some_iff_getElem]
  constructor
  · rintro ⟨hdiffers, i, hi, hentry, hbefore⟩
    rw [List.length_zipIdx] at hi
    rw [List.getElem_zipIdx, Prod.mk.injEq] at hentry
    refine ⟨i, hentry.2.symm, List.getElem?_eq_some_iff.mpr ⟨hi, hentry.1⟩, by simpa using hdiffers,
      fun j hj => ?_⟩
    have hsame := hbefore j hj
    rw [List.getElem_zipIdx] at hsame
    exact List.getElem?_eq_some_iff.mpr ⟨by omega, by simpa using hsame⟩
  · rintro ⟨i, rfl, hother, hdiffers, hbefore⟩
    obtain ⟨hi, hother⟩ := List.getElem?_eq_some_iff.mp hother
    refine ⟨by simpa using hdiffers, i, by simpa using hi, ?_, fun j hj => ?_⟩
    · rw [List.getElem_zipIdx, hother]
    · obtain ⟨_, hsame⟩ := List.getElem?_eq_some_iff.mp (hbefore j hj)
      rw [List.getElem_zipIdx, hsame]
      simp

section

variable {keys : List KeyExpr}

theorem commonRange_eq_error_iff {error : Error} : commonRange keys = .error error ↔
    ∃ first index other, FirstDifference (keys.filterMap KeyExpr.range?) first index other ∧
      error = .rangeMismatch first (index + 1) other := by
  unfold commonRange
  split
  · rename_i hnil
    rw [hnil]
    constructor
    · intro h
      cases h
    · rintro ⟨first, index, other, hdifference, -⟩
      cases hdifference.head
  · rename_i head others hcons
    rw [hcons]
    simp only [firstDifference_cons_iff]
    cases hfind : (others.zipIdx 2).find? (·.1 ≠ head) with
    | some entry =>
      obtain ⟨i, hposition, hentry⟩ := find?_zipIdx_eq_some_iff.mp hfind
      constructor
      · intro h
        cases h
        refine ⟨head, i + 1, entry.1, ⟨rfl, i, rfl, hentry⟩, ?_⟩
        rw [hposition, Nat.add_comm 2 i]
      · rintro ⟨first, index, other, ⟨rfl, j, rfl, hother⟩, rfl⟩
        have hsame := find?_zipIdx_eq_some_iff.mpr ⟨j, rfl, hother⟩
        rw [hfind] at hsame
        rw [Option.some.inj hsame, Nat.add_comm 2 j]
    | none =>
      constructor
      · intro h
        cases h
      · rintro ⟨first, index, other, ⟨rfl, j, rfl, hother⟩, rfl⟩
        have hsome := find?_zipIdx_eq_some_iff.mpr ⟨j, rfl, hother⟩
        rw [hfind] at hsome
        cases hsome

theorem commonRange_eq_ok_iff {found : Option KeyRange} : commonRange keys = .ok found ↔
    ∀ range, (∃ key ∈ keys, key.range? = some range) ↔ found = some range := by
  simp only [← List.mem_filterMap]
  unfold commonRange
  split
  · rename_i hnil
    rw [hnil]
    constructor
    · intro h range
      cases h
      simp
    · intro h
      cases found with
      | none => rfl
      | some range => exact absurd ((h range).mpr rfl) List.not_mem_nil
  · rename_i head others hcons
    rw [hcons]
    cases hfind : (others.zipIdx 2).find? (·.1 ≠ head) with
    | some entry =>
      obtain ⟨i, -, hother, hdiffers, -⟩ := find?_zipIdx_eq_some_iff.mp hfind
      constructor
      · intro h
        cases h
      · intro h
        have hhead := (h head).mp List.mem_cons_self
        have hentry := (h entry.1).mp (List.mem_cons_of_mem head (List.mem_of_getElem? hother))
        rw [hhead] at hentry
        exact absurd (Option.some.inj hentry).symm hdiffers
    | none =>
      have hothers : ∀ range ∈ others, range = head := by
        intro range hrange
        rw [← List.zipIdx_map_fst 2 others] at hrange
        obtain ⟨entry, hentry, rfl⟩ := List.mem_map.mp hrange
        simpa using List.find?_eq_none.mp hfind entry hentry
      have hmem (range : KeyRange) : range ∈ head :: others ↔ some head = some range := by
        rw [List.mem_cons, Option.some.injEq, eq_comm]
        exact or_iff_left_of_imp fun hrange => (hothers range hrange).symm
      simp only [hmem, Except.ok.injEq]
      constructor
      · rintro rfl range
        exact Iff.rfl
      · intro h
        exact ((h head).mp rfl).symm

theorem commonRange_eq_ok_none_iff :
    commonRange keys = .ok none ↔ keys.any KeyExpr.isRanged = false := by
  rw [commonRange_eq_ok_iff, List.any_eq_false]
  constructor
  · intro h key hkey hranged
    obtain ⟨range, hrange⟩ := Option.isSome_iff_exists.mp hranged
    exact Option.some_ne_none range ((h range).mp ⟨key, hkey, hrange⟩).symm
  · intro h range
    refine iff_of_false ?_ (Option.some_ne_none range).symm
    rintro ⟨key, hkey, hrange⟩
    exact h key hkey (Option.isSome_iff_exists.mpr ⟨range, hrange⟩)

end

def KeyExpr.assignIfRanged (range : KeyRange) (key : KeyExpr) : KeyExpr × Except Error Unit :=
  if key.wildcard = .none then (key, .ok ()) else key.assignRange range

/-- Set the ranges of keys in place. A failure leaves the keys after it as they are. -/
def assignRanges (range : KeyRange) : List KeyExpr → List KeyExpr × Except Error Unit
  | [] => ([], .ok ())
  | key :: rest =>
    match key.assignIfRanged range with
    | (key, .ok ()) => (assignRanges range rest).map (key :: ·) id
    | (key, .error e) => (key :: rest, .error e)

namespace ScriptExpr

def isRanged : ScriptExpr → Bool
  | .wrapped _ _ inner => inner.isRanged
  | script => script.keys.any KeyExpr.isRanged

def range? : ScriptExpr → Except Error (Option KeyRange)
  | .wrapped _ _ inner => inner.range?
  | script => commonRange script.keys

def withRange (range : KeyRange) : ScriptExpr → ScriptExpr
  | .wrapped label wrapper inner => .wrapped label wrapper (inner.withRange range)
  | .keyed label form key => .keyed label form ((key.withRange? range).getD key)
  | .multisig label sorted threshold keys =>
    .multisig label sorted threshold (keys.map fun key => (key.withRange? range).getD key)
  | .addr label address => .addr label address
  | .raw label hex => .raw label hex

def assignRange (range : KeyRange) : ScriptExpr → ScriptExpr × Except Error Unit
  | .wrapped label wrapper inner => (inner.assignRange range).map (.wrapped label wrapper) id
  | .keyed label form key => (key.assignIfRanged range).map (.keyed label form) id
  | .multisig label sorted threshold keys =>
    (assignRanges range keys).map (.multisig label sorted threshold) id
  | .addr label address => (.addr label address, .ok ())
  | .raw label hex => (.raw label hex, .ok ())

end ScriptExpr

end OutputDescriptor
