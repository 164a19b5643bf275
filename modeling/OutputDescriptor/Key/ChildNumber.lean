import OutputDescriptor.Text.Decimal

/-! Numbers of child keys, and ranges of them. -/
namespace OutputDescriptor

/-- Child indices lie below this bound, and hardened children are numbered from it upwards. -/
def hardenedBase : Nat := 0x80000000

structure ChildNumber where
  index : Nat
  hardened : Bool
  index_lt : index < hardenedBase
  deriving DecidableEq, Repr

namespace ChildNumber

theorem eq_iff {a b : ChildNumber} :
    a = b ↔ a.index = b.index ∧ a.hardened = b.hardened := by
  obtain ⟨index, hardened, hindex⟩ := a
  obtain ⟨index', hardened', hindex'⟩ := b
  rw [mk.injEq]

def of? (index : Nat) (hardened : Bool) : Option ChildNumber :=
  if h : index < hardenedBase then some ⟨index, hardened, h⟩ else none

def toNat (number : ChildNumber) : Nat :=
  if number.hardened then number.index + hardenedBase else number.index

/-- The highest of the 32 bits marks a hardened child. -/
def ofNat (raw : Nat) : ChildNumber where
  index := raw % hardenedBase
  hardened := raw / hardenedBase % 2 = 1
  index_lt := Nat.mod_lt raw (by decide)

theorem ofNat_toNat (number : ChildNumber) : ofNat number.toNat = number := by
  obtain ⟨index, hardened, hindex⟩ := number
  cases hardened
  · simp only [ofNat, toNat, Bool.false_eq_true, if_false, Nat.div_eq_of_lt hindex,
      Nat.mod_eq_of_lt hindex]
    rfl
  · have hdiv : (index + hardenedBase) / hardenedBase = 1 := by
      rw [Nat.add_div_right _ (by decide), Nat.div_eq_of_lt hindex]
    simp only [ofNat, toNat, if_true, hdiv, Nat.add_mod_right, Nat.mod_eq_of_lt hindex]
    rfl

end ChildNumber

def pathIndexText (index : Nat) (hardened : Bool) : String :=
  if hardened then s!"{index}'" else s!"{index}"

def ChildNumber.text (number : ChildNumber) : String :=
  pathIndexText number.index number.hardened

/-- The sum of two words, if it is one. -/
def checkedSum? (a b : UInt32) : Option UInt32 :=
  if a.toNat + b.toNat < 0x100000000 then some (a + b) else none

theorem toNat_add_of_lt {a b : UInt32} (h : a.toNat + b.toNat < 0x100000000) :
    (a + b).toNat = a.toNat + b.toNat := by
  rw [UInt32.toNat_add]
  exact Nat.mod_eq_of_lt h

theorem toNat_add_one_of_lt {start stop : UInt32} (h : start < stop) :
    (start + 1).toNat = start.toNat + 1 :=
  toNat_add_of_lt (Nat.lt_of_le_of_lt (UInt32.lt_iff_toNat_lt.mp h) stop.toNat_lt)

def wordsUpTo (start stop : UInt32) : List UInt32 :=
  if start < stop then start :: wordsUpTo (start + 1) stop else []
termination_by stop.toNat - start.toNat
decreasing_by
  rename_i hlt
  have hnext := toNat_add_one_of_lt hlt
  rw [UInt32.lt_iff_toNat_lt] at hlt
  omega

theorem checkedSum?_eq_some_iff {a b sum : UInt32} :
    checkedSum? a b = some sum ↔ sum.toNat = a.toNat + b.toNat := by
  unfold checkedSum?
  constructor
  · intro h
    split at h
    · rename_i hlt
      rw [← Option.some.inj h, toNat_add_of_lt hlt]
    · cases h
  · intro h
    have hlt : a.toNat + b.toNat < 0x100000000 := h ▸ sum.toNat_lt
    rw [if_pos hlt, Option.some.injEq, ← UInt32.toNat_inj, toNat_add_of_lt hlt, h]

/-- Counting words up is counting numbers up: the next word never wraps below the end. -/
theorem map_toNat_wordsUpTo (start stop : UInt32) : (wordsUpTo start stop).map UInt32.toNat =
    List.range' start.toNat (stop.toNat - start.toNat) := by
  fun_induction wordsUpTo start stop with
  | case1 start hlt ih =>
    have hcount : stop.toNat - start.toNat = stop.toNat - (start.toNat + 1) + 1 := by
      have hlt : start.toNat < stop.toNat := UInt32.lt_iff_toNat_lt.mp hlt
      omega
    rw [List.map_cons, ih, toNat_add_one_of_lt hlt, hcount, List.range'_succ]
  | case2 start hge =>
    have hge : stop.toNat ≤ start.toNat := by
      rw [UInt32.lt_iff_toNat_lt] at hge
      omega
    rw [Nat.sub_eq_zero_of_le hge]
    rfl

/-- The child indices of a wildcard key: `count` of them from `start` on. -/
structure KeyRange where
  start : Nat
  count : Nat
  count_pos : 0 < count
  fits : start + count ≤ hardenedBase
  deriving DecidableEq, Repr

namespace KeyRange

def maxIndex : UInt32 := 0x7fffffff

/-- Whether there are `count` indices from `start` on, judged by the last of them. -/
def fitsWords (start count : UInt32) : Bool :=
  0 < count && (checkedSum? start (count - 1)).any (· ≤ maxIndex)

theorem fitsWords_iff {start count : UInt32} :
    fitsWords start count ↔ 1 ≤ count.toNat ∧ start.toNat + count.toNat ≤ 0x80000000 := by
  have hmax : maxIndex.toNat = 0x7fffffff := rfl
  simp only [fitsWords, Bool.and_eq_true, decide_eq_true_iff, Option.any_eq_true,
    checkedSum?_eq_some_iff, UInt32.lt_iff_toNat_lt, UInt32.le_iff_toNat_le, hmax,
    UInt32.toNat_zero]
  refine and_congr_right fun hpos => ?_
  have hone : (1 : UInt32) ≤ count := UInt32.le_iff_toNat_le.mpr hpos
  have hlast : (count - 1).toNat = count.toNat - 1 := UInt32.toNat_sub_of_le count 1 hone
  constructor
  · rintro ⟨last, hsum, hle⟩
    omega
  · intro h
    have hsum : (start + (count - 1)).toNat = start.toNat + (count - 1).toNat :=
      toNat_add_of_lt (by omega)
    exact ⟨start + (count - 1), hsum, by omega⟩

example : fitsWords 0x7fffffff 1 ∧ ¬fitsWords 0x7fffffff 2 ∧ ¬fitsWords 0xffffffff 1 ∧
    ¬fitsWords 5 0xffffffff ∧ ¬fitsWords 0 0 := by decide

/-- The range of two words, if it stays below the hardened children. -/
def ofWords? (start count : UInt32) : Option KeyRange :=
  if h : fitsWords start count then
    some ⟨start.toNat, count.toNat, (fitsWords_iff.mp h).1, (fitsWords_iff.mp h).2⟩
  else none

def of? (start count : Nat) : Option KeyRange :=
  if start < wordBound ∧ count < wordBound then ofWords? (.ofNat start) (.ofNat count) else none

theorem of?_eq_some_iff {start count : Nat} {range : KeyRange} :
    of? start count = some range ↔ range.start = start ∧ range.count = count := by
  have hword {n : Nat} (h : n < wordBound) : (UInt32.ofNat n).toNat = n :=
    UInt32.toNat_ofNat_of_lt' h
  unfold of? ofWords?
  constructor
  · intro h
    split at h
    · rename_i hwords
      split at h
      · rw [← Option.some.inj h]
        exact ⟨hword hwords.1, hword hwords.2⟩
      · cases h
    · cases h
  · obtain ⟨first, size, hpos, hfits⟩ := range
    rintro ⟨rfl, rfl⟩
    have hfits' : first + size ≤ 0x80000000 := hfits
    have hstart : first < wordBound := by simp only [wordBound]; omega
    have hcount : size < wordBound := by simp only [wordBound]; omega
    have hcheck : fitsWords (.ofNat first) (.ofNat size) :=
      fitsWords_iff.mpr (by rw [hword hstart, hword hcount]; exact ⟨hpos, hfits⟩)
    simp only [if_pos (And.intro hstart hcount), dif_pos hcheck, hword hstart, hword hcount]

/-- The number of keys of a wildcard key whose range was never set. -/
def standardCount : Nat := 1001

def standard : KeyRange where
  start := 0
  count := standardCount
  count_pos := by decide
  fits := by decide

def stop (range : KeyRange) : Nat := range.start + range.count

def indices (range : KeyRange) : List Nat :=
  let start := UInt32.ofNat range.start
  (wordsUpTo start (start + .ofNat range.count)).map UInt32.toNat

/-- The word after a range is reached without a wrap. -/
theorem indices_eq (range : KeyRange) : range.indices = List.range' range.start range.count := by
  have hfits : range.start + range.count ≤ 0x80000000 := range.fits
  have hstart : (UInt32.ofNat range.start).toNat = range.start :=
    UInt32.toNat_ofNat_of_lt' (by simp only [UInt32.size]; omega)
  have hcount : (UInt32.ofNat range.count).toNat = range.count :=
    UInt32.toNat_ofNat_of_lt' (by simp only [UInt32.size]; omega)
  have hstop : (UInt32.ofNat range.start + UInt32.ofNat range.count).toNat =
      range.start + range.count := by
    rw [toNat_add_of_lt (by omega), hstart, hcount]
  simp only [indices, map_toNat_wordsUpTo, hstop, hstart, Nat.add_sub_cancel_left]

theorem mem_indices {range : KeyRange} {index : Nat} :
    index ∈ range.indices ↔ range.start ≤ index ∧ index < range.stop := by
  simp [indices_eq, stop]

theorem lt_hardenedBase_of_mem {range : KeyRange} {index : Nat} (h : index ∈ range.indices) :
    index < hardenedBase := by
  have := range.fits
  have := mem_indices.1 h
  simp only [stop] at this
  omega

@[simp] theorem length_indices (range : KeyRange) : range.indices.length = range.count := by
  simp [indices_eq]

def text (range : KeyRange) : String :=
  "\x7b start_idx: " ++ toString range.start ++ ", count: " ++ toString range.count ++ " \x7d"

end KeyRange

end OutputDescriptor
