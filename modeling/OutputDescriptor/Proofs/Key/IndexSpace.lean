import Mathlib.Data.List.Nodup
import Mathlib.Data.List.ProdSigma
import OutputDescriptor.Key.Parser
import OutputDescriptor.Limits
import OutputDescriptor.Proofs.Traversal

/-!
Ranges of child indices on words of 32 bits. A range is checked at its last index and counted up to
the word after it, and a hardened index sets the highest bit: none of this leaves the words, and no
index of a range is out of bounds for a child.
-/
namespace OutputDescriptor

/-! ### Ranges -/

namespace KeyRange

theorem ofBounds_eq_ok_iff {start count : Nat} {range : KeyRange} :
    ofBounds start count = .ok range ↔ range.start = start ∧ range.count = count := by
  rw [← of?_eq_some_iff, ofBounds]
  cases of? start count with
  | none => simp
  | some found => simp

theorem exists_ofBounds_iff {start count : Nat} : (∃ range, ofBounds start count = .ok range) ↔
    1 ≤ count ∧ start + count ≤ hardenedBase := by
  constructor
  · rintro ⟨range, hrange⟩
    obtain ⟨rfl, rfl⟩ := ofBounds_eq_ok_iff.mp hrange
    exact ⟨range.count_pos, range.fits⟩
  · rintro ⟨hpos, hfits⟩
    exact ⟨⟨start, count, hpos, hfits⟩, ofBounds_eq_ok_iff.mpr ⟨rfl, rfl⟩⟩

variable (range : KeyRange)

/-- The bounds of every range are words. -/
theorem exists_words : ∃ start count : UInt32, ofBounds start.toNat count.toNat = .ok range := by
  have hfits : range.start + range.count ≤ 0x80000000 := range.fits
  refine ⟨.ofNat range.start, .ofNat range.count, ofBounds_eq_ok_iff.mpr ?_⟩
  rw [UInt32.toNat_ofNat_of_lt' (by simp only [UInt32.size]; omega),
    UInt32.toNat_ofNat_of_lt' (by simp only [UInt32.size]; omega)]
  exact ⟨rfl, rfl⟩

theorem indices_eq_map : range.indices = (List.range range.count).map (range.start + ·) := by
  rw [indices_eq, List.range'_eq_map_range]

theorem le_of_mem_indices {index : Nat} (h : index ∈ range.indices) : index ≤ 0x7fffffff :=
  Nat.le_pred_of_lt (lt_hardenedBase_of_mem h)

theorem exists_ofIndex {index : Nat} (h : index ∈ range.indices) (hardened : Bool) :
    ∃ number, ChildNumber.ofIndex index hardened = .ok number :=
  ⟨_, ChildNumber.ofIndex_of_lt (lt_hardenedBase_of_mem h)⟩

end KeyRange

theorem ChildNumber.toNat_of_ofIndex {index : Nat} {hardened : Bool} {number : ChildNumber}
    (h : ofIndex index hardened = .ok number) :
    number.toNat = if hardened then index + 0x80000000 else index := by
  obtain ⟨rfl, rfl⟩ := ofIndex_eq_ok_iff.mp h
  rfl

/-- The numbers of the children at the indices of a range are distinct, hardened ones included. -/
theorem KeyRange.exists_childNumbers (range : KeyRange) : ∃ numbers,
    (range.indices ×ˢ [false, true]).mapM (fun (index, hardened) =>
      ChildNumber.ofIndex index hardened) = .ok numbers ∧
    numbers.map ChildNumber.toNat = (range.indices ×ˢ [false, true]).map (fun (index, hardened) =>
      if hardened then index + 0x80000000 else index) ∧
    (numbers.map ChildNumber.toNat).Nodup := by
  obtain ⟨numbers, hnumbers⟩ := exists_mapM_eq_ok_iff.mpr
    (fun (pair : Nat × Bool) (hpair : pair ∈ range.indices ×ˢ [false, true]) =>
      range.exists_ofIndex (List.mem_product.mp hpair).1 pair.2)
  have hvalues : numbers.map ChildNumber.toNat = (range.indices ×ˢ [false, true]).map
      (fun (index, hardened) => if hardened then index + 0x80000000 else index) := by
    symm
    rw [← List.forall₂_eq_eq_eq, List.forall₂_map_left_iff, List.forall₂_map_right_iff]
    refine (mapM_eq_ok_iff.mp hnumbers).imp fun pair number h => ?_
    exact (ChildNumber.toNat_of_ofIndex h).symm
  refine ⟨numbers, hnumbers, hvalues, ?_⟩
  rw [hvalues]
  have hpairs : (range.indices ×ˢ [false, true]).Nodup :=
    List.Nodup.product (range.indices_eq ▸ List.nodup_range') (by decide)
  refine List.Nodup.map_on ?_ hpairs
  rintro ⟨i, a⟩ hi ⟨j, b⟩ hj heq
  have hi := range.le_of_mem_indices (List.mem_product.mp hi).1
  have hj := range.le_of_mem_indices (List.mem_product.mp hj).1
  -- an index that is not hardened lies below all that are
  cases a <;> cases b <;> simp at heq ⊢ <;> omega

/-! ### Expanding a key -/

namespace KeyExpr

variable {ctx : Context} {key : KeyExpr} {k : ExtendedKey} {hardened : Bool} {range : KeyRange}

theorem publicKeys_of_children (h : key.pair = .extended k (.children hardened range)) :
    key.publicKeys ctx = range.indices.mapM (childPublicKey ctx k hardened) := by
  rw [publicKeys, h]

/-- Only the children at the indices of the range are asked for. -/
theorem publicKeys_congr (h : key.pair = .extended k (.children hardened range))
    {scheme : KeyScheme} (hscheme : ∀ index ∈ range.indices,
      scheme.deriveChild k index hardened = ctx.scheme.deriveChild k index hardened) :
    key.publicKeys ⟨ctx.options, scheme⟩ = key.publicKeys ctx := by
  rw [publicKeys_of_children h, publicKeys_of_children h]
  refine mapM_congr fun index hindex => ?_
  have hlt := KeyRange.lt_hardenedBase_of_mem hindex
  rw [childPublicKey_of_lt hlt, childPublicKey_of_lt hlt, hscheme index hindex]

/-- The check of the index never fails: an error is that of deriving a child. -/
theorem exists_deriveChild_of_publicKeys_eq_error
    (h : key.pair = .extended k (.children hardened range)) {error : Error}
    (herror : key.publicKeys ctx = .error error) :
    ∃ index ∈ range.indices, ctx.scheme.deriveChild k index hardened = .error error := by
  rw [publicKeys_of_children h] at herror
  obtain ⟨index, hindex, herror⟩ := exists_of_mapM_eq_error herror
  rw [childPublicKey_of_lt (KeyRange.lt_hardenedBase_of_mem hindex)] at herror
  refine ⟨index, hindex, ?_⟩
  cases hchild : ctx.scheme.deriveChild k index hardened with
  | error e =>
    rw [hchild] at herror
    exact congrArg _ (Except.error.inj herror)
  | ok child =>
    rw [hchild] at herror
    cases herror

theorem exists_publicKeys_iff (h : key.pair = .extended k (.children hardened range)) :
    (∃ found, key.publicKeys ctx = .ok found) ↔
      ∀ index ∈ range.indices, ∃ child, ctx.scheme.deriveChild k index hardened = .ok child := by
  rw [publicKeys_of_children h, exists_mapM_eq_ok_iff]
  refine forall₂_congr fun index hindex => ?_
  rw [childPublicKey_of_lt (KeyRange.lt_hardenedBase_of_mem hindex)]
  simp only [Except.bind_eq_ok_iff]
  constructor
  · rintro ⟨-, child, hchild, -⟩
    exact ⟨child, hchild⟩
  · rintro ⟨child, hchild⟩
    exact ⟨_, child, hchild, rfl⟩

theorem length_of_publicKeys (h : key.pair = .extended k (.children hardened range))
    {found : List (Option PublicKey)} (hfound : key.publicKeys ctx = .ok found) :
    found.length = range.count := by
  rw [publicKeys_of_children h] at hfound
  rw [← (mapM_eq_ok_iff.mp hfound).length_eq, KeyRange.length_indices]

end KeyExpr

/-- The check on words takes the ranges below the hardened indices, and a wildcard key asks for no
other child. -/
theorem ranges_stay_in_index_space :
    (∀ start count : UInt32,
      ((∃ range, KeyRange.ofBounds start.toNat count.toNat = .ok range) ↔
        1 ≤ count.toNat ∧ start.toNat + count.toNat ≤ 0x80000000) ∧
      ((∃ range, KeyRange.ofBounds start.toNat count.toNat = .ok range) ↔
        KeyRange.fitsWords start count) ∧
      ∀ range, KeyRange.ofBounds start.toNat count.toNat = .ok range →
        (start + count).toNat = start.toNat + count.toNat ∧
        (wordsUpTo start (start + count)).map UInt32.toNat = range.indices ∧
        range.indices = (List.range count.toNat).map (start.toNat + ·) ∧
        ∃ numbers, (range.indices ×ˢ [false, true]).mapM (fun (index, hardened) =>
            ChildNumber.ofIndex index hardened) = .ok numbers ∧
          numbers.map ChildNumber.toNat = (range.indices ×ˢ [false, true]).map
            (fun (index, hardened) => if hardened then index + 0x80000000 else index) ∧
          (numbers.map ChildNumber.toNat).Nodup) ∧
    ∀ (ctx : Context) (key : KeyExpr) (k : ExtendedKey) (hardened : Bool) (range : KeyRange),
      key.pair = .extended k (.children hardened range) →
        (∃ start count : UInt32, KeyRange.ofBounds start.toNat count.toNat = .ok range) ∧
        (∀ index ∈ range.indices, index ≤ 0x7fffffff ∧
          ∃ number, ChildNumber.ofIndex index hardened = .ok number) ∧
        (∀ scheme : KeyScheme, (∀ index ∈ range.indices,
            scheme.deriveChild k index hardened = ctx.scheme.deriveChild k index hardened) →
          key.publicKeys ⟨ctx.options, scheme⟩ = key.publicKeys ctx) ∧
        (∀ error, key.publicKeys ctx = .error error →
          ∃ index ∈ range.indices, ctx.scheme.deriveChild k index hardened = .error error) ∧
        ((∃ found, key.publicKeys ctx = .ok found) ↔
          ∀ index ∈ range.indices, ∃ child, ctx.scheme.deriveChild k index hardened = .ok child) ∧
        ∀ found, key.publicKeys ctx = .ok found → found.length = range.count := by
  constructor
  · intro start count
    refine ⟨KeyRange.exists_ofBounds_iff, ?_, fun range hrange => ?_⟩
    · rw [KeyRange.fitsWords_iff]
      exact KeyRange.exists_ofBounds_iff
    · obtain ⟨hstart, hcount⟩ := KeyRange.ofBounds_eq_ok_iff.mp hrange
      have hfits : range.start + range.count ≤ 0x80000000 := range.fits
      have hstop : (start + count).toNat = start.toNat + count.toNat :=
        toNat_add_of_lt (by omega)
      refine ⟨hstop, ?_, ?_, range.exists_childNumbers⟩
      · rw [map_toNat_wordsUpTo, hstop, Nat.add_sub_cancel_left, KeyRange.indices_eq, hstart, hcount]
      · rw [← hstart, ← hcount]
        exact range.indices_eq_map
  · intro ctx key k hardened range hkey
    refine ⟨range.exists_words, fun index hindex => ?_, fun scheme => KeyExpr.publicKeys_congr hkey,
      fun error => KeyExpr.exists_deriveChild_of_publicKeys_eq_error hkey,
      KeyExpr.exists_publicKeys_iff hkey, fun found => KeyExpr.length_of_publicKeys hkey⟩
    exact ⟨range.le_of_mem_indices hindex, range.exists_ofIndex hindex hardened⟩

/-- The last range there is has one index. A public key has no hardened child there. -/
theorem ranges_stay_in_index_space_last :
    let range : KeyRange := ⟨0x7fffffff, 1, by decide, by decide⟩
    let k : ExtendedKey := ⟨.test, 0, ⟨[0, 0, 0, 0], rfl⟩, ⟨0, false, by decide⟩,
      ⟨List.replicate 32 0, rfl⟩, .point .generator⟩
    let key : KeyExpr := ⟨.testnet, "tpub/*'", none, .extended k (.children true range)⟩
    let bounded : KeyScheme := { KeyScheme.standard with
      deriveChild := fun parent index hardened =>
        (ChildNumber.ofIndex index hardened).map (DerivedChild.mk parent) }
    let unbounded : KeyScheme := { KeyScheme.standard with
      deriveChild := fun parent index _ => .ok ⟨parent, .ofNat (index + hardenedBase)⟩ }
    KeyRange.ofBounds (0x7fffffff : UInt32).toNat (1 : UInt32).toNat = .ok range ∧
      ((0x7fffffff : UInt32) + 1).toNat = 0x80000000 ∧
      (wordsUpTo 0x7fffffff (0x7fffffff + 1)).map UInt32.toNat = [0x7fffffff] ∧
      (∃ numbers, (range.indices ×ˢ [false, true]).mapM (fun (index, hardened) =>
          ChildNumber.ofIndex index hardened) = .ok numbers ∧
        numbers.map ChildNumber.toNat = [0x7fffffff, 0xffffffff]) ∧
      (∃ index ∈ range.indices, KeyScheme.standard.deriveChild k index true =
        .error (.derivation .hardenedFromPublic)) ∧
      ∃ found, key.publicKeys ⟨⟨false⟩, bounded⟩ = .ok found ∧ found.length = 1 ∧
        key.publicKeys ⟨⟨false⟩, unbounded⟩ = .ok found := by
  intro range k key bounded unbounded
  obtain ⟨hwords, hkeys⟩ := ranges_stay_in_index_space
  have hrange : KeyRange.ofBounds (0x7fffffff : UInt32).toNat (1 : UInt32).toNat = .ok range := by
    decide +kernel
  have hindices : range.indices = [0x7fffffff] := KeyRange.indices_eq range
  obtain ⟨hstop, hcounted, -, numbers, hnumbers, hvalues, -⟩ :=
    (hwords 0x7fffffff 1).2.2 range hrange
  obtain ⟨-, -, -, hfails, -⟩ := hkeys {} key k true range rfl
  obtain ⟨-, -, hcongr, -, -, hlength⟩ := hkeys ⟨⟨false⟩, bounded⟩ key k true range rfl
  have hfound : key.publicKeys ⟨⟨false⟩, bounded⟩ = .ok [some k.publicKey] := by decide +kernel
  rw [hindices] at hcounted
  have hnumbered : numbers.map ChildNumber.toNat = [0x7fffffff, 0xffffffff] := by
    rw [hvalues, hindices]
    decide
  refine ⟨hrange, hstop, hcounted, ⟨numbers, hnumbers, hnumbered⟩, hfails _ (by decide +kernel), _,
    hfound, hlength _ hfound, ?_⟩
  rw [← hfound]
  refine hcongr unbounded fun index hindex => ?_
  rw [hindices] at hindex
  obtain rfl : index = 0x7fffffff := List.mem_singleton.mp hindex
  decide +kernel

end OutputDescriptor
