import OutputDescriptor.Proofs.Checksum.Trace

/-! Checksums notice every edit that stays within four characters. -/
namespace OutputDescriptor.Checksum

section Length

variable {pending : List Nat} (h : pending.length < 3)
include h

theorem length_pendingNext (position : Nat) :
    (pendingNext pending position).length = (pending.length + 1) % 3 := by
  unfold pendingNext
  rw [List.length_append, List.length_singleton]
  split
  · rw [List.length_nil]
    omega
  · rw [List.length_append, List.length_singleton]
    omega

theorem length_pendingAfter (positions : List Nat) :
    (pendingAfter pending positions).length = (pending.length + positions.length) % 3 := by
  induction positions generalizing pending with
  | nil => exact (Nat.mod_eq_of_lt h).symm
  | cons p rest ih =>
    have hnext := length_pendingNext h p
    have hrest := @ih (pendingNext pending p) (by omega)
    rw [List.length_cons]
    exact hrest.trans (by omega)

theorem length_trace (positions : List Nat) :
    (trace pending positions).length =
      positions.length + (pending.length + positions.length + 2) / 3 := by
  induction positions generalizing pending with
  | nil =>
    have hflush : (trace pending []).length = (flushSymbols pending).length := rfl
    rw [hflush, List.length_nil]
    unfold flushSymbols
    split
    · simp_all
    · have := List.length_pos_iff.mpr ‹pending ≠ []›
      rw [List.length_singleton]
      omega
  | cons p rest ih =>
    have hnext := length_pendingNext h p
    have hpush : (pushSymbols pending p).length = 1 + (pending.length + 1) / 3 := by
      unfold pushSymbols
      rw [List.length_append, List.length_singleton]
      split <;> simp <;> omega
    rw [trace_cons, List.length_append, ih (by omega), hpush, hnext, List.length_cons]
    omega

end Length

/-- Three groups are at most 26, which a symbol can hold. -/
theorem toNat_groupSymbol {groups : List Nat} (hgroups : ∀ g ∈ groups, g < 3)
    (hshort : groups.length ≤ 3) : (groupSymbol groups).toNat = ofDigits 3 groups := by
  have hpow : 3 ^ groups.length ≤ 3 ^ 3 := Nat.pow_le_pow_right (by decide) hshort
  have hvalue := ofDigits_lt hgroups
  change ofDigits 3 groups % 32 = ofDigits 3 groups
  omega

theorem groupSymbol_injective {a b : List Nat} (hlen : a.length = b.length) (hshort : a.length ≤ 3)
    (ha : ∀ g ∈ a, g < 3) (hb : ∀ g ∈ b, g < 3) (h : groupSymbol a = groupSymbol b) : a = b := by
  refine ofDigits_injective hlen ha hb ?_
  rw [← toNat_groupSymbol ha hshort, ← toNat_groupSymbol hb (hlen ▸ hshort), h]

theorem position_eq {p q : Nat} (hlow : BitVec.ofNat 5 p = BitVec.ofNat 5 q)
    (hgroup : p / 32 = q / 32) : p = q := by
  have := congrArg BitVec.toNat hlow
  simp only [BitVec.toNat_ofNat] at this
  omega

private theorem group_lt {pending : List Nat} (hpending : ∀ g ∈ pending, g < 3) {p : Nat}
    (hp : p < 95) : ∀ g ∈ pending ++ [p / 32], g < 3 := by
  intro g hg
  rcases List.mem_append.mp hg with hg | hg
  · exact hpending g hg
  · rw [List.mem_singleton.mp hg]
    omega

theorem pendingAfter_lt {pending ps : List Nat} (hpending : ∀ g ∈ pending, g < 3)
    (hps : ∀ p ∈ ps, p < 95) : ∀ g ∈ pendingAfter pending ps, g < 3 := by
  induction ps generalizing pending with
  | nil => exact hpending
  | cons p rest ih =>
    rw [List.forall_mem_cons] at hps
    refine ih ?_ hps.2
    unfold pendingNext
    split
    · simp
    · exact group_lt hpending hps.1

/-- Texts of one length with the same symbols are equal, even after different unfinished groups. -/
theorem trace_injective {pending pending' ps qs : List Nat} (hlt : pending.length < 3)
    (hpending : pending.length = pending'.length) (hlen : ps.length = qs.length)
    (hg : ∀ g ∈ pending, g < 3) (hg' : ∀ g ∈ pending', g < 3)
    (hps : ∀ p ∈ ps, p < 95) (hqs : ∀ q ∈ qs, q < 95)
    (h : trace pending ps = trace pending' qs) : pending = pending' ∧ ps = qs := by
  -- The unfinished groups stay of one length, so both texts complete their triples together.
  induction ps generalizing pending pending' qs with
  | nil =>
    obtain rfl := List.eq_nil_of_length_eq_zero hlen.symm
    refine ⟨?_, rfl⟩
    change flushSymbols pending = flushSymbols pending' at h
    unfold flushSymbols at h
    split at h <;> split at h
    · simp_all
    · cases h
    · cases h
    · exact groupSymbol_injective hpending (by omega) hg hg' (List.head_eq_of_cons_eq h)
  | cons p ps ih =>
    obtain _ | ⟨q, qs⟩ := qs
    · cases hlen
    rw [List.forall_mem_cons] at hps hqs
    have hgroups := group_lt hg hps.1
    have hgroups' := group_lt hg' hqs.1
    have hsame : (pending ++ [p / 32]).length = (pending' ++ [q / 32]).length := by
      rw [List.length_append, List.length_append, hpending]
      rfl
    have htail : ps.length = qs.length := by simpa using hlen
    rw [trace_cons, trace_cons, pushSymbols, pushSymbols, pendingNext, pendingNext, ← hsame] at h
    have hlow : BitVec.ofNat 5 p = BitVec.ofNat 5 q ∧
        pending ++ [p / 32] = pending' ++ [q / 32] ∧ ps = qs := by
      split at h
      · obtain ⟨hlow, h⟩ := List.cons_eq_cons.mp h
        obtain ⟨hgroup, h⟩ := List.cons_eq_cons.mp h
        exact ⟨hlow, groupSymbol_injective hsame (by omega) hgroups hgroups' hgroup,
          (ih (by simp) rfl htail (by simp) (by simp) hps.2 hqs.2 h).2⟩
      · obtain ⟨hlow, h⟩ := List.cons_eq_cons.mp h
        have hshort : (pending ++ [p / 32]).length < 3 := by
          rw [List.length_append, List.length_singleton] at *
          omega
        exact ⟨hlow, ih hshort hsame htail hgroups hgroups' hps.2 hqs.2 h⟩
    obtain ⟨hpend, hgroup⟩ := List.append_inj' hlow.2.1 rfl
    rw [hlow.2.2, position_eq hlow.1 (List.head_eq_of_cons_eq hgroup)]
    exact ⟨hpend, rfl⟩

/-- Where a triple is complete, the symbols after it do not depend on those before it. -/
theorem trace_append_of_full {pending : List Nat} (hlt : pending.length < 3) {a b : List Nat}
    (h : (pending.length + a.length) % 3 = 0 ∨ b = []) :
    trace pending (a ++ b) = trace pending a ++ trace [] b := by
  rcases h with h | rfl
  · have hnil : pendingAfter pending a = [] :=
      List.eq_nil_of_length_eq_zero (by rw [length_pendingAfter hlt, h])
    have hflush : trace pending a = pushTrace pending a := by
      rw [trace, hnil]
      exact List.append_nil _
    rw [trace_append, hnil, hflush]
  · rw [List.append_nil]
    exact (List.append_nil _).symm

theorem write_injective {a b : List Symbol} (h : write a = write b) :
    code.run 1 a = code.run 1 b := by
  have htoChar : Function.Injective Symbol.toChar := by
    intro s t hst
    have hs := Symbol.ofChar?_toChar s
    rw [hst, Symbol.ofChar?_toChar] at hs
    exact (Option.some.inj hs).symm
  exact code.checkSymbols_injective code_invertible (by decide)
    (List.map_injective_iff.mpr htoChar h)

/-- A window of four and the characters that complete its triple feed at most the eight symbols of
the remainder. -/
theorem write_ne_of_window {before window window' after : List Nat}
    (hlen : window.length = window'.length) (hshort : window.length ≤ 4)
    (hbefore : ∀ p ∈ before, p < 95) (hwindow : ∀ p ∈ window, p < 95)
    (hwindow' : ∀ p ∈ window', p < 95) (hafter : ∀ p ∈ after, p < 95) (hne : window ≠ window') :
    write (trace [] (before ++ (window ++ after))) ≠
      write (trace [] (before ++ (window' ++ after))) := by
  let pending := pendingAfter [] before
  have hlt : pending.length < 3 := by
    rw [length_pendingAfter (by decide)]
    omega
  -- As many characters after the window as its last triple lacks, or all that there are.
  let gap := 2 - (pending.length + window.length + 2) % 3
  let filler := after.take gap
  have hsplit (w : List Nat) (hw : w.length = window.length) :
      trace [] (before ++ (w ++ after)) =
        pushTrace [] before ++ (trace pending (w ++ filler) ++ trace [] (after.drop gap)) := by
    have hfull : (pending.length + (w ++ filler).length) % 3 = 0 ∨ after.drop gap = [] := by
      rw [List.drop_eq_nil_iff, List.length_append, List.length_take, hw]
      omega
    rw [trace_append, ← trace_append_of_full hlt hfull, List.append_assoc, List.take_append_drop]
  have hfiller : ∀ p ∈ filler, p < 95 := fun p hp => hafter p (List.mem_of_mem_take hp)
  have hall {w : List Nat} (hw : ∀ p ∈ w, p < 95) : ∀ p ∈ w ++ filler, p < 95 := by
    intro p hp
    exact (List.mem_append.mp hp).elim (hw p) (hfiller p)
  have hsame : (window ++ filler).length = (window' ++ filler).length := by
    rw [List.length_append, List.length_append, hlen]
  have hgap : filler.length ≤ gap := List.length_take_le gap after
  have htrace : trace pending (window ++ filler) ≠ trace pending (window' ++ filler) := by
    intro h
    have hg := @pendingAfter_lt [] before (by simp) hbefore
    have := trace_injective hlt rfl hsame hg hg (hall hwindow) (hall hwindow') h
    exact hne (List.append_cancel_right this.2)
  intro h
  have hrun := write_injective h
  rw [hsplit window rfl, hsplit window' hlen.symm, code.run_append 1 (pushTrace [] before),
    code.run_append 1 (pushTrace [] before)] at hrun
  refine code.run_append_ne code_invertible _ _ ?_ ?_ htrace hrun
  · rw [length_trace hlt, length_trace hlt, hsame]
  · rw [length_trace hlt, List.length_append]
    omega

/-- Two texts of one length that differ only in a window of the given width. -/
def DifferWithin (width : Nat) (a b : List Char) : Prop :=
  a.length = b.length ∧ ∃ start, ∀ i, a[i]? ≠ b[i]? → start ≤ i ∧ i < start + width

theorem DifferWithin.split {width : Nat} {a b : List Char} (h : DifferWithin width a b) :
    ∃ before window window' after, a = before ++ (window ++ after) ∧
      b = before ++ (window' ++ after) ∧ window.length = window'.length ∧
        window.length ≤ width := by
  obtain ⟨hlen, start, hdiff⟩ := h
  have hbefore : b.take start = a.take start := by
    apply List.ext_getElem?
    intro i
    by_cases hi : i < start
    · rw [List.getElem?_take_of_lt hi, List.getElem?_take_of_lt hi]
      by_contra hne
      have := hdiff i (Ne.symm hne)
      omega
    · rw [List.getElem?_take_eq_none (by omega), List.getElem?_take_eq_none (by omega)]
  have hafter : (b.drop start).drop width = (a.drop start).drop width := by
    apply List.ext_getElem?
    intro i
    rw [List.drop_drop, List.drop_drop, List.getElem?_drop, List.getElem?_drop]
    by_contra hne
    have := hdiff _ (Ne.symm hne)
    omega
  refine ⟨a.take start, (a.drop start).take width, (b.drop start).take width,
    (a.drop start).drop width, ?_, ?_, ?_, List.length_take_le _ _⟩
  · rw [List.take_append_drop, List.take_append_drop]
  · rw [← hbefore, ← hafter, List.take_append_drop, List.take_append_drop]
  · simp only [List.length_take, List.length_drop, hlen]

theorem differWithin_iff {width : Nat} {a b : List Char} : DifferWithin width a b ↔
    ∃ before window window' after, a = before ++ (window ++ after) ∧
      b = before ++ (window' ++ after) ∧ window.length = window'.length ∧
        window.length ≤ width := by
  constructor
  · exact DifferWithin.split
  · rintro ⟨before, window, window', after, rfl, rfl, hlen, hshort⟩
    refine ⟨by simp only [List.length_append, hlen], before.length, fun i hne => ?_⟩
    by_contra hout
    apply hne
    by_cases hbefore : i < before.length
    · rw [List.getElem?_append_left hbefore, List.getElem?_append_left hbefore]
    · rw [List.getElem?_append_right (by omega), List.getElem?_append_right (by omega),
        List.getElem?_append_right (by omega), List.getElem?_append_right (by omega), hlen]

theorem compute_ne_of_differWithin {a b : String} (ha : ∀ c ∈ a.toList, isPrintable c)
    (hdiff : DifferWithin 4 a.toList b.toList) (hne : a ≠ b) : compute a ≠ compute b := by
  rw [compute_of_printable ha]
  by_cases hb : ∀ c ∈ b.toList, isPrintable c
  · rw [compute_of_printable hb]
    obtain ⟨before, window, window', after, ha', hb', hlen, hshort⟩ := differWithin_iff.mp hdiff
    have hwindow : window ≠ window' := by
      rintro rfl
      exact hne (String.toList_inj.mp (ha'.trans hb'.symm))
    rw [ha'] at ha ⊢
    rw [hb'] at hb ⊢
    simp only [List.forall_mem_append] at ha hb
    have hlt {text : List Char} (h : ∀ c ∈ text, isPrintable c) :
        ∀ p ∈ text.map positionOf, p < 95 := by
      intro p hp
      obtain ⟨c, hc, rfl⟩ := List.mem_map.mp hp
      exact positionOf_lt (h c hc)
    have hpositions : window.map positionOf ≠ window'.map positionOf := by
      intro h
      exact hwindow (map_positionOf_injective ha.2.1 hb.2.1 h)
    simp only [List.map_append]
    intro h
    exact write_ne_of_window (by simpa using hlen) (by simpa using hshort) (hlt ha.1) (hlt ha.2.1)
      (hlt hb.2.1) (hlt ha.2.2) hpositions (String.ofList_injective h)
  · rw [compute_of_not_printable hb]
    intro h
    have hlength := congrArg (·.toList.length) h
    simp [length_write, length] at hlength

end OutputDescriptor.Checksum
