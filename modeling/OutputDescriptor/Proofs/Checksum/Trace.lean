import Mathlib.Data.List.TakeWhile
import OutputDescriptor.Checksum
import OutputDescriptor.Proofs.Checksum.Residue

/-! The symbols that a text feeds to the checksum engine, and the checksum as a function of them. -/
namespace OutputDescriptor.Checksum

theorem code_invertible : code.Invertible := by
  unfold ResidueCode.Invertible
  decide

def isPrintable (c : Char) : Bool := 32 ≤ c.toNat && c.toNat ≤ 126

theorem position?_isSome (c : Char) : (position? c).isSome = isPrintable c := by
  have hlen : positions.length = 95 := by decide
  rw [Bool.eq_iff_iff, isPrintable, Bool.and_eq_true, decide_eq_true_iff, decide_eq_true_iff]
  unfold position?
  split
  · simp only [Option.isSome_none, Bool.false_eq_true, false_iff]
    omega
  · rw [isSome_getElem?]
    omega

theorem position?_lt {c : Char} {p : Nat} (h : position? c = some p) : p < 95 := by
  have hall : ∀ p ∈ positions, p < 95 := by decide
  unfold position? at h
  split at h
  · cases h
  · exact hall p (List.mem_of_getElem? h)

theorem position?_injective {c d : Char} {p : Nat} (hc : position? c = some p)
    (hd : position? d = some p) : c = d := by
  have hnodup : positions.Nodup := by decide
  unfold position? at hc hd
  split at hc <;> split at hd
  · cases hc
  · cases hc
  · cases hd
  · obtain ⟨hi, -⟩ := List.getElem?_eq_some_iff.mp hc
    have := (List.getElem?_inj hi hnodup).mp (hc.trans hd.symm)
    apply Char.toNat_inj.mp
    omega

def positionOf (c : Char) : Nat := (position? c).getD 0

theorem position?_eq_positionOf {c : Char} (h : isPrintable c) :
    position? c = some (positionOf c) := by
  rw [← position?_isSome, Option.isSome_iff_exists] at h
  obtain ⟨p, hp⟩ := h
  rw [positionOf, hp, Option.getD_some]

theorem positionOf_lt {c : Char} (h : isPrintable c) : positionOf c < 95 :=
  position?_lt (position?_eq_positionOf h)

theorem positionOf_injective {c d : Char} (hc : isPrintable c) (hd : isPrintable d)
    (h : positionOf c = positionOf d) : c = d :=
  position?_injective (position?_eq_positionOf hc) (h ▸ position?_eq_positionOf hd)

/-- The groups that are still unfinished after one more character. -/
def pendingNext (pending : List Nat) (position : Nat) : List Nat :=
  if (pending ++ [position / 32]).length = 3 then [] else pending ++ [position / 32]

def pendingAfter (pending : List Nat) (positions : List Nat) : List Nat :=
  positions.foldl pendingNext pending

/-- The symbols that one character feeds. -/
def pushSymbols (pending : List Nat) (position : Nat) : List Symbol :=
  if (pending ++ [position / 32]).length = 3 then
    [BitVec.ofNat 5 position, groupSymbol (pending ++ [position / 32])]
  else [BitVec.ofNat 5 position]

def pushTrace (pending : List Nat) : List Nat → List Symbol
  | [] => []
  | p :: rest => pushSymbols pending p ++ pushTrace (pendingNext pending p) rest

def flushSymbols (pending : List Nat) : List Symbol :=
  if pending = [] then [] else [groupSymbol pending]

/-- All symbols before those of the target. -/
def trace (pending : List Nat) (positions : List Nat) : List Symbol :=
  pushTrace pending positions ++ flushSymbols (pendingAfter pending positions)

theorem pushTrace_append (pending a b : List Nat) :
    pushTrace pending (a ++ b) = pushTrace pending a ++ pushTrace (pendingAfter pending a) b := by
  induction a generalizing pending with
  | nil => rfl
  | cons p a ih => simp only [List.cons_append, pushTrace, ih, List.append_assoc]; rfl

theorem trace_cons (pending : List Nat) (p : Nat) (rest : List Nat) :
    trace pending (p :: rest) = pushSymbols pending p ++ trace (pendingNext pending p) rest := by
  simp only [trace, pushTrace, pendingAfter, List.foldl_cons, List.append_assoc]

theorem trace_append (pending a b : List Nat) :
    trace pending (a ++ b) = pushTrace pending a ++ trace (pendingAfter pending a) b := by
  simp only [trace, pushTrace_append, pendingAfter, List.foldl_append, List.append_assoc]

theorem map_positionOf_injective {a b : List Char} (ha : ∀ c ∈ a, isPrintable c)
    (hb : ∀ c ∈ b, isPrintable c) (h : a.map positionOf = b.map positionOf) : a = b := by
  induction a generalizing b with
  | nil => exact (List.map_eq_nil_iff.mp h.symm).symm
  | cons c a ih =>
    cases b with
    | nil => cases h
    | cons d b =>
      rw [List.forall_mem_cons] at ha hb
      obtain ⟨hhead, htail⟩ := List.cons_eq_cons.mp h
      rw [positionOf_injective ha.1 hb.1 hhead, ih ha.2 hb.2 htail]

theorem Engine.push_eq (engine : Engine) (position : Nat) :
    engine.push position = ⟨code.run engine.residue (pushSymbols engine.pending position),
      pendingNext engine.pending position⟩ := by
  simp only [Engine.push, Engine.feed, pushSymbols, pendingNext]
  split <;> rfl

theorem Engine.foldl_push (engine : Engine) (positions : List Nat) :
    positions.foldl Engine.push engine =
      ⟨code.run engine.residue (pushTrace engine.pending positions),
        pendingAfter engine.pending positions⟩ := by
  induction positions generalizing engine with
  | nil => rfl
  | cons p rest ih =>
    rw [List.foldl_cons, ih, push_eq]
    simp only [pushTrace, code.run_append, pendingAfter, List.foldl_cons]

/-- An engine takes in the characters before the first one that is not printable. -/
theorem Engine.pushChars_fst (engine : Engine) (offset : Nat) (text : List Char) :
    (engine.pushChars offset text).1 =
      ((text.takeWhile isPrintable).map positionOf).foldl Engine.push engine := by
  induction text generalizing engine offset with
  | nil => rfl
  | cons c rest ih =>
    rw [Engine.pushChars, List.takeWhile_cons]
    by_cases hc : isPrintable c = true
    · rw [position?_eq_positionOf hc, if_pos hc, List.map_cons, List.foldl_cons]
      exact ih _ _
    · rw [if_neg hc]
      rw [← position?_isSome, Bool.not_eq_true, Option.isSome_eq_false_iff,
        Option.isNone_iff_eq_none] at hc
      rw [hc]
      rfl

theorem Engine.pushChars_snd_eq_none_iff (engine : Engine) (offset : Nat) (text : List Char) :
    (engine.pushChars offset text).2 = none ↔ ∀ c ∈ text, isPrintable c := by
  induction text generalizing engine offset with
  | nil => simp [Engine.pushChars]
  | cons c rest ih =>
    rw [Engine.pushChars, List.forall_mem_cons, ← position?_isSome]
    cases position? c with
    | none => simp
    | some p => simpa using ih _ _

/-- A checksum is written from what the symbols of the text and then those of the target leave. -/
def write (symbols : List Symbol) : List Char :=
  (code.checkSymbols (code.run 1 symbols)).map Symbol.toChar

theorem length_write (symbols : List Symbol) : (write symbols).length = length := by
  rw [write, List.length_map, ResidueCode.checkSymbols, length_unpackSymbols]
  rfl

theorem mem_alphabet_of_mem_write {symbols : List Symbol} {c : Char} (h : c ∈ write symbols) :
    c ∈ Symbol.alphabet := by
  have halphabet : ∀ symbol : Symbol, symbol.toChar ∈ Symbol.alphabet := by decide
  obtain ⟨symbol, -, rfl⟩ := List.mem_map.mp h
  exact halphabet symbol

theorem Engine.read_snd (engine : Engine) :
    engine.read.2 =
      (code.checkSymbols (code.run engine.residue (flushSymbols engine.pending))).map
        Symbol.toChar := by
  simp only [Engine.read, flushSymbols, ResidueCode.checkSymbols]
  split <;> rfl

theorem compute_of_printable {text : String} (h : ∀ c ∈ text.toList, isPrintable c) :
    compute text = String.ofList (write (trace [] (text.toList.map positionOf))) := by
  have hnone := (Engine.initial.pushChars_snd_eq_none_iff 0 text.toList).mpr h
  have hfst := Engine.initial.pushChars_fst 0 text.toList
  rw [List.takeWhile_eq_self_iff.mpr h, Engine.foldl_push] at hfst
  have hinput : Engine.initial.input text = (_, none) := Prod.ext hfst hnone
  rw [compute, compute?, hinput]
  simp only [Engine.read_snd, write, trace, Engine.initial, code.run_append, Option.getD_some]

theorem isWellFormed_compute {text : String} (h : ∀ c ∈ text.toList, isPrintable c) :
    isWellFormed (compute text) := by
  rw [compute_of_printable h, isWellFormed, String.toList_ofList, length_write, Bool.and_eq_true,
    List.all_eq_true]
  refine ⟨by decide, fun c hc => ?_⟩
  rw [List.contains_iff_mem]
  exact mem_alphabet_of_mem_write hc

theorem isWellFormed_iff {checksum : String} :
    isWellFormed checksum ↔
      checksum.toList.length = length ∧ ∀ c ∈ checksum.toList, c ∈ Symbol.alphabet := by
  rw [isWellFormed, Bool.and_eq_true, decide_eq_true_iff, List.all_eq_true]
  simp only [List.contains_iff_mem]

theorem compute_of_not_printable {text : String} (h : ¬∀ c ∈ text.toList, isPrintable c) :
    compute text = "" := by
  have hfault : (Engine.initial.input text).2 ≠ none := fun hnone =>
    h ((Engine.initial.pushChars_snd_eq_none_iff 0 text.toList).mp hnone)
  rw [compute, compute?]
  cases hinput : Engine.initial.input text with
  | mk engine fault =>
    cases fault with
    | none => exact absurd (congrArg Prod.snd hinput) hfault
    | some _ => rfl

end OutputDescriptor.Checksum
