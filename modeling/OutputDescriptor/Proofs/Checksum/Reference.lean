import OutputDescriptor.Proofs.Checksum.Edit

/-!
The checksum as BIP-380 words it, on plain numbers: a character set in which each character has its
place, a word of forty bits that takes in symbols, and a text taken in three characters at a time.
The remainder, the positions and the written checksum are shown to be the same.
-/
namespace OutputDescriptor.Checksum

namespace Reference

/-- The characters of descriptors in groups of 32. The last group is one short. -/
def charset : List Char :=
  "0123456789()[],\x27/*abcdefgh@:$%\x7b\x7d".toList ++
    "IJKLMNOPQRSTUVWXYZ&+-.;<=>?!^_|~".toList ++
    "ijklmnopqrstuvwxyzABCDEFGH\x60#\x22\x5c ".toList

def place? (c : Char) : Option Nat := charset.findIdx? (· == c)

def low (c : Char) : Nat := (place? c).getD 0 % 32

def group (c : Char) : Nat := (place? c).getD 0 / 32

def generator : List Nat :=
  [0xf5dee51989, 0xa9fdca3312, 0x1bab10e32d, 0x3706b1677a, 0x644d626ffd]

/-- Add the generators that the bits of a symbol choose. -/
def addGenerators (top word : Nat) : Nat :=
  generator.zipIdx.foldl (fun acc (g, i) => if top.testBit i then acc ^^^ g else acc) word

/-- The five high bits of the word fall out and choose the generators. -/
def polymodStep (word symbol : Nat) : Nat :=
  addGenerators (word >>> 35) ((word &&& 0x7ffffffff) <<< 5 ^^^ symbol)

def polymod (symbols : List Nat) : Nat := symbols.foldl polymodStep 1

def render (word : Nat) : List Char :=
  (List.range 8).map fun i => Symbol.alphabet.getD ((word >>> (5 * (7 - i))) % 32) 'q'

/-- The groups of some characters as a number in base three. -/
def groupValue (chars : List Char) : Nat := ofDigits 3 (chars.map group)

/-- A symbol for each character, and after every three of them, or what is left at the end, one
more for their groups. -/
def expand : List Char → List Nat
  | a :: b :: c :: rest => [low a, low b, low c, groupValue [a, b, c]] ++ expand rest
  | [] => []
  | rest => rest.map low ++ [groupValue rest]

def checksum (text : String) : String :=
  String.ofList (render (polymod (expand text.toList ++ List.replicate 8 0) ^^^ 1))

end Reference

/-! ### Characters -/

/-- The characters of the set stand in the order of their positions. -/
theorem map_position?_charset : Reference.charset.map position? = (List.range 95).map some := by
  decide +kernel

theorem length_charset : Reference.charset.length = 95 := by
  have h := congrArg List.length map_position?_charset
  simpa using h

theorem position?_getElem_charset {i : Nat} (hi : i < Reference.charset.length) :
    position? Reference.charset[i] = some i := by
  have hrange : i < 95 := length_charset ▸ hi
  have h := congrArg (·[i]?) map_position?_charset
  simpa [hi, hrange] using h

theorem place?_getElem_charset {i : Nat} (hi : i < Reference.charset.length) :
    Reference.place? Reference.charset[i] = some i := by
  rw [Reference.place?, List.findIdx?_eq_some_iff_getElem]
  refine ⟨hi, beq_self_eq_true _, fun j hj hsame => ?_⟩
  have hj' : j < Reference.charset.length := hj.trans hi
  have hposition := position?_getElem_charset hj'
  rw [beq_iff_eq.mp hsame, position?_getElem_charset hi] at hposition
  have := Option.some.inj hposition
  omega

theorem position?_eq_place? (c : Char) : position? c = Reference.place? c := by
  by_cases hmem : c ∈ Reference.charset
  · obtain ⟨i, hi, rfl⟩ := List.mem_iff_getElem.mp hmem
    rw [position?_getElem_charset hi, place?_getElem_charset hi]
  · have hplace : Reference.place? c = none := by
      rw [Reference.place?, List.findIdx?_eq_none_iff]
      intro d hd
      have hne : d ≠ c := fun h => hmem (h ▸ hd)
      simpa using hne
    rw [hplace]
    cases hposition : position? c with
    | none => rfl
    | some p =>
      -- Each position belongs to a character of the set, and to no other one.
      have hp : p < Reference.charset.length := length_charset ▸ position?_lt hposition
      have hsame := position?_injective hposition (position?_getElem_charset hp)
      exact absurd (hsame ▸ List.getElem_mem hp) hmem

theorem positionOf_eq (c : Char) : positionOf c = (Reference.place? c).getD 0 := by
  rw [positionOf, position?_eq_place?]

theorem group_lt_three (c : Char) : Reference.group c < 3 := by
  rw [Reference.group, ← position?_eq_place?]
  cases h : position? c with
  | none => simp
  | some p =>
    have hp := position?_lt h
    simp only [Option.getD_some]
    omega

/-! ### The remainder -/

theorem toNat_addRows (rows : List (BitVec 40 × Nat)) (top : Symbol) (word : BitVec 40) :
    (rows.foldl (fun acc (row, i) => if top.getLsbD i then acc ^^^ row else acc) word).toNat =
      (rows.map (fun (row, i) => (row.toNat, i))).foldl
        (fun acc (g, i) => if top.toNat.testBit i then acc ^^^ g else acc) word.toNat := by
  induction rows generalizing word with
  | nil => rfl
  | cons entry rest ih =>
    obtain ⟨row, i⟩ := entry
    simp only [List.foldl_cons, List.map_cons, ih]
    congr 1
    have hbit : top.getLsbD i = top.toNat.testBit i := rfl
    rw [hbit]
    split
    · exact BitVec.toNat_xor word row
    · rfl

theorem addGenerators_xor (top a b : Nat) :
    Reference.addGenerators top (a ^^^ b) = Reference.addGenerators top a ^^^ b := by
  have hfold (entries : List (Nat × Nat)) (a : Nat) :
      entries.foldl (fun acc (g, i) => if top.testBit i then acc ^^^ g else acc) (a ^^^ b) =
        entries.foldl (fun acc (g, i) => if top.testBit i then acc ^^^ g else acc) a ^^^ b := by
    induction entries generalizing a with
    | nil => rfl
    | cons entry rest ih =>
      obtain ⟨g, i⟩ := entry
      simp only [List.foldl_cons]
      split
      · rw [← ih, Nat.xor_assoc, Nat.xor_comm b g, ← Nat.xor_assoc]
      · exact ih a
  exact hfold _ a

theorem toNat_feedback (top : Symbol) :
    (code.feedback top).toNat = Reference.addGenerators top.toNat 0 := by
  have h := toNat_addRows code.rows.zipIdx top 0
  exact h

theorem toNat_step (word : BitVec 40) (symbol : Symbol) :
    (code.step word symbol).toNat = Reference.polymodStep word.toNat symbol.toNat := by
  have hword := word.isLt
  have hshift : (word <<< 5).toNat = (word.toNat &&& 0x7ffffffff) <<< 5 := by
    have hmask : 0x7ffffffff = 2 ^ 35 - 1 := rfl
    rw [BitVec.toNat_shiftLeft, hmask, Nat.and_two_pow_sub_one_eq_mod, Nat.shiftLeft_eq,
      Nat.shiftLeft_eq]
    omega
  have hsymbol : (symbol.setWidth 40).toNat = symbol.toNat := by
    have := symbol.isLt
    rw [BitVec.toNat_setWidth]
    omega
  have htop : ((word >>> (40 - 5)).setWidth 5).toNat = word.toNat >>> 35 := by
    rw [BitVec.toNat_setWidth, BitVec.toNat_ushiftRight, Nat.shiftRight_eq_div_pow]
    omega
  rw [ResidueCode.step, BitVec.toNat_xor, BitVec.toNat_xor, hshift, hsymbol, toNat_feedback, htop,
    Reference.polymodStep, Nat.xor_comm, ← Nat.zero_xor ((word.toNat &&& 0x7ffffffff) <<< 5 ^^^ _),
    addGenerators_xor, Nat.zero_xor]

theorem toNat_run (word : BitVec 40) (symbols : List Symbol) :
    (code.run word symbols).toNat =
      (symbols.map BitVec.toNat).foldl Reference.polymodStep word.toNat := by
  induction symbols generalizing word with
  | nil => rfl
  | cons symbol rest ih =>
    have h := ih (code.step word symbol)
    rw [toNat_step] at h
    exact h

/-- The last symbol is added to the word that a zero in its place leaves. -/
theorem polymod_concat (symbols : List Nat) (symbol : Nat) :
    Reference.polymod (symbols ++ [symbol]) = Reference.polymod (symbols ++ [0]) ^^^ symbol := by
  simp only [Reference.polymod, List.foldl_append, List.foldl_cons, List.foldl_nil,
    Reference.polymodStep, addGenerators_xor, Nat.xor_zero]

/-! ### The written checksum -/

theorem map_toChar_unpackSymbols (word : BitVec 40) :
    (unpackSymbols word).map Symbol.toChar = Reference.render word.toNat := by
  rw [unpackSymbols, Reference.render, List.map_map]
  apply List.map_congr_left
  intro i hi
  have hi : i < 8 := List.mem_range.mp hi
  have hshift : 40 - 5 * (i + 1) = 5 * (7 - i) := by omega
  simp only [Function.comp_apply, Symbol.toChar, BitVec.toNat_setWidth, BitVec.toNat_ushiftRight,
    hshift]

end OutputDescriptor.Checksum
