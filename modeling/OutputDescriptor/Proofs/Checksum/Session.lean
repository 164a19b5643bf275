import OutputDescriptor.Proofs.Checksum.Reference

/-!
What an engine answers when texts are taken in and checksums are read in any order. Each answer is
the one that BIP-380 gives for all that the engine was given before.
-/
namespace OutputDescriptor.Checksum

inductive Request
  | input (text : String)
  | read
  deriving DecidableEq, Repr

inductive Answer
  | taken (fault : Option InvalidCharacter)
  | checksum (chars : List Char)
  deriving DecidableEq, Repr

namespace Engine

def serve (engine : Engine) : Request → Engine × Answer
  | .input text => ((engine.input text).1, .taken (engine.input text).2)
  | .read => (engine.read.1, .checksum engine.read.2)

/-- The engine after some requests, and its answers in order. -/
def session (engine : Engine) : List Request → Engine × List Answer
  | [] => (engine, [])
  | request :: rest =>
    let (last, answers) := (engine.serve request).1.session rest
    (last, (engine.serve request).2 :: answers)

end Engine

namespace Reference

/-- What an engine is given: a character of the set, or a reading of the checksum. -/
inductive Event
  | char (c : Char)
  | read

/-- The characters after the last complete triple. -/
def unfinished (chars : List Char) : List Char := chars.drop (chars.length / 3 * 3)

/-- The symbols of a character after some others: one for the character, and one for the groups of
the triple that it completes. -/
def charSymbols (before : List Char) (c : Char) : List Nat :=
  low c ::
    if (before.length + 1) % 3 = 0 then [groupValue (unfinished before ++ [c])] else []

def flushSymbols (before : List Char) : List Nat :=
  if before.length % 3 = 0 then [] else [groupValue (unfinished before)]

/-- The symbols of a reading: the unfinished groups, which stay unfinished, and the target. -/
def readSymbols (before : List Char) : List Nat := flushSymbols before ++ [0, 0, 0, 0, 0, 0, 0, 1]

/-- The symbols of some events after the characters in `before`. -/
def trace (before : List Char) : List Event → List Nat
  | [] => []
  | .char c :: rest => charSymbols before c ++ trace (before ++ [c]) rest
  | .read :: rest => readSymbols before ++ trace before rest

/-- The characters of a text before the first one that is not in the set. -/
def accepted (text : String) : List Char := text.toList.takeWhile (charset.contains ·)

/-- The first character that is not in the set, and the bytes before it. -/
def fault? (text : String) : Option InvalidCharacter :=
  (text.toList.dropWhile (charset.contains ·)).head?.map fun c =>
    ⟨c, (String.ofList (accepted text)).utf8ByteSize⟩

def events : Request → List Event
  | .input text => (accepted text).map .char
  | .read => [.read]

/-- The answer to a request after earlier events. -/
def answer (before : List Event) : Request → Answer
  | .input text => .taken (fault? text)
  | .read => .checksum (render (polymod (trace [] (before ++ [.read]))))

def answers (before : List Event) : List Request → List Answer
  | [] => []
  | request :: rest => answer before request :: answers (before ++ events request) rest

end Reference

/-! ### Triples -/

theorem length_unfinished (chars : List Char) :
    (Reference.unfinished chars).length = chars.length % 3 := by
  rw [Reference.unfinished, List.length_drop]
  omega

theorem unfinished_concat (chars : List Char) (c : Char) :
    Reference.unfinished (chars ++ [c]) =
      if (chars.length + 1) % 3 = 0 then [] else Reference.unfinished chars ++ [c] := by
  rw [Reference.unfinished, List.length_append, List.length_singleton]
  split
  · have hall : (chars ++ [c]).length ≤ (chars.length + 1) / 3 * 3 := by
      rw [List.length_append, List.length_singleton]
      omega
    exact List.drop_eq_nil_of_le hall
  · have hsame : (chars.length + 1) / 3 * 3 = chars.length / 3 * 3 := by omega
    have hle : chars.length / 3 * 3 ≤ chars.length := by omega
    rw [hsame, List.drop_append_of_le_length hle, Reference.unfinished]

theorem toNat_groupSymbol_map_group {chars : List Char} (h : chars.length ≤ 3) :
    (groupSymbol (chars.map Reference.group)).toNat = Reference.groupValue chars := by
  apply toNat_groupSymbol
  · intro g hg
    obtain ⟨c, -, rfl⟩ := List.mem_map.mp hg
    exact group_lt_three c
  · simpa using h

/-! ### The characters of a text -/

theorem contains_charset (c : Char) : Reference.charset.contains c = isPrintable c := by
  have h := position?_isSome c
  rw [position?_eq_place?, Reference.place?, List.findIdx?_isSome] at h
  rw [← h, List.contains_eq_any_beq]
  congr 1
  funext d
  exact BEq.comm

theorem accepted_eq (text : String) :
    Reference.accepted text = text.toList.takeWhile isPrintable := by
  rw [Reference.accepted, funext contains_charset]

theorem pushChars_snd (engine : Engine) (offset : Nat) (text : List Char) :
    (engine.pushChars offset text).2 =
      (text.dropWhile isPrintable).head?.map fun c =>
        ⟨c, offset + (String.ofList (text.takeWhile isPrintable)).utf8ByteSize⟩ := by
  induction text generalizing engine offset with
  | nil => rfl
  | cons c rest ih =>
    rw [Engine.pushChars]
    by_cases hc : isPrintable c = true
    · have hsize (chars : List Char) : (String.ofList (c :: chars)).utf8ByteSize =
          c.utf8Size + (String.ofList chars).utf8ByteSize := by
        rw [String.ofList_cons, String.utf8ByteSize_append, String.utf8ByteSize_singleton]
      simp only [position?_eq_positionOf hc, ih, List.dropWhile_cons_of_pos hc,
        List.takeWhile_cons_of_pos hc, hsize, Nat.add_assoc]
    · have hnone : position? c = none := by
        have h := position?_isSome c
        simpa [hc] using h
      simp [hnone, hc]

theorem input_snd (engine : Engine) (text : String) :
    (engine.input text).2 = Reference.fault? text := by
  have h := pushChars_snd engine 0 text.toList
  rw [Engine.input, h, Reference.fault?, accepted_eq, funext contains_charset]
  simp only [Nat.zero_add]

theorem input_fst (engine : Engine) (text : String) :
    (engine.input text).1 =
      ((Reference.accepted text).map positionOf).foldl Engine.push engine := by
  rw [Engine.input, Engine.pushChars_fst, accepted_eq]

/-! ### Events -/

namespace Reference

/-- The characters among some events. -/
def chars (before : List Event) : List Char :=
  before.filterMap fun | .char c => some c | .read => none

theorem chars_append (a b : List Event) : chars (a ++ b) = chars a ++ chars b :=
  List.filterMap_append

theorem chars_map_char (cs : List Char) : chars (cs.map .char) = cs := by
  induction cs with
  | nil => rfl
  | cons c rest ih => exact congrArg (c :: ·) ih

theorem trace_append (before : List Char) (a b : List Event) :
    trace before (a ++ b) = trace before a ++ trace (before ++ chars a) b := by
  induction a generalizing before with
  | nil => simp [trace, chars]
  | cons event rest ih =>
    cases event with
    | char c => simp [trace, ih, chars]
    | read => simp [trace, ih, chars]

theorem trace_concat_char (before : List Event) (c : Char) :
    trace [] (before ++ [.char c]) = trace [] before ++ charSymbols (chars before) c := by
  simp [trace_append, trace]

theorem trace_concat_read (before : List Event) :
    trace [] (before ++ [.read]) = trace [] before ++ readSymbols (chars before) := by
  simp [trace_append, trace]

end Reference

/-! ### The engine and the events -/

/-- The engine has taken in the symbols of the events and keeps the groups that are unfinished. -/
structure Engine.Follows (engine : Engine) (before : List Reference.Event) : Prop where
  residue : engine.residue.toNat = Reference.polymod (Reference.trace [] before)
  pending : engine.pending = (Reference.unfinished (Reference.chars before)).map Reference.group

namespace Engine.Follows

variable {engine : Engine} {before : List Reference.Event}

theorem toNat_run (h : engine.Follows before) (symbols : List Symbol) :
    (code.run engine.residue symbols).toNat =
      Reference.polymod (Reference.trace [] before ++ symbols.map BitVec.toNat) := by
  rw [Checksum.toNat_run, h.residue, Reference.polymod, Reference.polymod, List.foldl_append]

theorem toNat_flushSymbols (h : engine.Follows before) :
    (flushSymbols engine.pending).map BitVec.toNat =
      Reference.flushSymbols (Reference.chars before) := by
  have hlength := length_unfinished (Reference.chars before)
  have hnil : engine.pending = [] ↔ (Reference.chars before).length % 3 = 0 := by
    rw [h.pending, List.map_eq_nil_iff, ← List.length_eq_zero_iff, hlength]
  rw [flushSymbols, Reference.flushSymbols]
  simp only [hnil]
  split
  · rfl
  · rw [List.map_singleton, h.pending, toNat_groupSymbol_map_group (by omega)]

theorem push (h : engine.Follows before) (c : Char) :
    (engine.push (positionOf c)).Follows (before ++ [.char c]) := by
  let chars := Reference.chars before
  have hlength : (Reference.unfinished chars).length = chars.length % 3 := length_unfinished chars
  have hgroups : engine.pending ++ [positionOf c / 32] =
      (Reference.unfinished chars ++ [c]).map Reference.group := by
    rw [h.pending, positionOf_eq, List.map_append]
    rfl
  have hfull : (engine.pending ++ [positionOf c / 32]).length = 3 ↔ (chars.length + 1) % 3 = 0 := by
    rw [hgroups, List.length_map, List.length_append, List.length_singleton]
    omega
  have hlow : (BitVec.ofNat 5 (positionOf c)).toNat = Reference.low c := by
    rw [positionOf_eq]
    rfl
  have hsymbols : (pushSymbols engine.pending (positionOf c)).map BitVec.toNat =
      Reference.charSymbols chars c := by
    rw [pushSymbols, Reference.charSymbols]
    simp only [hfull]
    split
    · have hvalue := toNat_groupSymbol_map_group
        (show (Reference.unfinished chars ++ [c]).length ≤ 3 by simp; omega)
      rw [List.map_cons, List.map_singleton, hlow, hgroups, hvalue]
    · rw [List.map_singleton, hlow]
  rw [Engine.push_eq]
  constructor
  · rw [h.toNat_run, hsymbols, Reference.trace_concat_char]
  · have hchars : Reference.chars (before ++ [.char c]) = chars ++ [c] := Reference.chars_append ..
    rw [hchars, unfinished_concat, pendingNext]
    simp only [hfull]
    split
    · rfl
    · exact hgroups

theorem toNat_read (h : engine.Follows before) :
    engine.read.1.residue.toNat = Reference.polymod (Reference.trace [] (before ++ [.read])) := by
  have htarget : (unpackSymbols code.target).map BitVec.toNat = [0, 0, 0, 0, 0, 0, 0, 1] := by
    decide
  have hread : engine.read.1.residue =
      code.run engine.residue (flushSymbols engine.pending ++ unpackSymbols code.target) := by
    rw [code.run_append, Engine.read, flushSymbols]
    split <;> rfl
  rw [hread, h.toNat_run, List.map_append, h.toNat_flushSymbols, htarget,
    Reference.trace_concat_read]
  rfl

/-- A reading does not clear the unfinished groups. -/
theorem read (h : engine.Follows before) : engine.read.1.Follows (before ++ [.read]) := by
  constructor
  · exact h.toNat_read
  · have hpending : engine.read.1.pending = engine.pending := by
      rw [Engine.read]
      split <;> rfl
    rw [hpending, h.pending, Reference.chars_append]
    simp [Reference.chars]

theorem read_snd (h : engine.Follows before) :
    engine.read.2 =
      Reference.render (Reference.polymod (Reference.trace [] (before ++ [.read]))) := by
  rw [← h.toNat_read, ← map_toChar_unpackSymbols]
  rfl

theorem foldl_push (h : engine.Follows before) (cs : List Char) :
    ((cs.map positionOf).foldl Engine.push engine).Follows (before ++ cs.map .char) := by
  induction cs generalizing engine before with
  | nil => simpa using h
  | cons c rest ih =>
    have hnext := ih (h.push c)
    simpa using hnext

/-- One request keeps the engine with the events and is answered as they say. -/
theorem serve (h : engine.Follows before) (request : Request) :
    (engine.serve request).1.Follows (before ++ Reference.events request) ∧
      (engine.serve request).2 = Reference.answer before request := by
  cases request with
  | input text =>
    constructor
    · show (engine.input text).1.Follows _
      rw [input_fst]
      exact h.foldl_push (Reference.accepted text)
    · exact congrArg Answer.taken (input_snd engine text)
  | read =>
    constructor
    · exact h.read
    · exact congrArg Answer.checksum h.read_snd

theorem session_snd (h : engine.Follows before) (requests : List Request) :
    (engine.session requests).2 = Reference.answers before requests := by
  induction requests generalizing engine before with
  | nil => rfl
  | cons request rest ih =>
    obtain ⟨hnext, hanswer⟩ := h.serve request
    have hrest := ih hnext
    simp only [Engine.session, Reference.answers, hanswer, hrest]

end Engine.Follows

theorem Engine.follows_initial : Engine.initial.Follows [] := by
  constructor <;> rfl

/-! ### Whole texts -/

/-- Characters that do not complete a triple are unfinished after any number of whole ones. -/
theorem unfinished_append {before cs : List Char} (h : before.length % 3 = 0)
    (hshort : cs.length < 3) : Reference.unfinished (before ++ cs) = cs := by
  have hlength : (before ++ cs).length / 3 * 3 = before.length := by
    rw [List.length_append]
    omega
  rw [Reference.unfinished, hlength, List.drop_left]

/-- Taken in three at a time, the characters feed the symbols that they feed one by one. -/
theorem trace_append_flushSymbols {before : List Char} (h : before.length % 3 = 0)
    (cs : List Char) :
    Reference.trace before (cs.map .char) ++ Reference.flushSymbols (before ++ cs) =
      Reference.expand cs := by
  have hfirst : (before.length + 1) % 3 ≠ 0 := by omega
  have hsecond : (before.length + 1 + 1) % 3 ≠ 0 := by omega
  fun_induction Reference.expand cs generalizing before with
  | case1 a b c rest ih =>
    have hthird : (before.length + 1 + 1 + 1) % 3 = 0 := by omega
    have hpair : Reference.unfinished (before ++ [a, b]) = [a, b] := unfinished_append h (by simp)
    have hlength : (before ++ [a, b, c]).length = before.length + 1 + 1 + 1 := by simp
    have hrest := @ih (before ++ [a, b, c]) (by omega) (by omega) (by omega)
    simpa [Reference.trace, Reference.charSymbols, hfirst, hsecond, hthird, hpair] using hrest
  | case2 => simp [Reference.trace, Reference.flushSymbols, h]
  | case3 rest htriple hnil =>
    obtain _ | ⟨a, _ | ⟨b, _ | ⟨c, rest⟩⟩⟩ := rest
    · exact absurd rfl hnil
    · have hgroup : Reference.unfinished (before ++ [a]) = [a] := unfinished_append h (by simp)
      simp [Reference.trace, Reference.charSymbols, Reference.flushSymbols, hfirst, hgroup]
    · have hgroup : Reference.unfinished (before ++ [a, b]) = [a, b] :=
        unfinished_append h (by simp)
      simp [Reference.trace, Reference.charSymbols, Reference.flushSymbols, hfirst, hsecond, hgroup]
    · exact absurd rfl (htriple a b c rest)

/-- Reading once after the characters of a text gives its checksum. -/
theorem render_trace_concat_read (text : String) :
    String.ofList (Reference.render
      (Reference.polymod (Reference.trace [] (text.toList.map .char ++ [.read])))) =
      Reference.checksum text := by
  have hlength : ([] : List Char).length % 3 = 0 := Nat.zero_mod 3
  have hexpand := trace_append_flushSymbols hlength text.toList
  have htrace : Reference.trace [] (text.toList.map .char ++ [.read]) =
      Reference.expand text.toList ++ List.replicate 7 0 ++ [1] := by
    rw [Reference.trace_concat_read, Reference.chars_map_char, ← hexpand, Reference.readSymbols]
    simp
  have hzeros : Reference.expand text.toList ++ List.replicate 7 0 ++ [0] =
      Reference.expand text.toList ++ List.replicate 8 0 := by
    rw [List.append_assoc, ← List.replicate_succ']
  rw [htrace, polymod_concat, hzeros, Reference.checksum]

theorem accepted_of_printable {text : String} (h : ∀ c ∈ text.toList, isPrintable c) :
    Reference.accepted text = text.toList := by
  rw [accepted_eq, List.takeWhile_eq_self_iff]
  exact h

theorem answers_pieces (before : List Char) {pieces : List String}
    (h : ∀ piece ∈ pieces, ∀ c ∈ piece.toList, isPrintable c) :
    Reference.answers (before.map .char) (pieces.map .input ++ [.read]) =
      pieces.map (fun _ => .taken none) ++ [.checksum (Reference.render (Reference.polymod
        (Reference.trace [] ((before ++ (String.join pieces).toList).map .char ++ [.read]))))] := by
  induction pieces generalizing before with
  | nil => simp [Reference.answers, Reference.answer]
  | cons piece rest ih =>
    rw [List.forall_mem_cons] at h
    have haccepted := accepted_of_printable h.1
    have hfault : Reference.fault? piece = none := by
      have hdrop : piece.toList.dropWhile isPrintable = [] := List.dropWhile_eq_nil_iff.mpr h.1
      rw [Reference.fault?, funext contains_charset, hdrop]
      rfl
    have hrest := ih (before ++ piece.toList) h.2
    simp only [List.map_append] at hrest
    simp [Reference.answers, Reference.answer, Reference.events, hfault, haccepted, hrest]

theorem compute_eq_checksum {text : String} (h : ∀ c ∈ text.toList, isPrintable c) :
    compute text = Reference.checksum text := by
  have hfault := (Engine.initial.pushChars_snd_eq_none_iff 0 text.toList).mpr h
  have hinput : Engine.initial.input text = ((Engine.initial.input text).1, none) :=
    Prod.ext rfl hfault
  have hfollows := Engine.follows_initial.foldl_push text.toList
  have hengine : (Engine.initial.input text).1 =
      (text.toList.map positionOf).foldl Engine.push Engine.initial := by
    rw [input_fst, accepted_of_printable h]
  rw [compute, compute?, hinput]
  simp only [Option.getD_some]
  rw [hengine, hfollows.read_snd, List.nil_append, render_trace_concat_read]

/-- Whatever is taken in and read from a fresh engine, in any order, the answers are those of
BIP-380. -/
theorem session_eq_answers :
    (∀ requests, (Engine.initial.session requests).2 = Reference.answers [] requests) ∧
    (∀ (engine : Engine) (text : String), (engine.input text).1 =
      (engine.input (String.ofList (Reference.accepted text))).1) ∧
    (∀ pieces : List String, (∀ piece ∈ pieces, ∀ c ∈ piece.toList, isPrintable c) →
      (Engine.initial.session (pieces.map .input ++ [.read])).2 =
        pieces.map (fun _ => .taken none) ++
          [.checksum (Reference.checksum (String.join pieces)).toList]) ∧
    ∀ text, compute text =
      if text.toList.all isPrintable then Reference.checksum text else "" := by
  refine ⟨?_, ?_, ?_, ?_⟩
  · exact Engine.follows_initial.session_snd
  · intro engine text
    have hprintable : ∀ c ∈ (String.ofList (Reference.accepted text)).toList, isPrintable c := by
      rw [String.toList_ofList, accepted_eq]
      exact fun c hc => List.mem_takeWhile_imp hc
    rw [input_fst, input_fst, accepted_of_printable hprintable, String.toList_ofList]
  · intro pieces hpieces
    have hanswers := Engine.follows_initial.session_snd (pieces.map .input ++ [.read])
    have hchecksum := congrArg String.toList (render_trace_concat_read (String.join pieces))
    rw [String.toList_ofList] at hchecksum
    have hwhole := answers_pieces [] hpieces
    rw [List.nil_append, hchecksum] at hwhole
    exact hanswers.trans hwhole
  · intro text
    have hall : text.toList.all isPrintable = true ↔ ∀ c ∈ text.toList, isPrintable c :=
      List.all_eq_true
    split
    · rename_i hprintable
      exact compute_eq_checksum (hall.mp hprintable)
    · rename_i hprintable
      exact compute_of_not_printable fun h => hprintable (hall.mpr h)

theorem session_eq_answers_pieces :
    (Engine.initial.session [.input "raw(", .input "00)", .read]).2 =
      [.taken none, .taken none, .checksum (Reference.checksum "raw(00)").toList] ∧
    Reference.checksum "raw(00)" = "qwfjgwf6" := by
  have hprintable : ∀ piece ∈ ["raw(", "00)"], ∀ c ∈ piece.toList, isPrintable c := by
    rw [List.forall_mem_cons, List.forall_mem_singleton]
    exact ⟨List.all_eq_true.mp (by decide), List.all_eq_true.mp (by decide)⟩
  exact ⟨session_eq_answers.2.2.1 ["raw(", "00)"] hprintable, by decide +kernel⟩

end OutputDescriptor.Checksum
