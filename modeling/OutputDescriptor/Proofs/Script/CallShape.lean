import Mathlib.Data.List.Basic
import Mathlib.Data.List.TakeWhile
import OutputDescriptor.Script.Call
import OutputDescriptor.Text.Chars
import OutputDescriptor.Text.Splitting

/-! The texts that are taken apart as calls. -/
namespace OutputDescriptor

def callText (type : ScriptType) (args : List Char) : List Char :=
  type.token.toList ++ '(' :: (args ++ [')'])

theorem getLast?_callText (type : ScriptType) (args : List Char) :
    (callText type args).getLast? = some ')' := by
  rw [callText, ← List.cons_append, ← List.append_assoc, List.getLast?_concat]

theorem takeWhile_token (type : ScriptType) (rest : List Char) :
    (type.token.toList ++ '(' :: rest).takeWhile (· ≠ '(') = type.token.toList := by
  have hparen : ∀ c ∈ type.token.toList, decide (c ≠ '(') = true := by
    intro c hc
    have hlower := type.isLower_of_mem_token c hc
    rw [decide_eq_true_iff]
    rintro rfl
    exact absurd hlower (by decide)
  rw [List.takeWhile_append_of_pos hparen, List.takeWhile_cons_of_neg (by decide), List.append_nil]

theorem NoEmptyPiece.callText {args : List Char} (h : NoEmptyPiece ',' args) (type : ScriptType) :
    NoEmptyPiece ',' (callText type args) := by
  have hfront : ',' ∉ type.token.toList ++ ['('] := by
    rw [List.mem_append, not_or]
    constructor
    · intro hmem
      exact absurd (type.isLower_of_mem_token _ hmem) (by decide)
    · decide
  have := (h.append_right (by decide : ',' ∉ [')'])).append_left hfront
  rwa [List.append_assoc] at this

namespace Call

theorem splitBody?_eq_some_iff {body args : List Char} {type : ScriptType} :
    splitBody? body = some (type, args) ↔ body = callText type args := by
  constructor
  · intro h
    obtain ⟨found, hfound, h⟩ := Option.bind_eq_some_iff.mp h
    split at h
    · rename_i rest hrest
      simp only [Option.ite_none_right_eq_some, Option.some.injEq, Prod.mk.injEq] at h
      obtain ⟨hlast, rfl, rfl⟩ := h
      have hhead := congrArg String.toList (ScriptType.ofToken?_eq_some_iff.mp hfound)
      rw [String.toList_ofList] at hhead
      rw [callText, List.dropLast_append_getLast? _ hlast, ← hrest, ← hhead]
      exact (List.prefix_iff_eq_append.mp (List.takeWhile_prefix _)).symm
    · cases h
  · rintro rfl
    have hhead := takeWhile_token type (args ++ [')'])
    simp only [splitBody?, callText, hhead, String.ofList_toList, ScriptType.ofToken?_token,
      List.drop_left, List.getLast?_concat, List.dropLast_concat, Option.bind_eq_bind,
      Option.bind_some, if_true]

theorem startsCall_of_token (type : ScriptType) (rest : List Char) :
    startsCall (type.token.toList ++ '(' :: rest) := by
  simp only [startsCall, takeWhile_token type rest, String.ofList_toList,
    ScriptType.ofToken?_token, Option.isSome_some, Bool.and_true, decide_eq_true_iff,
    List.length_append, List.length_cons]
  omega

theorem startsCall_of_not_mem {text : List Char} (h : '(' ∉ text) : startsCall text = false := by
  have hall : text.takeWhile (· ≠ '(') = text := by
    rw [List.takeWhile_eq_self_iff]
    intro c hc
    rw [decide_eq_true_iff]
    rintro rfl
    exact h hc
  rw [startsCall, hall]
  simp

theorem intercalate_splitArgs (text : List Char) : [','].intercalate (splitArgs text) = text := by
  unfold splitArgs
  split
  · exact List.intercalate_singleton
  · exact List.intercalate_splitOn ','

theorem splitArgs_callText (type : ScriptType) (args : List Char) :
    splitArgs (callText type args) = [callText type args] := by
  rw [splitArgs, callText, if_pos (startsCall_of_token type _)]

theorem startsCall_intercalate {parts : List (List Char)}
    (h : ∀ part ∈ parts, ∀ c ∈ part, isLeafChar c) :
    startsCall ([','].intercalate parts) = false := by
  apply startsCall_of_not_mem
  intro hparen
  have hne : ∀ c ∈ [','].intercalate parts, c ≠ '(' := by
    refine forall_mem_intercalate (by decide) fun part hpart c hc => ?_
    rintro rfl
    exact absurd (h part hpart _ hc) (by decide)
  exact hne _ hparen rfl

section Plain

variable {parts : List (List Char)} (hne : parts ≠ [])
  (h : ∀ part ∈ parts, part ≠ [] ∧ ∀ c ∈ part, isLeafChar c)
include hne h

theorem splitOn_intercalate_plain : ([','].intercalate parts).splitOn ',' = parts := by
  refine List.splitOn_intercalate ',' (fun part hpart hcomma => ?_) hne
  exact absurd ((h part hpart).2 _ hcomma) (by decide)

theorem splitArgs_intercalate : splitArgs ([','].intercalate parts) = parts := by
  rw [splitArgs, startsCall_intercalate fun part hpart => (h part hpart).2]
  exact splitOn_intercalate_plain hne h

theorem noEmptyPiece_intercalate : NoEmptyPiece ',' ([','].intercalate parts) := by
  rw [NoEmptyPiece, splitOn_intercalate_plain hne h]
  exact fun part hpart => (h part hpart).1

end Plain

/-- Eight characters that are taken for a checksum. -/
def IsChecksumText (checksum : List Char) : Prop :=
  checksum.length = Checksum.length ∧ checksum.all isChecksumChar

/-- What follows the body of a call. Only a complete descriptor has a checksum. -/
def Suffix (root : Bool) (checksum : Option (List Char)) (rest : List Char) : Prop :=
  match checksum with
  | none => rest = []
  | some checksum => root = true ∧ IsChecksumText checksum ∧ rest = '#' :: checksum

theorem Suffix.eq_nil {checksum : Option (List Char)} {rest : List Char}
    (h : Suffix false checksum rest) : rest = [] := by
  cases checksum with
  | none => exact h
  | some checksum => cases h.1

theorem Suffix.not_mem {root : Bool} {checksum : Option (List Char)} {rest : List Char}
    (h : Suffix root checksum rest) : ')' ∉ rest := by
  cases checksum with
  | none =>
    obtain rfl : rest = [] := h
    exact List.not_mem_nil
  | some checksum =>
    obtain ⟨-, ⟨-, hchars⟩, rfl⟩ := h
    intro hmem
    have hparen : ')' ∈ checksum := by simpa using hmem
    exact absurd (List.all_eq_true.mp hchars _ hparen) (by decide)

theorem splitChecksum_append (body : List Char) {checksum : List Char}
    (h : IsChecksumText checksum) :
    splitChecksum (body ++ '#' :: checksum) = (body, some checksum) := by
  have hlen : (body ++ '#' :: checksum).length - 9 = body.length := by
    rw [List.length_append, List.length_cons, h.1]
    exact Nat.add_sub_cancel body.length 9
  simp only [splitChecksum, hlen, List.drop_left, List.take_left]
  exact if_pos h

/-- The end of a call is not taken for a checksum. -/
theorem splitChecksum_of_getLast? {text : List Char} (h : text.getLast? = some ')') :
    splitChecksum text = (text, none) := by
  unfold splitChecksum
  split
  · rename_i checksum hdrop
    rw [if_neg]
    rintro ⟨hlen, hall⟩
    have hlast : checksum.getLast? = some ')' := by
      have hnil : checksum ≠ [] := by
        rintro rfl
        cases hlen
      have htext := List.take_append_drop (text.length - 9) text
      rw [hdrop, ← List.singleton_append, ← List.append_assoc] at htext
      rwa [← htext, List.getLast?_append_of_ne_nil _ hnil] at h
    have := List.all_eq_true.mp hall _ (List.mem_of_getLast? hlast)
    exact absurd this (by decide)
  · rfl

theorem suffix_of_splitChecksum {text body : List Char} {checksum : Option (List Char)}
    (h : splitChecksum text = (body, checksum)) :
    ∃ rest, text = body ++ rest ∧ Suffix true checksum rest := by
  unfold splitChecksum at h
  split at h
  · rename_i found hdrop
    split at h
    · rename_i hfound
      obtain ⟨rfl, rfl⟩ := Prod.mk.inj h
      refine ⟨'#' :: found, ?_, rfl, hfound, rfl⟩
      rw [← hdrop, List.take_append_drop]
    · obtain ⟨rfl, rfl⟩ := Prod.mk.inj h
      exact ⟨[], (List.append_nil _).symm, rfl⟩
  · obtain ⟨rfl, rfl⟩ := Prod.mk.inj h
    exact ⟨[], (List.append_nil _).symm, rfl⟩

theorem ofChars?_eq_some_iff {root : Bool} {text : List Char} {call : Call} :
    ofChars? root text = some call ↔ ∃ args rest, text = call.body ++ rest ∧
      Suffix root call.checksum rest ∧ call.body = callText call.type args ∧
        NoEmptyPiece ',' args ∧ call.args = splitArgs args := by
  constructor
  · intro h
    unfold ofChars? at h
    generalize hsplit : (if root then splitChecksum text else (text, none)) = parts at h
    obtain ⟨body, checksum⟩ := parts
    obtain ⟨⟨type, args⟩, hbody, h⟩ := Option.bind_eq_some_iff.mp h
    simp only [Option.ite_none_right_eq_some, Option.some.injEq] at h
    obtain ⟨hpieces, rfl⟩ := h
    have hnonempty : NoEmptyPiece ',' args := by
      intro piece hpiece
      exact of_decide_eq_true (List.all_eq_true.mp hpieces piece hpiece)
    have hbody := splitBody?_eq_some_iff.mp hbody
    cases root with
    | true =>
      obtain ⟨rest, htext, hrest⟩ := suffix_of_splitChecksum hsplit
      exact ⟨args, rest, htext, hrest, hbody, hnonempty, rfl⟩
    | false =>
      obtain ⟨rfl, rfl⟩ := Prod.mk.inj hsplit
      exact ⟨args, [], (List.append_nil _).symm, rfl, hbody, hnonempty, rfl⟩
  · rintro ⟨args, rest, rfl, hrest, hbody, hnonempty, hargs⟩
    have hsplit : (if root then splitChecksum (call.body ++ rest) else (call.body ++ rest, none)) =
        (call.body, call.checksum) := by
      cases hchecksum : call.checksum with
      | none =>
        rw [hchecksum] at hrest
        obtain rfl : rest = [] := hrest
        have hlast := getLast?_callText call.type args
        rw [List.append_nil, hbody, splitChecksum_of_getLast? hlast, ite_self]
      | some checksum =>
        rw [hchecksum] at hrest
        obtain ⟨hroot, hchars, rfl⟩ := hrest
        rw [if_pos hroot, splitChecksum_append _ hchars]
    have hpieces : (args.splitOn ',').all (· ≠ []) := by
      rw [List.all_eq_true]
      exact fun piece hpiece => decide_eq_true (hnonempty piece hpiece)
    simp only [ofChars?, hsplit, splitBody?_eq_some_iff.mpr hbody, Option.bind_eq_bind,
      Option.bind_some, if_pos hpieces, ← hargs]

/-- Inside another call nothing follows a call. -/
theorem eq_callText_of_ofChars? {text : List Char} {call : Call}
    (h : ofChars? false text = some call) : ∃ args, text = callText call.type args := by
  obtain ⟨args, rest, htext, hrest, hbody, -⟩ := ofChars?_eq_some_iff.mp h
  rw [hrest.eq_nil, List.append_nil, hbody] at htext
  exact ⟨args, htext⟩

end Call

end OutputDescriptor
