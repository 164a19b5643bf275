import OutputDescriptor.Proofs.Script.Composition

/-!
A checksum after a descriptor is an annotation: it is checked, and changes nothing else in what is
read.
-/
namespace OutputDescriptor

open ScriptExpr

/-- The last occurrence of a character settles where a text is split behind it. -/
theorem append_inj_of_getLast? {c : Char} {a b a' b' : List Char} (ha : a.getLast? = some c)
    (hb : c ∉ b) (ha' : a'.getLast? = some c) (hb' : c ∉ b') (h : a ++ b = a' ++ b') :
    a = a' ∧ b = b' := by
  -- Between the two places there is nothing, or else the character would occur there once more.
  have hmid {front mid rest : List Char} (hlast : (front ++ mid).getLast? = some c)
      (hmem : c ∉ mid ++ rest) : mid = [] := by
    by_contra hne
    rw [List.getLast?_append_of_ne_nil front hne] at hlast
    exact hmem (List.mem_append_left rest (List.mem_of_getLast? hlast))
  rcases List.append_eq_append_iff.mp h with ⟨mid, rfl, rfl⟩ | ⟨mid, rfl, rfl⟩
  · obtain rfl := hmid ha' hb
    simp
  · obtain rfl := hmid ha hb'
    simp

theorem toList_append_checksum (front checksum : String) :
    (front ++ "#" ++ checksum).toList = front.toList ++ '#' :: checksum.toList := by
  simp

namespace Call

section Append

variable {root : Bool} {call : Call} {body rest : List Char} (hbody : body.getLast? = some ')')
include hbody

theorem suffix_of_ofChars? (hrest : ')' ∉ rest) (h : ofChars? root (body ++ rest) = some call) :
    Suffix root call.checksum rest := by
  obtain ⟨args, found, htext, hfound, hcall, -⟩ := ofChars?_eq_some_iff.mp h
  have hlast : call.body.getLast? = some ')' := by
    rw [hcall]
    exact getLast?_callText call.type args
  obtain ⟨-, rfl⟩ := append_inj_of_getLast? hbody hrest hlast hfound.not_mem htext
  exact hfound

/-- What follows a call is nothing or a checksum. -/
theorem ofChars?_append_eq_none (hrest : ')' ∉ rest) (hne : rest ≠ [])
    (hchecksum : ∀ checksum, rest = '#' :: checksum → ¬(root ∧ IsChecksumText checksum)) :
    ofChars? root (body ++ rest) = none := by
  cases h : ofChars? root (body ++ rest) with
  | none => rfl
  | some call =>
    have hsuffix := suffix_of_ofChars? hbody hrest h
    cases hcall : call.checksum with
    | none =>
      rw [hcall] at hsuffix
      exact absurd hsuffix hne
    | some checksum =>
      rw [hcall] at hsuffix
      obtain ⟨hroot, hfound, heq⟩ := hsuffix
      exact absurd ⟨hroot, hfound⟩ (hchecksum checksum heq)

end Append

theorem ofChars?_checksum_eq_none (front : List Char) {checksum : List Char}
    (h : IsChecksumText checksum) : ofChars? false (front ++ '#' :: checksum) = none := by
  cases hcall : ofChars? false (front ++ '#' :: checksum) with
  | none => rfl
  | some call =>
    obtain ⟨args, htext⟩ := eq_callText_of_ofChars? hcall
    have hlast := getLast?_callText call.type args
    rw [← htext, List.getLast?_append_of_ne_nil front (List.cons_ne_nil _ _)] at hlast
    have hsuffix : Suffix true (some checksum) ('#' :: checksum) := ⟨rfl, h, rfl⟩
    exact absurd (List.mem_of_getLast? hlast) hsuffix.not_mem

end Call

namespace ScriptExpr

/-- The same expression with another label at its root. -/
def relabel (label : Label) : ScriptExpr → ScriptExpr
  | .wrapped _ wrapper inner => .wrapped label wrapper inner
  | .keyed _ form key => .keyed label form key
  | .multisig _ sorted threshold keys => .multisig label sorted threshold keys
  | .addr _ address => .addr label address
  | .raw _ hex => .raw label hex

/-- The same expression as it is read from a text with the given checksum behind it. -/
def annotate (checksum : String) (e : ScriptExpr) : ScriptExpr :=
  e.relabel ⟨e.network, e.text ++ "#" ++ checksum, some checksum⟩

section Relabel

variable (label : Label) (e : ScriptExpr)

@[simp] theorem label_relabel : (e.relabel label).label = label := by
  cases e <;> rfl

@[simp] theorem type_relabel : (e.relabel label).type = e.type := by
  cases e <;> rfl

@[simp] theorem children_relabel : (e.relabel label).children = e.children := by
  cases e <;> rfl

@[simp] theorem nested_relabel : (e.relabel label).nested = e.nested := by
  cases e <;> rfl

theorem shaped_relabel : (e.relabel label).Shaped ↔ e.Shaped := by
  cases e <;> rfl

end Relabel

section Suffix

variable {ctx : Context} {network : Network} {body : String} {call : Call} {e : ScriptExpr}
  (h : Reads ctx network none body call e) (hchecksum : e.checksum = none)
include h hchecksum

theorem Reads.body_eq_toList : call.body = body.toList := by
  rcases h.text_eq with ⟨htext, -⟩ | ⟨-, hsome, -⟩
  · rw [htext, String.toList_ofList]
  · rw [hchecksum] at hsome
    cases hsome

theorem Reads.getLast?_eq : body.toList.getLast? = some ')' := by
  obtain ⟨args, rest, -, -, hcall, -⟩ := Call.ofChars?_eq_some_iff.mp h.shape
  rw [← h.body_eq_toList hchecksum, hcall]
  exact getLast?_callText call.type args

theorem Reads.isWellFormed_compute : Checksum.isWellFormed (Checksum.compute body) := by
  have hderives := h.derives
  rw [h.body_eq_toList hchecksum, String.ofList_toList] at hderives
  apply Checksum.isWellFormed_compute
  intro c hc
  exact Grammar.isPrintable_of_isBodyChar (hderives.isBodyChar c hc)

/-- With a checksum behind it the body is read as before, once the checksum has been verified. -/
theorem Reads.parse_append {found : String} (hfound : Call.IsChecksumText found.toList) :
    parse ctx network none (body ++ "#" ++ found) =
      readCall ctx network (body ++ "#" ++ found) { call with checksum := some found.toList } := by
  have htext := toList_append_checksum body found
  have hsuffix : Call.Suffix true (some found.toList) ('#' :: found.toList) := ⟨rfl, hfound, rfl⟩
  have hshape : Call.ofChars? (none : Option ScriptType).isNone (body ++ "#" ++ found).toList =
      some { call with checksum := some found.toList } := by
    obtain ⟨args, rest, -, -, hcall⟩ := Call.ofChars?_eq_some_iff.mp h.shape
    rw [Call.ofChars?_eq_some_iff, htext]
    refine ⟨args, '#' :: found.toList, ?_, hsuffix, hcall⟩
    rw [h.body_eq_toList hchecksum]
  have hascii : (body ++ "#" ++ found).toList.all (·.toNat < 128) = true := by
    have hall : ∀ c ∈ (body ++ "#" ++ found).toList, c.toNat < 128 := by
      rw [htext, List.forall_mem_append]
      exact ⟨h.ascii, lt_of_mem_suffix hsuffix⟩
    rw [List.all_eq_true]
    exact fun c hc => decide_eq_true (hall c hc)
  have hallowed : call.type.allowedIn none = true := h.allowed
  -- The call is that of the body alone except for its checksum, so it may stand where that may.
  rw [parse_of_ofChars? hshape]
  simp only [hascii, hallowed, if_true]

theorem Reads.parse_append_of_ne {found : String} (hfound : Call.IsChecksumText found.toList)
    (hne : found ≠ Checksum.compute body) :
    parse ctx network none (body ++ "#" ++ found) =
      .error (.checksumMismatch found (Checksum.compute body)) := by
  have hverify : Call.verify { call with checksum := some found.toList } =
      .error (.checksumMismatch found (Checksum.compute body)) := by
    simp [Call.verify, h.body_eq_toList hchecksum, hne.symm]
  rw [h.parse_append hchecksum hfound, readCall, hverify]
  rfl

theorem Reads.parse_append_compute :
    parse ctx network none (body ++ "#" ++ Checksum.compute body) =
      .ok (e.annotate (Checksum.compute body)) := by
  have hwellFormed := h.isWellFormed_compute hchecksum
  have hverify : Call.verify { call with checksum := some (Checksum.compute body).toList } =
      .ok () := by
    simp [Call.verify, h.body_eq_toList hchecksum]
  have hnetwork : e.network = network := congrArg Label.network h.label
  have hbuilt : ofChildren ⟨network, body ++ "#" ++ Checksum.compute body,
      some (Checksum.compute body)⟩ call.type e.children =
        .ok (e.annotate (Checksum.compute body)) := by
    obtain ⟨-, hchildren, -, htype, -, hshaped⟩ := ofChildren_eq_ok_iff.mp h.built
    have hlabel : (e.annotate (Checksum.compute body)).label =
        ⟨network, body ++ "#" ++ Checksum.compute body, some (Checksum.compute body)⟩ := by
      rw [annotate, label_relabel, hnetwork, ScriptExpr.text, h.label]
    rw [ofChildren_eq_ok_iff]
    refine ⟨?_, hchildren, hlabel, ?_, ?_, ?_⟩
    · intro found hfound
      rw [← Option.some.inj hfound]
      exact hwellFormed
    · rw [annotate, type_relabel, htype]
    · rw [annotate, children_relabel]
    · exact (shaped_relabel _ e).mpr hshaped
  rw [h.parse_append hchecksum (isChecksumText_of_isWellFormed hwellFormed), readCall, hverify]
  have harity : Call.checkArity { call with checksum := some (Checksum.compute body).toList } =
      .ok () := h.arity
  simp only [harity, h.children, Except.ok_bind, Option.map_some, String.ofList_toList]
  exact hbuilt

/-- Any other text after the body, unless it closes a parenthesis, leaves no call. -/
theorem Reads.parse_append_of_not_checksum {found : String}
    (hfound : ¬Call.IsChecksumText found.toList) (hparen : ')' ∉ found.toList) :
    ∃ fault, parse ctx network none (body ++ "#" ++ found) =
      .error (.grammar (body ++ "#" ++ found) fault) := by
  apply parse_of_ofChars?_eq_none
  rw [toList_append_checksum]
  refine Call.ofChars?_append_eq_none (h.getLast?_eq hchecksum) ?_ (List.cons_ne_nil _ _) ?_
  · rw [List.mem_cons, not_or]
    exact ⟨by decide, hparen⟩
  · rintro checksum hcons ⟨-, hchars⟩
    rw [← (List.cons.inj hcons).2] at hchars
    exact hfound hchars

end Suffix

/-- A checksum is verified and kept beside what the body is read as. Inside a call there is none. -/
theorem parse_checksum (ctx : Context) (network : Network) :
    (∀ (body : String) (e : ScriptExpr), parse ctx network none body = .ok e →
      e.checksum = none →
        Checksum.isWellFormed (Checksum.compute body) ∧
        parse ctx network none (body ++ "#" ++ Checksum.compute body) =
          .ok (e.annotate (Checksum.compute body)) ∧
        (e.annotate (Checksum.compute body)).nested = e.nested ∧
        (∀ inner ∈ e.nested, inner.checksum = none) ∧
        (∀ found : String, Call.IsChecksumText found.toList → found ≠ Checksum.compute body →
          parse ctx network none (body ++ "#" ++ found) =
            .error (.checksumMismatch found (Checksum.compute body))) ∧
        ∀ found : String, ¬Call.IsChecksumText found.toList → ')' ∉ found.toList →
          ∃ fault, parse ctx network none (body ++ "#" ++ found) =
            .error (.grammar (body ++ "#" ++ found) fault)) ∧
      ∀ (outer : ScriptType) (front found : String), Call.IsChecksumText found.toList →
        ∃ fault, parse ctx network (some outer) (front ++ "#" ++ found) =
          .error (.grammar (front ++ "#" ++ found) fault) := by
  constructor
  · intro body e h hchecksum
    obtain ⟨call, hreads⟩ := parse_eq_ok_iff.mp h
    refine ⟨hreads.isWellFormed_compute hchecksum, hreads.parse_append_compute hchecksum,
      nested_relabel _ e, fun inner hinner => ?_, fun found => hreads.parse_append_of_ne hchecksum,
      fun found => hreads.parse_append_of_not_checksum hchecksum⟩
    obtain ⟨w, hinner⟩ := parse_nested h inner hinner
    exact (parse_alone hinner).1
  · intro outer front found hfound
    apply parse_of_ofChars?_eq_none
    rw [toList_append_checksum]
    exact Call.ofChars?_checksum_eq_none front.toList hfound

theorem parse_checksum_raw :
    parse {} .bitcoin none ("raw(00)" ++ "#" ++ "qwfjgwf6") =
        .ok (.raw ⟨.bitcoin, "raw(00)#qwfjgwf6", some "qwfjgwf6"⟩
          ⟨.bitcoin, "00", [0], by decide⟩) ∧
      parse {} .bitcoin none ("raw(00)" ++ "#" ++ "qwfjgwf7") =
        .error (.checksumMismatch "qwfjgwf7" "qwfjgwf6") ∧
      (∃ fault, parse {} .bitcoin none ("raw(00)" ++ "#" ++ "short") =
        .error (.grammar ("raw(00)" ++ "#" ++ "short") fault)) ∧
      ∃ fault, parse {} .bitcoin (some (.wrapper .sh)) ("raw(00)" ++ "#" ++ "qwfjgwf6") =
        .error (.grammar ("raw(00)" ++ "#" ++ "qwfjgwf6") fault) := by
  have hparse : parse {} .bitcoin none "raw(00)" =
      .ok (.raw ⟨.bitcoin, "raw(00)", none⟩ ⟨.bitcoin, "00", [0], by decide⟩) := by
    decide +kernel
  have hcompute : Checksum.compute "raw(00)" = "qwfjgwf6" := by decide +kernel
  have hchecksum : Call.IsChecksumText "qwfjgwf6".toList := ⟨by decide, by decide⟩
  have hother : Call.IsChecksumText "qwfjgwf7".toList := ⟨by decide, by decide⟩
  have hshort : ¬Call.IsChecksumText "short".toList := fun h => absurd h.1 (by decide)
  obtain ⟨hroot, hnested⟩ := parse_checksum {} .bitcoin
  obtain ⟨-, hread, -, -, hmismatch, hgrammar⟩ := hroot _ _ hparse rfl
  rw [hcompute] at hread hmismatch
  exact ⟨hread, hmismatch "qwfjgwf7" hother (by decide), hgrammar "short" hshort (by decide),
    hnested (.wrapper .sh) "raw(00)" "qwfjgwf6" hchecksum⟩

end ScriptExpr

end OutputDescriptor
