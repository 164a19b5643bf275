import OutputDescriptor.Proofs.Checksum.Edit
import OutputDescriptor.Proofs.Script.Acceptance

/-! A descriptor with its checksum is refused after any edit within four characters. -/
namespace OutputDescriptor

open ScriptExpr

variable {ctx : Context} {network : Network} {e : ScriptExpr}

/-- An accepted text with a number sign is a printable text and its checksum. -/
theorem eq_compute_of_parse {text checksum : String}
    (h : parse ctx network none (text ++ "#" ++ checksum) = .ok e) :
    (∀ c ∈ text.toList, Checksum.isPrintable c) ∧ checksum = Checksum.compute text := by
  obtain ⟨body, hderives, hbody⟩ := derives_of_parse h
  have hprintable : ∀ c ∈ body.toList, Checksum.isPrintable c := fun c hc =>
    Grammar.isPrintable_of_isBodyChar (hderives.isBodyChar c hc)
  have hhash : '#' ∉ body.toList := fun hmem => absurd (hderives.isBodyChar _ hmem) (by decide)
  rcases hbody with ⟨rfl, -⟩ | ⟨-, -, heq⟩
  · exact absurd (by simp) hhash
  · have hchecksum : '#' ∉ (Checksum.compute body).toList := by
      intro hmem
      have hwellFormed := Checksum.isWellFormed_iff.mp (Checksum.isWellFormed_compute hprintable)
      exact absurd (hwellFormed.2 _ hmem) (by decide)
    have hlist := congrArg String.toList heq
    simp only [String.toList_append, List.append_assoc] at hlist
    obtain ⟨htext, -, hrest⟩ := (List.append_cons_inj_of_notMem hhash hchecksum).mp hlist.symm
    obtain rfl := String.toList_inj.mp htext
    exact ⟨hprintable, String.toList_inj.mp hrest.symm⟩

/-- Edits within four characters change the checksum of a text, so that a descriptor with its old
checksum is refused after one. -/
theorem edit_detected :
    (∀ a b : String, (∀ c ∈ a.toList, Checksum.isPrintable c) →
      (∀ c ∈ b.toList, Checksum.isPrintable c) → Checksum.DifferWithin 4 a.toList b.toList →
        a ≠ b → Checksum.compute a ≠ Checksum.compute b) ∧
      ∀ (ctx : Context) (network : Network) (text checksum edited : String) (e : ScriptExpr),
        parse ctx network none (text ++ "#" ++ checksum) = .ok e →
          Checksum.DifferWithin 4 text.toList edited.toList → text ≠ edited →
            ∃ error, parse ctx network none (edited ++ "#" ++ checksum) = .error error := by
  constructor
  · intro a b ha _ hdiff hne
    exact Checksum.compute_ne_of_differWithin ha hdiff hne
  · intro ctx network text checksum edited e h hdiff hne
    obtain ⟨hprintable, rfl⟩ := eq_compute_of_parse h
    cases hedited : parse ctx network none (edited ++ "#" ++ Checksum.compute text) with
    | error error => exact ⟨error, rfl⟩
    | ok e' =>
      obtain ⟨-, hchecksum⟩ := eq_compute_of_parse hedited
      exact absurd hchecksum (Checksum.compute_ne_of_differWithin hprintable hdiff hne)

theorem edit_detected_raw :
    Checksum.compute "raw(00)" ≠ Checksum.compute "raw(01)" ∧
      ∃ error, parse {} .bitcoin none ("raw(01)" ++ "#" ++ "qwfjgwf6") = .error error := by
  have hdiff : Checksum.DifferWithin 4 "raw(00)".toList "raw(01)".toList :=
    Checksum.differWithin_iff.mpr ⟨"raw(0".toList, ['0'], ['1'], [')'], by decide⟩
  have hparse : parse {} .bitcoin none ("raw(00)" ++ "#" ++ "qwfjgwf6") =
      .ok (.raw ⟨.bitcoin, "raw(00)#qwfjgwf6", some "qwfjgwf6"⟩
        ⟨.bitcoin, "00", [0], by decide⟩) := by
    decide +kernel
  have hprintable : ∀ c ∈ "raw(00)".toList, Checksum.isPrintable c :=
    List.all_eq_true.mp (by decide)
  have hprintable' : ∀ c ∈ "raw(01)".toList, Checksum.isPrintable c :=
    List.all_eq_true.mp (by decide)
  exact ⟨edit_detected.1 _ _ hprintable hprintable' hdiff (by decide),
    edit_detected.2 _ _ _ _ _ _ hparse hdiff (by decide)⟩

end OutputDescriptor
