import ControlLanguage.Proofs.Text.AsciiCase
import ControlLanguage.Proofs.Text.Trim

/-!
# Letters

Words begin with letters, and there are letters beyond ASCII: the four characters that differ from
an ASCII letter in case only. So what holds of the ASCII characters and of these four holds of every
letter (`forall_letter`). Of the other characters the tables say what becomes of them
(`caseCounterpart_cases`).
-/

namespace ControlLanguage

open Text

/-- What the tables make of a character: the counterpart of a run, or that of an entry of its own,
or the character itself. -/
theorem caseCounterpart_cases (runs : List CaseRun) (sequences : List (Nat × List Nat)) (c : Char) :
    (∃ r ∈ runs, r.contains c.toNat = true ∧
        caseCounterpart runs sequences c = [r.counterpart c.toNat]) ∨
      (∃ codes, (c.toNat, codes) ∈ sequences ∧
        caseCounterpart runs sequences c = codes.map Char.ofNat) ∨
      caseCounterpart runs sequences c = [c] := by
  rcases hlookup : sequences.lookup c.toNat with _ | codes
  · rcases hfind : runs.find? (·.contains c.toNat) with _ | r
    · exact Or.inr (Or.inr (by rw [caseCounterpart, hlookup, hfind]))
    · exact Or.inl ⟨r, List.mem_of_find?_eq_some hfind,
        List.find?_some (p := fun r : CaseRun ↦ r.contains c.toNat) hfind,
        by rw [caseCounterpart, hlookup, hfind]⟩
  · obtain ⟨before, after, htable, -⟩ := List.lookup_eq_some_iff.1 hlookup
    exact Or.inr (Or.inl ⟨codes, by simp [htable], by rw [caseCounterpart, hlookup]⟩)

/-- What holds of the ASCII letters and of the four letters beyond them holds of a letter. -/
theorem forall_letter_of_isAlpha {P : Char → Prop} (h : ∀ c : Char, c.isAlpha = true → P c)
    (hi : P 'ı') (hs : P 'ſ') (hI : P 'İ') (hk : P '\u212a') {c : Char} (hc : isLetter c = true) :
    P c := by
  simp only [isLetter, Bool.or_eq_true, decide_eq_true_eq] at hc
  rcases hc with (((hc | rfl) | rfl) | rfl) | rfl
  · exact h c hc
  · exact hi
  · exact hs
  · exact hI
  · exact hk

/-- It is enough to look at all ASCII characters. -/
theorem forall_letter {P : Char → Prop} (h : ∀ n < 128, P (Char.ofNat n)) (hi : P 'ı')
    (hs : P 'ſ') (hI : P 'İ') (hk : P '\u212a') {c : Char} (hc : isLetter c = true) : P c :=
  forall_letter_of_isAlpha (fun _ h' ↦ forall_ascii h (toNat_of_isAlpha h')) hi hs hI hk hc

theorem isWhiteSpace_of_isLetter {c : Char} (hc : isLetter c = true) : isWhiteSpace c = false :=
  forall_letter_of_isAlpha (P := fun c ↦ isWhiteSpace c = false)
    (fun _ h ↦ isWhiteSpace_of_isAlpha h) (by decide) (by decide) (by decide) (by decide) hc

theorem isWhiteSpace_of_isLabelChar {c : Char} (hc : isLabelChar c = true) :
    isWhiteSpace c = false := by
  simp only [isLabelChar, isNameStart, Bool.or_eq_true, decide_eq_true_eq] at hc
  rcases hc with ((((hc | rfl) | rfl) | rfl) | hc) | rfl
  · exact isWhiteSpace_of_isLetter hc
  · decide
  · decide
  · decide
  · exact isWhiteSpace_of_isAlphanum (by rw [Char.isAlphanum, hc, Bool.or_true])
  · decide

end ControlLanguage
