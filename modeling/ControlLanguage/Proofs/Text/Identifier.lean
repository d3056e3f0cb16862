import Mathlib.Data.Bool.AllAny
import ControlLanguage.Proofs.Format.Piece
import ControlLanguage.Proofs.Text.UpperCase

/-!
# Words of identifier shape

A word is a letter followed by letters and digits, and perhaps by one line feed that is not part of
the word. **None of its characters means anything to the lexer**, so wherever a word stands behind a
blank it is read as a keyword. Neither does upper case bring in other characters: a word in upper
case has no asterisk and no underscore.
-/

namespace ControlLanguage

open Text Shape Token

theorem wordChar_spec {c : Char} (h : isWordChar c = true) :
    isWhiteSpace c = false ∧ isLabelChar c = true ∧ endsWord c = false ∧
      ∀ d ∈ upperChar c, d ≠ '_' ∧ d ≠ '*' := by
  have hascii : ∀ n < 128, isWordChar (Char.ofNat n) = true →
      isWhiteSpace (Char.ofNat n) = false ∧ isLabelChar (Char.ofNat n) = true ∧
        endsWord (Char.ofNat n) = false ∧
          (upperChar (Char.ofNat n)).all (fun d ↦ d ≠ '_' ∧ d ≠ '*') = true := by
    decide +kernel
  have hcases : isLetter c = true ∨ c.toNat < 128 := by
    simp only [isWordChar, Bool.or_eq_true] at h
    exact h.imp_right fun hd ↦ toNat_of_isAlphanum (by simp [Char.isAlphanum, hd])
  have hspec : isWhiteSpace c = false ∧ isLabelChar c = true ∧ endsWord c = false ∧
      (upperChar c).all (fun d ↦ d ≠ '_' ∧ d ≠ '*') = true := by
    rcases hcases with hc | hc
    · exact forall_letter (P := fun c ↦ isWordChar c = true → isWhiteSpace c = false ∧
        isLabelChar c = true ∧ endsWord c = false ∧
          (upperChar c).all (fun d ↦ d ≠ '_' ∧ d ≠ '*') = true) hascii
        (by decide +kernel) (by decide +kernel) (by decide +kernel) (by decide +kernel) hc h
    · exact forall_ascii (P := fun c ↦ isWordChar c = true → isWhiteSpace c = false ∧
        isLabelChar c = true ∧ endsWord c = false ∧
          (upperChar c).all (fun d ↦ d ≠ '_' ∧ d ≠ '*') = true) hascii hc h
  obtain ⟨hwhite, hlabel, hends, hupper⟩ := hspec
  exact ⟨hwhite, hlabel, hends, List.all_iff_forall_prop.1 hupper⟩

/-- Words and command names go on up to a blank or a parenthesis. -/
theorem Shape.run?_self {s : Shape} (hs : s = .word ∨ s = .name) {t : Text}
    (ht : ∀ d ∈ t, endsWord d = false) : s.run? t = some s := by
  induction t with
  | nil => rfl
  | cons d t ih =>
    have hd : s.extended d = some s := by
      rcases hs with rfl | rfl <;> simp [extended, ht d List.mem_cons_self]
    exact run?_cons.2 ⟨s, hd, ih fun e he ↦ ht e (List.mem_cons_of_mem d he)⟩

namespace Text

/-- A word, and perhaps a line feed behind it. -/
theorem exists_word {t : Text} (h : t.isIdentifier = true) :
    ∃ c u w, t = c :: u ++ w ∧ isLetter c = true ∧ (∀ d ∈ c :: u, isWordChar d = true) ∧
      (w = [] ∨ w = ['\n']) := by
  have hword : ∀ {v : Text}, v = t.dropFinalLineFeed →
      ∃ c u, v = c :: u ∧ isLetter c = true ∧ ∀ d ∈ c :: u, isWordChar d = true := by
    rintro (_ | ⟨c, u⟩) hv
    · rw [isIdentifier, ← hv] at h
      exact Bool.noConfusion h
    · rw [isIdentifier, ← hv, Bool.and_eq_true, List.all_eq_true] at h
      refine ⟨c, u, rfl, h.1, fun d hd ↦ ?_⟩
      rcases List.mem_cons.1 hd with rfl | hd
      · simp [isWordChar, h.1]
      · exact h.2 d hd
  by_cases hlast : t.getLast? = some '\n'
  · obtain ⟨v, rfl⟩ := List.getLast?_eq_some_iff.1 hlast
    obtain ⟨c, u, rfl, hc, hu⟩ := hword (v := v) (by simp [dropFinalLineFeed])
    exact ⟨c, u, ['\n'], rfl, hc, hu, Or.inr rfl⟩
  · obtain ⟨c, u, rfl, hc, hu⟩ := hword (v := t) (by rw [dropFinalLineFeed, if_neg hlast])
    exact ⟨c, u, [], (List.append_nil _).symm, hc, hu, Or.inl rfl⟩

/-- A letter with letters and digits behind it is a word. -/
theorem isIdentifier_of_isWordChar {c : Char} {u : Text} (hc : isLetter c = true)
    (hu : ∀ d ∈ c :: u, isWordChar d = true) : isIdentifier (c :: u) = true := by
  have hlast : (c :: u).getLast? ≠ some '\n' := fun h ↦
    absurd (hu _ (List.mem_of_getLast? h)) (by decide)
  rw [isIdentifier, dropFinalLineFeed, if_neg hlast]
  simpa [hc] using fun d hd ↦ hu d (List.mem_cons_of_mem c hd)

section Identifier

variable {t : Text} (h : t.isIdentifier = true)

include h

theorem endsWord_of_mem_isIdentifier : ∀ d ∈ t, endsWord d = false := by
  obtain ⟨c, u, w, rfl, -, hu, hw⟩ := exists_word h
  intro d hd
  rcases List.mem_append.1 hd with hd | hd
  · exact (wordChar_spec (hu d hd)).2.2.1
  · rcases hw with rfl | rfl
    · cases hd
    · rw [List.mem_singleton.1 hd]
      decide

/-- Behind a blank a word is a keyword. -/
theorem follows_of_isIdentifier : Follows .blank (ofKeyword t) .word := by
  have hends := endsWord_of_mem_isIdentifier h
  obtain ⟨c, u, w, rfl, hc, -, -⟩ := exists_word h
  have hcends := hends c (by simp)
  have hblank : isBlank c = false := by
    simp only [endsWord, Bool.or_eq_false_iff] at hcends
    exact hcends.1.1
  have hbegun : begun true c = .word :=
    forall_letter (P := fun c ↦ isLetter c = true → begun true c = .word) (by decide +kernel)
      (by decide +kernel) (by decide +kernel) (by decide +kernel) (by decide +kernel) hc hc
  refine ⟨c, u ++ w, rfl, by simp [extended, hblank], ?_, ?_, fun h ↦ Shape.noConfusion h⟩
  · rw [hbegun]
    exact run?_self (Or.inl rfl) fun d hd ↦ hends d (List.mem_cons_of_mem c hd)
  · show TokenKind.keyword = Shape.kind .word _
    rw [Shape.kind, if_pos (show isIdentifier (ofKeyword (c :: u ++ w)).text = true from h)]

/-- Trimmed, a word is letters and digits only. -/
theorem trim_of_isIdentifier :
    ∃ c u, t.trim = c :: u ∧ isLetter c = true ∧ ∀ d ∈ c :: u, isWordChar d = true := by
  obtain ⟨c, u, w, rfl, hc, hu, hw⟩ := exists_word h
  have hwhite : IsWhite w := by
    rcases hw with rfl | rfl
    · exact isWhite_nil
    · intro d hd
      rw [List.mem_singleton.1 hd]
      decide
  have hbegins : BeginsInk (c :: u) :=
    ⟨c, u, rfl, (wordChar_spec (hu c List.mem_cons_self)).1⟩
  have hends : EndsInk (c :: u) := by
    obtain ⟨v, d, hd⟩ := (List.eq_nil_or_concat' (c :: u)).resolve_left (List.cons_ne_nil c u)
    exact ⟨v, d, hd, (wordChar_spec (hu d (by simp [hd]))).1⟩
  refine ⟨c, u, ?_, hc, hu⟩
  rw [trim, trimStart_of_beginsInk (hbegins.append w), trimEnd_append_of_isWhite _ hwhite,
    trimEnd_of_endsInk hends]

theorem not_mem_upper_of_isIdentifier : '_' ∉ t.upper := by
  obtain ⟨c, u, w, rfl, -, hu, hw⟩ := exists_word h
  rw [upper_append, List.mem_append, not_or]
  constructor
  · intro hmem
    obtain ⟨d, hd, hunderscore⟩ := List.mem_flatMap.1 hmem
    exact ((wordChar_spec (hu d hd)).2.2.2 '_' hunderscore).1 rfl
  · rcases hw with rfl | rfl
    · exact List.not_mem_nil
    · decide

end Identifier

end Text

end ControlLanguage
