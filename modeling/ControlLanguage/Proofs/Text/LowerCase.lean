import ControlLanguage.Proofs.Text.UpperCase

/-!
# Lower case keeps ink

Command names may be any text, and they are written in the case of the layout. **Neither case makes
white space of ink or lets ink disappear**, so a text that ends in ink still does.

Beyond ASCII this is a property of the tables, like that of the capitals: the small letters of a
run are a progression of code points, and none of them meets a range of white space. About the
letters of words more is known. In either case they are still read as a word, although not always
as one of identifier shape: the small form of `İ` has a combining dot.
-/

namespace ControlLanguage

open Text

/-- No counterpart in the table is white space, by evaluation of the table. -/
theorem misses_lowerRuns :
    lowerRuns.all (fun r ↦ decide (0 ≤ (r.first : Int) + r.shift) &&
      whiteSpaceRanges.all fun w ↦ (Progression.capitals r).misses ⟨w.first, w.last, 1⟩) =
        true := by
  decide +kernel

theorem isWhiteSpace_lowerSequences :
    lowerSequences.all (fun e ↦ !e.2.isEmpty && e.2.all fun n ↦ !isWhiteSpace (Char.ofNat n)) =
      true := by
  decide +kernel

/-- So the lower case of a character in a run is ink. -/
theorem isWhiteSpace_counterpart {r : CaseRun} (hr : r ∈ lowerRuns) {n : Nat}
    (hn : r.contains n = true) : isWhiteSpace (r.counterpart n) = false := by
  by_contra hwhite
  rw [Bool.not_eq_false] at hwhite
  obtain ⟨hshift, hmisses⟩ :=
    Bool.and_eq_true_iff.1 (List.all_eq_true.1 misses_lowerRuns r hr)
  have hto : (r.counterpart n).toNat = ((n : Int) + r.shift).toNat := by
    refine Progression.toNat_ofNat_of_ne fun hnull ↦ ?_
    rw [CaseRun.counterpart, hnull] at hwhite
    exact absurd hwhite (by decide)
  have hcapital := Progression.has_counterpart (of_decide_eq_true hshift) hn
  rw [← hto] at hcapital
  obtain ⟨w, hw, hcontains⟩ := List.any_eq_true.1 hwhite
  rw [Progression.not_contains_of_misses (List.all_eq_true.1 hmisses w hw) hcapital] at hcontains
  exact Bool.noConfusion hcontains

/-- **The small form of ink is ink.** -/
theorem lowerChar_spec {c : Char} (hc : isWhiteSpace c = false) :
    lowerChar c ≠ [] ∧ ∀ d ∈ lowerChar c, isWhiteSpace d = false := by
  by_cases hascii : c.toNat < 128
  · have hsmall : isWhiteSpace c = false → isWhiteSpace c.toLower = false :=
      forall_ascii (P := fun c ↦ isWhiteSpace c = false → isWhiteSpace c.toLower = false)
        (by decide +kernel) hascii
    rw [lowerChar, if_pos hascii]
    exact ⟨List.cons_ne_nil _ [], List.forall_mem_singleton.2 (hsmall hc)⟩
  rw [lowerChar, if_neg hascii]
  rcases caseCounterpart_cases lowerRuns lowerSequences c with ⟨r, hr, hcontains, h⟩ |
    ⟨codes, hmem, h⟩ | h
  · rw [h]
    exact ⟨List.cons_ne_nil _ [],
      List.forall_mem_singleton.2 (isWhiteSpace_counterpart hr hcontains)⟩
  · have hcodes := List.all_eq_true.1 isWhiteSpace_lowerSequences _ hmem
    simp only [Bool.and_eq_true, Bool.not_eq_true', List.isEmpty_eq_false_iff,
      List.all_eq_true] at hcodes
    rw [h]
    refine ⟨fun hnil ↦ hcodes.1 (List.map_eq_nil_iff.1 hnil), fun d hd ↦ ?_⟩
    obtain ⟨n, hn, rfl⟩ := List.mem_map.1 hd
    exact hcodes.2 n hn
  · rw [h]
    exact ⟨List.cons_ne_nil c [], List.forall_mem_singleton.2 hc⟩

namespace Text

/-- What is written for a character of a text in lower case, between the texts around it. -/
def lowerAt (before : Text) (c : Char) (after : Text) : Text :=
  if c = 'Σ' then [if reachesCased before && !reachesCased after then 'ς' else 'σ']
  else lowerChar c

theorem lowerAfter_cons (before : Text) (c : Char) (after : Text) :
    lowerAfter before (c :: after) = lowerAt before c after ++ lowerAfter (c :: before) after :=
  rfl

/-- **Ink stays ink in lower case**, and it does not vanish. -/
theorem lowerAt_spec (before : Text) {c : Char} (after : Text) (hc : isWhiteSpace c = false) :
    lowerAt before c after ≠ [] ∧ ∀ d ∈ lowerAt before c after, isWhiteSpace d = false := by
  rw [lowerAt]
  split_ifs
  · exact ⟨List.cons_ne_nil _ [], List.forall_mem_singleton.2 (by decide)⟩
  · exact ⟨List.cons_ne_nil _ [], List.forall_mem_singleton.2 (by decide)⟩
  · exact lowerChar_spec hc

/-- A text that ends with ink does so in lower case. -/
theorem endsInk_lowerAfter {c : Char} (hc : isWhiteSpace c = false) (before t : Text) :
    EndsInk (lowerAfter before (t ++ [c])) := by
  induction t generalizing before with
  | nil =>
    have hspec := lowerAt_spec before [] hc
    obtain ⟨u, d, hd⟩ := (List.eq_nil_or_concat' _).resolve_left hspec.1
    refine ⟨u, d, ?_, hspec.2 d (by simp [hd])⟩
    rw [← hd]
    exact List.append_nil _
  | cons d t ih =>
    rw [List.cons_append, lowerAfter_cons]
    exact (ih (d :: before)).append _

end Text

/-- A text that begins with ink does so in either case. -/
theorem KeywordCase.beginsInk_apply (k : KeywordCase) {t : Text} (h : BeginsInk t) :
    BeginsInk (k.apply t) := by
  cases k with
  | upper => exact h.upper
  | lower =>
    obtain ⟨c, u, rfl, hc⟩ := h
    have hspec := lowerAt_spec [] u hc
    obtain ⟨d, v, hd⟩ := List.exists_cons_of_ne_nil hspec.1
    refine ⟨d, v ++ lowerAfter [c] u, ?_, hspec.2 d (by simp [hd])⟩
    rw [← List.cons_append, ← hd]
    rfl

/-- **A text that ends in ink does so in either case.** -/
theorem KeywordCase.endsInk_apply (k : KeywordCase) {t : Text} (h : EndsInk t) :
    EndsInk (k.apply t) := by
  cases k with
  | upper => exact h.upper
  | lower =>
    obtain ⟨u, c, rfl, hc⟩ := h
    exact endsInk_lowerAfter hc [] u

/-! ### Words -/

namespace KeywordCase

/-- The case of one character outside of any word. -/
def chars : KeywordCase → Char → Text
  | upper => upperChar
  | lower => lowerChar

/-- Without a sigma the case is changed character by character. -/
theorem apply_eq_flatMap (k : KeywordCase) {t : Text} (ht : 'Σ' ∉ t) :
    k.apply t = t.flatMap k.chars := by
  cases k with
  | upper => rfl
  | lower =>
    have hafter : ∀ before, lowerAfter before t = t.flatMap lowerChar := by
      induction t with
      | nil => exact fun _ ↦ rfl
      | cons c t ih =>
        intro before
        obtain ⟨hc, ht⟩ := not_or.1 (mt List.mem_cons.2 ht)
        rw [lowerAfter_cons, lowerAt, if_neg (Ne.symm hc), ih ht, List.flatMap_cons]
    exact hafter []

/-- Whether the character is seen to stay part of a word in a case, and to begin one if it is a
letter. -/
def staysWord (k : KeywordCase) (c : Char) : Bool :=
  (k.chars c).all (fun d ↦ !isWhiteSpace d && !Shape.endsWord d) &&
    (!isLetter c || (k.chars c).head?.any (Shape.begun true · = .word))

/-- What the lexer sees of a letter or digit in a case: characters of words only, and a character
that begins a word first if it is a letter. -/
theorem chars_spec (k : KeywordCase) {c : Char} (hc : isWordChar c = true) :
    (∀ d ∈ k.chars c, isWhiteSpace d = false ∧ Shape.endsWord d = false) ∧
      (isLetter c = true → ∃ d u, k.chars c = d :: u ∧ Shape.begun true d = .word) := by
  have hascii :
      ∀ n < 128, isWordChar (Char.ofNat n) = true → k.staysWord (Char.ofNat n) = true := by
    cases k <;> decide +kernel
  -- beyond ASCII four characters pass for letters
  have hletters : ∀ c ∈ ['ı', 'ſ', 'İ', '\u212a'], k.staysWord c = true :=
    List.all_eq_true.1 (by cases k <;> decide +kernel)
  have hseen : k.staysWord c = true := by
    rcases Bool.or_eq_true_iff.1 hc with h | h
    · exact forall_letter (P := fun c ↦ isWordChar c = true → k.staysWord c = true) hascii
        (fun _ ↦ hletters _ (by simp)) (fun _ ↦ hletters _ (by simp)) (fun _ ↦ hletters _ (by simp))
        (fun _ ↦ hletters _ (by simp)) h hc
    · have halphanum : c.isAlphanum = true := by rw [Char.isAlphanum, h, Bool.or_true]
      exact forall_ascii (P := fun c ↦ isWordChar c = true → k.staysWord c = true) hascii
        (toNat_of_isAlphanum halphanum) hc
  simp only [staysWord, Bool.and_eq_true, List.all_eq_true, Bool.not_eq_true', Bool.or_eq_true]
    at hseen
  refine ⟨hseen.1, fun hletter ↦ ?_⟩
  rw [hletter] at hseen
  rcases hchars : k.chars c with _ | ⟨d, u⟩
  · simp [hchars] at hseen
  · exact ⟨d, u, rfl, by simpa [hchars] using hseen.2⟩

end KeywordCase

end ControlLanguage
