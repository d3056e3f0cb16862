import ControlLanguage.Layout.Basic
import ControlLanguage.Proofs.Token.Lexing
import ControlLanguage.Statement.Label

/-!
# The case of ASCII words

Labels, command names and keywords are written in the case of the layout. For ASCII words **the
change of case is a map on characters that no reader of the library can see**: it keeps letters
letters, and it leaves every other character alone. So such a word is read as before, and writing
it twice changes nothing.

That only letters are changed holds by inspection of the 128 characters; the rest follows, since the
lexer does not tell one letter from another.
-/

namespace ControlLanguage

namespace Text

/-- Every character is one of the first 128. -/
def IsAscii (t : Text) : Prop :=
  ∀ c ∈ t, c.toNat < 128

instance (t : Text) : Decidable t.IsAscii :=
  List.decidableBAll (fun c : Char ↦ c.toNat < 128) t

theorem isAscii_cons {c : Char} {t : Text} : IsAscii (c :: t) ↔ c.toNat < 128 ∧ IsAscii t := by
  simp [IsAscii]

end Text

open Text

/-- What holds of the first 128 characters, one by one, holds of an ASCII character. -/
theorem forall_ascii {P : Char → Prop} (h : ∀ n < 128, P (Char.ofNat n)) {c : Char}
    (hc : c.toNat < 128) : P c := by
  rw [← Char.ofNat_toNat c]
  exact h c.toNat hc

/-! ### Letters -/

/-- Letters and digits in the narrow sense are ASCII characters. -/
theorem toNat_of_isAlphanum {c : Char} (h : c.isAlphanum = true) : c.toNat < 128 := by
  change (decide (c.val ≥ 'A'.val ∧ c.val ≤ 'Z'.val) ||
    (decide (c.val ≥ 'a'.val) && decide (c.val ≤ 'z'.val)) ||
    (decide (c.val ≥ '0'.val) && decide (c.val ≤ '9'.val))) = true at h
  simp only [Bool.or_eq_true, Bool.and_eq_true, decide_eq_true_eq, ge_iff_le,
    UInt32.le_iff_toNat_le] at h
  show c.val.toNat < 128
  have hupper : ('Z'.val).toNat < 128 := by decide
  have hlower : ('z'.val).toNat < 128 := by decide
  have hdigit : ('9'.val).toNat < 128 := by decide
  omega

theorem toNat_of_isAlpha {c : Char} (h : c.isAlpha = true) : c.toNat < 128 :=
  toNat_of_isAlphanum (by rw [Char.isAlphanum, h, Bool.true_or])

/-- No letter or digit is white space. -/
theorem isWhiteSpace_of_isAlphanum {c : Char} (h : c.isAlphanum = true) : isWhiteSpace c = false :=
  forall_ascii (P := fun c ↦ c.isAlphanum = true → isWhiteSpace c = false) (by decide +kernel)
    (toNat_of_isAlphanum h) h

theorem isWhiteSpace_of_isAlpha {c : Char} (h : c.isAlpha = true) : isWhiteSpace c = false :=
  isWhiteSpace_of_isAlphanum (by rw [Char.isAlphanum, h, Bool.true_or])

/-- The lexer makes no difference between letters. -/
theorem begun_of_isAlpha {c : Char} (h : c.isAlpha = true) : isBlank c = false ∧
    (∀ named, Shape.begun named c = Shape.begun named 'A') ∧
    ∀ s : Shape, s.extended c = s.extended 'A' := by
  have hne : ∀ {d : Char}, d.isAlpha = false → c ≠ d := by
    rintro d hd rfl
    exact absurd (h.symm.trans hd) Bool.noConfusion
  have hblank : isBlank c = false := by
    simp [isBlank, hne (show ' '.isAlpha = false by decide),
      hne (show '\t'.isAlpha = false by decide)]
  have hopening : c ≠ '(' := hne (by decide)
  have hclosing : c ≠ ')' := hne (by decide)
  have hquote : c ≠ Shape.quote := hne (by decide)
  have hends : Shape.endsWord c = false := by simp [Shape.endsWord, hblank, hopening, hclosing]
  have halnum : c.isAlphanum = true := by rw [Char.isAlphanum, h, Bool.true_or]
  refine ⟨hblank, fun named ↦ ?_, fun s ↦ ?_⟩
  · have hvariable : c ≠ '&' := hne (by decide)
    have hsymbolic : c ≠ '*' := hne (by decide)
    have hfunction : c ≠ '%' := hne (by decide)
    simp only [Shape.begun, hblank, hopening, hclosing, hquote, hvariable, hsymbolic, hfunction]
    rfl
  · rcases s with _ | _ | _ | (_ | _) | _ | _ | _ | _ | _ <;>
      simp only [Shape.extended, hblank, hquote, hends, halnum, h] <;> rfl

namespace KeywordCase

/-- The case of one ASCII character. -/
def char : KeywordCase → Char → Char
  | upper => Char.toUpper
  | lower => Char.toLower

/-! ### One character -/

/-- Only letters are changed, into letters that stay as they are. -/
theorem char_cases (k : KeywordCase) {c : Char} (hc : c.toNat < 128) : k.char c = c ∨
    c.isAlpha = true ∧ (k.char c).isAlpha = true ∧ k.char (k.char c) = k.char c := by
  cases k <;> exact forall_ascii (P := fun c ↦ char _ c = c ∨
    c.isAlpha = true ∧ (char _ c).isAlpha = true ∧ char _ (char _ c) = char _ c)
    (by decide +kernel) hc

section Char

variable (k : KeywordCase) {c : Char} (hc : c.toNat < 128)

include hc

/-- **What is the same for all letters does not depend on the case.** -/
theorem congr_char {α : Type} {f : Char → α}
    (hf : ∀ d e : Char, d.isAlpha = true → e.isAlpha = true → f d = f e) :
    f (k.char c) = f c := by
  rcases k.char_cases hc with h | ⟨h, h', -⟩
  · rw [h]
  · exact hf _ _ h' h

/-- A change of case stays in ASCII. -/
theorem toNat_char : (k.char c).toNat < 128 := by
  rcases k.char_cases hc with h | ⟨-, h, -⟩
  · rwa [h]
  · exact toNat_of_isAlpha h

/-- The case of a letter is changed once and for all. -/
theorem char_char : k.char (k.char c) = k.char c := by
  rcases k.char_cases hc with h | ⟨-, -, h⟩
  · rw [h, h]
  · exact h

/-- White space is not a matter of case, and neither is any other class of characters that the lexer
asks for. -/
theorem isWhiteSpace_char : isWhiteSpace (k.char c) = isWhiteSpace c :=
  k.congr_char hc fun d e hd he ↦ by
    rw [isWhiteSpace_of_isAlpha hd, isWhiteSpace_of_isAlpha he]

theorem isBlank_char : isBlank (k.char c) = isBlank c :=
  k.congr_char hc fun d e hd he ↦ by
    rw [(begun_of_isAlpha hd).1, (begun_of_isAlpha he).1]

theorem isLetter_char : isLetter (k.char c) = isLetter c :=
  k.congr_char hc fun d e hd he ↦ by simp [isLetter, hd, he]

theorem isWordChar_char : isWordChar (k.char c) = isWordChar c :=
  k.congr_char hc fun d e hd he ↦ by simp [isWordChar, isLetter, hd, he]

theorem isNameStart_char : isNameStart (k.char c) = isNameStart c :=
  k.congr_char hc fun d e hd he ↦ by simp [isNameStart, isLetter, hd, he]

theorem isLabelChar_char : isLabelChar (k.char c) = isLabelChar c :=
  k.congr_char hc fun d e hd he ↦ by simp [isLabelChar, isNameStart, isLetter, hd, he]

/-- The characters that are not letters are not changed and not made. -/
theorem char_eq_iff {d : Char} (hd : d.isAlpha = false) : k.char c = d ↔ c = d := by
  rcases k.char_cases hc with h | ⟨h, h', -⟩
  · rw [h]
  · constructor
    · rintro rfl
      exact absurd (h'.symm.trans hd) Bool.noConfusion
    · rintro rfl
      exact absurd (h.symm.trans hd) Bool.noConfusion

/-- A token begins alike in either case. -/
theorem begun_char (named : Bool) : Shape.begun named (k.char c) = Shape.begun named c :=
  k.congr_char hc fun d e hd he ↦ by
    rw [(begun_of_isAlpha hd).2.1 named, (begun_of_isAlpha he).2.1 named]

/-- A token goes on alike in either case. -/
theorem extended_char (s : Shape) : s.extended (k.char c) = s.extended c :=
  k.congr_char hc fun d e hd he ↦ by
    rw [(begun_of_isAlpha hd).2.2 s, (begun_of_isAlpha he).2.2 s]

end Char

/-! ### Words -/

/-- **ASCII text is put in lower case letter by letter**: the final sigma is the only letter for
which the context counts. -/
theorem lowerAfter_of_isAscii (before : Text) {t : Text} (ht : IsAscii t) :
    lowerAfter before t = t.map Char.toLower := by
  induction t generalizing before with
  | nil => rfl
  | cons c t ih =>
    obtain ⟨hc, ht⟩ := isAscii_cons.1 ht
    have hsigma : c ≠ 'Σ' := by
      rintro rfl
      exact absurd hc (by decide)
    rw [lowerAfter, if_neg hsigma, lowerChar, if_pos hc, ih _ ht]
    rfl

/-- **The case of an ASCII word is changed character by character.** -/
theorem apply_of_isAscii (k : KeywordCase) {t : Text} (ht : IsAscii t) :
    k.apply t = t.map k.char := by
  cases k with
  | upper =>
    induction t with
    | nil => rfl
    | cons c t ih =>
      obtain ⟨hc, ht⟩ := isAscii_cons.1 ht
      have hstep : apply upper (c :: t) = upperChar c ++ apply upper t := List.flatMap_cons
      rw [hstep, ih ht, upperChar, if_pos hc]
      rfl
  | lower => exact lowerAfter_of_isAscii [] ht

section Word

variable (k : KeywordCase) {t : Text} (ht : IsAscii t)

include ht

/-- A text stays in ASCII when its case is changed. -/
theorem isAscii_apply : IsAscii (k.apply t) := by
  rw [apply_of_isAscii k ht]
  intro c hc
  obtain ⟨d, hd, rfl⟩ := List.mem_map.1 hc
  exact toNat_char k (ht d hd)

/-- Writing a word twice changes nothing. -/
theorem apply_apply : k.apply (k.apply t) = k.apply t := by
  rw [apply_of_isAscii k (isAscii_apply k ht), apply_of_isAscii k ht, List.map_map]
  exact List.map_congr_left fun c hc ↦ char_char k (ht c hc)

/-- **The lexer runs through a word in the same way in either case.** -/
theorem run?_apply (s : Shape) : s.run? (k.apply t) = s.run? t := by
  rw [apply_of_isAscii k ht]
  induction t generalizing s with
  | nil => rfl
  | cons c t ih =>
    obtain ⟨hc, ht⟩ := isAscii_cons.1 ht
    rw [List.map_cons, Shape.run?, Shape.run?, extended_char k hc]
    congr 1
    funext longer
    exact ih ht longer

/-- An identifier is one in either case. -/
theorem isIdentifier_apply : (k.apply t).isIdentifier = t.isIdentifier := by
  have hmap : (k.apply t).dropFinalLineFeed = t.dropFinalLineFeed.map k.char := by
    rw [apply_of_isAscii k ht, dropFinalLineFeed, dropFinalLineFeed, List.getLast?_map,
      ← List.map_dropLast]
    rcases hlast : t.getLast? with _ | c
    · simp
    · have hc : k.char c = '\n' ↔ c = '\n' :=
        char_eq_iff k (ht c (List.mem_of_getLast? hlast)) (by decide)
      simp only [Option.map_some, Option.some.injEq, hc]
      split_ifs <;> rfl
  have hsub : ∀ c ∈ t.dropFinalLineFeed, c.toNat < 128 := by
    intro c hc
    rw [dropFinalLineFeed] at hc
    split_ifs at hc
    · exact ht c (List.dropLast_subset t hc)
    · exact ht c hc
  rw [isIdentifier, isIdentifier, hmap]
  revert hsub
  rcases t.dropFinalLineFeed with _ | ⟨c, rest⟩
  · exact fun _ ↦ rfl
  · intro hsub
    have hrest : (rest.map k.char).all isWordChar = rest.all isWordChar := by
      rw [List.all_map]
      refine Bool.eq_iff_iff.2 ?_
      simp only [List.all_eq_true, Function.comp]
      exact forall₂_congr fun d hd ↦ by
        rw [isWordChar_char k (hsub d (List.mem_cons_of_mem c hd))]
    simp only [List.map_cons, isLetter_char k (hsub c List.mem_cons_self), hrest]

end Word

end KeywordCase

end ControlLanguage
