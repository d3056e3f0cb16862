import ControlLanguage.Proofs.Text.Trim

/-!
# The ink of a text

White space comes and goes where a text is taken apart, put together again or laid out. `Text.ink`
is what is left without it. **Ink is a homomorphism that trimming does not see**, so that two texts
of different spacing can be compared by it.
-/

namespace ControlLanguage

namespace Text

/-- The text without its white space. -/
def ink (t : Text) : Text :=
  t.filter (!isWhiteSpace ·)

@[simp] theorem ink_nil : ink [] = [] :=
  rfl

@[simp] theorem ink_append (s t : Text) : ink (s ++ t) = ink s ++ ink t :=
  List.filter_append s t

/-- White space has no ink. -/
theorem ink_of_isWhite {t : Text} (h : IsWhite t) : ink t = [] :=
  List.filter_eq_nil_iff.2 fun c hc ↦ by simp [h c hc]

@[simp] theorem ink_blanks (n : Nat) : ink (blanks n) = [] :=
  ink_of_isWhite (isWhite_blanks n)

@[simp] theorem ink_blank : ink [' '] = [] :=
  ink_blanks 1

@[simp] theorem ink_trimEnd (t : Text) : ink t.trimEnd = ink t := by
  obtain ⟨w, hw, ht⟩ := exists_trimEnd_append t
  conv_rhs => rw [ht, ink_append, ink_of_isWhite hw, List.append_nil]

@[simp] theorem ink_trim (t : Text) : ink t.trim = ink t := by
  obtain ⟨w, hw, ht⟩ := exists_append_trimStart t
  conv_rhs => rw [ht, ink_append, ink_of_isWhite hw, List.nil_append]
  exact ink_trimEnd t.trimStart

/-- Padding with blanks adds no ink. -/
theorem ink_padEnd (n : Nat) (t : Text) : ink (t.padEnd n) = ink t := by
  rw [padEnd, ink_append, ink_blanks, List.append_nil]

/-- Parentheses are ink. -/
theorem ink_enclosed (s t : Text) :
    ink (s ++ '(' :: t ++ [')']) = ink s ++ ['('] ++ ink t ++ [')'] := by
  have hopen : ink ('(' :: t) = ['('] ++ ink t := ink_append ['('] t
  have hclose : ink [')'] = [')'] := rfl
  rw [ink_append, ink_append, hopen, hclose, ← List.append_assoc]

/-! ### Several texts -/

/-- Ink is taken from each text of a sequence. -/
theorem ink_flatten (ts : List Text) : ink ts.flatten = (ts.map ink).flatten :=
  List.filter_flatten

/-- The ink of joined texts is their ink, joined with the ink of the separator. -/
theorem ink_intercalate (s : Text) (ts : List Text) :
    ink (s.intercalate ts) = (ink s).intercalate (ts.map ink) := by
  induction ts with
  | nil => rfl
  | cons t ts ih =>
    by_cases hnil : ts = []
    · rw [hnil, List.intercalate_singleton, List.map_singleton, List.intercalate_singleton]
    · rw [List.intercalate_cons_of_ne_nil hnil, ink_append, ink_append, ih, List.map_cons,
        List.intercalate_cons_of_ne_nil (mt List.map_eq_nil_iff.1 hnil)]

/-- Joining with blanks is concatenation as far as ink goes. -/
theorem ink_joinBlank (ts : List Text) : ink (joinBlank ts) = ts.flatMap ink := by
  induction ts with
  | nil => rfl
  | cons t ts ih =>
    rcases ts with _ | ⟨u, us⟩
    · simp [joinBlank]
    · have hcons : joinBlank (t :: u :: us) = t ++ ([' '] ++ joinBlank (u :: us)) := by
        simp [joinBlank]
      rw [hcons, ink_append, ink_append, ink_blank, List.nil_append, ih]
      rfl

end Text

end ControlLanguage
