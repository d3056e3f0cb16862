import ControlLanguage.Proofs.Text.UpperCase
import ControlLanguage.Proofs.Token.Lexing

/-!
# Words in upper case

What upper case does to the lexemes of a value. Plain characters make words, and things like words:
variables, special values and the names of functions. Upper case keeps their shapes but for one
case: a letter beyond ASCII always makes a word, and its capital may go on with the variable in
front of it instead. **Such a shape only lets more literals begin**, so a quote that begins a
literal still does.
-/

namespace ControlLanguage

open Text

namespace Shape

/-- A shape that a lexeme behind the command name may have where it can end. -/
def IsInner (s : Shape) : Prop :=
  s ≠ .name ∧ s ≠ .literal false

/-- The shape of a word, a variable, a special value or a function name. -/
def IsWordlike (s : Shape) : Prop :=
  s = .word ∨ s = .variable ∨ s = .symbolic ∨ s = .function

theorem IsWordlike.isInner {s : Shape} (h : s.IsWordlike) : s.IsInner := by
  rcases h with rfl | rfl | rfl | rfl <;> exact ⟨nofun, nofun⟩

theorem IsWordlike.extended_blank {s : Shape} (h : s.IsWordlike) : s.extended ' ' = none := by
  rcases h with rfl | rfl | rfl | rfl <;> rfl

/-- For the lexer too a plain character is nothing special. -/
theorem endsWord_of_isPlain {c : Char} (hc : isPlain c = true) :
    endsWord c = false ∧ isBlank c = false ∧ c ≠ quote ∧ c ≠ '(' ∧ c ≠ ')' := by
  obtain ⟨hw, hq, ho, hp⟩ := isPlain_iff.1 hc
  have hb : isBlank c = false := isBlank_eq_false_of_ink hw
  have hquote : c ≠ quote := by
    rintro rfl
    exact absurd hq (by decide)
  exact ⟨by simp [endsWord, hb, ho, hp], hb, hquote, ho, hp⟩

/-- What is no blank, parenthesis or quote begins a word or something like it. -/
theorem isWordlike_begun {c : Char} (hc : endsWord c = false) (hq : c ≠ quote) :
    (begun true c).IsWordlike := by
  simp only [endsWord, Bool.or_eq_false_iff, decide_eq_false_iff_not] at hc
  obtain ⟨⟨hb, ho⟩, hp⟩ := hc
  simp only [begun, hb, ho, hp, hq, Bool.not_true, Bool.false_eq_true, if_false]
  split_ifs
  · exact Or.inr (Or.inl rfl)
  · exact Or.inr (Or.inr (Or.inl rfl))
  · exact Or.inr (Or.inr (Or.inr rfl))
  · exact Or.inl rfl

/-- What is no blank, parenthesis or quote makes a lexeme behind the command name a word or
something like it. -/
theorem isWordlike_after_of_endsWord {s : Shape} (hs : s.IsInner) {c : Char}
    (hends : endsWord c = false) (hq : c ≠ quote) : (s.after c).IsWordlike := by
  rcases hext : s.extended c with _ | longer
  · rw [after_of_stops hext]
    exact isWordlike_begun hends hq
  · have hb : isBlank c = false := by
      simp only [endsWord, Bool.or_eq_false_iff] at hends
      exact hends.1.1
    rw [after_of_extended hext]
    rcases s with _ | _ | _ | (_ | _) | _ | _ | _ | _ | _
    case name => exact absurd rfl hs.1
    case literal.false => exact absurd rfl hs.2
    all_goals
      simp [extended, hends, hb, hq] at hext
      try simp [IsWordlike, ← hext]

/-- A plain character leaves the lexer in a word. -/
theorem isWordlike_after {s : Shape} (hs : s.IsInner) {c : Char} (hc : isPlain c = true) :
    (s.after c).IsWordlike := by
  obtain ⟨hends, -, hq, -⟩ := endsWord_of_isPlain hc
  exact isWordlike_after_of_endsWord hs hends hq

/-- The lexer makes no difference between the characters beyond ASCII. -/
theorem begun_of_le {c : Char} (hc : 128 ≤ c.toNat) : begun true c = .word ∧
    ∀ s : Shape, s.extended c =
      if s = .literal false ∨ s = .name ∨ s = .word then some s else none := by
  have hne : ∀ {d : Char}, d.toNat < 128 → c ≠ d := by
    rintro d hd rfl
    omega
  have halnum : c.isAlphanum = false :=
    Bool.eq_false_iff.2 fun h ↦ absurd (toNat_of_isAlphanum h) (Nat.not_lt.2 hc)
  have halpha : c.isAlpha = false :=
    Bool.eq_false_iff.2 fun h ↦ absurd (toNat_of_isAlpha h) (Nat.not_lt.2 hc)
  have hblank : isBlank c = false := by
    simp [isBlank, hne (show (' ' : Char).toNat < 128 by decide),
      hne (show ('\t' : Char).toNat < 128 by decide)]
  have hopening : c ≠ '(' := hne (by decide)
  have hclosing : c ≠ ')' := hne (by decide)
  have hquote : c ≠ quote := hne (by decide)
  have hends : endsWord c = false := by simp [endsWord, hblank, hopening, hclosing]
  constructor
  · have hvariable : c ≠ '&' := hne (by decide)
    have hsymbolic : c ≠ '*' := hne (by decide)
    have hfunction : c ≠ '%' := hne (by decide)
    simp [begun, hblank, hopening, hclosing, hquote, hvariable, hsymbolic, hfunction]
  · intro s
    rcases s with _ | _ | _ | (_ | _) | _ | _ | _ | _ | _ <;>
      simp [extended, hblank, hquote, hends, halnum, halpha]

/-- Beyond ASCII every character makes it a word. -/
theorem after_of_le {s : Shape} (hs : s.IsInner) {c : Char} (hle : 128 ≤ c.toNat) :
    s.after c = .word := by
  obtain ⟨hbegun, hext⟩ := begun_of_le hle
  by_cases hword : s = .word
  · rw [hword]
    exact after_of_extended ((hext .word).trans (if_pos (by simp)))
  · rw [← hbegun]
    exact after_of_stops ((hext s).trans (if_neg (by simp [hs.1, hs.2, hword])))

/-- A shape and one that the same text may have in upper case. Only a word may turn into something
else, as when `ß` behind an ampersand becomes two ASCII letters. -/
def Covers (s s' : Shape) : Prop :=
  s' = s ∨ s = .word ∧ s'.IsWordlike

theorem Covers.isInner {s s' : Shape} (h : Covers s s') (hs : s.IsInner) : s'.IsInner := by
  rcases h with rfl | ⟨-, h⟩
  · exact hs
  · exact h.isInner

/-- Where a quote may begin a literal, it still may. -/
theorem Covers.extended_eq_none {s s' : Shape} (h : Covers s s') {c : Char}
    (hs : s.extended c = none) (hc : isPlain c = false) : s'.extended c = none := by
  rcases h with rfl | ⟨rfl, h⟩
  · exact hs
  · have halnum : c.isAlphanum = false := by
      by_contra hne
      rw [isPlain_of_isAlphanum (by simpa using hne)] at hc
      exact Bool.noConfusion hc
    have halpha : c.isAlpha = false := by
      simp only [Char.isAlphanum, Bool.or_eq_false_iff] at halnum
      exact halnum.1
    rcases h with rfl | rfl | rfl | rfl
    · exact hs
    · simp [extended, halnum]
    · simp [extended, halpha]
    · simp [extended, halpha]

/-- So do several of them. -/
theorem isWordlike_afterText {s : Shape} (hs : s.IsInner) {u : Text} (hu : u ≠ [])
    (hplain : ∀ d ∈ u, isPlain d = true) : (s.afterText u).IsWordlike := by
  induction u generalizing s with
  | nil => exact absurd rfl hu
  | cons d u ih =>
    have hd := isWordlike_after hs (hplain d List.mem_cons_self)
    by_cases hnil : u = []
    · rw [hnil]
      exact hd
    · exact ih hd.isInner hnil fun e he ↦ hplain e (List.mem_cons_of_mem d he)

/-- Among ASCII characters upper case makes no difference to a shape. -/
theorem afterText_upperChar {s : Shape} (hs : s.IsInner) {c : Char} (hc : c.toNat < 128) :
    s.afterText (upperChar c) = s.after c := by
  rcases s with _ | _ | _ | (_ | _) | _ | _ | _ | _ | _
  case name => exact absurd rfl hs.1
  case literal.false => exact absurd rfl hs.2
  all_goals
    exact forall_ascii (P := fun c ↦ afterText _ (upperChar c) = after _ c) (by decide +kernel) hc

/-- **The lexer is in corresponding shapes on a text and on its capitals**, character by character.
-/
theorem Covers.after {s s' : Shape} (h : Covers s s') (hs : s.IsInner) {c : Char}
    (hc : isPlain c = true) : Covers (s.after c) (s'.afterText (upperChar c)) := by
  have hwordlike : (s'.afterText (upperChar c)).IsWordlike :=
    isWordlike_afterText (h.isInner hs) (upperChar_ne_nil c)
      fun d hd ↦ isPlain_of_mem_upperChar hc hd
  rcases h with rfl | ⟨rfl, -⟩
  · by_cases hascii : c.toNat < 128
    · exact Or.inl (afterText_upperChar hs hascii)
    · exact Or.inr ⟨after_of_le hs (by omega), hwordlike⟩
  · exact Or.inr ⟨by simp [Shape.after, extended, (endsWord_of_isPlain hc).1], hwordlike⟩

end Shape

end ControlLanguage
