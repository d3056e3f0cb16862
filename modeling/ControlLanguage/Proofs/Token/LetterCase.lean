import ControlLanguage.Proofs.Token.Wordlike

/-!
# Lexing a text in upper case

The lexer makes no difference between the ASCII letters, and beyond ASCII it makes none between
characters at all. So **a text in upper case is read as its lexemes in upper case**
(`Lexeme.continued_upper`), with the same shapes, as long as no character beyond ASCII has a capital
within it. Behind an ampersand that makes a difference: `ſ` begins a word and `S` goes on with the
variable.
-/

namespace ControlLanguage

open Text

namespace Text

/-- No character beyond ASCII has an ASCII capital, as `ß` and `ſ` have. -/
def KeepsAscii (t : Text) : Prop :=
  ∀ c ∈ t, 128 ≤ c.toNat → ∀ d ∈ upperChar c, 128 ≤ d.toNat

instance KeepsAscii.decidable (t : Text) : Decidable (KeepsAscii t) :=
  decidable_of_iff (t.all fun c ↦ c.toNat < 128 || (upperChar c).all (128 ≤ ·.toNat)) <| by
    simp [KeepsAscii, or_iff_not_imp_left]

theorem keepsAscii_cons {c : Char} {t : Text} :
    KeepsAscii (c :: t) ↔ KeepsAscii [c] ∧ KeepsAscii t := by
  simp [KeepsAscii]

end Text

namespace Shape

/-- Characters beyond ASCII go on with what one of them went on with. -/
theorem run?_of_le {s s' : Shape} {c : Char} {u : Text} (hc : 128 ≤ c.toNat)
    (h : s.extended c = some s') (hu : ∀ d ∈ u, 128 ≤ d.toNat) : s'.run? u = some s' := by
  rw [(begun_of_le hc).2] at h
  split_ifs at h with hs
  obtain rfl := Option.some.inj h
  induction u with
  | nil => rfl
  | cons d u ih =>
    refine run?_cons.2 ⟨s, ?_, ih fun e he ↦ hu e (List.mem_cons_of_mem d he)⟩
    rw [(begun_of_le (hu d List.mem_cons_self)).2, if_pos hs]

/-- **The capital of a character does to a lexeme what the character does**, and so does its first
character alone. -/
theorem exists_upperChar {c : Char} (hc : KeepsAscii [c]) : ∃ d u, upperChar c = d :: u ∧
    begun true d = begun true c ∧ (∀ s : Shape, s.extended d = s.extended c) ∧
    (begun true c).run? u = some (begun true c) ∧
    ∀ s s' : Shape, s.extended c = some s' → s'.run? u = some s' := by
  by_cases hascii : c.toNat < 128
  · exact ⟨c.toUpper, [], by rw [upperChar, if_pos hascii],
      KeywordCase.begun_char .upper hascii true, KeywordCase.extended_char .upper hascii, rfl,
      fun _ _ _ ↦ rfl⟩
  · have hle : 128 ≤ c.toNat := Nat.not_lt.1 hascii
    have hcapital : ∀ d ∈ upperChar c, 128 ≤ d.toNat := hc c (List.mem_singleton_self c) hle
    obtain ⟨d, u, hup⟩ := List.exists_cons_of_ne_nil (upperChar_ne_nil c)
    rw [hup] at hcapital
    have hd := begun_of_le (hcapital d List.mem_cons_self)
    have hu : ∀ e ∈ u, 128 ≤ e.toNat := fun e he ↦ hcapital e (List.mem_cons_of_mem d he)
    have hword : Shape.word.extended c = some .word := by simp [(begun_of_le hle).2]
    refine ⟨d, u, hup, hd.1.trans (begun_of_le hle).1.symm, fun s ↦ ?_, ?_,
      fun s s' hext ↦ run?_of_le hle hext hu⟩
    · rw [hd.2, (begun_of_le hle).2]
    · rw [(begun_of_le hle).1]
      exact run?_of_le hle hword hu

end Shape

namespace Lexeme

open Shape

/-- The same lexeme in upper case. -/
def upper (l : Lexeme) : Lexeme :=
  ⟨l.shape, l.source.upper⟩

/-- **A text in upper case is read as its lexemes in upper case.** -/
theorem continued_upper {t : Text} (ht : KeepsAscii t) (s : Shape) :
    continued true s t.upper =
      ((continued true s t).1.upper, (continued true s t).2.map upper) := by
  induction t generalizing s with
  | nil => rfl
  | cons c t ih =>
    obtain ⟨hc, ht⟩ := keepsAscii_cons.1 ht
    obtain ⟨d, u, hup, hbegun, hext, hrun, hlonger⟩ := exists_upperChar hc
    rw [upper_cons, hup, List.cons_append]
    rcases h : s.extended c with _ | s'
    · rw [continued_cons_of_stops t h, continued_cons_of_stops _ ((hext s).trans h), hbegun,
        continued_append hrun, following, ih ht]
      simp [upper, push, upper_cons, hup, show Text.upper [] = [] from rfl]
    · rw [continued_cons_of_extended t h, continued_cons_of_extended _ ((hext s).trans h),
        continued_append (hlonger s s' h), following, ih ht]
      simp [upper, push, upper_cons, hup]

theorem following_upper {t : Text} (ht : KeepsAscii t) (s : Shape) :
    following s t.upper = (following s t).map upper :=
  congrArg (·.2) (continued_upper ht s)

end Lexeme

end ControlLanguage
