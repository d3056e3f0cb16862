import ControlLanguage.Proofs.Token.Thinning

/-!
# Blanks that come and go

Where a line is closed at a blank, the joined text may have more blanks than one. Outside of
literals this is no change at all, because a run of blanks is one token: **a text that is widened is
read as the same tokens** (`following_eq_of_widened`).

What formatting does to a text is both together. It is `Respaced`: thinned first, and widened then.
-/

namespace ControlLanguage

open Shape

/-- Only a blank leads into a run of blanks. -/
theorem Shape.after_ne_blank {s : Shape} {c : Char} (hc : isBlank c = false) :
    s.after c ≠ .blank := by
  have hbegun : begun true c ≠ .blank := by
    simp only [begun, hc, Bool.false_eq_true, if_false, Bool.not_true]
    split_ifs <;> simp
  rcases hext : s.extended c with _ | s'
  · rwa [after_of_stops hext]
  · rw [after_of_extended hext]
    refine run?_ne_blank ?_ (run?_cons (t := []).2 ⟨s', hext, rfl⟩)
    rintro rfl
    simp [extended, hc] at hext

namespace Text

/-- The second text is the first one with more blanks in its runs of blanks. The shape is the one
reached before the first text. -/
inductive Widened : Shape → Text → Text → Prop where
  | nil (s : Shape) : Widened s [] []
  | keep {s : Shape} {c : Char} {t u : Text} :
      Widened (s.after c) t u → Widened s (c :: t) (c :: u)
  | more {t u : Text} : Widened .blank t u → Widened .blank t (' ' :: u)

namespace Widened

variable {s : Shape} {t u : Text}

theorem refl (s : Shape) (t : Text) : Widened s t t := by
  induction t generalizing s with
  | nil => exact nil s
  | cons c t ih => exact keep (ih (s.after c))

/-- Blanks may be widened behind any text. -/
theorem append (x : Text) (h : Widened (s.afterText x) t u) : Widened s (x ++ t) (x ++ u) := by
  induction x generalizing s with
  | nil => exact h
  | cons c x ih => exact keep (ih h)

/-- They may be widened in front of any text. -/
theorem append_right (h : Widened s t u) (w : Text) : Widened s (t ++ w) (u ++ w) := by
  induction h with
  | nil s => exact refl s w
  | keep _ ih => exact keep ih
  | more _ ih => exact more ih

/-- Blanks may follow blanks. -/
theorem blanks_append (h : Widened .blank t u) (n : Nat) : Widened .blank t (blanks n ++ u) := by
  induction n with
  | zero => exact h
  | succ n ih => exact more ih

/-- In front of a first character there are blanks at most. -/
theorem exists_blanks {c : Char} (h : Widened s (c :: t) u) :
    ∃ n v, u = blanks n ++ c :: v ∧ Widened (s.after c) t v := by
  generalize hx : c :: t = x at h
  induction h with
  | nil => exact absurd hx (List.cons_ne_nil c t)
  | keep h =>
    obtain ⟨rfl, rfl⟩ := List.cons.inj hx
    exact ⟨0, _, rfl, h⟩
  | more _ ih =>
    obtain ⟨n, v, rfl, hv⟩ := ih hx
    exact ⟨n + 1, v, rfl, hv⟩

/-- The last character stays the last one, unless it is a blank. -/
theorem exists_concat {c : Char} (hc : isBlank c = false) (h : Widened s (t ++ [c]) u) :
    ∃ v, u = v ++ [c] := by
  induction t generalizing s u with
  | nil =>
    obtain ⟨n, v, rfl, hv⟩ := h.exists_blanks
    generalize hs : s.after c = s' at hv
    cases hv with
    | nil => exact ⟨blanks n, rfl⟩
    | more => exact absurd hs (after_ne_blank hc)
  | cons d t ih =>
    obtain ⟨n, v, rfl, hv⟩ := h.exists_blanks
    obtain ⟨w, rfl⟩ := ih hv
    exact ⟨blanks n ++ d :: w, by simp⟩

end Widened

/-- The second text is the first one, thinned and widened. -/
def Respaced (s : Shape) (t u : Text) : Prop :=
  ∃ v, Thinned s t v ∧ Widened s v u

namespace Respaced

variable {s : Shape} {t u : Text}

theorem refl (s : Shape) (t : Text) : Respaced s t t :=
  ⟨t, Thinned.refl s t, Widened.refl s t⟩

theorem append (x : Text) (h : Respaced (s.afterText x) t u) : Respaced s (x ++ t) (x ++ u) := by
  obtain ⟨v, hv, hu⟩ := h
  exact ⟨x ++ v, hv.append x, hu.append x⟩

/-- A blank is kept, and others may be added to it. -/
theorem blanks_append (hs : s.after ' ' = .blank) (h : Respaced .blank t u) (n : Nat) :
    Respaced s (' ' :: t) (blanks (n + 1) ++ u) := by
  obtain ⟨v, hv, hu⟩ := h
  exact ⟨' ' :: v, .keep (hs.symm ▸ hv), .keep (hs.symm ▸ hu.blanks_append n)⟩

/-- A blank behind an opening parenthesis is dropped. -/
theorem drop {c : Char} (hc : isBlank c = false) (h : Respaced .blank (c :: t) u) :
    Respaced .opening (' ' :: c :: t) u := by
  obtain ⟨v, hv, hu⟩ := h
  cases hv with
  | @keep _ _ _ v hv =>
    obtain ⟨n, w, rfl, hw⟩ := hu.exists_blanks
    cases n with
    | zero =>
      have hafter : Shape.opening.after c = Shape.blank.after c := by simp [after, extended, hc]
      exact ⟨c :: v, .drop (by simpa using hc) (.keep hv), .keep (hafter ▸ hw)⟩
    | succ n =>
      -- where there are more blanks, the one behind the parenthesis may as well be kept
      exact ⟨' ' :: c :: v, .keep (.keep hv), .keep ((Widened.keep hw).blanks_append n)⟩

/-- Elsewhere it is kept. -/
theorem of_cons_blank (hs : s ≠ .opening) (hs' : s ≠ .blank) (hafter : s.after ' ' = .blank)
    (h : Respaced s (' ' :: t) u) : ∃ v, u = ' ' :: v ∧ Respaced .blank t v := by
  obtain ⟨x, hx, hu⟩ := h
  cases hx with
  | drop => exact absurd rfl hs
  | keep hx =>
    cases hu with
    | more => exact absurd rfl hs'
    | keep hu => exact ⟨_, rfl, _, hafter ▸ hx, hafter ▸ hu⟩

end Respaced

end Text

namespace Lexeme

/-- Widening a text changes at most how long a run of blanks is. -/
theorem continued_widened {s : Shape} {t u : Text} (h : Text.Widened s t u) :
    (continued true s u).1.shape = (continued true s t).1.shape ∧
      ((continued true s t).1.shape = .blank ∨
        (continued true s u).1.source = (continued true s t).1.source) ∧
      (following s u).map (·.toToken 0) = (following s t).map (·.toToken 0) := by
  have htoken : ∀ {a b : Lexeme} (c : Char), a.shape = b.shape →
      b.shape = .blank ∨ a.source = b.source → (a.push c).toToken 0 = (b.push c).toToken 0 := by
    rintro ⟨shape, x⟩ ⟨shape', y⟩ c rfl (rfl | rfl)
    · rfl
    · rfl
  induction h with
  | nil => exact ⟨rfl, Or.inr rfl, rfl⟩
  | @keep s c t u _ ih =>
    obtain ⟨hshape, hsource, hrest⟩ := ih
    rcases hext : s.extended c with _ | s'
    · rw [after_of_stops hext] at hshape hsource hrest
      rw [following, following, continued_cons_of_stops _ hext, continued_cons_of_stops _ hext]
      refine ⟨rfl, Or.inr rfl, ?_⟩
      rw [List.map_cons, List.map_cons, htoken c hshape hsource]
      exact congrArg _ hrest
    · rw [after_of_extended hext] at hshape hsource hrest
      rw [following, following, continued_cons_of_extended _ hext,
        continued_cons_of_extended _ hext]
      exact ⟨hshape, hsource.imp_right (congrArg (c :: ·)), hrest⟩
  | @more t u _ ih =>
    have hext : Shape.blank.extended ' ' = some .blank := rfl
    rw [following, continued_cons_of_extended _ hext]
    exact ⟨ih.1, Or.inl (run?_blank (run?_continued true .blank t)), ih.2.2⟩

end Lexeme

namespace Token

/-- **A widened text is read as the same tokens.** -/
theorem following_eq_of_widened {s : Shape} {t u : Text} (h : Text.Widened s t u) :
    following s u = following s t :=
  (Lexeme.continued_widened h).2.2

end Token

end ControlLanguage
