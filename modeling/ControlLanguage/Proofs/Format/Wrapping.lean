import ControlLanguage.Format.Page
import ControlLanguage.Proofs.Format.Break
import ControlLanguage.Proofs.Text.Trim

/-!
# One step of the wrap loop

`Page.Step` says all that one step can do: it puts the whole text on the line, or it closes the line
at a place where no atom is split and leaves the text behind that place, without the blanks in
front of it. **Everything else about the loop follows from these four cases**, by induction on the
number of steps; where only the place matters, they are two (`Step.divides`).

A first consequence is about the shape of the lines: a text that ends in ink leaves a line that
does.
-/

namespace ControlLanguage

open Text

namespace Page

/-- Nothing but white space is on a fresh line. -/
theorem isFresh_iff {p : Page} : p.isFresh = true ↔ IsWhite p.current := by
  rw [isFresh, List.isEmpty_iff, isWhite_iff_trim_eq_nil]

theorem append_nil (p : Page) : p.append [] = p := by
  rw [append, List.append_nil]

/-! ### Leading blanks -/

theorem withoutBlanks_of_beginsInk {t : Text} (h : BeginsInk t) : withoutBlanks t = t := by
  obtain ⟨c, u, rfl, hc⟩ := h
  have hne : c ≠ ' ' := by
    rintro rfl
    exact absurd hc (by decide)
  exact List.dropWhile_cons_of_neg (by simpa using hne)

/-- The blanks at the start, and the text without them. -/
theorem exists_blanks_append (t : Text) : ∃ n, t = blanks n ++ withoutBlanks t := by
  refine ⟨(t.takeWhile (· = ' ')).length, ?_⟩
  have hblank : t.takeWhile (· = ' ') = blanks (t.takeWhile (· = ' ')).length :=
    List.eq_replicate_of_mem fun c hc ↦ by simpa using List.mem_takeWhile_imp hc
  rw [← hblank]
  exact List.takeWhile_append_dropWhile.symm

theorem endsInk_withoutBlanks {t : Text} (h : EndsInk t) : EndsInk (withoutBlanks t) := by
  obtain ⟨n, hn⟩ := exists_blanks_append t
  rw [hn] at h
  refine h.of_append fun hnil ↦ ?_
  rw [hnil, List.append_nil] at h
  exact h.not_isWhite (isWhite_blanks n)

/-! ### The four cases -/

/-- Where in the text a step ends the line, if it does, and whether the break is joined. -/
def lineEnd? (t : Text) : WrapStep → Option (Nat × Bool)
  | .fits => none
  | .breakAt i => some (i, false)
  | .newLine => some (0, false)
  | .cutAt i => (t.drop i).head?.map fun c ↦ (i, c ≠ ' ')

/-- What a step may make of a page and a text, and where it ends the line. -/
inductive Step (l : Layout) (atoms : List Text) (p : Page) (t : Text) :
    Option (Nat × Bool) → Page → Text → Prop where
  /-- All of the text is put on the line. -/
  | whole : Step l atoms p t none (p.append t) []
  /-- The line is closed at a blank. -/
  | blank (x y : Text) : t = x ++ ' ' :: y → x ≠ [] → ¬ Break.SplitsAtom atoms t x.length →
      Step l atoms p t (some (x.length, false)) ((p.append x).breakLine l false) (withoutBlanks y)
  /-- The line is closed in front of the text. -/
  | newLine : ¬ IsWhite p.current →
      Step l atoms p t (some (0, false)) (p.breakLine l false) (withoutBlanks t)
  /-- The text is cut within the room of a fresh line, where there is no usable blank. -/
  | cut (x y : Text) (c : Char) : t = x ++ c :: y → x ≠ [] → c ≠ ' ' →
      ¬ Break.SplitsAtom atoms t x.length → IsWhite p.current → (x.length : Int) ≤ p.room l →
      Break.last? (Span.ofAtoms atoms t) (p.room l) t = none →
      Step l atoms p t (some (x.length, true)) ((p.append x).breakLine l true) (c :: y)

variable {l : Layout} {atoms : List Text}

/-- What decides which step comes next. -/
inductive Chooses (l : Layout) (atoms : List Text) (p : Page) (t : Text) : WrapStep → Prop where
  | fits : (t.length : Int) ≤ p.room l → Chooses l atoms p t .fits
  | breakAt {i : Nat} : p.room l < t.length →
      Break.last? (Span.ofAtoms atoms t) (p.room l) t = some i → Chooses l atoms p t (.breakAt i)
  | cutAt : p.room l < t.length → Break.last? (Span.ofAtoms atoms t) (p.room l) t = none →
      IsWhite p.current →
        Chooses l atoms p t (.cutAt (Break.cut (Span.ofAtoms atoms t) (p.room l) t))
  | newLine : p.room l < t.length → Break.last? (Span.ofAtoms atoms t) (p.room l) t = none →
      ¬ IsWhite p.current → Chooses l atoms p t .newLine

/-- **The step that is taken is one of those that the rules allow.** -/
theorem chooses_nextStep (l : Layout) (atoms : List Text) (p : Page) (t : Text) :
    Chooses l atoms p t (p.nextStep l atoms t) := by
  by_cases hfits : (t.length : Int) ≤ p.room l
  · rw [nextStep, if_pos hfits]
    exact .fits hfits
  have hlong := Int.not_le.1 hfits
  rcases hlast : Break.last? (Span.ofAtoms atoms t) (p.room l) t with _ | i
  · by_cases hp : p.isFresh = true
    · simp only [nextStep, if_neg hfits, hlast, if_pos hp]
      exact .cutAt hlong hlast (isFresh_iff.1 hp)
    · simp only [nextStep, if_neg hfits, hlast, if_neg hp]
      exact .newLine hlong hlast (mt isFresh_iff.2 hp)
  · simp only [nextStep, if_neg hfits, hlast]
    exact .breakAt hlong hlast

/-- The step of a cut is one of three, by what stands behind the cut. -/
theorem step_cut {p : Page} {t : Text} (ht : t ≠ []) (hp : IsWhite p.current)
    (hlast : Break.last? (Span.ofAtoms atoms t) (p.room l) t = none) :
    Step l atoms p t (lineEnd? t (.cutAt (Break.cut (Span.ofAtoms atoms t) (p.room l) t)))
      (p.afterStep l t (.cutAt (Break.cut (Span.ofAtoms atoms t) (p.room l) t))).1
      (p.afterStep l t (.cutAt (Break.cut (Span.ofAtoms atoms t) (p.room l) t))).2 := by
  obtain ⟨x, y, hxy, hlen, hne, hx, hfree⟩ :=
    Break.exists_of_cut atoms (p.room l) ht
  have hdrop : t.drop x.length = y := by rw [hxy, List.drop_left]
  have htake : t.take x.length = x := by rw [hxy, List.take_left]
  rw [← hlen, afterStep, lineEnd?, htake, hdrop]
  rcases y with _ | ⟨c, y⟩
  · obtain rfl : t = x := by rw [hxy, List.append_nil]
    exact Step.whole
  by_cases hc : c = ' '
  · subst hc
    exact Step.blank x y hxy hne hx
  · have hskip : withoutBlanks (c :: y) = c :: y := List.dropWhile_cons_of_neg (by simpa using hc)
    have hroom : (x.length : Int) ≤ p.room l := hfree.resolve_right fun h ↦ hc (h c rfl)
    simp only [hskip, hc, ne_eq, not_false_eq_true, decide_true, List.head?_cons, Option.map_some]
    exact Step.cut x y c hxy hne hc hx hp hroom hlast

/-- **What a step can do.** -/
theorem step_afterStep (p : Page) {t : Text} (ht : t ≠ []) :
    Step l atoms p t (lineEnd? t (p.nextStep l atoms t))
      (p.afterStep l t (p.nextStep l atoms t)).1 (p.afterStep l t (p.nextStep l atoms t)).2 := by
  have hchooses := chooses_nextStep l atoms p t
  generalize p.nextStep l atoms t = step at hchooses ⊢
  cases hchooses with
  | fits => exact Step.whole
  | cutAt _ hlast hp => exact step_cut ht hp hlast
  | newLine _ _ hp => exact Step.newLine hp
  | breakAt _ hlast =>
    obtain ⟨x, y, hxy, rfl, hne, -, hx, -⟩ := Break.exists_of_last? hlast
    have hdrop : t.drop (x.length + 1) = y := by
      rw [hxy, List.drop_length_add_append]
      rfl
    have htake : t.take x.length = x := by rw [hxy, List.take_left]
    rw [afterStep, htake, hdrop]
    exact Step.blank x y hxy hne (Break.splits_ofAtoms_eq_false.1 hx)

/-- A step ends the line nowhere, or it divides the text at blanks where no atom is split. -/
theorem Step.divides {p p' : Page} {t t' : Text} {e : Option (Nat × Bool)}
    (h : Step l atoms p t e p' t') :
    (e = none ∧ p' = p.append t ∧ t' = []) ∨ ∃ x n joined, e = some (x.length, joined) ∧
      t = x ++ (blanks n ++ t') ∧ p' = (p.append x).breakLine l joined ∧
      ¬ Break.SplitsAtom atoms t x.length := by
  cases h with
  | whole => exact Or.inl ⟨rfl, rfl, rfl⟩
  | blank x y ht _ hx =>
    obtain ⟨n, hn⟩ := exists_blanks_append y
    refine Or.inr ⟨x, n + 1, false, rfl, ?_, rfl, hx⟩
    rw [ht, show blanks (n + 1) ++ withoutBlanks y = ' ' :: (blanks n ++ withoutBlanks y) from rfl,
      ← hn]
  | newLine =>
    obtain ⟨n, hn⟩ := exists_blanks_append t
    have hsplit : ¬ Break.SplitsAtom atoms t 0 := fun ⟨_, _, j, _, hj, _⟩ ↦ Nat.not_lt_zero j hj
    exact Or.inr ⟨[], n, false, rfl, hn, by rw [append_nil], hsplit⟩
  | cut x y c ht _ _ hx => exact Or.inr ⟨x, 0, true, rfl, ht, rfl, hx⟩

theorem wrap_nil (limit : Nat) (p : Page) : wrap l atoms limit p [] = p := by
  cases limit <;> rfl

/-- Without a step left, the rest is put on the line as it is. -/
theorem wrap_zero {t : Text} (ht : t ≠ []) (p : Page) :
    wrap l atoms 0 p t = { p.append t with gaveUp := p.gaveUp + 1 } := by
  obtain ⟨c, u, rfl⟩ := List.exists_cons_of_ne_nil ht
  rfl

/-- With a step left, it is taken. -/
theorem wrap_succ {t : Text} (ht : t ≠ []) (limit : Nat) (p : Page) :
    wrap l atoms (limit + 1) p t =
      wrap l atoms limit (p.afterStep l t (p.nextStep l atoms t)).1
        (p.afterStep l t (p.nextStep l atoms t)).2 := by
  obtain ⟨c, u, rfl⟩ := List.exists_cons_of_ne_nil ht
  rfl

/-- A run of the loop is a step and a shorter run. -/
theorem exists_step {t : Text} (ht : t ≠ []) (limit : Nat) (p : Page) :
    ∃ e p' t', Step l atoms p t e p' t' ∧
      wrap l atoms (limit + 1) p t = wrap l atoms limit p' t' :=
  ⟨_, _, _, step_afterStep p ht, wrap_succ ht limit p⟩

/-! ### The lines -/

/-- A step leaves a text with the same end, or it puts the end on the line. -/
theorem Step.endsInk {p p' : Page} {t t' : Text} {e : Option (Nat × Bool)}
    (hstep : Step l atoms p t e p' t') (h : EndsInk t) :
    (t' = [] ∧ EndsInk p'.current) ∨ EndsInk t' := by
  cases hstep with
  | whole => exact Or.inl ⟨rfl, h.append p.current⟩
  | blank x y ht =>
    rw [ht] at h
    have hy : EndsInk (' ' :: y) := h.of_append (List.cons_ne_nil _ _)
    refine Or.inr (endsInk_withoutBlanks (EndsInk.of_append (s := [' ']) hy ?_))
    rintro rfl
    exact hy.not_isWhite (isWhite_blanks 1)
  | newLine => exact Or.inr (endsInk_withoutBlanks h)
  | cut x y c ht =>
    rw [ht] at h
    exact Or.inr (h.of_append (List.cons_ne_nil c y))

/-- The line on which a text ends has the end of the text. -/
theorem endsInk_wrap (limit : Nat) {p : Page} {t : Text} (h : EndsInk t) :
    EndsInk (wrap l atoms limit p t).current := by
  induction limit generalizing p t with
  | zero =>
    rw [wrap_zero h.ne_nil]
    exact h.append p.current
  | succ limit ih =>
    obtain ⟨e, p', t', hstep, heq⟩ := exists_step h.ne_nil limit p
    rw [heq]
    rcases hstep.endsInk h with ⟨rfl, hend⟩ | hend
    · rwa [wrap_nil]
    · exact ih hend

end Page

end ControlLanguage
