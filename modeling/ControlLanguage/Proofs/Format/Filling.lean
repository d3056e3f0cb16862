import ControlLanguage.Proofs.Format.Breaking
import ControlLanguage.Proofs.Statement.Joining
import ControlLanguage.Proofs.Token.Spacing

/-!
# What a page says

The wrap loop must not change what its lines say when they are joined. `Page.spoken` is the text
that the lines of a page say so far, and `exists_spoken_wrap` follows it through the loop: **the
loop adds the piece of text it is given, respaced**. The only blanks it may lose stand directly
behind an opening parenthesis, where a line may be cut but not broken; and it may make a blank wider
where a line is closed at one.

For this the piece has to be `Wrappable`: outside of literals it has single blanks only, and
literals are guarded by atoms. Both are properties of a text read from a given shape on, and they
pass to the text that is left by a permitted break.

Joining the lines must also undo each break (`Layout.Mends`). With a plus sign it always does.
-/

namespace ControlLanguage

open Text Shape

namespace Layout

/-- How many blanks stand where two lines are joined. -/
def seam (l : Layout) (joined : Bool) : Nat :=
  match l.marker with
  | .plus => if joined then 0 else 1
  | .minus => l.continuationColumn - 1

/-- Joining the lines undoes a break: a text that was cut is whole again, and words between which a
line was closed are still apart. -/
def Mends (l : Layout) (joined : Bool) : Prop :=
  l.seam joined = 0 ↔ joined = true

theorem mends_of_plus {l : Layout} (hl : l.marker = .plus) (joined : Bool) : l.Mends joined := by
  cases joined <;> simp [Mends, seam, hl]

/-- A line is joined behind one blank at least where it was not cut. -/
theorem Mends.exists_seam {l : Layout} (h : l.Mends false) : ∃ n, l.seam false = n + 1 :=
  Nat.exists_eq_succ_of_ne_zero fun hzero ↦ Bool.false_ne_true (h.1 hzero)

theorem Mends.seam_eq_zero {l : Layout} (h : l.Mends true) : l.seam true = 0 :=
  h.2 rfl

end Layout

namespace Page

/-- The text that the lines of a page say when they are joined. -/
def spoken (m : Marker) (p : Page) : Text :=
  p.closed.flatMap (Statement.spoken m) ++ m.resumed p.current

theorem trimEnd_spoken (m : Marker) {p : Page} (h : EndsInk p.current) :
    (p.spoken m).trimEnd = p.spoken m :=
  trimEnd_of_endsInk ((m.endsInk_resumed h).append _)

/-- Text is added as it is, except for white space at the start of a line. -/
theorem spoken_append (m : Marker) {p : Page} {t : Text} (h : IsWhite p.current → BeginsInk t) :
    (p.append t).spoken m = p.spoken m ++ t := by
  have hline : m.resumed (p.current ++ t) = m.resumed p.current ++ t := by
    cases m with
    | minus => rfl
    | plus =>
      by_cases hp : IsWhite p.current
      · exact trimStart_append_of_beginsInk p.current (h hp)
      · exact trimStart_append hp t
  show p.closed.flatMap (Statement.spoken m) ++ m.resumed (p.current ++ t) = _
  rw [hline, ← List.append_assoc, spoken]

/-- What a line says that is closed with a marker, perhaps behind blanks. -/
theorem spoken_closing (m : Marker) {t : Text} (ht : ¬ IsWhite t) (n : Nat) :
    Statement.spoken m (t.trimEnd ++ blanks n ++ [m.char]) =
      (m.resumed t).trimEnd ++ m.kept (blanks n) := by
  have hend : ¬ IsWhite t.trimEnd := ((isWhite_or_endsInk_trimEnd t).resolve_left ht).not_isWhite
  cases m with
  | plus =>
    show List.dropLast (trimStart (t.trimEnd ++ blanks n ++ ['+'])) =
      t.trimStart.trimEnd ++ blanks n
    rw [List.append_assoc, trimStart_append hend, trimStart_trimEnd, ← List.append_assoc,
      List.dropLast_concat, trim]
  | minus =>
    show trimEnd (List.dropLast (t.trimEnd ++ blanks n ++ ['-'])) = t.trimEnd ++ trimEnd (blanks n)
    rw [List.dropLast_concat, trimEnd_append_of_isWhite _ (isWhite_blanks n),
      trimEnd_of_isWhite (isWhite_blanks n), List.append_nil]
    exact Marker.minus.kept_kept t

/-- A new line costs the blanks at the end of the line before it, and adds those of the seam. -/
theorem spoken_breakLine (l : Layout) {p : Page} (joined : Bool) (hp : ¬ IsWhite p.current) :
    (p.breakLine l joined).spoken l.marker =
      (p.spoken l.marker).trimEnd ++ blanks (l.seam joined) := by
  have hresumed : ¬ IsWhite (l.marker.resumed p.current) := by
    obtain ⟨w, hw, hcurrent⟩ := l.marker.exists_append_resumed p.current
    exact fun h ↦ hp (hcurrent ▸ isWhite_append.2 ⟨hw, h⟩)
  have hsaid : (p.spoken l.marker).trimEnd =
      p.closed.flatMap (Statement.spoken l.marker) ++ (l.marker.resumed p.current).trimEnd :=
    trimEnd_append _ hresumed
  have hseam : l.marker.kept (blanks (if joined then 0 else 1)) ++
      l.marker.resumed (blanks (l.continuationColumn - 1)) = blanks (l.seam joined) := by
    rw [Layout.seam]
    rcases l.marker with _ | _
    · rw [Marker.resumed, trimStart_of_isWhite (isWhite_blanks _), List.append_nil]
      rfl
    · rw [Marker.kept, trimEnd_of_isWhite (isWhite_blanks _)]
      rfl
  rw [hsaid, ← hseam, List.append_assoc, ← List.append_assoc (trimEnd _),
    ← spoken_closing l.marker hp, ← List.append_assoc]
  simp only [spoken, breakLine, List.flatMap_append, List.flatMap_singleton]

end Page

/-! ### Texts that may be wrapped -/

/-- A character other than a quote leaves an open literal open. -/
theorem Shape.after_literal {c : Char} (hc : c ≠ quote) :
    (literal false).after c = .literal false := by
  simp [after, extended, hc]

theorem Shape.after_blank {s : Shape} (hs : s ≠ .literal false) : s.after ' ' = .blank := by
  by_cases h : s.extended ' ' = none
  · rw [after_of_stops h]
    rfl
  · obtain ⟨s', hs'⟩ := Option.ne_none_iff_exists'.1 h
    rcases extended_eq_some_of_isBlank (by decide) hs' with rfl | rfl
    · rfl
    · exact absurd rfl hs

theorem Shape.after_opening {s : Shape} (hs : s ≠ .literal false) : s.after '(' = .opening := by
  have hstop : s.extended '(' = none := by
    rcases s with _ | _ | _ | (_ | _) | _ | _ | _ | _ | _
    case literal.false => exact absurd rfl hs
    all_goals decide
  rw [after_of_stops hstop]
  rfl

/-- A lexeme of the given shape goes on with a character and is a literal. -/
def Shape.HoldsInLiteral (s : Shape) (c : Char) : Prop :=
  s.extended c ≠ none ∧ ∃ closed, s = .literal closed

/-- A text, read from a shape on, in which blanks outside of literals are single and followed by
something else, and literals are guarded by atoms. -/
structure Wrappable (atoms : List Text) (s : Shape) (t : Text) : Prop where
  isBlank_of_isWhiteSpace : ∀ c ∈ t, isWhiteSpace c = true → isBlank c = true
  single : ∀ x c y, t = x ++ c :: y → isBlank c = true → s.afterText x ≠ .literal false →
    c = ' ' ∧ ∃ d z, y = d :: z ∧ isBlank d = false
  guarded : ∀ x c y, t = x ++ c :: y → (s.afterText x).HoldsInLiteral c →
    Break.SplitsAtom atoms t x.length

namespace Wrappable

variable {atoms : List Text} {s : Shape}

/-- A permitted break leaves a text that may be wrapped. -/
theorem of_append {x y : Text} (h : Wrappable atoms s (x ++ y))
    (hx : ¬ Break.SplitsAtom atoms (x ++ y) x.length) : Wrappable atoms (s.afterText x) y where
  isBlank_of_isWhiteSpace c hc := h.isBlank_of_isWhiteSpace c (List.mem_append_right x hc)
  single x' c z hz hc hlit := by
    rw [← afterText_append] at hlit
    exact h.single (x ++ x') c z (by rw [hz, List.append_assoc]) hc hlit
  guarded x' c z hz hlit := by
    rw [← afterText_append] at hlit
    have hsplit := h.guarded (x ++ x') c z (by rw [hz, List.append_assoc]) hlit
    rw [List.length_append] at hsplit
    refine hsplit.of_append hx (Nat.pos_of_ne_zero fun hzero ↦ hx ?_)
    rwa [hzero] at hsplit

/-- At a permitted break no literal goes on. -/
theorem not_holdsInLiteral {x y : Text} {c : Char} (h : Wrappable atoms s (x ++ c :: y))
    (hx : ¬ Break.SplitsAtom atoms (x ++ c :: y) x.length) :
    ¬ (s.afterText x).HoldsInLiteral c :=
  fun hlit ↦ hx (h.guarded x c y rfl hlit)

/-- At a permitted break no literal is open. -/
theorem afterText_ne_literal {x y : Text} {c : Char} (h : Wrappable atoms s (x ++ c :: y))
    (hx : ¬ Break.SplitsAtom atoms (x ++ c :: y) x.length) : s.afterText x ≠ .literal false :=
  fun hlit ↦ h.not_holdsInLiteral hx ⟨by simp [hlit, extended], false, hlit⟩

/-- The text in front of a permitted blank ends in ink. -/
theorem endsInk_of_blank {x y : Text} (h : Wrappable atoms s (x ++ ' ' :: y)) (hne : x ≠ [])
    (hx : ¬ Break.SplitsAtom atoms (x ++ ' ' :: y) x.length) : EndsInk x := by
  obtain ⟨w, c, rfl⟩ := (List.eq_nil_or_concat' x).resolve_left hne
  refine ⟨w, c, rfl, Bool.eq_false_iff.2 fun hc ↦ ?_⟩
  have hblank : isBlank c = true := h.isBlank_of_isWhiteSpace c (by simp) hc
  have hlit : s.afterText w ≠ .literal false := by
    intro hlit
    refine h.afterText_ne_literal hx ?_
    rw [afterText_append, hlit]
    exact after_literal (by rintro rfl; exact absurd hblank (by decide))
  obtain ⟨-, d, z, hdz, hd⟩ := h.single w c (' ' :: y) (by simp) hblank hlit
  rw [← (List.cons.inj hdz).1] at hd
  exact absurd hd (by decide)

/-- A break at a permitted blank leaves a text that begins with ink and may be wrapped. -/
theorem of_blank {x y : Text} (h : Wrappable atoms s (x ++ ' ' :: y))
    (hatoms : ∀ a ∈ atoms, a.head? ≠ some ' ')
    (hx : ¬ Break.SplitsAtom atoms (x ++ ' ' :: y) x.length) :
    BeginsInk y ∧ (s.afterText x).after ' ' = .blank ∧ Wrappable atoms .blank y := by
  have hlit := h.afterText_ne_literal hx
  have hafter := after_blank hlit
  obtain ⟨-, d, z, rfl, hd⟩ := h.single x ' ' y rfl (by decide) hlit
  have hrest : Wrappable atoms (s.afterText x) (' ' :: d :: z) := h.of_append hx
  refine ⟨⟨d, z, rfl, Bool.eq_false_iff.2 fun hw ↦ ?_⟩, hafter, ?_, ?_, ?_⟩
  · rw [h.isBlank_of_isWhiteSpace d (by simp) hw] at hd
    exact Bool.noConfusion hd
  · exact fun c hc ↦ h.isBlank_of_isWhiteSpace c (by simp at hc ⊢; tauto)
  · intro x' c z' hz hc hlit'
    exact hrest.single (' ' :: x') c z' (by rw [hz]; rfl) hc (by rwa [afterText_cons, hafter])
  · intro x' c z' hz hlit'
    have hsplit := hrest.guarded (' ' :: x') c z' (by rw [hz]; rfl)
      (by rwa [afterText_cons, hafter])
    exact hsplit.of_cons hatoms

/-- A blank may stand in front of a text that begins with ink. -/
theorem cons_blank {t : Text} (h : Wrappable atoms .blank t) (hbegin : BeginsInk t) :
    Wrappable atoms .closing (' ' :: t) where
  isBlank_of_isWhiteSpace c hc hw := by
    rcases List.mem_cons.1 hc with rfl | hc
    · decide
    · exact h.isBlank_of_isWhiteSpace c hc hw
  single x c y hxy hc hlit := by
    rcases x with _ | ⟨d, x⟩
    · obtain ⟨rfl, rfl⟩ := List.cons.inj hxy
      obtain ⟨d, z, rfl, hd⟩ := hbegin
      exact ⟨rfl, d, z, rfl, isBlank_eq_false_of_ink hd⟩
    · obtain ⟨rfl, rfl⟩ := List.cons.inj hxy
      exact h.single x c y rfl hc hlit
  guarded x c y hxy hlit := by
    rcases x with _ | ⟨d, x⟩
    · exact absurd rfl hlit.1
    · obtain ⟨rfl, rfl⟩ := List.cons.inj hxy
      have hsplit := (h.guarded x c y rfl hlit).append [' ']
      rwa [List.length_singleton, Nat.add_comm] at hsplit

/-- Behind a permitted break stands a single blank or none. -/
theorem isBlank_eq_false {x y : Text} {c : Char} (h : Wrappable atoms s (x ++ c :: y))
    (hc : c ≠ ' ') (hx : ¬ Break.SplitsAtom atoms (x ++ c :: y) x.length) : isBlank c = false :=
  Bool.eq_false_iff.2 fun hb ↦ hc (h.single x c y rfl hb (h.afterText_ne_literal hx)).1

theorem isWhiteSpace_eq_false {t : Text} {c : Char} (h : Wrappable atoms s t) (hc : c ∈ t)
    (hb : isBlank c = false) : isWhiteSpace c = false := by
  by_contra hw
  rw [h.isBlank_of_isWhiteSpace c hc (by simpa using hw)] at hb
  exact Bool.noConfusion hb

/-- **A cut that stands behind a blank stands behind an opening parenthesis.** Any other blank
within the room would have been used, unless it were the end of an atom. -/
theorem exists_opening {x y : Text} {c : Char} {room : Int} (h : Wrappable atoms s (x ++ c :: y))
    (hatoms : ∀ a ∈ atoms, a.getLast? ≠ some ' ') (hne : x ≠ [])
    (hx : ¬ Break.SplitsAtom atoms (x ++ c :: y) x.length) (hroom : (x.length : Int) ≤ room)
    (hlast : Break.last? (Span.ofAtoms atoms (x ++ c :: y)) room (x ++ c :: y) = none)
    (hbegin : BeginsInk (x ++ c :: y)) (hend : ¬ EndsInk x) :
    ∃ v, x = v ++ ['('] ++ [' '] ∧ s.afterText (v ++ ['(']) = .opening := by
  have hlit := h.afterText_ne_literal hx
  obtain ⟨w, b, rfl⟩ := (List.eq_nil_or_concat' x).resolve_left hne
  have ht : w ++ [b] ++ c :: y = w ++ b :: c :: y := by simp
  have hb : isBlank b = true := by
    by_contra hb
    refine hend ⟨w, b, rfl, h.isWhiteSpace_eq_false (by simp) (by simpa using hb)⟩
  have hopen : ∀ v d, d ≠ quote → s.afterText v = .literal false →
      s.afterText (v ++ [d]) = .literal false := by
    intro v d hd hv
    rw [afterText_append, hv]
    exact after_literal hd
  have hw : s.afterText w ≠ .literal false := fun hw ↦
    hlit (hopen w b (by rintro rfl; exact absurd hb (by decide)) hw)
  obtain ⟨rfl, -⟩ := h.single w b (c :: y) ht hb hw
  have hwne : w ≠ [] := by
    rintro rfl
    obtain ⟨d, z, hdz, hd⟩ := hbegin
    rw [← (List.cons.inj hdz).1] at hd
    exact absurd hd (by decide)
  rw [ht] at hx hlast
  rw [List.length_append, List.length_singleton] at hx hroom
  -- otherwise the blank would have been a permitted break, unless it were the end of an atom
  have hparen : w.getLast? = some '(' := by
    by_contra hparen
    have hsplit : Break.SplitsAtom atoms (w ++ ' ' :: c :: y) w.length :=
      Break.splits_ofAtoms.1 (Break.splits_of_last?_eq_none hlast rfl hwne hparen (by omega))
    obtain ⟨a, ha, halast⟩ := hsplit.exists_getLast? hx
    exact hatoms a ha halast
  obtain ⟨v, rfl⟩ := List.getLast?_eq_some_iff.1 hparen
  refine ⟨v, rfl, ?_⟩
  rw [afterText_append]
  exact after_opening fun hv ↦ hw (hopen v '(' (by decide) hv)

end Wrappable

namespace Page

/-! ### One step of the wrap loop -/

/-- After a step either all of the text is said, or a wrappable text is left for a fresh line; what
is said and left is the text of before, respaced. -/
def Advances (m : Marker) (atoms : List Text) (s : Shape) (p : Page) (t : Text)
    (next : Page × Text) : Prop :=
  ∃ v, next.1.spoken m = p.spoken m ++ v ∧
    (next.2 = [] ∧ v = t ∨
      IsWhite next.1.current ∧ BeginsInk next.2 ∧ ∃ s', Wrappable atoms s' next.2 ∧
        ∀ u, Respaced s' next.2 u → Respaced s t (v ++ u))

theorem isWhite_breakLine (l : Layout) (joined : Bool) (p : Page) :
    IsWhite (p.breakLine l joined).current :=
  isWhite_blanks _

theorem not_isWhite_append {p : Page} {x : Text} {c : Char} (hx : c ∈ x)
    (hc : isWhiteSpace c = false) : ¬ IsWhite (p.append x).current := by
  intro h
  rw [h c (List.mem_append_right _ hx)] at hc
  exact Bool.noConfusion hc

/-- The first characters of a text that begins with ink begin with ink. -/
theorem beginsInk_of_append {x y : Text} (hx : x ≠ []) (h : BeginsInk (x ++ y)) : BeginsInk x := by
  obtain ⟨c, u, hcu, hc⟩ := h
  obtain ⟨d, x, rfl⟩ := List.exists_cons_of_ne_nil hx
  obtain ⟨rfl, -⟩ := List.cons.inj hcu
  exact ⟨d, x, rfl, hc⟩

section Step

variable {l : Layout} {atoms : List Text} {s : Shape} {p : Page}

/-- Text that ends in ink is said by a closed line. -/
theorem spoken_closed {x : Text} (joined : Bool) (hend : EndsInk x)
    (hbegin : IsWhite p.current → BeginsInk x) :
    ((p.append x).breakLine l joined).spoken l.marker =
      p.spoken l.marker ++ (x ++ blanks (l.seam joined)) := by
  have hnot : ¬ IsWhite (p.append x).current := by
    obtain ⟨w, c, rfl, hc⟩ := hend
    exact not_isWhite_append (by simp) hc
  rw [spoken_breakLine l joined hnot, spoken_append _ hbegin,
    trimEnd_of_endsInk (hend.append _), List.append_assoc]

theorem advances_of_blank {x y : Text} (hmends : l.Mends false)
    (h : Wrappable atoms s (x ++ ' ' :: y))
    (hatoms : ∀ a ∈ atoms, a.head? ≠ some ' ') (hne : x ≠ [])
    (hx : ¬ Break.SplitsAtom atoms (x ++ ' ' :: y) x.length)
    (hbegin : IsWhite p.current → BeginsInk (x ++ ' ' :: y)) :
    Advances l.marker atoms s p (x ++ ' ' :: y)
      ((p.append x).breakLine l false, withoutBlanks y) := by
  obtain ⟨hink, hafter, hrest⟩ := h.of_blank hatoms hx
  obtain ⟨n, hseam⟩ := hmends.exists_seam
  rw [withoutBlanks_of_beginsInk hink]
  refine ⟨x ++ blanks (n + 1), ?_,
    Or.inr ⟨isWhite_breakLine l false _, hink, .blank, hrest, fun u hu ↦ ?_⟩⟩
  · rw [← hseam]
    exact spoken_closed false (h.endsInk_of_blank hne hx)
      fun hp ↦ beginsInk_of_append hne (hbegin hp)
  · rw [List.append_assoc]
    exact Respaced.append x (hu.blanks_append hafter n)

/-- A cut that no blank follows. It may cost a blank in front of it. -/
theorem advances_of_cut {x y : Text} {c : Char} {room : Int} (hmends : l.Mends true)
    (h : Wrappable atoms s (x ++ c :: y))
    (hatoms : ∀ a ∈ atoms, a.getLast? ≠ some ' ') (hne : x ≠ []) (hc : c ≠ ' ')
    (hx : ¬ Break.SplitsAtom atoms (x ++ c :: y) x.length) (hroom : (x.length : Int) ≤ room)
    (hlast : Break.last? (Span.ofAtoms atoms (x ++ c :: y)) room (x ++ c :: y) = none)
    (hbegin : BeginsInk (x ++ c :: y)) :
    Advances l.marker atoms s p (x ++ c :: y) ((p.append x).breakLine l true, c :: y) := by
  have hcblank : isBlank c = false := h.isBlank_eq_false hc hx
  have hink : BeginsInk (c :: y) :=
    ⟨c, y, rfl, h.isWhiteSpace_eq_false (by simp) hcblank⟩
  have hrest := h.of_append hx
  have hbegin' : BeginsInk x := beginsInk_of_append hne hbegin
  by_cases hend : EndsInk x
  · refine ⟨x, ?_, Or.inr ⟨isWhite_breakLine l true _, hink, _, hrest, fun u hu ↦ hu.append x⟩⟩
    rw [spoken_closed true hend fun _ ↦ hbegin', hmends.seam_eq_zero]
    exact congrArg _ (List.append_nil x)
  · obtain ⟨v, rfl, hshape⟩ := h.exists_opening hatoms hne hx hroom hlast hbegin hend
    have hshape' : s.afterText (v ++ ['('] ++ [' ']) = .blank := by
      rw [afterText_append, hshape]
      rfl
    rw [hshape'] at hrest
    refine ⟨v ++ ['('], ?_, Or.inr ⟨isWhite_breakLine l true _, hink, _, hrest, fun u hu ↦ ?_⟩⟩
    · have hnot : ¬ IsWhite (p.append (v ++ ['('] ++ [' '])).current :=
        not_isWhite_append (c := '(') (by simp) (by decide)
      have hvend : EndsInk (v ++ ['(']) := ⟨v, '(', rfl, by decide⟩
      have hspoken : (p.append (v ++ ['('] ++ [' '])).spoken l.marker =
          p.spoken l.marker ++ (v ++ ['(']) ++ [' '] := by
        rw [spoken_append _ fun _ ↦ hbegin', ← List.append_assoc]
      rw [spoken_breakLine l true hnot, hspoken,
        trimEnd_append_of_isWhite (w := [' ']) _ (isWhite_blanks 1),
        trimEnd_of_endsInk (hvend.append _), hmends.seam_eq_zero]
      exact List.append_nil _
    · rw [List.append_assoc (v ++ ['('])]
      refine Respaced.append (v ++ ['(']) ?_
      rw [hshape]
      exact Respaced.drop hcblank hu

/-- **One step says what it takes from the text**, unless it only begins a new line. -/
theorem Step.advances_or {p' : Page} {t t' : Text} {e : Option (Nat × Bool)}
    (hstep : Step l atoms p t e p' t') (hmends : ∀ i joined, e = some (i, joined) → l.Mends joined)
    (h : Wrappable atoms s t) (hatoms : ∀ a ∈ atoms, a.IsUnpadded)
    (hbegin : IsWhite p.current → BeginsInk t) :
    Advances l.marker atoms s p t (p', t') ∨
      ¬ IsWhite p.current ∧ p' = p.breakLine l false ∧ t' = withoutBlanks t ∧ l.Mends false := by
  cases hstep with
  | whole => exact Or.inl ⟨t, spoken_append _ hbegin, Or.inl ⟨rfl, rfl⟩⟩
  | blank x y ht hne hx =>
    subst ht
    exact Or.inl (advances_of_blank (hmends _ _ rfl) h (fun a ha ↦ (hatoms a ha).1) hne hx hbegin)
  | newLine hp => exact Or.inr ⟨hp, rfl, rfl, hmends _ _ rfl⟩
  | cut x y c ht hne hc hx hp hroom hlast =>
    subst ht
    exact Or.inl (advances_of_cut (hmends _ _ rfl) h (fun a ha ↦ (hatoms a ha).2) hne hc hx hroom
      hlast (hbegin hp))

end Step

/-! ### The wrap loop -/

section Wrap

variable {l : Layout} {atoms : List Text}

/-- A run of the loop is a step and a shorter run, and its breaks are that of the step and those of
the shorter run. -/
theorem exists_step_of_mends {t : Text} (ht : t ≠ []) (limit start : Nat) (p : Page)
    (hmends : ∀ b ∈ breaksFrom l atoms (limit + 1) start p t, l.Mends b.joined) :
    ∃ e p' t', Step l atoms p t e p' t' ∧
      wrap l atoms (limit + 1) p t = wrap l atoms limit p' t' ∧
      (∀ i joined, e = some (i, joined) → l.Mends joined) ∧
      (t' ≠ [] → ∃ start', ∀ b ∈ breaksFrom l atoms limit start' p' t', l.Mends b.joined) := by
  obtain ⟨c, u, rfl⟩ := List.exists_cons_of_ne_nil ht
  have hstep : Step l atoms p (c :: u) _ _ _ := step_afterStep p ht
  refine ⟨_, _, _, hstep, rfl, ?_⟩
  rw [breaksFrom_succ ht] at hmends
  generalize p.afterStep l (c :: u) (p.nextStep l atoms (c :: u)) = next at *
  generalize lineEnd? (c :: u) (p.nextStep l atoms (c :: u)) = e at *
  rcases e with _ | ⟨i, joined⟩
  · refine ⟨nofun, fun hne ↦ ?_⟩
    rcases hstep.divides with ⟨-, -, hnil⟩ | ⟨x, n, joined, he, -⟩
    · exact absurd hnil hne
    · exact absurd he nofun
  · refine ⟨?_, fun _ ↦ ⟨_, fun b hb ↦ hmends b (List.mem_cons_of_mem _ hb)⟩⟩
    rintro i' joined' he
    obtain ⟨-, rfl⟩ := Prod.mk.inj (Option.some.inj he)
    exact hmends _ List.mem_cons_self

variable (hatoms : ∀ a ∈ atoms, a.IsUnpadded)

include hatoms

/-- **On a fresh line the loop says its text, respaced.** The induction is on the steps; each step
leaves a fresh line again. -/
theorem exists_spoken_wrap_of_isWhite (limit start : Nat) {p : Page} {s : Shape} {t : Text}
    (hmends : ∀ b ∈ breaksFrom l atoms limit start p t, l.Mends b.joined)
    (hp : IsWhite p.current) (hbegin : BeginsInk t) (h : Wrappable atoms s t) :
    ∃ u, Respaced s t u ∧
      (wrap l atoms limit p t).spoken l.marker = p.spoken l.marker ++ u := by
  induction limit generalizing start p s t with
  | zero =>
    refine ⟨t, Respaced.refl s t, ?_⟩
    rw [wrap_zero hbegin.ne_nil]
    exact spoken_append _ (p := p) fun _ ↦ hbegin
  | succ limit ih =>
    obtain ⟨e, p', t', hstep, heq, hmend, hmends'⟩ :=
      exists_step_of_mends hbegin.ne_nil limit start p hmends
    rw [heq]
    rcases hstep.advances_or hmend h hatoms fun _ ↦ hbegin with ⟨v, hspoken, hnext⟩ | ⟨hnot, -⟩
    · rcases hnext with ⟨hnil, rfl⟩ | ⟨hwhite, hink, s', hrest, hrespaced⟩
      · obtain rfl : t' = [] := hnil
        exact ⟨v, Respaced.refl s v, by rwa [wrap_nil]⟩
      · obtain ⟨start', hmends'⟩ := hmends' hink.ne_nil
        obtain ⟨u, hu, hwrap⟩ := ih start' hmends' hwhite hink hrest
        exact ⟨v ++ u, hrespaced u hu, by rw [hwrap, hspoken, List.append_assoc]⟩
    · exact absurd hp hnot

/-- **Behind other text the loop says its text, respaced**, perhaps on a new line, where the blanks
of the seam stand for those between the two. -/
theorem exists_spoken_wrap (limit start : Nat) {p : Page} {s : Shape} {t : Text}
    (hmends : ∀ b ∈ breaksFrom l atoms limit start p t, l.Mends b.joined)
    (hp : ¬ IsWhite p.current) (ht : ¬ IsWhite t) (h : Wrappable atoms s t)
    (hrest : Wrappable atoms .blank (withoutBlanks t)) (hbegin : BeginsInk (withoutBlanks t)) :
    (∃ u, Respaced s t u ∧
      (wrap l atoms limit p t).spoken l.marker = p.spoken l.marker ++ u) ∨
      ∃ n u, Respaced .blank (withoutBlanks t) u ∧
        (wrap l atoms limit p t).spoken l.marker =
          (p.spoken l.marker).trimEnd ++ (blanks (n + 1) ++ u) := by
  have hne : t ≠ [] := by
    rintro rfl
    exact ht isWhite_nil
  cases limit with
  | zero =>
    refine Or.inl ⟨t, Respaced.refl s t, ?_⟩
    rw [wrap_zero hne]
    exact spoken_append _ (p := p) fun hp' ↦ absurd hp' hp
  | succ limit =>
    obtain ⟨e, p', t', hstep, heq, hmend, hmends'⟩ := exists_step_of_mends hne limit start p hmends
    rw [heq]
    rcases hstep.advances_or hmend h hatoms fun hp' ↦ absurd hp' hp with
      ⟨v, hspoken, hnext⟩ | ⟨-, rfl, rfl, hseam⟩
    · rcases hnext with ⟨hnil, rfl⟩ | ⟨hwhite, hink, s', hrest', hrespaced⟩
      · obtain rfl : t' = [] := hnil
        exact Or.inl ⟨v, Respaced.refl s v, by rwa [wrap_nil]⟩
      · obtain ⟨start', hmends'⟩ := hmends' hink.ne_nil
        obtain ⟨u, hu, hwrap⟩ :=
          exists_spoken_wrap_of_isWhite hatoms limit start' hmends' hwhite hink hrest'
        exact Or.inl ⟨v ++ u, hrespaced u hu, by rw [hwrap, hspoken, List.append_assoc]⟩
    · obtain ⟨start', hmends'⟩ := hmends' hbegin.ne_nil
      obtain ⟨u, hu, hwrap⟩ := exists_spoken_wrap_of_isWhite hatoms limit start' hmends'
        (isWhite_breakLine l false p) hbegin hrest
      obtain ⟨n, hn⟩ := hseam.exists_seam
      refine Or.inr ⟨n, u, hu, ?_⟩
      rw [hwrap, spoken_breakLine l false hp, List.append_assoc, hn]

end Wrap

end Page

end ControlLanguage
