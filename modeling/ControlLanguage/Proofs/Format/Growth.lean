import ControlLanguage.Proofs.Format.Columns
import ControlLanguage.Proofs.Format.Termination

/-!
# How a page grows

A page only grows: text is added to the line in hand, and closing this line takes white space from
its end and nothing else. **What a line begins with is there to stay** (`Page.Extends`), for a step
of the wrap loop, a piece of text and all pieces of a command. So a statement about a finished line
can be made when its beginning is written.

The pieces of a parameter each have a line to begin on. It is a new one for each piece behind the
first (`Page.page_eq_breakLine`), and the beginning of the piece is put on it as far as there is
room (`Page.exists_extends_of_prefix`).
-/

namespace ControlLanguage

open Text

namespace Text

/-- A text without white space ends with ink. -/
theorem endsInk_of_forall {t : Text} (hne : t ≠ []) (h : ∀ c ∈ t, isWhiteSpace c = false) :
    EndsInk t := by
  obtain ⟨u, c, rfl⟩ := (List.eq_nil_or_concat' t).resolve_left hne
  exact ⟨u, c, rfl, h c (List.mem_append_right u List.mem_cons_self)⟩

/-- A beginning stays a beginning without the white space at the ends. -/
theorem trimEnd_prefix_trimEnd {s t : Text} (h : s <+: t) : s.trimEnd <+: t.trimEnd := by
  obtain ⟨u, rfl⟩ := h
  by_cases hu : IsWhite u
  · rw [trimEnd_append_of_isWhite s hu]
  · rw [trimEnd_append s hu]
    exact (List.rdropWhile_prefix _ s).trans (List.prefix_append _ _)

end Text

namespace Page

/-- A page as it goes on: more is on the line in hand; or that line is closed, with the ink at its
start in place. -/
def Extends (p p' : Page) : Prop :=
  (p'.closed = p.closed ∧ p.current <+: p'.current) ∨
    ∃ line rest, p'.closed = p.closed ++ line :: rest ∧ p.current.trimEnd <+: line

variable {l : Layout} {atoms : List Text} {p p' p'' : Page}

namespace Extends

theorem refl (p : Page) : p.Extends p :=
  Or.inl ⟨rfl, List.prefix_rfl⟩

/-- A page goes on with what is put on it. -/
theorem append (p : Page) (t : Text) : p.Extends (p.append t) :=
  Or.inl ⟨rfl, List.prefix_append _ _⟩

/-- A page goes on with what is on the next line. -/
theorem breakLine (p : Page) (l : Layout) (joined : Bool) : p.Extends (p.breakLine l joined) :=
  Or.inr ⟨_, [], closed_breakLine l joined p, List.prefix_append _ _⟩

theorem trans (h : p.Extends p') (h' : p'.Extends p'') : p.Extends p'' := by
  rcases h with ⟨hclosed, hcurrent⟩ | ⟨line, rest, hclosed, hline⟩
  · rcases h' with ⟨hclosed', hcurrent'⟩ | ⟨line, rest, hclosed', hline⟩
    · exact Or.inl ⟨hclosed'.trans hclosed, hcurrent.trans hcurrent'⟩
    · have hstart := (trimEnd_prefix_trimEnd hcurrent).trans hline
      exact Or.inr ⟨line, rest, by rw [hclosed', hclosed], hstart⟩
  · refine Or.inr ?_
    rcases h' with ⟨hclosed', -⟩ | ⟨line', rest', hclosed', -⟩
    · exact ⟨line, rest, hclosed'.trans hclosed, hline⟩
    · exact ⟨line, rest ++ line' :: rest', by rw [hclosed', hclosed]; simp, hline⟩

/-- **Filling a page only adds to it.** -/
theorem wrap (limit : Nat) (p : Page) (t : Text) : p.Extends (Page.wrap l atoms limit p t) := by
  induction limit generalizing p t with
  | zero =>
    by_cases ht : t = []
    · rw [ht, wrap_nil]
      exact refl p
    · rw [wrap_zero ht]
      exact append p t
  | succ limit ih =>
    by_cases ht : t = []
    · rw [ht, wrap_nil]
      exact refl p
    · rcases wrap_or_break ht limit 0 p with ⟨hwrap, -⟩ | ⟨x, n, joined, t', -, -, hwrap, -⟩
      · rw [hwrap]
        exact append p t
      · rw [hwrap]
        exact (append p x).trans ((breakLine _ l joined).trans (ih _ t'))

/-- Lines that are closed stay as they are. -/
theorem closed_prefix_closed (h : p.Extends p') : p.closed <+: p'.closed := by
  rcases h with ⟨hclosed, -⟩ | ⟨line, rest, hclosed, -⟩
  · rw [hclosed]
  · rw [hclosed]
    exact List.prefix_append _ _

/-- **The finished line begins as the line in hand does.** -/
theorem exists_line (h : p.Extends p') {u : Text} (hink : EndsInk u) (hu : u <+: p.current) :
    ∃ line, p'.lines[p.closed.length]? = some line ∧ u <+: line := by
  have htrim : ∀ {t : Text}, u <+: t → u <+: t.trimEnd := fun {t} ht ↦ by
    have hle := trimEnd_prefix_trimEnd ht
    rwa [trimEnd_of_endsInk hink] at hle
  rcases h with ⟨hclosed, hcurrent⟩ | ⟨line, rest, hclosed, hline⟩
  · refine ⟨p'.current.trimEnd, ?_, htrim (hu.trans hcurrent)⟩
    rw [lines, hclosed]
    simp
  · refine ⟨line, ?_, (htrim hu).trans hline⟩
    rw [lines, hclosed]
    simp

/-- **A line that is closed is one of the finished lines**, with what it ends in. -/
theorem getElem?_lines_of_breakLine {joined : Bool} (h : (p.breakLine l joined).Extends p') :
    p'.lines[p.closed.length]? = some (p.current.trimEnd ++ l.ending joined) := by
  obtain ⟨rest, hrest⟩ := h.closed_prefix_closed
  rw [lines, ← hrest, closed_breakLine]
  simp [Layout.ending]

end Extends

/-! ### The first word of a piece -/

/-- **A piece begins on the line in hand if that is fresh**, with as much of its first word as there
is room for. -/
theorem exists_extends_of_prefix (hp : IsWhite p.current) (hroom : 1 ≤ p.room l) {w t : Text}
    (hw : w <+: t) (hne : w ≠ []) (hblank : ' ' ∉ w) {limit : Nat} (hlimit : 0 < limit) :
    ∃ x, w.take (p.room l).toNat <+: x ∧
      (p.append x).Extends (Page.wrap l atoms limit p t) := by
  obtain ⟨limit, rfl⟩ := Nat.exists_eq_succ_of_ne_zero hlimit.ne'
  have ht : t ≠ [] := by
    rintro rfl
    exact hne (List.prefix_nil.1 hw)
  have hstep : Step l atoms p t _ _ _ := step_afterStep p ht
  have hcut : ∀ {i : Nat}, lineEnd? t (p.nextStep l atoms t) = some (i, true) →
      Break.earliest (p.room l) t ≤ i := earliest_le_of_lineEnd?
  rw [wrap_succ ht]
  generalize lineEnd? t (p.nextStep l atoms t) = e at hstep hcut
  generalize p.afterStep l t (p.nextStep l atoms t) = next at hstep ⊢
  obtain ⟨p', t'⟩ := next
  have htake : w.take (p.room l).toNat <+: t := (List.take_prefix _ w).trans hw
  cases hstep with
  | whole => exact ⟨t, htake, Extends.wrap limit _ _⟩
  | blank x y hxy =>
    refine ⟨x, ?_, (Extends.breakLine _ l false).trans (Extends.wrap limit _ _)⟩
    refine List.prefix_of_prefix_length_le htake (hxy ▸ List.prefix_append x _) ?_
    by_contra hlt
    -- the blank would be in the word
    obtain ⟨z, hz⟩ := htake
    have hget : (w.take (p.room l).toNat ++ z)[x.length]? = some ' ' := by simp [hz, hxy]
    rw [List.getElem?_append_left (Nat.not_le.1 hlt)] at hget
    exact hblank (List.mem_of_mem_take (List.mem_of_getElem? hget))
  | newLine hnot => exact absurd hp hnot
  | cut x y c hxy =>
    refine ⟨x, ?_, (Extends.breakLine _ l true).trans (Extends.wrap limit _ _)⟩
    refine List.prefix_of_prefix_length_le htake (hxy ▸ List.prefix_append x _) ?_
    have hearliest := hcut rfl
    have hle := htake.length_le
    rw [Break.earliest] at hearliest
    rw [List.length_take] at hle ⊢
    omega

/-! ### The pieces of a page -/

/-- So do all the pieces that are put on it. -/
theorem FilledBy.extends {qs : List Piece} (h : FilledBy l atoms p qs p') : p.Extends p' := by
  induction qs generalizing p with
  | nil =>
    obtain rfl : p' = p := h
    exact Extends.refl p'
  | cons q qs ih =>
    obtain ⟨hpage, hrest⟩ := h
    have hq : p.Extends q.page := by
      rcases hpage with hpage | hpage
      · rw [hpage]
        exact Extends.refl p
      · rw [hpage]
        exact Extends.breakLine p l false
    exact hq.trans ((Extends.wrap stepLimit q.page q.text).trans (ih hrest))

/-- Behind one of the pieces the page is filled by the others. -/
theorem FilledBy.drop {qs : List Piece} (h : FilledBy l atoms p qs p') {n : Nat} {q : Piece}
    (hq : qs[n]? = some q) : FilledBy l atoms (q.filled l atoms) (qs.drop (n + 1)) p' := by
  induction qs generalizing p n with
  | nil => cases hq
  | cons r qs ih =>
    cases n with
    | zero =>
      obtain rfl := Option.some.inj hq
      exact h.2
    | succ n => exact ih h.2 hq

theorem map_text_segmentPieces (p : Page) (t : Text) (us : List Text) :
    (segmentPieces l atoms p t us).map (·.text) = t :: us := by
  induction us generalizing p t with
  | nil => rfl
  | cons u us ih => exact congrArg (t :: ·) (ih _ u)

theorem getElem?_segmentPieces_zero (p : Page) (t : Text) (us : List Text) :
    (segmentPieces l atoms p t us)[0]? = some ⟨p, t⟩ := by
  cases us <;> rfl

/-- **Each piece behind the first begins a continuation line.** -/
theorem page_eq_breakLine {t : Text} {us : List Text} {n : Nat} {q r : Piece}
    (hq : (segmentPieces l atoms p t us)[n]? = some q)
    (hr : (segmentPieces l atoms p t us)[n + 1]? = some r) :
    r.page = (q.filled l atoms).breakLine l false := by
  induction us generalizing p t n with
  | nil => cases n <;> cases hr
  | cons u us ih =>
    cases n with
    | zero =>
      obtain rfl := Option.some.inj hq
      rw [segmentPieces, List.getElem?_cons_succ, getElem?_segmentPieces_zero] at hr
      obtain rfl := Option.some.inj hr
      rfl
    | succ n => exact ih hq hr

/-- A break behind a piece closes one more line. -/
theorem length_closed_lt (q : Piece) :
    q.page.closed.length < ((q.filled l atoms).breakLine l false).closed.length := by
  have hle := (@Extends.wrap l atoms stepLimit q.page q.text).closed_prefix_closed.length_le
  rw [closed_breakLine, List.length_append]
  exact Nat.lt_succ_of_le hle

/-- The lines on which the pieces begin come one after the other. -/
theorem length_closed_lt_of_lt {t : Text} {us : List Text} {n m : Nat} {q r : Piece} (h : n < m)
    (hq : (segmentPieces l atoms p t us)[n]? = some q)
    (hr : (segmentPieces l atoms p t us)[m]? = some r) :
    q.page.closed.length < r.page.closed.length := by
  induction m, h using Nat.le_induction generalizing r with
  | base =>
    rw [page_eq_breakLine hq hr]
    exact length_closed_lt q
  | succ m hm ih =>
    have hlt := (List.getElem?_eq_some_iff.1 hr).1
    have hbefore := List.getElem?_eq_getElem (Nat.lt_of_succ_lt hlt)
    rw [page_eq_breakLine hbefore hr]
    exact (ih hbefore).trans (length_closed_lt _)

end Page

end ControlLanguage
