import ControlLanguage.Format.Statement
import ControlLanguage.Proofs.Format.Wrapping

/-!
# Where lines are broken

A break in a piece of text has the place where a line ends and the place where the next one goes
on; the blanks in between are on neither line. `Page.breaksFrom` records the breaks of the wrap
loop, and a page is what its breaks make of the text (`wrap_eq_layOut`), so **what holds of the
breaks holds of the lines**.

The spans of the atoms are found anew in the text that is left after each break. Nothing is lost by
that: an occurrence of an atom lies in front of the break or is found again behind it
(`IsKept.before_or_behind`). From there on the two results about whole runs are inductions on the
number of steps: every occurrence lies on one side of every break, and it is on one of the lines.

A command is formatted by handing one piece of text after another to the wrap loop. `Command.pieces`
lists them, each with the page it is put on, and `Command.filledBy_pieces` says that the page of the
command is filled by them and nothing else.
-/

namespace ControlLanguage

open Text

/-- A break in a piece of text. -/
structure LineBreak where
  /-- Where the line ends. -/
  stop : Nat
  /-- Where the next line goes on, behind the blanks that the break costs. -/
  resume : Nat
  /-- Whether the marker stands directly behind the text. -/
  joined : Bool
  deriving DecidableEq, Repr

namespace Page

/-- The breaks that the wrap loop makes in what is left of a piece after `start` characters. -/
def breaksFrom (l : Layout) (atoms : List Text) :
    (limit start : Nat) → Page → Text → List LineBreak
  | _, _, _, [] => []
  | 0, _, _, _ => []
  | limit + 1, start, p, t =>
    let step := p.nextStep l atoms t
    let next := p.afterStep l t step
    let resume := start + (t.length - next.2.length)
    match lineEnd? t step with
    | none => []
    | some (i, joined) =>
      ⟨start + i, resume, joined⟩ :: breaksFrom l atoms limit resume next.1 next.2

/-- The page on which a piece is laid out from `start` on, with the given breaks. -/
def layOut (l : Layout) (t : Text) : (start : Nat) → Page → List LineBreak → Page
  | start, p, [] => p.append (t.drop start)
  | start, p, b :: bs =>
    layOut l t b.resume ((p.append ((t.take b.stop).drop start)).breakLine l b.joined) bs

variable {l : Layout} {atoms : List Text}

theorem breaksFrom_nil (limit start : Nat) (p : Page) :
    breaksFrom l atoms limit start p [] = [] := by
  cases limit <;> rfl

theorem breaksFrom_zero (start : Nat) (p : Page) (t : Text) :
    breaksFrom l atoms 0 start p t = [] := by
  cases t <;> rfl

/-- The breaks of a run are that of its first step and those behind it. -/
theorem breaksFrom_succ {t : Text} (ht : t ≠ []) (limit start : Nat) (p : Page) :
    breaksFrom l atoms (limit + 1) start p t =
      match lineEnd? t (p.nextStep l atoms t) with
      | none => []
      | some (i, joined) =>
        let next := p.afterStep l t (p.nextStep l atoms t)
        let resume := start + (t.length - next.2.length)
        ⟨start + i, resume, joined⟩ :: breaksFrom l atoms limit resume next.1 next.2 := by
  obtain ⟨c, u, rfl⟩ := List.exists_cons_of_ne_nil ht
  rfl

/-- **A run of the loop is all on one line, or it begins with a break** where no atom is split. -/
theorem wrap_or_break {t : Text} (ht : t ≠ []) (limit start : Nat) (p : Page) :
    (wrap l atoms (limit + 1) p t = p.append t ∧ breaksFrom l atoms (limit + 1) start p t = []) ∨
      ∃ x n joined t', t = x ++ (blanks n ++ t') ∧ ¬ Break.SplitsAtom atoms t x.length ∧
        wrap l atoms (limit + 1) p t =
          wrap l atoms limit ((p.append x).breakLine l joined) t' ∧
        breaksFrom l atoms (limit + 1) start p t =
          ⟨start + x.length, start + (x.length + n), joined⟩ ::
            breaksFrom l atoms limit (start + (x.length + n))
              ((p.append x).breakLine l joined) t' := by
  have hstep : Step l atoms p t _ _ _ := step_afterStep p ht
  rw [wrap_succ ht, breaksFrom_succ ht]
  generalize p.afterStep l t (p.nextStep l atoms t) = next at *
  obtain ⟨p', t'⟩ := next
  rcases hstep.divides with ⟨he, hp, hnil⟩ | ⟨x, n, joined, he, hx, hp, hsplit⟩
  · obtain rfl : t' = [] := hnil
    obtain rfl : p' = p.append t := hp
    exact Or.inl ⟨wrap_nil limit _, by simp only [he]⟩
  · obtain rfl : p' = (p.append x).breakLine l joined := hp
    have hlen : t.length - t'.length = x.length + n := by
      have hx' := congrArg List.length hx
      simp only [List.length_append, blanks, List.length_replicate] at hx'
      omega
    refine Or.inr ⟨x, n, joined, t', hx, hsplit, rfl, ?_⟩
    simp only [he, hlen]

/-- **The lines are what the breaks make of the text.** -/
theorem wrap_eq_layOut (limit : Nat) (p : Page) (z t : Text) :
    { wrap l atoms limit p t with gaveUp := p.gaveUp } =
      layOut l (z ++ t) z.length p (breaksFrom l atoms limit z.length p t) := by
  induction limit generalizing p z t with
  | zero =>
    rw [breaksFrom_zero, layOut, List.drop_left]
    by_cases ht : t = []
    · rw [ht, wrap_nil, append_nil]
    · rw [wrap_zero ht]
      rfl
  | succ limit ih =>
    by_cases ht : t = []
    · rw [ht, wrap_nil, breaksFrom_nil, layOut, List.drop_left, append_nil]
    · rcases wrap_or_break ht limit z.length p with ⟨hwrap, hbreaks⟩ |
        ⟨x, n, joined, t', rfl, -, hwrap, hbreaks⟩
      · rw [hwrap, hbreaks, layOut, List.drop_left]
        rfl
      · have hlen : (z ++ (x ++ blanks n)).length = z.length + (x.length + n) := by
          simp [blanks]
        have hassoc : z ++ (x ++ (blanks n ++ t')) = (z ++ (x ++ blanks n)) ++ t' := by
          simp only [List.append_assoc]
        have hx :
            ((z ++ (x ++ (blanks n ++ t'))).take (z.length + x.length)).drop z.length = x := by
          rw [List.take_length_add_append, List.take_left, List.drop_left]
        rw [hwrap, hbreaks, layOut, hx, hassoc, ← hlen]
        exact ih ((p.append x).breakLine l joined) (z ++ (x ++ blanks n)) t'

/-- The breaks come behind the place from which the text is left. -/
theorem le_stop_of_mem (limit start : Nat) (p : Page) (t : Text) :
    ∀ b ∈ breaksFrom l atoms limit start p t, start ≤ b.stop := by
  induction limit generalizing start p t with
  | zero => simp [breaksFrom_zero]
  | succ limit ih =>
    by_cases ht : t = []
    · simp [ht, breaksFrom_nil]
    · rcases wrap_or_break ht limit start p with ⟨-, hbreaks⟩ |
        ⟨x, n, joined, t', -, -, -, hbreaks⟩
      · rw [hbreaks]
        nofun
      · intro b hb
        rw [hbreaks] at hb
        rcases List.mem_cons.1 hb with rfl | hb
        · exact Nat.le_add_right _ _
        · exact (Nat.le_add_right _ _).trans (ih _ _ _ b hb)

/-! ### Texts that are kept whole -/

/-- An atom that does not begin with a blank. -/
structure IsKept (atoms : List Text) (w : Text) : Prop where
  mem : w ∈ atoms
  begins : ∃ c u, w = c :: u ∧ c ≠ ' '

/-- **An occurrence lies in front of a permitted break or is found again behind it.** -/
theorem IsKept.before_or_behind {w x t : Text} (h : IsKept atoms w) {n j : Nat}
    (hx : ¬ Break.SplitsAtom atoms (x ++ (blanks n ++ t)) x.length)
    (hj : w <+: (x ++ (blanks n ++ t)).drop j) :
    j + w.length ≤ x.length ∨ ∃ k, j = x.length + n + k ∧ w <+: t.drop k := by
  by_cases hbefore : j < x.length
  · refine Or.inl ?_
    by_contra hlen
    exact hx ⟨w, h.mem, j, hj, hbefore, by omega⟩
  obtain ⟨k, rfl⟩ := Nat.exists_eq_add_of_le (Nat.le_of_not_lt hbefore)
  rw [List.drop_length_add_append] at hj
  by_cases hblank : k < n
  · -- the occurrence would begin with one of the blanks
    have hdrop : (blanks n ++ t).drop k = ' ' :: (blanks (n - k - 1) ++ t) := by
      have hsplit : blanks n = blanks k ++ ' ' :: blanks (n - k - 1) := by
        rw [blanks, blanks, blanks, ← List.replicate_succ, List.replicate_append_replicate]
        congr 1
        omega
      have hk : (blanks k).length = k := List.length_replicate
      rw [hsplit, List.append_assoc]
      nth_rewrite 1 [← hk]
      rw [List.drop_left]
      rfl
    obtain ⟨c, u, rfl, hc⟩ := h.begins
    rw [hdrop] at hj
    exact absurd (List.cons_prefix_cons.1 hj).1 hc
  · obtain ⟨m, rfl⟩ := Nat.exists_eq_add_of_le (Nat.le_of_not_lt hblank)
    have hn : (blanks n).length = n := List.length_replicate
    refine Or.inr ⟨m, by omega, ?_⟩
    nth_rewrite 1 [← hn] at hj
    rwa [List.drop_length_add_append] at hj

/-- **No break comes between the characters of an occurrence.** The induction is on the steps, for
every place where the text that is left may have begun. -/
theorem IsKept.le_stop_or_resume_le {w : Text} (h : IsKept atoms w) (limit start : Nat) (p : Page)
    {t : Text} {j : Nat} (hj : w <+: t.drop j) :
    ∀ b ∈ breaksFrom l atoms limit start p t,
      start + j + w.length ≤ b.stop ∨ b.resume ≤ start + j := by
  induction limit generalizing start p t j with
  | zero => simp [breaksFrom_zero]
  | succ limit ih =>
    by_cases ht : t = []
    · simp [ht, breaksFrom_nil]
    · rcases wrap_or_break ht limit start p with ⟨-, hbreaks⟩ |
        ⟨x, n, joined, t', rfl, hsplit, -, hbreaks⟩
      · rw [hbreaks]
        nofun
      · intro b hb
        rw [hbreaks] at hb
        rcases h.before_or_behind hsplit hj with hbefore | ⟨k, rfl, hk⟩
        · rcases List.mem_cons.1 hb with rfl | hb
          · exact Or.inl (show start + j + w.length ≤ start + x.length by omega)
          · have hstart := le_stop_of_mem limit _ _ t' b hb
            exact Or.inl (by omega)
        · rcases List.mem_cons.1 hb with rfl | hb
          · exact Or.inr (show start + (x.length + n) ≤ start + (x.length + n + k) by omega)
          · have hrest := ih (start + (x.length + n)) _ hk b hb
            omega

/-! ### Texts on a line -/

/-- Some line of the page has the text on it. -/
def Holds (p : Page) (w : Text) : Prop :=
  ∃ line ∈ p.closed ++ [p.current], w <:+: line

variable {w : Text}

theorem Holds.append {p : Page} (h : p.Holds w) (t : Text) : (p.append t).Holds w := by
  obtain ⟨line, hline, hw⟩ := h
  rcases List.mem_append.1 hline with hline | hline
  · exact ⟨line, List.mem_append_left _ hline, hw⟩
  · rw [List.mem_singleton.1 hline] at hw
    exact ⟨p.current ++ t, by simp [Page.append], hw.trans (List.prefix_append _ _).isInfix⟩

theorem holds_append (p : Page) {t : Text} (h : w <:+: t) : (p.append t).Holds w :=
  ⟨p.current ++ t, by simp [Page.append], h.trans (List.suffix_append _ _).isInfix⟩

variable (hink : EndsInk w)

include hink

/-- Closing a line takes white space from its end only. -/
theorem Holds.breakLine {p : Page} (h : p.Holds w) (l : Layout) (joined : Bool) :
    (p.breakLine l joined).Holds w := by
  obtain ⟨line, hline, hw⟩ := h
  rcases List.mem_append.1 hline with hline | hline
  · exact ⟨line, by simp [Page.breakLine, hline], hw⟩
  · rw [List.mem_singleton.1 hline] at hw
    refine ⟨_, List.mem_append_left _ (List.mem_append_right _ (List.mem_singleton.2 rfl)), ?_⟩
    rw [List.append_assoc]
    exact (infix_trimEnd hink hw).trans (List.prefix_append _ _).isInfix

theorem Holds.wrap {p : Page} (h : p.Holds w) (limit : Nat) (t : Text) :
    (wrap l atoms limit p t).Holds w := by
  induction limit generalizing p t with
  | zero =>
    by_cases ht : t = []
    · rwa [ht, wrap_nil]
    · rw [wrap_zero ht]
      exact h.append t
  | succ limit ih =>
    by_cases ht : t = []
    · rwa [ht, wrap_nil]
    · rcases wrap_or_break ht limit 0 p with ⟨hwrap, -⟩ | ⟨x, n, joined, t', -, -, hwrap, -⟩
      · rw [hwrap]
        exact h.append t
      · rw [hwrap]
        exact ih ((h.append x).breakLine hink l joined) t'

/-- **A kept text is on one of the lines.** -/
theorem IsKept.holds_wrap (h : IsKept atoms w) (limit : Nat) (p : Page) {t : Text} {j : Nat}
    (hj : w <+: t.drop j) : (Page.wrap l atoms limit p t).Holds w := by
  have hinfix : w <:+: t := hj.isInfix.trans (List.drop_suffix j t).isInfix
  induction limit generalizing p t j with
  | zero =>
    have ht : t ≠ [] := fun ht ↦ hink.ne_nil (List.infix_nil.1 (ht ▸ hinfix))
    rw [wrap_zero ht]
    exact holds_append p hinfix
  | succ limit ih =>
    have ht : t ≠ [] := fun ht ↦ hink.ne_nil (List.infix_nil.1 (ht ▸ hinfix))
    rcases wrap_or_break ht limit 0 p with ⟨hwrap, -⟩ | ⟨x, n, joined, t', rfl, hsplit, hwrap, -⟩
    · rw [hwrap]
      exact holds_append p hinfix
    · rw [hwrap]
      rcases h.before_or_behind hsplit hj with hbefore | ⟨k, -, hk⟩
      · have hx : w <:+: x := by
          have hlen : w.length ≤ (x.drop j).length := by
            rw [List.length_drop]
            omega
          rw [List.drop_append_of_le_length (by omega)] at hj
          exact (List.prefix_of_prefix_length_le hj (List.prefix_append _ _) hlen).isInfix.trans
            (List.drop_suffix j x).isInfix
        exact ((holds_append p hx).breakLine hink l joined).wrap hink limit t'
      · exact ih _ hk (hk.isInfix.trans (List.drop_suffix k t').isInfix)

/-- The finished page shows what it holds. -/
theorem Holds.exists_line {p : Page} (h : p.Holds w) : ∃ line ∈ p.lines, w <:+: line := by
  obtain ⟨line, hline, hw⟩ := h
  rcases List.mem_append.1 hline with hline | hline
  · exact ⟨line, List.mem_append_left _ hline, hw⟩
  · rw [List.mem_singleton.1 hline] at hw
    exact ⟨p.current.trimEnd, by simp [lines], infix_trimEnd hink hw⟩

end Page

/-! ### The pieces of a command -/

/-- A piece of text for the wrap loop, and the page it is put on. -/
structure Piece where
  page : Page
  text : Text

namespace Piece

/-- The page with the piece on it. -/
def filled (l : Layout) (atoms : List Text) (q : Piece) : Page :=
  Page.wrap l atoms Page.stepLimit q.page q.text

/-- The breaks in the piece. -/
def breaks (l : Layout) (atoms : List Text) (q : Piece) : List LineBreak :=
  Page.breaksFrom l atoms Page.stepLimit 0 q.page q.text

/-- Each occurrence of a text in the piece lies on one side of each break. -/
def Keeps (l : Layout) (atoms : List Text) (q : Piece) (w : Text) : Prop :=
  ∀ i ∈ Text.occurrences w q.text, ∀ b ∈ q.breaks l atoms,
    i + w.length ≤ b.stop ∨ b.resume ≤ i

variable {l : Layout} {atoms : List Text}

/-- The page is what the breaks make of the piece. -/
theorem filled_eq_layOut (q : Piece) :
    { q.filled l atoms with gaveUp := q.page.gaveUp } =
      Page.layOut l q.text 0 q.page (q.breaks l atoms) :=
  Page.wrap_eq_layOut Page.stepLimit q.page [] q.text

/-- **A piece keeps each atom that does not begin with a blank.** -/
theorem keeps_of_isKept (q : Piece) {w : Text} (h : Page.IsKept atoms w) : q.Keeps l atoms w := by
  intro i hi b hb
  obtain ⟨c, u, hw, -⟩ := h.begins
  have hi' := (Text.mem_occurrences (hw ▸ List.cons_ne_nil c u)).1 hi
  have hsides := h.le_stop_or_resume_le Page.stepLimit 0 q.page hi' b hb
  rwa [Nat.zero_add] at hsides

/-- It has them whole on its lines. -/
theorem holds_filled (q : Piece) {w : Text} (h : Page.IsKept atoms w) (hink : EndsInk w)
    (hw : w <:+: q.text) : (q.filled l atoms).Holds w := by
  obtain ⟨x, y, hxy⟩ := hw
  have hdrop : w <+: q.text.drop x.length := by
    rw [← hxy, List.append_assoc, List.drop_left]
    exact List.prefix_append w y
  exact h.holds_wrap hink Page.stepLimit q.page hdrop

end Piece

namespace Page

/-- The pieces of segments, each after the first on a line of its own. -/
def segmentPieces (l : Layout) (atoms : List Text) : Page → Text → List Text → List Piece
  | p, t, [] => [⟨p, t⟩]
  | p, t, u :: us =>
    ⟨p, t⟩ :: segmentPieces l atoms ((wrap l atoms stepLimit p t).breakLine l false) u us

/-- The pieces of a parameter. -/
def parameterPieces (l : Layout) (atoms : List Text) (p : Page) (q : Parameter) : List Piece :=
  segmentPieces l atoms p (p.separator ++ (p.parameterSegments l q).first)
    (p.parameterSegments l q).rest

/-- The pieces of several parameters. -/
def pieces (l : Layout) (atoms : List Text) : Page → List Parameter → List Piece
  | _, [] => []
  | p, q :: qs => p.parameterPieces l atoms q ++ pieces l atoms (p.addParameter l atoms q) qs

/-- A page becomes another one by pieces that are put on it in turn, each behind the one before or
on a new line. -/
def FilledBy (l : Layout) (atoms : List Text) : Page → List Piece → Page → Prop
  | p, [], p' => p' = p
  | p, q :: qs, p' =>
    (q.page = p ∨ q.page = p.breakLine l false) ∧ FilledBy l atoms (q.filled l atoms) qs p'

variable {l : Layout} {atoms : List Text}

theorem FilledBy.append {p p' p'' : Page} {qs rs : List Piece} (h : FilledBy l atoms p qs p')
    (h' : FilledBy l atoms p' rs p'') : FilledBy l atoms p (qs ++ rs) p'' := by
  induction qs generalizing p with
  | nil =>
    obtain rfl : p' = p := h
    exact h'
  | cons q qs ih => exact ⟨h.1, ih h.2⟩

theorem filledBy_segmentPieces (p : Page) (t : Text) (us : List Text) :
    FilledBy l atoms p (segmentPieces l atoms p t us) (wrapSegments l atoms p t us) := by
  suffices h : ∀ r : Page, (p = r ∨ p = r.breakLine l false) →
      FilledBy l atoms r (segmentPieces l atoms p t us) (wrapSegments l atoms p t us) from
    h p (Or.inl rfl)
  induction us generalizing p t with
  | nil => exact fun r hr ↦ ⟨hr, rfl⟩
  | cons u us ih => exact fun r hr ↦ ⟨hr, ih _ u _ (Or.inr rfl)⟩

theorem filledBy_pieces (p : Page) (qs : List Parameter) :
    FilledBy l atoms p (pieces l atoms p qs) (qs.foldl (addParameter l atoms) p) := by
  induction qs generalizing p with
  | nil => rfl
  | cons q qs ih => exact (filledBy_segmentPieces p _ _).append (ih (p.addParameter l atoms q))

/-- Every parameter is among those that make the pieces. -/
theorem exists_parameterPieces {q : Parameter} {qs : List Parameter} (hq : q ∈ qs) (p : Page) :
    ∃ p', ∀ x ∈ parameterPieces l atoms p' q, x ∈ pieces l atoms p qs := by
  induction qs generalizing p with
  | nil => cases hq
  | cons r qs ih =>
    rcases List.mem_cons.1 hq with rfl | hq
    · exact ⟨p, fun x hx ↦ List.mem_append_left _ hx⟩
    · obtain ⟨p', hp'⟩ := ih hq (p.addParameter l atoms r)
      exact ⟨p', fun x hx ↦ List.mem_append_right _ (hp' x hx)⟩

section Holds

variable {p p' : Page} {qs : List Piece} {w : Text} (hfill : FilledBy l atoms p qs p')
  (hink : EndsInk w)

include hfill hink

theorem FilledBy.holds (h : p.Holds w) : p'.Holds w := by
  induction qs generalizing p with
  | nil =>
    obtain rfl : p' = p := hfill
    exact h
  | cons q qs ih =>
    obtain ⟨hpage, hrest⟩ := hfill
    refine ih hrest (Holds.wrap hink ?_ stepLimit q.text)
    rcases hpage with hpage | hpage
    · rwa [hpage]
    · rw [hpage]
      exact h.breakLine hink l false

/-- **What a piece has whole, the filled page has.** -/
theorem FilledBy.holds_of_mem (hkept : IsKept atoms w) {q : Piece} (hq : q ∈ qs)
    (hw : w <:+: q.text) : p'.Holds w := by
  induction qs generalizing p with
  | nil => cases hq
  | cons r qs ih =>
    rcases List.mem_cons.1 hq with rfl | hq
    · exact hfill.2.holds hink (q.holds_filled hkept hink hw)
    · exact ih hfill.2 hq

end Holds

end Page

namespace Command

/-- The page on which a command puts its first parameter. -/
def firstPage (l : Layout) (label : Text) (c : Command) : Page :=
  if c.parameters.isEmpty then Page.headed l label c.name
  else (Page.headed l label c.name).toParameters l

/-- The pieces of a command. -/
def pieces (l : Layout) (label : Text) (c : Command) : List Piece :=
  Page.pieces l (c.atoms l.keywordCase) (c.firstPage l label) c.parameters

/-- The page of a command is filled by its pieces. -/
theorem filledBy_pieces (l : Layout) (label : Text) (c : Command) :
    Page.FilledBy l (c.atoms l.keywordCase) (c.firstPage l label) (c.pieces l label)
      (c.page l (c.atoms l.keywordCase) label) :=
  Page.filledBy_pieces _ _

end Command

end ControlLanguage
