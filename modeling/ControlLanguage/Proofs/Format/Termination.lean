import ControlLanguage.Proofs.Format.Breaking

/-!
# The wrap loop ends by itself

The wrap loop has a limit on its steps. Without it (`Page.afterSteps`) the loop ends all the same:
a step closes the line or it finishes the text, so **every step but the first one starts on a
continuation line with nothing on it**, and there the layout leaves at least nine columns. A break
at a blank takes the blank and a character in front of it, and a cut takes as much as there is room
for; either way two characters are gone (`length_left_add_two_le`).

So text that is left after `i` steps was long from the start (`two_mul_le_of_left_ne_nil`), and the
limit is reached only by pieces of text that are far longer than a page is wide. How often a command
gave up is the number of such pieces (`Command.gaveUp_format`).
-/

namespace ControlLanguage

open Text

namespace Page

variable (l : Layout) (atoms : List Text)

/-- A step of the loop without a limit. Where no text is left nothing is done. -/
def stepped (s : Page × Text) : Page × Text :=
  if s.2 = [] then s else s.1.afterStep l s.2 (s.1.nextStep l atoms s.2)

/-- The page after some steps of the loop without a limit, and the text that is left. -/
def afterSteps (p : Page) (t : Text) (i : Nat) : Page × Text :=
  (stepped l atoms)^[i] (p, t)

/-- The text that is left after some steps. -/
def left (p : Page) (t : Text) (i : Nat) : Text :=
  (afterSteps l atoms p t i).2

/-- The line that is being written after some steps. -/
def lineAfter (p : Page) (t : Text) (i : Nat) : Text :=
  (afterSteps l atoms p t i).1.current

/-- The loop without a limit takes `n` steps on a text. -/
structure EndsAfter (p : Page) (t : Text) (n : Nat) : Prop where
  /-- In front of each step text is left, -/
  left_ne_nil : ∀ i < n, left l atoms p t i ≠ []
  /-- and none behind the last one. -/
  left_eq_nil : left l atoms p t n = []
  /-- A step leaves an end of the text. -/
  suffix : ∀ i < n, left l atoms p t (i + 1) <:+ left l atoms p t i
  /-- Every step but the first one starts on a continuation line with nothing on it, -/
  lineAfter_eq : ∀ i < n, 0 < i →
    lineAfter l atoms p t i = blanks (l.continuationColumn - 1)
  /-- and it takes at least two characters or finishes the text. -/
  takes_two : ∀ i < n, 0 < i → left l atoms p t (i + 1) = [] ∨
    (left l atoms p t (i + 1)).length + 2 ≤ (left l atoms p t i).length

variable {l atoms} {p : Page} {t : Text}

theorem suffix_withoutBlanks (t : Text) : withoutBlanks t <:+ t :=
  List.dropWhile_suffix _

/-! ### One step -/

/-- **A step leaves an end of the text, and a continuation line** if anything is left. It never
gives up. -/
theorem afterStep_spec (p : Page) (ht : t ≠ []) :
    (p.afterStep l t (p.nextStep l atoms t)).2 <:+ t ∧
      (p.afterStep l t (p.nextStep l atoms t)).1.gaveUp = p.gaveUp ∧
      ((p.afterStep l t (p.nextStep l atoms t)).2 = [] ∨
        (p.afterStep l t (p.nextStep l atoms t)).1.current =
          blanks (l.continuationColumn - 1)) := by
  rcases (@step_afterStep l atoms p t ht).divides with ⟨-, hp, hnil⟩ | ⟨x, n, joined, -, hx, hp, -⟩
  · rw [hp, hnil]
    exact ⟨List.nil_suffix, rfl, Or.inl rfl⟩
  · rw [hp]
    refine ⟨⟨x ++ blanks n, ?_⟩, rfl, Or.inr rfl⟩
    rw [List.append_assoc, ← hx]

/-- A cut is made where the search ends. -/
theorem eq_cut_of_nextStep {i : Nat} (h : p.nextStep l atoms t = .cutAt i) :
    i = Break.cut (Span.ofAtoms atoms t) (p.room l) t := by
  have hchooses := chooses_nextStep l atoms p t
  rw [h] at hchooses
  cases hchooses
  rfl

/-- A cut is not in front of the earliest place for it. -/
theorem earliest_le_of_lineEnd? {i : Nat}
    (h : lineEnd? t (p.nextStep l atoms t) = some (i, true)) : Break.earliest (p.room l) t ≤ i := by
  generalize hstep : p.nextStep l atoms t = step at h
  cases step with
  | fits => cases h
  | breakAt j => cases h
  | newLine => cases h
  | cutAt j =>
    obtain ⟨c, -, hc⟩ := Option.map_eq_some_iff.1 h
    rw [← (Prod.mk.inj hc).1, eq_cut_of_nextStep hstep]
    exact Break.earliest_le_cut

/-- A continuation line has room for nine characters. -/
theorem nine_le_room (hp : p.current = blanks (l.continuationColumn - 1)) : 9 ≤ p.room l := by
  have hmargin := l.continuation_add_ten_le
  have hcolumn := l.continuation_pos
  rw [room, hp, blanks, List.length_replicate]
  omega

/-- **On a fresh continuation line a step takes at least two characters**, or it finishes the
text. -/
theorem length_left_add_two_le (hp : p.current = blanks (l.continuationColumn - 1)) (ht : t ≠ []) :
    (p.afterStep l t (p.nextStep l atoms t)).2 = [] ∨
      (p.afterStep l t (p.nextStep l atoms t)).2.length + 2 ≤ t.length := by
  have hroom := nine_le_room hp
  have hstep := @step_afterStep l atoms p t ht
  have hcut : ∀ {i : Nat}, lineEnd? t (p.nextStep l atoms t) = some (i, true) →
      Break.earliest (p.room l) t ≤ i := earliest_le_of_lineEnd?
  generalize lineEnd? t (p.nextStep l atoms t) = e at hstep hcut
  generalize (p.afterStep l t (p.nextStep l atoms t)) = next at hstep ⊢
  obtain ⟨p', t'⟩ := next
  cases hstep with
  | whole => exact Or.inl rfl
  | blank x y hxy hne =>
    have hx := List.length_pos_iff.2 hne
    have hy := (suffix_withoutBlanks y).length_le
    refine Or.inr ?_
    rw [hxy, List.length_append, List.length_cons]
    show (withoutBlanks y).length + 2 ≤ _
    omega
  | newLine hnot => exact absurd (hp ▸ isWhite_blanks _) hnot
  | cut x y c hxy =>
    have hearliest := hcut rfl
    have hlength : t.length = x.length + (y.length + 1) := by
      rw [hxy, List.length_append, List.length_cons]
    rw [Break.earliest] at hearliest
    refine Or.inr ?_
    show (c :: y).length + 2 ≤ _
    rw [List.length_cons]
    omega

/-! ### A run -/

theorem stepped_of_eq_nil {s : Page × Text} (h : s.2 = []) : stepped l atoms s = s :=
  if_pos h

theorem stepped_of_ne_nil {s : Page × Text} (h : s.2 ≠ []) :
    stepped l atoms s = s.1.afterStep l s.2 (s.1.nextStep l atoms s.2) :=
  if_neg h

/-- One more step is taken from where the steps before lead. -/
theorem afterSteps_succ (p : Page) (t : Text) (i : Nat) :
    afterSteps l atoms p t (i + 1) = stepped l atoms (afterSteps l atoms p t i) :=
  Function.iterate_succ_apply' _ _ _

/-- Where no text is left, further steps change nothing. -/
theorem afterSteps_of_le {i n : Nat} (h : left l atoms p t i = []) (hle : i ≤ n) :
    afterSteps l atoms p t n = afterSteps l atoms p t i := by
  induction n, hle using Nat.le_induction with
  | base => rfl
  | succ n _ ih =>
    rw [afterSteps_succ, ih]
    exact stepped_of_eq_nil h

/-- Once nothing is left, nothing is left. -/
theorem left_eq_nil_of_le {i n : Nat} (h : left l atoms p t i = []) (hle : i ≤ n) :
    left l atoms p t n = [] := by
  rw [left, afterSteps_of_le h hle]
  exact h

theorem left_ne_nil_of_le {i n : Nat} (h : left l atoms p t n ≠ []) (hle : i ≤ n) :
    left l atoms p t i ≠ [] :=
  fun hnil ↦ h (left_eq_nil_of_le hnil hle)

/-- What is left is the end of what was left before. -/
theorem left_succ_suffix {i : Nat} (h : left l atoms p t i ≠ []) :
    left l atoms p t (i + 1) <:+ left l atoms p t i := by
  rw [left, afterSteps_succ, stepped_of_ne_nil h]
  exact (afterStep_spec _ h).1

/-- After the first step, every step begins with a fresh line. -/
theorem lineAfter_succ {i : Nat} (h : left l atoms p t (i + 1) ≠ []) :
    lineAfter l atoms p t (i + 1) = blanks (l.continuationColumn - 1) := by
  have hbefore := left_ne_nil_of_le h (Nat.le_succ i)
  rw [left, afterSteps_succ, stepped_of_ne_nil hbefore] at h
  rw [lineAfter, afterSteps_succ, stepped_of_ne_nil hbefore]
  exact (afterStep_spec _ hbefore).2.2.resolve_left h

/-- **Every later step takes two characters at least**, or it is the last one. -/
theorem length_left_succ_add_two_le {i : Nat} (hi : 0 < i) (h : left l atoms p t i ≠ []) :
    left l atoms p t (i + 1) = [] ∨
      (left l atoms p t (i + 1)).length + 2 ≤ (left l atoms p t i).length := by
  obtain ⟨i, rfl⟩ := Nat.exists_eq_succ_of_ne_zero hi.ne'
  rw [left, afterSteps_succ, stepped_of_ne_nil h]
  exact length_left_add_two_le (lineAfter_succ h) h

/-- **Text that is left after some steps was long from the start.** The first step may take nothing,
and each later one takes two characters. -/
theorem two_mul_le_of_left_ne_nil {i : Nat} (h : left l atoms p t i ≠ []) :
    2 * i ≤ t.length + 1 := by
  have hlength : ∀ {i : Nat}, left l atoms p t (i + 1) ≠ [] →
      2 * i + (left l atoms p t (i + 1)).length ≤ t.length := by
    intro i hleft
    induction i with
    | zero =>
      have hfirst : left l atoms p t (0 + 1) <:+ t :=
        left_succ_suffix (left_ne_nil_of_le hleft (Nat.zero_le 1))
      have hle := hfirst.length_le
      omega
    | succ i ih =>
      have hbefore := left_ne_nil_of_le hleft (Nat.le_succ (i + 1))
      have htwo := (length_left_succ_add_two_le i.zero_lt_succ hbefore).resolve_left hleft
      have hlonger := ih hbefore
      rw [Nat.succ_eq_add_one] at htwo
      omega
  cases i with
  | zero => omega
  | succ i =>
    have := hlength h
    have := List.length_pos_iff.2 h
    omega

/-- **The loop ends without a limit.** -/
theorem exists_endsAfter (l : Layout) (atoms : List Text) (p : Page) (t : Text) :
    ∃ n ≤ t.length + 1, EndsAfter l atoms p t n := by
  have hends : left l atoms p t (t.length + 1) = [] := by
    by_contra h
    have hlong := two_mul_le_of_left_ne_nil h
    have hnil : t = [] := List.eq_nil_of_length_eq_zero (by omega)
    exact left_ne_nil_of_le h (Nat.zero_le _) hnil
  have hexists : ∃ n, left l atoms p t n = [] := ⟨_, hends⟩
  have hleft : ∀ i < Nat.find hexists, left l atoms p t i ≠ [] := fun i ↦ Nat.find_min hexists
  refine ⟨Nat.find hexists, Nat.find_min' hexists hends, hleft, Nat.find_spec hexists,
    fun i hi ↦ left_succ_suffix (hleft i hi), fun i hi hpos ↦ ?_,
    fun i hi hpos ↦ length_left_succ_add_two_le hpos (hleft i hi)⟩
  obtain ⟨i, rfl⟩ := Nat.exists_eq_succ_of_ne_zero hpos.ne'
  exact lineAfter_succ (hleft _ hi)

/-! ### The limit -/

/-- The loop with a limit does the same steps, and puts the rest on the line if any is left. -/
theorem wrap_eq_afterSteps (limit : Nat) (p : Page) (t : Text) : wrap l atoms limit p t =
    if left l atoms p t limit = [] then (afterSteps l atoms p t limit).1
    else { (afterSteps l atoms p t limit).1.append (left l atoms p t limit) with
      gaveUp := (afterSteps l atoms p t limit).1.gaveUp + 1 } := by
  induction limit generalizing p t with
  | zero =>
    by_cases ht : t = []
    · rw [ht, wrap_nil]
      exact (if_pos rfl).symm
    · rw [wrap_zero ht]
      exact (if_neg ht).symm
  | succ limit ih =>
    by_cases ht : t = []
    · have hnone : left l atoms p t 0 = [] := ht
      rw [if_pos (left_eq_nil_of_le hnone (Nat.zero_le _)),
        afterSteps_of_le hnone (Nat.zero_le _), ht, wrap_nil]
      rfl
    · have hfirst : afterSteps l atoms p t (limit + 1) =
          afterSteps l atoms (p.afterStep l t (p.nextStep l atoms t)).1
            (p.afterStep l t (p.nextStep l atoms t)).2 limit :=
        congrArg (stepped l atoms)^[limit] (stepped_of_ne_nil (s := (p, t)) ht)
      rw [wrap_succ ht, ih, left, left, hfirst]

/-- **With a limit that is not reached the loop is the one without a limit.** -/
theorem EndsAfter.wrap_eq {n limit : Nat} (h : EndsAfter l atoms p t n) (hle : n ≤ limit) :
    wrap l atoms limit p t = (afterSteps l atoms p t n).1 := by
  rw [wrap_eq_afterSteps, if_pos (left_eq_nil_of_le h.left_eq_nil hle),
    afterSteps_of_le h.left_eq_nil hle]

/-- The steps themselves never give up. -/
theorem gaveUp_afterSteps (p : Page) (t : Text) (i : Nat) :
    (afterSteps l atoms p t i).1.gaveUp = p.gaveUp := by
  induction i with
  | zero => rfl
  | succ i ih =>
    rw [afterSteps_succ]
    by_cases h : left l atoms p t i = []
    · rw [stepped_of_eq_nil h, ih]
    · rw [stepped_of_ne_nil h, ← ih]
      exact (afterStep_spec _ h).2.1

end Page

namespace Piece

variable {l : Layout} {atoms : List Text}

/-- Whether text of the piece is left when the limit is reached. -/
def givesUp (l : Layout) (atoms : List Text) (q : Piece) : Bool :=
  !(Page.left l atoms q.page q.text Page.stepLimit).isEmpty

/-- A piece gives up once or not at all. -/
theorem gaveUp_filled (q : Piece) :
    (q.filled l atoms).gaveUp = q.page.gaveUp + if q.givesUp l atoms then 1 else 0 := by
  rw [filled, Page.wrap_eq_afterSteps, givesUp]
  by_cases h : Page.left l atoms q.page q.text Page.stepLimit = []
  · rw [if_pos h, h, Page.gaveUp_afterSteps]
    rfl
  · have hleft : (Page.left l atoms q.page q.text Page.stepLimit).isEmpty = false := by
      simpa using h
    rw [if_neg h, hleft, Page.gaveUp_afterSteps]
    rfl

/-- Only a very long piece reaches the limit. -/
theorem two_mul_stepLimit_le {q : Piece} (h : q.givesUp l atoms = true) :
    2 * Page.stepLimit ≤ q.text.length + 1 :=
  Page.two_mul_le_of_left_ne_nil (by simpa [givesUp] using h)

end Piece

/-- The page counts the pieces that gave up. -/
theorem Page.FilledBy.gaveUp_eq {l : Layout} {atoms : List Text} {p p' : Page} {qs : List Piece}
    (h : FilledBy l atoms p qs p') : p'.gaveUp = p.gaveUp + qs.countP (·.givesUp l atoms) := by
  induction qs generalizing p with
  | nil =>
    obtain rfl : p' = p := h
    rfl
  | cons q qs ih =>
    obtain ⟨hpage, hrest⟩ := h
    have hsame : q.page.gaveUp = p.gaveUp := by
      rcases hpage with hpage | hpage
      · rw [hpage]
      · rw [hpage]
        rfl
    rw [ih hrest, q.gaveUp_filled, hsame, List.countP_cons]
    omega

namespace Command

theorem gaveUp_firstPage (l : Layout) (label : Text) (c : Command) :
    (c.firstPage l label).gaveUp = 0 := by
  have hheaded : (Page.headed l label c.name).gaveUp = 0 := by
    simp only [Page.headed]
    split_ifs <;> rfl
  rw [firstPage]
  split_ifs
  · exact hheaded
  · rw [Page.toParameters]
    split_ifs <;> exact hheaded

/-- **How often a command gave up is how many of its pieces reach the limit.** -/
theorem gaveUp_format (l : Layout) (label : Option Text) (c : Command) :
    (c.format l label).gaveUp =
      (c.pieces l (label.getD [])).countP (·.givesUp l (c.atoms l.keywordCase)) := by
  have hfilled := (c.filledBy_pieces l (label.getD [])).gaveUp_eq
  rwa [gaveUp_firstPage, Nat.zero_add] at hfilled

/-- **The wrap loop ends by itself, and a piece of ordinary size never reaches its limit.** Whatever
the line, the atoms and the text, it takes at most one step more than there are characters; every
step but the first one starts on a fresh continuation line and takes two characters or finishes the
text; and a limit of that many steps changes nothing. A command gives up on its pieces that reach
the limit, and none of them has 1900 characters or fewer. -/
theorem wrap_endsAfter_and_givesUp :
    (∀ (l : Layout) (atoms : List Text) (p : Page) (t : Text), ∃ n ≤ t.length + 1,
      Page.EndsAfter l atoms p t n ∧ ∀ limit, n ≤ limit →
        Page.wrap l atoms limit p t = (Page.afterSteps l atoms p t n).1) ∧
    ∀ (l : Layout) (label : Option Text) (c : Command),
      (c.format l label).gaveUp =
        (c.pieces l (label.getD [])).countP (·.givesUp l (c.atoms l.keywordCase)) ∧
      ∀ q ∈ c.pieces l (label.getD []), q.text.length ≤ 1900 →
        q.givesUp l (c.atoms l.keywordCase) = false := by
  refine ⟨fun l atoms p t ↦ ?_, fun l label c ↦ ⟨c.gaveUp_format l label, fun q _ hlength ↦ ?_⟩⟩
  · obtain ⟨n, hn, hends⟩ := Page.exists_endsAfter l atoms p t
    exact ⟨n, hn, hends, fun limit ↦ hends.wrap_eq⟩
  · refine Bool.eq_false_iff.2 fun hgives ↦ ?_
    have hlimit : 2 * 1000 ≤ q.text.length + 1 := Piece.two_mul_stepLimit_le hgives
    omega

/-- The copy command, whose parameter is one piece. -/
theorem wrap_endsAfter_and_givesUp_copy :
    (∃ n ≤ 14, Page.EndsAfter .standard [] (Page.start []) "TOFILE('B C')".toList n ∧
      Page.wrap .standard [] 14 (Page.start []) "TOFILE('B C')".toList =
        (Page.afterSteps .standard [] (Page.start []) "TOFILE('B C')".toList n).1) ∧
    ((ofText "CPYF TOFILE('B C' 17)".toList).pieces .standard []).map (·.text) =
      ["TOFILE('B C' 17)".toList] ∧
    ∀ q ∈ (ofText "CPYF TOFILE('B C' 17)".toList).pieces .standard [], q.text.length ≤ 1900 ∧
      q.givesUp .standard ((ofText "CPYF TOFILE('B C' 17)".toList).atoms .upper) = false := by
  obtain ⟨hloop, hcommand⟩ := wrap_endsAfter_and_givesUp
  have htexts : ((ofText "CPYF TOFILE('B C' 17)".toList).pieces .standard []).map (·.text) =
      ["TOFILE('B C' 17)".toList] := by decide +kernel
  refine ⟨?_, htexts, fun q hq ↦ ?_⟩
  · obtain ⟨n, hn, hends, hwrap⟩ := hloop .standard [] (Page.start []) "TOFILE('B C')".toList
    exact ⟨n, hn, hends, hwrap 14 hn⟩
  · have htext : q.text = "TOFILE('B C' 17)".toList :=
      List.mem_singleton.1 (htexts ▸ List.mem_map_of_mem hq)
    have hlength : q.text.length ≤ 1900 := by
      rw [htext]
      decide
    exact ⟨hlength, (hcommand .standard none _).2 q hq hlength⟩

end Command

end ControlLanguage
