import ControlLanguage.Proofs.Format.Heading

/-!
# The right margin

Two columns are kept free at the end of each line for a blank and the marker. **A line goes beyond
the right margin only where something that may not be split reaches into these columns**: a label or
a command name that the layout puts there, or an atom that a cut had to go around.

What a step puts on a line is within the room, or it holds such an atom (`Reaches`); this is because
the cut is the least free position. `IsBounded` says the same of all
lines of a page, and the wrap loop keeps it as long as it does not give up.
-/

namespace ControlLanguage

open Text Token

/-! ### What a step puts on a line -/

namespace Break

/-- **A cut beyond the room goes around an atom** that begins in the room and ends behind it. -/
theorem exists_of_room_lt_cut {atoms : List Text} {room : Int} {t : Text} (hroom : 1 ≤ room)
    (hlong : room < t.length) (hcut : room < cut (Span.ofAtoms atoms t) room t) :
    ∃ a ∈ atoms, ∃ j, a <+: t.drop j ∧ (j : Int) < room ∧ room < (j + a.length : Nat) ∧
      j + a.length ≤ cut (Span.ofAtoms atoms t) room t := by
  obtain ⟨n, rfl⟩ := Int.eq_ofNat_of_zero_le (by omega : 0 ≤ room)
  have hne : t ≠ [] := List.ne_nil_of_length_pos (by omega)
  have hspans : ∀ s ∈ Span.ofAtoms atoms t, s.stop ≤ t.length := fun _ ↦ Span.stop_le_length
  have hsplits : splits (Span.ofAtoms atoms t) n = true := by
    -- otherwise the room itself would be free
    by_contra hsplits
    rw [Bool.not_eq_true] at hsplits
    have hearliest : earliest n t ≤ n := by
      rw [earliest]
      omega
    have hle : cut (Span.ofAtoms atoms t) n t ≤ n :=
      (isLeast_cut n hspans).2 ⟨hearliest, hsplits, fun h ↦ absurd h (Int.lt_irrefl _)⟩
    omega
  obtain ⟨a, ha, j, hj, hjn, hn⟩ := splits_ofAtoms.1 hsplits
  have hfree : ¬ SplitsAtom atoms t (cut (Span.ofAtoms atoms t) n t) :=
    splits_ofAtoms_eq_false.1 (cut_spec atoms n hne).1.splits_eq_false
  generalize cut (Span.ofAtoms atoms t) n t = m at *
  refine ⟨a, ha, j, hj, by omega, by omega, ?_⟩
  by_contra hlen
  exact hfree ⟨a, ha, j, hj, by omega, by omega⟩

end Break

namespace Page

variable {l : Layout} {atoms : List Text}

/-- The text stays within the room of the line; or it is empty, and the line is not; or an atom in
it reaches out of the room of a fresh line. -/
def Reaches (l : Layout) (atoms : List Text) (p : Page) (x : Text) : Prop :=
  (x.length : Int) ≤ p.room l ∨ (x = [] ∧ ¬ IsWhite p.current) ∨
    (IsWhite p.current ∧ ∃ u a v, x = u ++ a ++ v ∧ a ∈ atoms ∧ (u.length : Int) < p.room l ∧
      p.room l < (u.length + a.length : Nat))

theorem reaches_of_cut {p : Page} {t : Text} (ht : t ≠ []) (hp : IsWhite p.current)
    (hroom : 1 ≤ p.room l) (hlong : p.room l < t.length) :
    Reaches l atoms p (t.take (Break.cut (Span.ofAtoms atoms t) (p.room l) t)) := by
  obtain ⟨-, -, hle⟩ := Break.cut_spec atoms (p.room l) ht
  have hlen := List.length_take_of_le hle
  by_cases hcut : p.room l < Break.cut (Span.ofAtoms atoms t) (p.room l) t
  · obtain ⟨a, ha, j, hj, hjroom, hroom', hjcut⟩ := Break.exists_of_room_lt_cut hroom hlong hcut
    generalize Break.cut (Span.ofAtoms atoms t) (p.room l) t = n at *
    have hj' : a <+: (t.take n).drop j := by
      rw [List.drop_take]
      exact (List.prefix_take_iff).2 ⟨hj, by omega⟩
    obtain ⟨v, hv⟩ := hj'
    have hjlen : ((t.take n).take j).length = j := by
      rw [List.length_take_of_le]
      omega
    refine Or.inr (Or.inr ⟨hp, (t.take n).take j, a, v, ?_, ha, by omega, by omega⟩)
    rw [List.append_assoc, hv, List.take_append_drop]
  · exact Or.inl (by omega)

/-- What the next step puts on the line. -/
def taken (l : Layout) (atoms : List Text) (p : Page) (t : Text) : Text :=
  t.take (((lineEnd? t (p.nextStep l atoms t)).map (·.1)).getD t.length)

/-- **A step puts on the line what it may reach.** -/
theorem reaches_taken {p : Page} {t : Text} (ht : t ≠ [])
    (hroom : IsWhite p.current → 1 ≤ p.room l) :
    Reaches l atoms p (p.taken l atoms t) := by
  rw [taken]
  have hchooses := chooses_nextStep l atoms p t
  generalize p.nextStep l atoms t = step at hchooses ⊢
  cases hchooses with
  | fits hfits => exact Or.inl (by simpa [lineEnd?] using hfits)
  | newLine _ _ hp => exact Or.inr (Or.inl ⟨rfl, hp⟩)
  | breakAt _ hlast =>
    obtain ⟨x, y, hxy, rfl, -, -, -, hle⟩ := Break.exists_of_last? hlast
    refine Or.inl ?_
    simpa [lineEnd?, hxy] using hle
  | cutAt hlong _ hp =>
    have hreach : Reaches l atoms p (t.take (Break.cut (Span.ofAtoms atoms t) (p.room l) t)) :=
      reaches_of_cut ht hp (hroom hp) hlong
    obtain ⟨-, -, hle⟩ := Break.cut_spec atoms (p.room l) ht
    rw [lineEnd?]
    generalize Break.cut (Span.ofAtoms atoms t) (p.room l) t = n at *
    rcases hdrop : t.drop n with _ | ⟨c, y⟩
    · have hn : n = t.length := Nat.le_antisymm hle (List.drop_eq_nil_iff.1 hdrop)
      simpa [hn] using hreach
    · simpa using hreach

/-- A run of the loop puts all of the text on the line, or some of it, and closes the line. -/
theorem exists_reaches {p : Page} {t : Text} (ht : t ≠ [])
    (hroom : IsWhite p.current → 1 ≤ p.room l) (limit : Nat) :
    (Reaches l atoms p t ∧ wrap l atoms (limit + 1) p t = p.append t) ∨
      ∃ x n joined t', t = x ++ (blanks n ++ t') ∧ Reaches l atoms p x ∧
        wrap l atoms (limit + 1) p t = wrap l atoms limit ((p.append x).breakLine l joined) t' := by
  have hreach : Reaches l atoms p (p.taken l atoms t) := reaches_taken ht hroom
  rw [wrap_succ ht]
  rcases (@step_afterStep l atoms p t ht).divides with
    ⟨he, hp, hnil⟩ | ⟨x, n, joined, he, hx, hp, -⟩
  · rw [taken, he, Option.map_none, Option.getD_none, List.take_length] at hreach
    rw [hp, hnil, wrap_nil]
    exact Or.inl ⟨hreach, rfl⟩
  · rw [taken, he, Option.map_some, Option.getD_some] at hreach
    rw [hp]
    refine Or.inr ⟨x, n, joined, _, hx, ?_, rfl⟩
    rwa [hx, List.take_left] at hreach

/-! ### Lines that keep to the margin -/

/-- A line of a list with one more line is one of the list or the last one. -/
theorem getElem?_concat_cases {lines : List Text} {last line : Text} {i : Nat}
    (h : (lines ++ [last])[i]? = some line) :
    lines[i]? = some line ∨ i = lines.length ∧ line = last := by
  rcases Nat.lt_or_ge i lines.length with hlt | hge
  · exact Or.inl (by rwa [List.getElem?_append_left hlt] at h)
  · have hlen := (List.getElem?_eq_some_iff.1 h).1
    rw [List.length_append, List.length_singleton] at hlen
    obtain rfl : i = lines.length := by omega
    exact Or.inr ⟨rfl, by simpa using h.symm⟩

/-- The line is at most so wide; or it begins with a heading that is too wide by itself; or it is
behind the headings, and an atom on it reaches into the columns that are kept free. -/
inductive Allowed (l : Layout) (atoms headings : List Text) (width i : Nat) (line : Text) :
    Prop where
  | fits : line.length ≤ width → Allowed l atoms headings width i line
  | heading (h : Text) : headings[i]? = some h → h <+: line → l.rightMargin - 2 < h.length →
      Allowed l atoms headings width i line
  | atom (x a y : Text) : headings.length ≤ i → a ∈ atoms → line = x ++ a ++ y →
      x.length < l.rightMargin - 2 → l.rightMargin - 2 < x.length + a.length →
      Allowed l atoms headings width i line

section Allowed

variable {headings : List Text} {width i : Nat} {line : Text}

theorem Allowed.append (h : Allowed l atoms headings width i line) {u : Text} {width' : Nat}
    (hu : width + u.length ≤ width') : Allowed l atoms headings width' i (line ++ u) := by
  cases h with
  | fits hlen =>
    refine Allowed.fits ?_
    rw [List.length_append]
    omega
  | heading h hi hh hlen => exact Allowed.heading h hi (hh.trans (List.prefix_append _ _)) hlen
  | atom x a y hi ha hline hx hlen =>
    exact Allowed.atom x a (y ++ u) hi ha (by rw [hline, List.append_assoc]) hx hlen

/-- Trimming the end does not make a line wider, and it keeps what ends in ink. -/
theorem Allowed.trimEnd (h : Allowed l atoms headings width i line)
    (hatoms : ∀ a ∈ atoms, EndsInk a) (hheadings : ∀ h ∈ headings, EndsInk h) :
    Allowed l atoms headings width i line.trimEnd := by
  have hkept : ∀ {u : Text}, EndsInk u → u <+: line → u <+: line.trimEnd := by
    rintro u hu ⟨v, rfl⟩
    by_cases hv : IsWhite v
    · rw [trimEnd_append_of_isWhite _ hv, trimEnd_of_endsInk hu]
    · rw [trimEnd_append _ hv]
      exact List.prefix_append _ _
  -- headings and atoms end in ink, so trimming stops behind them
  cases h with
  | fits hlen =>
    exact Allowed.fits ((List.rdropWhile_prefix isWhiteSpace line).length_le.trans hlen)
  | heading h hi hh hlen =>
    exact Allowed.heading h hi (hkept (hheadings h (List.mem_of_getElem? hi)) hh) hlen
  | atom x a y hi ha hline hx hlen =>
    obtain ⟨v, hv⟩ := hkept ((hatoms a ha).append x) ⟨y, hline.symm⟩
    exact Allowed.atom x a v hi ha hv.symm hx hlen

end Allowed

/-- All lines of a page keep to the margin, as far as they may; a line without ink is behind the
headings and has room. -/
structure IsBounded (l : Layout) (atoms headings : List Text) (p : Page) : Prop where
  closed : ∀ i line, p.closed[i]? = some line →
    Allowed l atoms headings l.rightMargin i line
  current : Allowed l atoms headings (l.rightMargin - 2) p.closed.length p.current.trimEnd
  started : headings.length ≤ p.closed.length + 1
  fresh : IsWhite p.current → headings.length ≤ p.closed.length ∧ 1 ≤ p.room l

namespace IsBounded

variable {headings : List Text} {p : Page}

/-- What a step may put on a line is allowed there. -/
theorem allowed_append (h : IsBounded l atoms headings p) (hatoms : ∀ a ∈ atoms, EndsInk a)
    (hheadings : ∀ h ∈ headings, EndsInk h) {x : Text} (hx : Reaches l atoms p x) :
    Allowed l atoms headings (l.rightMargin - 2) p.closed.length (p.current ++ x).trimEnd := by
  -- the room is counted from the end of the line to the two columns that are kept free
  rcases hx with hx | ⟨rfl, -⟩ | ⟨hwhite, u, a, v, rfl, ha, hu, hlen⟩
  · refine Allowed.trimEnd (Allowed.fits ?_) hatoms hheadings
    rw [room] at hx
    rw [List.length_append]
    omega
  · rw [List.append_nil]
    exact h.current
  · refine Allowed.trimEnd ?_ hatoms hheadings
    rw [room] at hu hlen
    refine Allowed.atom (p.current ++ u) a v (h.fresh hwhite).1 ha (by simp) ?_ ?_
    · rw [List.length_append]
      omega
    · rw [List.length_append]
      omega

/-- A line is closed with at most two more characters, and the next one has room. -/
theorem breakLine {x : Text} (h : IsBounded l atoms headings p)
    (hx : Allowed l atoms headings (l.rightMargin - 2) p.closed.length (p.current ++ x).trimEnd)
    (joined : Bool) : IsBounded l atoms headings ((p.append x).breakLine l joined) := by
  have hmargin := l.margin_ge
  have hclosed : ((p.append x).breakLine l joined).closed = p.closed ++
      [(p.current ++ x).trimEnd ++ (blanks (if joined then 0 else 1) ++ [l.marker.char])] :=
    closed_breakLine l joined (p.append x)
  have hlength : ((p.append x).breakLine l joined).closed.length = p.closed.length + 1 := by
    rw [hclosed]
    exact List.length_append
  -- the fresh line has room, since the layout leaves ten columns behind the continuation column
  refine ⟨fun i line hi ↦ ?_, Allowed.fits ?_, ?_, fun _ ↦ ⟨?_, ?_⟩⟩
  · rw [hclosed] at hi
    rcases getElem?_concat_cases hi with hi | ⟨rfl, rfl⟩
    · exact h.closed i line hi
    · refine hx.append ?_
      rw [List.length_append, blanks, List.length_replicate, List.length_singleton]
      split_ifs <;> omega
  · show (blanks _).trimEnd.length ≤ _
    rw [trimEnd_of_isWhite (isWhite_blanks _)]
    exact Nat.zero_le _
  · have hstarted := h.started
    omega
  · have hstarted := h.started
    omega
  · have hcolumn := l.continuation_add_ten_le
    show 1 ≤ (l.rightMargin : Int) - (blanks (l.continuationColumn - 1)).length - 2
    rw [blanks, List.length_replicate]
    omega

/-- **The wrap loop keeps to the margin unless it gives up.** The induction is on the steps. -/
theorem wrap (hatoms : ∀ a ∈ atoms, EndsInk a) (hheadings : ∀ h ∈ headings, EndsInk h)
    (limit : Nat) {t : Text} (h : IsBounded l atoms headings p) (ht : EndsInk t)
    (hgave : (Page.wrap l atoms limit p t).gaveUp = 0) :
    IsBounded l atoms headings (Page.wrap l atoms limit p t) := by
  induction limit generalizing p t with
  | zero =>
    rw [wrap_zero ht.ne_nil] at hgave
    exact absurd hgave (Nat.succ_ne_zero _)
  | succ limit ih =>
    rcases exists_reaches ht.ne_nil (fun hp ↦ (h.fresh hp).2) limit with
      ⟨hx, hwrap⟩ | ⟨x, n, joined, t', htext, hx, hwrap⟩
    · rw [hwrap]
      have hink : EndsInk (p.current ++ t) := ht.append _
      exact ⟨h.closed, h.allowed_append hatoms hheadings hx, h.started,
        fun hp ↦ absurd hp hink.not_isWhite⟩
    · rw [hwrap] at hgave ⊢
      have hnext := h.breakLine (h.allowed_append hatoms hheadings hx) joined
      by_cases ht' : t' = []
      · rwa [ht', wrap_nil]
      · rw [htext, ← List.append_assoc] at ht
        exact ih hnext (ht.of_append ht') hgave

end IsBounded

/-- Giving up is not undone. -/
theorem gaveUp_le_wrap (limit : Nat) (p : Page) (t : Text) :
    p.gaveUp ≤ (wrap l atoms limit p t).gaveUp := by
  induction limit generalizing p t with
  | zero =>
    by_cases ht : t = []
    · rw [ht, wrap_nil]
    · rw [wrap_zero ht]
      exact Nat.le_succ _
  | succ limit ih =>
    by_cases ht : t = []
    · rw [ht, wrap_nil]
    · obtain ⟨e, p', t', hstep, heq⟩ := exists_step ht limit p
      have hsame : p'.gaveUp = p.gaveUp := by cases hstep <;> rfl
      rw [heq, ← hsame]
      exact ih p' t'

theorem gaveUp_le_foldl (cs : List Command.Capture) (p : Page) :
    p.gaveUp ≤ ((cs.map Command.Capture.toParameter).foldl (addParameter l atoms) p).gaveUp := by
  induction cs generalizing p with
  | nil => exact Nat.le_refl _
  | cons c cs ih =>
    have hfirst := @gaveUp_le_wrap l atoms stepLimit p (p.separator ++ c.toParameter.content l)
    rw [← c.addParameter_eq] at hfirst
    exact hfirst.trans (ih _)

/-- **Putting parameters on a page keeps to the margin.** -/
theorem IsBounded.foldl_addParameter {headings : List Text} (hatoms : ∀ a ∈ atoms, EndsInk a)
    (hheadings : ∀ h ∈ headings, EndsInk h) (cs : List Command.Capture) {p : Page}
    (h : IsBounded l atoms headings p)
    (hgave : ((cs.map Command.Capture.toParameter).foldl (addParameter l atoms) p).gaveUp = 0) :
    IsBounded l atoms headings
      ((cs.map Command.Capture.toParameter).foldl (addParameter l atoms) p) := by
  induction cs generalizing p with
  | nil => exact h
  | cons c cs ih =>
    refine ih ?_ hgave
    have hfirst : (p.addParameter l atoms c.toParameter).gaveUp = 0 :=
      Nat.le_zero.1 (hgave ▸ gaveUp_le_foldl cs _)
    rw [c.addParameter_eq] at hfirst ⊢
    exact h.wrap hatoms hheadings stepLimit ((c.toParameter.endsInk_content l).append _) hfirst

/-- The finished lines of a page are its closed ones and the one that was being written. -/
theorem IsBounded.allowed_of_mem_lines {headings : List Text} {p : Page}
    (h : IsBounded l atoms headings p) {i : Nat} {line : Text} (hi : p.lines[i]? = some line) :
    Allowed l atoms headings l.rightMargin i line := by
  rcases getElem?_concat_cases hi with hi | ⟨rfl, rfl⟩
  · exact h.closed i line hi
  · have hopen : Allowed l atoms headings l.rightMargin p.closed.length (p.current.trimEnd ++ []) :=
      h.current.append (by rw [List.length_nil]; omega)
    rwa [List.append_nil] at hopen

/-- A heading is not too wide, or it is so by itself. -/
theorem allowed_heading {headings : List Text} {i : Nat} {h : Text} (hi : headings[i]? = some h) :
    Allowed l atoms headings (l.rightMargin - 2) i h := by
  by_cases hlen : h.length ≤ l.rightMargin - 2
  · exact Allowed.fits hlen
  · exact Allowed.heading h hi List.prefix_rfl (Nat.lt_of_not_le hlen)

/-- The page with the headings on it keeps to the margin. -/
theorem isBounded_headed (l : Layout) (atoms : List Text) (label : Text) {name : Text}
    (hname : EndsInk name) {w : Text} (hw : IsWhite w) :
    IsBounded l atoms (l.headings label name) ((headed l label name).append w) := by
  have hend := l.endsInk_heading label hname
  have htrim : (l.heading label name ++ w).trimEnd = l.heading label name := by
    rw [trimEnd_append_of_isWhite _ hw, trimEnd_of_endsInk hend]
  have hfresh : ¬ IsWhite (l.heading label name ++ w) := fun hwhite ↦
    hend.not_isWhite (isWhite_append.1 hwhite).1
  have hmargin := l.margin_ge
  rw [headed_eq, Layout.headings, append]
  -- only a label with a line of its own has been closed
  by_cases hline : l.NeedsLine label
  · simp only [if_pos hline]
    refine ⟨fun i line hi ↦ ?_, ?_, Nat.le_refl _, fun hwhite ↦ absurd hwhite hfresh⟩
    · obtain ⟨rfl, rfl⟩ : i = 0 ∧ l.labelLine label = line := by
        simpa [List.getElem?_singleton] using hi
      refine (allowed_heading (h := l.lead label) rfl).append ?_
      show l.rightMargin - 2 + 2 ≤ l.rightMargin
      omega
    · rw [htrim]
      exact allowed_heading rfl
  · simp only [if_neg hline]
    refine ⟨fun i line hi ↦ ?_, ?_, Nat.le_refl _, fun hwhite ↦ absurd hwhite hfresh⟩
    · simp at hi
    · rw [htrim]
      exact allowed_heading rfl

end Page

namespace Statement

/-- No atom of a statement ends in white space. -/
theorem IsNamed.endsInk_of_mem_atoms {s : Text} (h : IsNamed s) {k : KeywordCase} {a : Text}
    (ha : a ∈ (toCommand s).atoms k) : EndsInk a := by
  obtain ⟨c, hc, ha⟩ := Atom.exists_of_mem_ofParameters (Command.mem_atoms.1 ha)
  rcases ha with rfl | ha
  · exact ⟨_, '(', rfl, by decide⟩
  · obtain ⟨q, rest, hreads⟩ := h.exists_reads
    exact Atom.endsInk_of_mem_ofValue k
      (fun u hu hblank ↦ hreads.endsInk_of_mem h.white_of_mem_body h.ink_body.2 hc hu hblank) ha

/-- **A line goes beyond the right margin only for a heading or an atom.** If the wrap loop never
gives up, then a line that is too long carries a label or a command name that is too wide by itself,
or it is a continuation line and an atom on it reaches into the two columns that are kept free. -/
theorem exists_of_rightMargin_lt (l : Layout) {s : Text} (h : IsNamed s)
    (hgave : (format l s).gaveUp = 0) :
    ∀ i line, (format l s).lines[i]? = some line → l.rightMargin < line.length →
      (∃ heading, (l.headings ((ofText s).label.getD []) (nameIn s))[i]? = some heading ∧
        heading <+: line ∧ l.rightMargin - 2 < heading.length) ∨
      ((l.headings ((ofText s).label.getD []) (nameIn s)).length ≤ i ∧
        ∃ a ∈ (toCommand s).atoms l.keywordCase, ∃ x y, line = x ++ a ++ y ∧
          x.length < l.rightMargin - 2 ∧ l.rightMargin - 2 < x.length + a.length) := by
  obtain ⟨label, hlabel⟩ : ∃ label, (ofText s).label.getD [] = label := ⟨_, rfl⟩
  obtain ⟨w, hw, hfirst⟩ : ∃ w, IsWhite w ∧
      (toCommand s).firstPage l label = (Page.headed l label (nameIn s)).append w := by
    rw [Command.firstPage]
    split_ifs
    · exact ⟨[], isWhite_nil, (Page.append_nil _).symm⟩
    · exact ⟨_, isWhite_blanks _, Page.toParameters_eq l _⟩
  have hheadings : ∀ heading ∈ l.headings label (nameIn s), EndsInk heading := by
    intro heading hmem
    rcases List.mem_append.1 hmem with hmem | hmem
    · split_ifs at hmem
      · rw [List.mem_singleton.1 hmem]
        exact l.endsInk_lead label
      · cases hmem
    · rw [List.mem_singleton.1 hmem]
      exact h.endsInk_heading l label
  have hpage := (Page.isBounded_headed l ((toCommand s).atoms l.keywordCase) label h.ink_nameIn.2
    hw).foldl_addParameter (fun a ha ↦ h.endsInk_of_mem_atoms ha) hheadings (captures s)
  rw [← hfirst] at hpage
  intro i line hline hlong
  subst hlabel
  cases (hpage hgave).allowed_of_mem_lines hline with
  | fits hlen => omega
  | heading heading hi hh hlen => exact Or.inl ⟨heading, hi, hh, hlen⟩
  | atom x a y hi ha hxy hx hlen => exact Or.inr ⟨hi, a, ha, x, y, hxy, hx, hlen⟩

/-- A literal that is longer than a line makes a line too long. -/
theorem exists_of_rightMargin_lt_copy :
    ∃ l : Layout, l.rightMargin = 20 ∧
      (format l "COPY A(1) B('0123456789 0123456789')".toList).lines =
        [" COPY A(1) +".toList, "  B('0123456789 0123456789')".toList] ∧
      ∃ a ∈ (toCommand "COPY A(1) B('0123456789 0123456789')".toList).atoms l.keywordCase, ∃ x y,
        "  B('0123456789 0123456789')".toList = x ++ a ++ y ∧ x.length < 18 ∧
          18 < x.length + a.length := by
  obtain ⟨l, hl⟩ : ∃ l : Layout, l =
      { labelColumn := 1, commandColumn := 2, parameterColumn := 3, continuationColumn := 3,
        rightMargin := 20 } := ⟨_, rfl⟩
  have hatoms : (toCommand "COPY A(1) B('0123456789 0123456789')".toList).atoms .upper =
      ["'0123456789 0123456789'".toList, "1".toList, "A(".toList, "B(".toList] :=
    Command.atoms_eq_of_perm (by decide +kernel) (by decide)
  have hformat : format l "COPY A(1) B('0123456789 0123456789')".toList =
      ⟨[" COPY A(1) +".toList, "  B('0123456789 0123456789')".toList], 0⟩ := by
    rw [hl, format, ← toCommand, Command.format, hatoms, Formatted.mk.injEq]
    decide +kernel
  have hmargin : l.rightMargin = 20 := by rw [hl]
  have hnamed : IsNamed "COPY A(1) B('0123456789 0123456789')".toList :=
    ⟨isBlank_of_all (by decide), by decide⟩
  refine ⟨l, hmargin, by rw [hformat], ?_⟩
  have h := exists_of_rightMargin_lt l hnamed (by rw [hformat]) 1
    "  B('0123456789 0123456789')".toList (by rw [hformat]; rfl) (by rw [hmargin]; decide)
  rw [hmargin] at h
  rcases h with ⟨heading, hheading, -⟩ | ⟨-, h⟩
  · -- without a label there is only one line with a heading
    have hlabel : (ofText "COPY A(1) B('0123456789 0123456789')".toList).label = none := by decide
    rw [hlabel] at hheading
    simp [Layout.headings, Layout.NeedsLine] at hheading
  · exact h

end Statement

end ControlLanguage
