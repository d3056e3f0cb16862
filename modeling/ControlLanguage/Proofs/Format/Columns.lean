import ControlLanguage.Proofs.Format.Heading
import ControlLanguage.Proofs.Text.Identifier

/-!
# The columns of formatted lines

Every line of a formatted statement begins at a column of the layout. The lines are of three kinds,
in this order: a label that needs a line of its own, the command line, and continuation lines.
**The parameters are put on the page one after the other, and the page is on its command line or
below it** (`Page.Arranged`); closing the line is the only way from the one to the other.

What makes a line begin with ink is that a piece may be wrapped: behind a permitted break there is
no blank that would shift the next line. For a keyword beyond ASCII this needs a closer look, since
its lower case need not be a keyword; it is a word all the same.
-/

namespace ControlLanguage

open Text Shape Token

/-! ### The pieces of a statement -/

namespace KeywordCase

/-- A word in a case, as it is read. -/
def wordToken (k : KeywordCase) (t : Text) : Token :=
  ⟨Shape.kind .word (k.apply t), k.apply t, 0⟩

/-- **A keyword in any case is read as a word** without white space. -/
theorem follows_wordToken (k : KeywordCase) {t : Text} (h : t.isIdentifier = true)
    (hfeed : '\n' ∉ t) :
    Follows .blank (k.wordToken t) .word ∧ ∀ d ∈ k.apply t, isWhiteSpace d = false := by
  obtain ⟨c, u, w, ht, hc, hu, hw⟩ := exists_word h
  obtain rfl : w = [] := hw.resolve_right fun hw ↦ hfeed (by simp [ht, hw])
  rw [List.append_nil] at ht
  subst ht
  -- without a sigma the case is changed character by character, and each stays one of words
  have hsigma : 'Σ' ∉ c :: u := fun hmem ↦ absurd (hu _ hmem) (by decide)
  have happly : k.apply (c :: u) = k.chars c ++ u.flatMap k.chars := by
    rw [k.apply_eq_flatMap hsigma, List.flatMap_cons]
  have hspec : ∀ d ∈ k.apply (c :: u), isWhiteSpace d = false ∧ endsWord d = false := by
    intro d hd
    rw [k.apply_eq_flatMap hsigma] at hd
    obtain ⟨e, he, hd⟩ := List.mem_flatMap.1 hd
    exact (k.chars_spec (hu e he)).1 d hd
  refine ⟨?_, fun d hd ↦ (hspec d hd).1⟩
  obtain ⟨d, v, hd, hbegun⟩ := (k.chars_spec (hu c List.mem_cons_self)).2 hc
  rw [hd, List.cons_append] at happly
  have hblank : isBlank d = false := by
    have hends := (hspec d (by rw [happly]; exact List.mem_cons_self)).2
    simp only [endsWord, Bool.or_eq_false_iff] at hends
    exact hends.1.1
  refine ⟨d, v ++ u.flatMap k.chars, happly, by simp [extended, hblank], ?_, rfl,
    fun hs ↦ Shape.noConfusion hs⟩
  rw [hbegun]
  refine run?_self (Or.inl rfl) fun e he ↦ (hspec e ?_).2
  rw [happly]
  exact List.mem_cons_of_mem d he

end KeywordCase

namespace Command

/-- The tokens of a piece: keyword, value and parentheses. -/
def Capture.pieceTokens (l : Layout) (c : Capture) (us : List Token) : List Token :=
  l.keywordCase.wordToken c.keyword :: Token.opening :: (us ++ [Token.closing])

theorem Capture.texts_pieceTokens (l : Layout) (c : Capture) (us : List Token) :
    texts (c.pieceTokens l us) = l.applyCase c.keyword ++ '(' :: (texts us ++ [')']) := by
  simp [pieceTokens, KeywordCase.wordToken, Token.opening, Token.closing, Layout.applyCase]

section

variable {t name rest : Text} {q : Shape} (h : Reads t name q rest)
  (hwhite : ∀ d ∈ t, isWhiteSpace d = true → isBlank d = true) {c : Capture}
  (hc : c ∈ captures (tokenize t)) (l : Layout)

include h hwhite hc

/-- A keyword in any case is a word without white space. -/
theorem Reads.follows_wordToken : Follows .blank (l.keywordCase.wordToken c.keyword) .word ∧
    ∀ d ∈ l.applyCase c.keyword, isWhiteSpace d = false := by
  obtain ⟨s, after, hkeyword, -⟩ := h.exists_chain hc
  refine l.keywordCase.follows_wordToken hkeyword.isIdentifier fun hmem ↦ ?_
  have hfeed := h.isBlank_of_mem hwhite hc '\n' (List.mem_append_left _ hmem) (by decide)
  exact absurd hfeed (by decide)

/-- The piece of a parameter is the text of a chain, which has the tokens of the value in it. -/
theorem Reads.exists_chain_content (hend : q.afterText rest ≠ .literal false) :
    ∃ us, Chain .blank (c.pieceTokens l us) .closing ∧
      c.toParameter.content l = texts (c.pieceTokens l us) ∧ ∀ u ∈ us, u ∈ c.tokens := by
  obtain ⟨s, after, -, hvalue, hafter, -⟩ := h.exists_chain hc
  have hs : s ≠ .literal false := hafter.shape_ne_literal hend
  have hblank : ∀ d ∈ texts c.tokens, isWhiteSpace d = true → isBlank d = true :=
    fun d hd ↦ h.isBlank_of_mem hwhite hc d (List.mem_append_right _ hd)
  obtain ⟨us, r, hspell, hus, hr, husub, -⟩ := exists_written hvalue.of_unplaced hs hblank
  refine ⟨us, ?_, ?_, husub⟩
  · exact Chain.cons (h.follows_wordToken hwhite hc l).1
      (Chain.cons (follows_opening (fun h ↦ Shape.noConfusion h))
        (hus.append (Chain.cons (follows_closing hr) (Chain.nil _))))
  · rw [c.content_toParameter, hvalue.of_unplaced.text_ofTokens hs hblank, hspell,
      c.texts_pieceTokens, List.append_assoc, List.cons_append]

/-- **The piece of a parameter that was read strictly may be wrapped**, and it begins with ink. -/
theorem Reads.wrappable_content (hend : q.afterText rest ≠ .literal false) {atoms : List Text}
    (hatoms : ∀ u ∈ c.tokens, u.kind = .literal → u.text ∈ atoms) :
    BeginsInk (c.toParameter.content l) ∧ Wrappable atoms .blank (c.toParameter.content l) := by
  obtain ⟨us, hchain, htext, husub⟩ := h.exists_chain_content hwhite hc l hend
  obtain ⟨⟨d, v, hd, -⟩, hink⟩ := h.follows_wordToken hwhite hc l
  have hword : l.applyCase c.keyword = d :: v := hd
  have hbegin : BeginsInk (c.toParameter.content l) := by
    rw [htext, c.texts_pieceTokens, hword]
    exact ⟨d, _, rfl, hink d (by rw [hword]; exact List.mem_cons_self)⟩
  have hblank : ∀ e ∈ texts (c.pieceTokens l us), isWhiteSpace e = true → isBlank e = true := by
    intro e he hw
    rw [c.texts_pieceTokens, List.mem_append, List.mem_cons, List.mem_append,
      List.mem_singleton] at he
    rcases he with he | rfl | he | rfl
    · exact absurd hw (by rw [hink e he]; exact Bool.false_ne_true)
    · exact absurd hw (by decide)
    · obtain ⟨u, hu, he⟩ := List.mem_flatMap.1 he
      exact h.isBlank_of_mem hwhite hc e
        (List.mem_append_right _ (List.mem_flatMap.2 ⟨u, husub u hu, he⟩)) hw
    · exact absurd hw (by decide)
  refine ⟨hbegin, htext ▸ Wrappable.of_chain hchain (fun h ↦ Shape.noConfusion h) hblank ?_⟩
  intro u hu hkind
  simp only [Capture.pieceTokens, List.mem_cons, List.mem_append, List.not_mem_nil, or_false] at hu
  rcases hu with rfl | rfl | hu | rfl
  · simp only [KeywordCase.wordToken, Shape.kind] at hkind
    split_ifs at hkind
  · exact TokenKind.noConfusion hkind
  · exact hatoms u (husub u hu) hkind
  · exact TokenKind.noConfusion hkind

end

end Command

/-! ### Lines -/

namespace Layout

/-- What a closed line has behind its text. -/
def ending (l : Layout) (joined : Bool) : Text :=
  blanks (if joined then 0 else 1) ++ [l.marker.char]

/-- The line has its heading alone, and the marker; or the text behind the gap is that of the first
parameter, as far as either of them goes. -/
def IsCommandLine (l : Layout) (heading first line : Text) : Prop :=
  line = heading ++ [' ', l.marker.char] ∨
    ∃ v tail, line = heading ++ blanks (l.gap heading) ++ v ++ tail ∧ v ≠ [] ∧
      (v <+: first ∨ first <+: v) ∧ (tail = [] ∨ ∃ joined, tail = l.ending joined)

theorem IsCommandLine.prefix_heading {l : Layout} {heading first line : Text}
    (h : l.IsCommandLine heading first line) : heading <+: line := by
  rcases h with rfl | ⟨v, tail, rfl, -⟩
  · exact List.prefix_append heading _
  · simp only [List.append_assoc]
    exact List.prefix_append heading _

/-- The line begins with ink at the continuation column. -/
def IsContinuation (l : Layout) (line : Text) : Prop :=
  ∃ v, line = blanks (l.continuationColumn - 1) ++ v ∧ BeginsInk v

end Layout

namespace Page

variable {l : Layout} {atoms : List Text}

/-- What one step makes of a piece that may be wrapped: it is on the line; or the line is closed
behind some of it and the rest begins with ink; or the line is closed in front of it. -/
theorem exists_step_wrappable {p : Page} {s : Shape} {t : Text} (h : Wrappable atoms s t)
    (hatoms : ∀ a ∈ atoms, a.head? ≠ some ' ') (ht : t ≠ []) (limit : Nat) :
    wrap l atoms (limit + 1) p t = p.append t ∨
      (∃ x n joined t' s', t = x ++ (blanks n ++ t') ∧ x ≠ [] ∧ BeginsInk t' ∧
        Wrappable atoms s' t' ∧
        wrap l atoms (limit + 1) p t = wrap l atoms limit ((p.append x).breakLine l joined) t') ∨
      (¬ IsWhite p.current ∧ wrap l atoms (limit + 1) p t =
        wrap l atoms limit (p.breakLine l false) (withoutBlanks t)) := by
  obtain ⟨e, p', t', hstep, heq⟩ := @exists_step l atoms t ht limit p
  rw [heq]
  cases hstep with
  | whole => exact Or.inl (wrap_nil limit _)
  | blank x y hxy hne hx =>
    rw [hxy] at h hx
    obtain ⟨hink, -, hrest⟩ := h.of_blank hatoms hx
    rw [withoutBlanks_of_beginsInk hink]
    exact Or.inr (Or.inl ⟨x, 1, false, y, .blank, hxy, hne, hink, hrest, rfl⟩)
  | newLine hp => exact Or.inr (Or.inr ⟨hp, rfl⟩)
  | cut x y c hxy hne hc hx =>
    rw [hxy] at h hx
    have hink : BeginsInk (c :: y) :=
      ⟨c, y, rfl, h.isWhiteSpace_eq_false (by simp) (h.isBlank_eq_false hc hx)⟩
    exact Or.inr (Or.inl ⟨x, 0, true, c :: y, _, hxy, hne, hink, h.of_append hx, rfl⟩)

/-- The page is on its command line, with the first parameter on it, or it is below. -/
inductive Arranged (l : Layout) (above : List Text) (heading first : Text) (p : Page) : Prop where
  | command (v : Text) : p.closed = above → p.current = heading ++ blanks (l.gap heading) ++ v →
      first <+: v → Arranged l above heading first p
  | below (line : Text) (rest : List Text) (v : Text) : p.closed = above ++ line :: rest →
      l.IsCommandLine heading first line → (∀ line ∈ rest, l.IsContinuation line) →
      p.current = blanks (l.continuationColumn - 1) ++ v → (v = [] ∨ BeginsInk v) →
      Arranged l above heading first p

namespace Arranged

variable {above : List Text} {heading first : Text} {p : Page}

/-- Text may be added to a line; on a fresh one it has to begin with ink. -/
theorem append (h : Arranged l above heading first p) {x : Text}
    (hx : IsWhite p.current → BeginsInk x) : Arranged l above heading first (p.append x) := by
  cases h with
  | command v hclosed hcurrent hv =>
    refine .command (v ++ x) hclosed ?_ (hv.trans (List.prefix_append v x))
    rw [Page.append, hcurrent, List.append_assoc _ v]
  | below line rest v hclosed hline hrest hcurrent hv =>
    refine .below line rest (v ++ x) hclosed hline hrest ?_ ?_
    · rw [Page.append, hcurrent, List.append_assoc]
    · rcases hv with rfl | hv
      · refine Or.inr (hx ?_)
        rw [hcurrent, List.append_nil]
        exact isWhite_blanks _
      · exact Or.inr (hv.append x)

/-- The page goes on below the command line when that is closed. -/
theorem of_commandLine (hclosed : p.closed = above) {joined : Bool}
    (hline : l.IsCommandLine heading first (p.current.trimEnd ++ l.ending joined)) :
    Arranged l above heading first (p.breakLine l joined) :=
  .below _ [] [] (by rw [closed_breakLine, hclosed]; rfl) hline (by simp) (List.append_nil _).symm
    (Or.inl rfl)

theorem isCommandLine_of_trimEnd {t v : Text} (joined : Bool)
    (ht : t.trimEnd = heading ++ blanks (l.gap heading) ++ v) (hne : v ≠ [])
    (hv : v <+: first ∨ first <+: v) :
    l.IsCommandLine heading first (t.trimEnd ++ l.ending joined) :=
  Or.inr ⟨v, l.ending joined, by rw [ht], hne, hv, Or.inr ⟨joined, rfl⟩⟩

/-- A line with ink on it may be closed. -/
theorem breakLine (h : Arranged l above heading first p) (hfirst : EndsInk first)
    (hp : ¬ IsWhite p.current) (joined : Bool) :
    Arranged l above heading first (p.breakLine l joined) := by
  cases h with
  | command v hclosed hcurrent hv =>
    -- the first parameter ends in ink, so trimming leaves it on the line
    obtain ⟨w, rfl⟩ := hv
    obtain ⟨w', hw'⟩ : ∃ w', (p.current).trimEnd =
        heading ++ blanks (l.gap heading) ++ (first ++ w') := by
      rw [hcurrent, ← List.append_assoc _ first]
      by_cases hw : IsWhite w
      · refine ⟨[], ?_⟩
        rw [trimEnd_append_of_isWhite _ hw, trimEnd_of_endsInk (hfirst.append _), List.append_nil]
      · exact ⟨trimEnd w, by rw [trimEnd_append _ hw, List.append_assoc _ first]⟩
    exact of_commandLine hclosed (isCommandLine_of_trimEnd joined hw' (by simp [hfirst.ne_nil])
      (Or.inr (List.prefix_append _ _)))
  | below line rest v hclosed hline hrest hcurrent hv =>
    -- there is ink on the line, and its text begins with it
    have hv' : BeginsInk v := by
      refine hv.resolve_left ?_
      rintro rfl
      rw [hcurrent, List.append_nil] at hp
      exact hp (isWhite_blanks _)
    refine .below line (rest ++ [p.current.trimEnd ++ l.ending joined]) [] ?_ hline ?_
      (List.append_nil _).symm (Or.inl rfl)
    · rw [closed_breakLine, hclosed, Layout.ending]
      simp
    · intro line' hline'
      rcases List.mem_append.1 hline' with hline' | hline'
      · exact hrest line' hline'
      · rw [List.mem_singleton.1 hline', hcurrent, trimEnd_append _ hv'.not_isWhite,
          List.append_assoc]
        exact ⟨_, rfl, (trimEnd_beginsInk hv').append _⟩

/-- **The wrap loop keeps the arrangement.** The induction is on the steps; behind the first break
the text begins with ink. -/
theorem wrap (hfirst : EndsInk first) (hatoms : ∀ a ∈ atoms, a.head? ≠ some ' ') (limit : Nat)
    {s s' : Shape} {t : Text} (h : Arranged l above heading first p) (ht : Wrappable atoms s t)
    (hne : t ≠ []) (hbegin : IsWhite p.current → BeginsInk t)
    (hrest : Wrappable atoms s' (withoutBlanks t)) (hink : BeginsInk (withoutBlanks t)) :
    Arranged l above heading first (Page.wrap l atoms limit p t) := by
  induction limit generalizing p s s' t with
  | zero =>
    rw [wrap_zero hne]
    have hnext := h.append hbegin
    cases hnext with
    | command v hclosed hcurrent hv => exact .command v hclosed hcurrent hv
    | below line rest v hclosed hline hrest hcurrent hv =>
      exact .below line rest v hclosed hline hrest hcurrent hv
  | succ limit ih =>
    rcases exists_step_wrappable (l := l) (p := p) ht hatoms hne limit with
      hwrap | ⟨x, n, joined, t', r, rfl, hx, hink', hrest', hwrap⟩ | ⟨hp, hwrap⟩
    · rw [hwrap]
      exact h.append hbegin
    · have hbegin' : IsWhite p.current → BeginsInk x := fun hp ↦ beginsInk_of_append hx (hbegin hp)
      have hnot : ¬ IsWhite (p.append x).current := by
        intro hwhite
        obtain ⟨hp, hx'⟩ := isWhite_append.1 hwhite
        exact (hbegin' hp).not_isWhite hx'
      have hskip := withoutBlanks_of_beginsInk hink'
      rw [hwrap]
      exact ih ((h.append hbegin').breakLine hfirst hnot joined) hrest' hink'.ne_nil
        (fun _ ↦ hink') (hskip.symm ▸ hrest') (hskip.symm ▸ hink')
    -- the line is closed in front of the text, which goes on the next one without its blanks
    · have hskip := withoutBlanks_of_beginsInk hink
      rw [hwrap]
      exact ih (h.breakLine hfirst hp false) hrest hink.ne_nil (fun _ ↦ hink)
        (hskip.symm ▸ hrest) (hskip.symm ▸ hink)

/-- **The first parameter takes the page from its headings to where the others go on.** -/
theorem wrap_first (hheading : EndsInk heading) (hbegin : BeginsInk first) (hfirst : EndsInk first)
    (hatoms : ∀ a ∈ atoms, a.head? ≠ some ' ') (limit : Nat) (hclosed : p.closed = above)
    (hcurrent : p.current = heading ++ blanks (l.gap heading))
    (h : Wrappable atoms .blank first) :
    Arranged l above heading first (Page.wrap l atoms limit p first) := by
  have hwhole : Arranged l above heading first (p.append first) :=
    .command first hclosed (by rw [Page.append, hcurrent]) List.prefix_rfl
  have hskip := withoutBlanks_of_beginsInk hbegin
  cases limit with
  | zero =>
    rw [wrap_zero hbegin.ne_nil]
    exact .command first hclosed (by rw [Page.append, hcurrent]) List.prefix_rfl
  | succ limit =>
    rcases exists_step_wrappable (l := l) (p := p) h hatoms hbegin.ne_nil limit with
      hwrap | ⟨x, n, joined, t', r, htext, hx, hink', hrest', hwrap⟩ | ⟨hp, hwrap⟩
    · rw [hwrap]
      exact hwhole
    · -- the command line is closed behind the first characters of the parameter
      have hxink : BeginsInk x := beginsInk_of_append hx (htext ▸ hbegin)
      have htrim : (p.append x).current.trimEnd =
          heading ++ blanks (l.gap heading) ++ x.trimEnd := by
        rw [Page.append, hcurrent, trimEnd_append _ hxink.not_isWhite]
      have hstart : x.trimEnd <+: first :=
        (List.rdropWhile_prefix isWhiteSpace x).trans ⟨_, htext.symm⟩
      have hnext : Arranged l above heading first ((p.append x).breakLine l joined) :=
        of_commandLine (p := p.append x) hclosed (isCommandLine_of_trimEnd joined htrim
          (trimEnd_beginsInk hxink).ne_nil (Or.inl hstart))
      have hskip' := withoutBlanks_of_beginsInk hink'
      rw [hwrap]
      exact hnext.wrap hfirst hatoms limit hrest' hink'.ne_nil (fun _ ↦ hink')
        (hskip'.symm ▸ hrest') (hskip'.symm ▸ hink')
    -- nothing of the parameter is on the command line, so the gap is trimmed away
    · have hnext : Arranged l above heading first (p.breakLine l false) := by
        refine of_commandLine hclosed (Or.inl ?_)
        rw [hcurrent, trimEnd_append_of_isWhite _ (isWhite_blanks _), trimEnd_of_endsInk hheading]
        rfl
      rw [hwrap, hskip]
      exact hnext.wrap hfirst hatoms limit h hbegin.ne_nil (fun _ ↦ hbegin) (hskip.symm ▸ h)
        (hskip.symm ▸ hbegin)

/-- A further parameter keeps the arrangement, and leaves a line that ends in ink. -/
theorem addParameter (hfirst : EndsInk first) (hatoms : ∀ a ∈ atoms, a.head? ≠ some ' ')
    (h : Arranged l above heading first p) (hp : EndsInk p.current) {c : Command.Capture}
    (hbegin : BeginsInk (c.toParameter.content l))
    (hc : Wrappable atoms .blank (c.toParameter.content l)) :
    Arranged l above heading first (p.addParameter l atoms c.toParameter) ∧
      EndsInk (p.addParameter l atoms c.toParameter).current := by
  rw [c.addParameter_eq, separator_of_endsInk hp]
  have hskip : withoutBlanks ([' '] ++ c.toParameter.content l) = c.toParameter.content l :=
    withoutBlanks_of_beginsInk hbegin
  refine ⟨?_, endsInk_wrap _ ((c.toParameter.endsInk_content l).append _)⟩
  exact h.wrap hfirst hatoms stepLimit (hc.cons_blank hbegin) (by simp)
    (fun hwhite ↦ absurd hwhite hp.not_isWhite) (hskip.symm ▸ hc) (hskip.symm ▸ hbegin)

end Arranged

/-- The finished lines of an arranged page. -/
theorem Arranged.exists_lines {above : List Text} {heading first : Text} {p : Page}
    (h : Arranged l above heading first p) (hp : EndsInk p.current) :
    ∃ command rest, p.lines = above ++ command :: rest ∧ l.IsCommandLine heading first command ∧
      ∀ line ∈ rest, l.IsContinuation line := by
  have hlines := lines_of_endsInk hp
  cases h with
  | command v hclosed hcurrent hv =>
    refine ⟨p.current, [], by rw [hlines, hclosed], Or.inr ⟨v, [], ?_, ?_, Or.inr hv, Or.inl rfl⟩,
      by simp⟩
    · rw [hcurrent, List.append_nil]
    · rintro rfl
      rw [hcurrent, List.append_nil] at hp
      refine (hp.of_append ?_).not_isWhite (isWhite_blanks _)
      exact List.ne_nil_of_length_pos (by simpa [blanks] using l.gap_pos heading)
  | below line rest v hclosed hline hrest hcurrent hv =>
    refine ⟨line, rest ++ [p.current], by rw [hlines, hclosed]; simp, hline, fun line' hline' ↦ ?_⟩
    rcases List.mem_append.1 hline' with hline' | hline'
    · exact hrest line' hline'
    · refine ⟨v, (List.mem_singleton.1 hline').trans hcurrent, hv.resolve_left ?_⟩
      rintro rfl
      rw [hcurrent, List.append_nil] at hp
      exact hp.not_isWhite (isWhite_blanks _)

/-- **The parameters of a page.** The induction is on the parameters behind the first one. -/
theorem arranged_foldl {above : List Text} {heading first : Text} {p : Page}
    (hfirst : EndsInk first) (hatoms : ∀ a ∈ atoms, a.head? ≠ some ' ')
    (h : Arranged l above heading first p) (hp : EndsInk p.current) {cs : List Command.Capture}
    (hcs : ∀ c ∈ cs, BeginsInk (c.toParameter.content l) ∧
      Wrappable atoms .blank (c.toParameter.content l)) :
    Arranged l above heading first
        ((cs.map Command.Capture.toParameter).foldl (addParameter l atoms) p) ∧
      EndsInk ((cs.map Command.Capture.toParameter).foldl (addParameter l atoms) p).current := by
  induction cs generalizing p with
  | nil => exact ⟨h, hp⟩
  | cons c cs ih =>
    obtain ⟨hbegin, hc⟩ := hcs c List.mem_cons_self
    obtain ⟨hnext, hend⟩ := h.addParameter hfirst hatoms hp hbegin hc
    exact ih hnext hend fun d hd ↦ hcs d (List.mem_cons_of_mem c hd)

/-- **All parameters of a statement**, put on a page behind its headings. -/
theorem arranged_parameters {above : List Text} {heading : Text} (hheading : EndsInk heading)
    (hatoms : ∀ a ∈ atoms, a.head? ≠ some ' ') {c : Command.Capture} {cs : List Command.Capture}
    (hcs : ∀ d ∈ c :: cs, BeginsInk (d.toParameter.content l) ∧
      Wrappable atoms .blank (d.toParameter.content l)) {page : Page}
    (hpage : page = ((c :: cs).map Command.Capture.toParameter).foldl (addParameter l atoms)
      (toParameters l ⟨above, heading, 0⟩)) :
    Arranged l above heading (c.toParameter.content l) page ∧ EndsInk page.current := by
  obtain ⟨hbegin, hc⟩ := hcs c List.mem_cons_self
  have hend : EndsInk (c.toParameter.content l) := c.toParameter.endsInk_content l
  have hbehind : toParameters l ⟨above, heading, 0⟩ =
      ⟨above, heading ++ blanks (l.gap heading), 0⟩ := toParameters_eq l ⟨above, heading, 0⟩
  have hseparator : separator ⟨above, heading ++ blanks (l.gap heading), 0⟩ = [] :=
    separator_append_blanks ⟨above, heading, 0⟩ (l.gap_pos heading)
  rw [hpage, hbehind, List.map_cons, List.foldl_cons, c.addParameter_eq, hseparator,
    List.nil_append]
  have hfirst : Arranged l above heading (c.toParameter.content l) (wrap l atoms stepLimit
      ⟨above, heading ++ blanks (l.gap heading), 0⟩ (c.toParameter.content l)) :=
    .wrap_first hheading hbegin hend hatoms stepLimit rfl rfl hc
  exact arranged_foldl hend hatoms hfirst (endsInk_wrap _ hend)
    fun d hd ↦ hcs d (List.mem_cons_of_mem c hd)

end Page

namespace Command

/-- Without parameters the page has the headings only. -/
theorem page_of_nil (l : Layout) (atoms : List Text) (label : Text) {c : Command}
    (h : c.parameters = []) : c.page l atoms label =
      ⟨if l.NeedsLine label then [l.labelLine label] else [], l.heading label c.name, 0⟩ := by
  rw [page, h, ← Page.headed_eq]
  rfl

theorem page_of_cons (l : Layout) (atoms : List Text) (label : Text) {c : Command} {q : Parameter}
    {qs : List Parameter} (h : c.parameters = q :: qs) : c.page l atoms label =
      (q :: qs).foldl (Page.addParameter l atoms) (Page.toParameters l
        ⟨if l.NeedsLine label then [l.labelLine label] else [], l.heading label c.name, 0⟩) := by
  rw [page, h, ← Page.headed_eq]
  rfl

/-- A last line that ends in ink ends with the parenthesis of the last parameter. -/
theorem getLast?_current_page {l : Layout} {atoms : List Text} {label : Text} {c : Command}
    (hne : c.parameters ≠ []) (hend : EndsInk (c.page l atoms label).current) :
    (c.page l atoms label).current.getLast? = some ')' := by
  obtain ⟨u, d, hcurrent, hd⟩ := hend
  obtain ⟨qs, q, hqs⟩ := (List.eq_nil_or_concat' c.parameters).resolve_left hne
  have hink := @ink_page l atoms label c
  have hd' : Text.ink [d] = [d] := by simp [Text.ink, hd]
  have hparen : Text.ink [')'] = [')'] := rfl
  -- the ink of the page ends in the parenthesis, and so does its last line
  rw [Page.ink, hcurrent, content, hqs, List.flatMap_append, List.flatMap_singleton,
    Parameter.content] at hink
  simp only [Text.ink_append, hd', hparen, ← List.append_assoc] at hink
  obtain rfl : d = ')' := by simpa using (List.append_inj' hink rfl).2
  rw [hcurrent, List.getLast?_concat]

end Command

namespace Statement

/-- How the lines of a statement are arranged: the lines in front of the command line, the command
line, and those below. -/
structure Arrangement (l : Layout) (s : Text) (above : List Text) (command : Text)
    (rest : List Text) : Prop where
  /-- A label that reaches the command column has a line of its own, with the marker. -/
  above_eq : above = if l.NeedsLine ((ofText s).label.getD []) then
    [l.lead ((ofText s).label.getD []) ++ [' ', l.marker.char]] else []
  /-- A label starts at its column of the first line. -/
  label_at : ∀ label ∈ (ofText s).label, ∃ line v, (above ++ [command]).head? = some line ∧
    line = blanks (l.labelColumn - 1) ++ l.applyCase label ++ ':' :: v
  /-- The command name starts at its column of the command line. -/
  name_at : ∃ u v, command = u ++ l.applyCase (nameIn s) ++ v ∧ u.length = l.commandColumn - 1
  /-- Without parameters there is nothing else. -/
  of_nil : (toCommand s).parameters = [] →
    command = l.heading ((ofText s).label.getD []) (nameIn s) ∧ rest = []
  /-- The first parameter starts behind the gap, if some of it is on the command line. -/
  isCommandLine : ∀ q ∈ (toCommand s).parameters.head?,
    l.IsCommandLine (l.heading ((ofText s).label.getD []) (nameIn s)) (q.content l) command
  /-- The lines below begin with ink at the continuation column. -/
  isContinuation : ∀ line ∈ rest, l.IsContinuation line
  /-- Every line but the last ends with the marker. -/
  marked : ∀ line ∈ (above ++ command :: rest).dropLast, ∃ t, line = t ++ [l.marker.char]
  /-- The last line ends as its text does, without a marker or a blank. -/
  last : ∃ line, (above ++ command :: rest).getLast? = some line ∧ EndsInk line ∧
    ((toCommand s).parameters ≠ [] → line.getLast? = some ')')

/-- The lines of a page are arranged if they begin as they should: the markers and the end of the
last line are the same for every page. -/
theorem arrangement_of_lines {l : Layout} {s : Text} {above : List Text} {command : Text}
    {rest : List Text}
    (habove : above = if l.NeedsLine ((ofText s).label.getD []) then
      [l.labelLine ((ofText s).label.getD [])] else [])
    (hlines : (format l s).lines = above ++ command :: rest)
    (hend : EndsInk ((toCommand s).page l ((toCommand s).atoms l.keywordCase)
      ((ofText s).label.getD [])).current)
    (hstart : l.heading ((ofText s).label.getD []) (nameIn s) <+: command)
    (hnil : (toCommand s).parameters = [] →
      command = l.heading ((ofText s).label.getD []) (nameIn s) ∧ rest = [])
    (hfirst : ∀ q ∈ (toCommand s).parameters.head?,
      l.IsCommandLine (l.heading ((ofText s).label.getD []) (nameIn s)) (q.content l) command)
    (hrest : ∀ line ∈ rest, l.IsContinuation line) : Arrangement l s above command rest := by
  obtain ⟨v, hv⟩ := hstart
  have hpage : (format l s).lines = ((toCommand s).page l ((toCommand s).atoms l.keywordCase)
      ((ofText s).label.getD [])).lines := rfl
  rw [hlines, Page.lines_of_endsInk hend] at hpage
  refine ⟨habove, fun label hlabel ↦ ?_, ⟨l.indent ((ofText s).label.getD []), v, ?_,
    l.length_indent _⟩, hnil, hfirst, hrest, ?_, ?_⟩
  · obtain ⟨⟨c, hc, -⟩, -⟩ := isLabel_of_mem hlabel
    have hne : label ≠ [] := by
      rintro rfl
      simp at hc
    have hget : (ofText s).label.getD [] = label := by rw [Option.mem_def.1 hlabel]; rfl
    rw [hget] at habove hv
    -- the label is on the line above, or in front of the command name
    by_cases hline : l.NeedsLine label
    · rw [if_pos hline] at habove
      exact ⟨l.labelLine label, [' ', l.marker.char], by rw [habove]; rfl, by
        simp [Layout.labelLine, Layout.lead]⟩
    · rw [if_neg hline] at habove
      refine ⟨command, blanks (l.commandColumn - 1 - (l.lead label).length) ++
        l.applyCase (nameIn s) ++ v, by rw [habove]; rfl, ?_⟩
      rw [← hv, Layout.heading, Layout.indent, if_neg (not_or.2 ⟨hne, hline⟩), padEnd]
      simp [Layout.lead]
  · rw [← hv, Layout.heading]
  · rw [hpage, List.dropLast_concat]
    exact Command.isMarked_page _ _
  · refine ⟨_, by rw [hpage, List.getLast?_concat], hend, fun hne ↦ ?_⟩
    exact Command.getLast?_current_page hne hend

/-- The pieces of a statement that is read strictly may be wrapped. -/
theorem IsNamed.wrappable_content {s : Text} (h : IsNamed s)
    (hstrict : ∃ ts, tokenizeStrict (ofText s).body = .ok ts) (l : Layout) :
    ∀ c ∈ captures s, BeginsInk (c.toParameter.content l) ∧
      Wrappable ((toCommand s).atoms l.keywordCase) .blank (c.toParameter.content l) := by
  obtain ⟨q, rest, hreads⟩ := h.exists_reads
  obtain ⟨ts, hts⟩ := hstrict
  intro c hc
  refine hreads.wrappable_content h.white_of_mem_body hc l (hreads.of_tokenizeStrict hts).2
    fun u hu hkind ↦ ?_
  exact Command.mem_atoms.2 (Atom.mem_ofParameters hc (Or.inr
    (Atom.mem_ofValue_of_literal _ hu hkind (hreads.isComplete hts hc u hu))))

/-- **Every line of a formatted statement begins at its column.** -/
theorem exists_arrangement (l : Layout) {s : Text} (h : IsNamed s)
    (hstrict : ∃ ts, tokenizeStrict (ofText s).body = .ok ts) :
    ∃ above command rest, (format l s).lines = above ++ command :: rest ∧
      Arrangement l s above command rest := by
  have hheading := h.endsInk_heading l ((ofText s).label.getD [])
  rcases hcaptures : captures s with _ | ⟨c, cs⟩
  · have hnil : (toCommand s).parameters = [] := by rw [parameters_toCommand, hcaptures]; rfl
    have hpage := Command.page_of_nil l ((toCommand s).atoms l.keywordCase)
      ((ofText s).label.getD []) hnil
    have hlines := (congrArg Page.lines hpage).trans (Page.lines_of_endsInk hheading)
    refine ⟨_, _, [], hlines, arrangement_of_lines rfl hlines ?_ List.prefix_rfl
      (fun _ ↦ ⟨rfl, rfl⟩) (by simp [hnil]) (by simp)⟩
    rw [hpage]
    exact hheading
  · have hcons :
        (toCommand s).parameters = c.toParameter :: cs.map Command.Capture.toParameter := by
      rw [parameters_toCommand, hcaptures]
      rfl
    obtain ⟨hpage, hend⟩ := Page.arranged_parameters hheading (fun a ↦ head?_ne_of_mem_atoms l)
      (hcaptures ▸ h.wrappable_content hstrict l) (Command.page_of_cons l _ _ hcons)
    obtain ⟨command, rest, hlines, hcommand, hrest⟩ := hpage.exists_lines hend
    refine ⟨_, command, rest, hlines, arrangement_of_lines rfl hlines hend
      hcommand.prefix_heading (by simp [hcons]) ?_ hrest⟩
    simpa [hcons] using hcommand

/-- A label for which there is no room in front of the command stands on a line of its own. -/
theorem exists_arrangement_copy :
    ∃ l : Layout, (format l "GO: COPY A(1) B('0123456789')".toList).lines =
        ["GO: +".toList, "  COPY A(1) +".toList, "  B('0123456789')".toList] ∧
      ∃ above command rest, (format l "GO: COPY A(1) B('0123456789')".toList).lines =
          above ++ command :: rest ∧
        Arrangement l "GO: COPY A(1) B('0123456789')".toList above command rest := by
  obtain ⟨l, hl⟩ : ∃ l : Layout, l =
      { labelColumn := 1, commandColumn := 3, parameterColumn := 3, continuationColumn := 3,
        rightMargin := 20 } := ⟨_, rfl⟩
  have hatoms : (toCommand "GO: COPY A(1) B('0123456789')".toList).atoms .upper =
      ["'0123456789'".toList, "1".toList, "A(".toList, "B(".toList] :=
    Command.atoms_eq_of_perm (by decide +kernel) (by decide)
  refine ⟨l, ?_, exists_arrangement l ⟨isBlank_of_all (by decide), by decide⟩ ⟨_, rfl⟩⟩
  rw [hl, format, ← toCommand, Command.format, hatoms]
  decide +kernel

end Statement

end ControlLanguage
