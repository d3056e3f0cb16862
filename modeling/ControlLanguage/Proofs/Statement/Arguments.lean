import ControlLanguage.Parameter.Rendering
import ControlLanguage.Proofs.Command.Span
import ControlLanguage.Proofs.Text.Identifier

/-!
# Arguments of a statement

Behind its command name a statement has arguments: blanks, a keyword and a value in parentheses.
`Text.IsClosed` says of a value that **the parenthesis behind it closes the one in front of it**.
Then the argument is read as a parameter of its own, and reading goes on behind it
(`capturesFrom_arguments`), whatever the other arguments are.

A closed value may have blanks at its ends and several of them in a row. The text of a value is what
it is read as, `Text.asRead`; **a run of blanks outside of literals is read as one**
(`asRead_eq_collapsed`), and a span is read as it stands.
-/

namespace ControlLanguage

open Text Shape Token

namespace Text

/-- Behind an opening parenthesis the text is read as tokens with balanced parentheses, and it ends
outside of literals. -/
structure IsClosed (t : Text) : Prop where
  isBalanced : IsBalanced 0 (following .opening t)
  afterText_ne : Shape.opening.afterText t ≠ .literal false

/-- Outside of literals a closing parenthesis is a token of its own. -/
theorem following_append_closing {t : Text} (h : Shape.opening.afterText t ≠ .literal false)
    (w : Text) : following .opening (t ++ ')' :: w) =
      following .opening t ++ Token.closing :: following .closing w := by
  have hbehind : following (Shape.opening.afterText t) (')' :: w) =
      Token.closing :: following .closing w :=
    following_append_of_follows (follows_closing h) fun _ _ ↦ rfl
  rw [following_append (stops_cons.2 (extended_paren h).2), hbehind]

/-- The text of a value in parentheses, as it is read. -/
def asRead (t : Text) : Text :=
  (Value.ofTokens (following .opening t)).text

section Span

variable {t : Text}

/-- A span is read as its tokens. -/
theorem IsSpan.exists_following (h : IsSpan t) : ∃ ts s, texts ts = t ∧ Chain .opening ts s ∧
    s ≠ .literal false ∧ IsBalanced 0 ts ∧ following .opening t = ts.map unplaced := by
  obtain ⟨ts, s, rfl, hchain, hs, hbalanced⟩ := h.exists_chain
  refine ⟨ts, s, rfl, hchain, hs, hbalanced, ?_⟩
  have hfollowing := following_chain hchain (stops_nil s)
  rwa [List.append_nil, show following s [] = [] from rfl, List.append_nil] at hfollowing

/-- The literals and parentheses of a span are closed. -/
theorem IsSpan.isClosed (h : IsSpan t) : IsClosed t := by
  obtain ⟨ts, s, rfl, hchain, hs, hbalanced, hfollowing⟩ := h.exists_following
  refine ⟨?_, by rwa [hchain.afterText]⟩
  rw [hfollowing]
  exact hbalanced.congr (alike_unplaced ts).1

/-- A span is read as it stands. -/
theorem IsSpan.asRead_eq (h : IsSpan t) : asRead t = t := by
  obtain ⟨ts, s, rfl, -, -, -, hfollowing⟩ := h.exists_following
  rw [asRead, hfollowing, Part.text_ofTokens_of_trim, texts_unplaced]
  rw [texts_unplaced, h.trim_eq]

end Span

/-! ### Blanks within a value -/

/-- The text behind a lexeme of shape `s`, with each run of blanks outside of literals as one. -/
def collapsedFrom : Shape → Text → Text
  | _, [] => []
  | s, c :: t =>
    (if s.after c = .blank then if s = .blank then [] else [' '] else [c]) ++
      collapsedFrom (s.after c) t

/-- A value in parentheses, with each run of blanks outside of literals as one. -/
def collapsed (t : Text) : Text :=
  collapsedFrom .opening t

/-- **Reading a text collapses its blanks and leaves the rest.** -/
theorem source_append_texts_following (s : Shape) (t : Text) :
    (if s = .blank then [] else (Lexeme.continued true s t).1.source) ++ texts (following s t) =
      collapsedFrom s t := by
  induction t generalizing s with
  | nil => cases s <;> rfl
  | cons c t ih =>
    rw [collapsedFrom, ← ih (s.after c)]
    rcases h : s.extended c with _ | longer
    · have hfollowing : texts (following s (c :: t)) =
          ((Lexeme.continued true (begun true c) t).1.push c).text ++
            texts (following (begun true c) t) := by
        rw [following, Lexeme.following, Lexeme.continued_cons_of_stops t h]
        rfl
      have hrun := Lexeme.run?_continued true (begun true c) t
      rw [after_of_stops h, hfollowing, Lexeme.continued_cons_of_stops t h, ite_self,
        List.nil_append, Lexeme.text]
      by_cases hc : isBlank c = true
      · rw [begun_of_isBlank hc] at hrun ⊢
        have hs : s ≠ .blank := by
          rintro rfl
          cases h.symm.trans (if_pos hc)
        have hshape : ((Lexeme.continued true .blank t).1.push c).shape = .blank := run?_blank hrun
        rw [if_pos hshape, if_pos rfl, if_neg hs, if_pos rfl, List.nil_append]
      · have hbegun : begun true c ≠ .blank := mt isBlank_of_begun hc
        have hshape : ((Lexeme.continued true (begun true c) t).1.push c).shape ≠ .blank :=
          run?_ne_blank hbegun hrun
        rw [if_neg hshape, if_neg hbegun, if_neg hbegun]
        rfl
    · rw [after_of_extended h, following_cons_of_extended t h,
        Lexeme.continued_cons_of_extended t h]
      by_cases hs : s = .blank
      · subst hs
        obtain ⟨rfl⟩ : longer = .blank := run?_blank (t := [c]) (run?_cons.2 ⟨longer, h, rfl⟩)
        rfl
      · have hlonger : longer ≠ .blank := by
          rintro rfl
          exact hs (extended_eq_blank_iff.1 h).1
        rw [if_neg hs, if_neg hlonger, if_neg hlonger]
        rfl

/-- Without white space at its ends a value is read with each run of blanks as one. -/
theorem asRead_eq_collapsed {t : Text} (h : BeginsInk t) (h' : EndsInk t) :
    asRead t = collapsed t := by
  have htexts : texts (following .opening t) = collapsed t := by
    rw [collapsed, ← source_append_texts_following, Lexeme.continued_of_stops fun _ _ ↦ rfl]
    rfl
  have hlast : ∀ {s : Shape} {u : Text} {c : Char}, isBlank c = false →
      ∃ v, collapsedFrom s (u ++ [c]) = v ++ [c] := by
    intro s u c hc
    induction u generalizing s with
    | nil =>
      exact ⟨[], by rw [List.nil_append, collapsedFrom, if_neg (after_ne_blank hc)]; rfl⟩
    | cons d u ih =>
      obtain ⟨v, hv⟩ := ih (s := s.after d)
      rw [List.cons_append, collapsedFrom, hv]
      exact ⟨_, (List.append_assoc ..).symm⟩
  obtain ⟨c, u, rfl, hc⟩ := h
  obtain ⟨v, d, hd, hink⟩ := h'
  obtain ⟨w, hw⟩ := hlast (s := .opening) (u := v) (isBlank_eq_false_of_ink hink)
  have hbegins : BeginsInk (collapsed (c :: u)) := by
    refine ⟨c, collapsedFrom (Shape.opening.after c) u, ?_, hc⟩
    rw [collapsed, collapsedFrom, if_neg (after_ne_blank (isBlank_eq_false_of_ink hc))]
    rfl
  have hends : EndsInk (collapsed (c :: u)) := ⟨w, d, by rw [collapsed, hd, hw], hink⟩
  rw [asRead, Part.text_ofTokens_of_trim, htexts]
  rw [htexts, trim_of_ink hbegins hends]

end Text

/-- An argument of a statement. -/
structure Argument where
  blanks : Text
  keyword : Text
  value : Text

namespace Argument

/-- The source text of an argument. -/
def text (a : Argument) : Text :=
  a.blanks ++ a.keyword ++ ValueRules.parenthesised a.value

/-- The keyword is a word with blanks in front. -/
structure IsSeparate (a : Argument) : Prop where
  blanks_ne_nil : a.blanks ≠ []
  isBlank : ∀ c ∈ a.blanks, isBlank c = true
  isIdentifier : a.keyword.isIdentifier = true

/-- And the value is closed. -/
structure IsReadable (a : Argument) : Prop extends a.IsSeparate where
  isClosed : a.value.IsClosed

/-- What is captured from an argument. -/
def toCapture (a : Argument) : Command.Capture :=
  ⟨a.keyword, following .opening a.value, true⟩

/-- An argument with one blank in front. -/
def ofEntry (q : Text × Text) : Argument :=
  ⟨[' '], q.1, q.2⟩

variable {a : Argument} {r : Shape} {w : Text}

/-- A separate argument is read as its keyword and a parenthesis, whatever its value is. -/
theorem IsSeparate.following_eq (h : a.IsSeparate) (hr : r.Stops a.blanks) (w : Text) :
    following r (a.text ++ w) = Token.blank :: ofKeyword a.keyword :: Token.opening ::
      following .opening (a.value ++ ')' :: w) := by
  have hword := follows_of_isIdentifier h.isIdentifier
  have hopening : following .word ('(' :: (a.value ++ ')' :: w)) =
      Token.opening :: following .opening (a.value ++ ')' :: w) :=
    following_append_of_follows (follows_opening (s := .word) (by decide)) fun _ _ ↦ rfl
  have hkeyword : following .blank (a.keyword ++ '(' :: (a.value ++ ')' :: w)) =
      ofKeyword a.keyword :: following .word ('(' :: (a.value ++ ')' :: w)) :=
    following_append_of_follows hword (stops_cons.2 rfl)
  have hstops : Shape.blank.Stops (a.keyword ++ '(' :: (a.value ++ ')' :: w)) := hword.stops _
  have htext : a.text ++ w = a.blanks ++ (a.keyword ++ '(' :: (a.value ++ ')' :: w)) := by
    simp [text, ValueRules.parenthesised]
  rw [htext, following_of_isBlank hr h.blanks_ne_nil h.isBlank hstops, hkeyword, hopening]

/-- **An argument is read as the tokens of a parameter**, whatever stands behind it. -/
theorem IsReadable.following_eq (h : a.IsReadable) (hr : r.Stops a.blanks) (w : Text) :
    following r (a.text ++ w) = Token.blank ::
      ofParameter a.keyword (following .opening a.value) ++ following .closing w := by
  rw [h.toIsSeparate.following_eq hr, following_append_closing h.isClosed.afterText_ne]
  simp [ofParameter]

/-- An argument ends with its parenthesis. -/
theorem IsReadable.afterText_eq (h : a.IsReadable) (hr : r.Stops a.blanks) :
    r.afterText a.text = .closing := by
  have hvalue := extended_paren h.isClosed.afterText_ne
  have hopening : (Shape.word).after '(' = .opening := rfl
  simp only [text, ValueRules.parenthesised, afterText_append, afterText_cons, afterText_nil,
    afterText_of_isBlank hr h.blanks_ne_nil h.isBlank,
    show Shape.blank.afterText a.keyword = .word from
      (follows_of_isIdentifier h.isIdentifier).afterText, hopening]
  rw [after_of_stops hvalue.2]
  rfl

/-! ### Several arguments -/

/-- The source text of arguments. -/
def texts (as : List Argument) : Text :=
  as.flatMap text

theorem texts_cons (a : Argument) (as : List Argument) : texts (a :: as) = a.text ++ texts as :=
  List.flatMap_cons

variable {as : List Argument}

theorem endsInk_texts (hne : as ≠ []) : EndsInk (texts as) := by
  obtain ⟨before, a, rfl⟩ := (List.eq_nil_or_concat' as).resolve_left hne
  exact ⟨texts before ++ (a.blanks ++ a.keyword ++ '(' :: a.value), ')',
    by simp [texts, text, ValueRules.parenthesised], by decide⟩

/-- Arguments begin with a blank. -/
theorem stops_blanks (h : a.IsSeparate) (hr : r.Stops (texts (a :: as) ++ w)) :
    r.Stops a.blanks := by
  obtain ⟨c, u, hc⟩ := List.exists_cons_of_ne_nil h.blanks_ne_nil
  rw [texts_cons, text, hc] at hr
  rw [hc]
  exact stops_cons.2 (stops_cons.1 hr)

/-- What stands behind a parenthesis begins a lexeme. -/
theorem stops_closing (t : Text) : Shape.closing.Stops t :=
  fun _ _ ↦ rfl

/-- So do several arguments. -/
theorem afterText_texts (has : ∀ a ∈ as, a.IsReadable) (hr : r.Stops (texts as ++ w)) :
    r.afterText (texts as) = if as = [] then r else .closing := by
  induction as generalizing r with
  | nil => rfl
  | cons a as ih =>
    have ha := has a List.mem_cons_self
    rw [texts_cons, afterText_append, ha.afterText_eq (stops_blanks ha.toIsSeparate hr),
      ih (fun b hb ↦ has b (List.mem_cons_of_mem a hb)) (stops_closing _), ite_self,
      if_neg (List.cons_ne_nil a as)]

/-- **Readable arguments are captured**, each with the tokens of its value, and reading goes on
behind them. -/
theorem capturesFrom_texts (has : ∀ a ∈ as, a.IsReadable) (hr : r.Stops (texts as ++ w)) :
    Command.capturesFrom (.between none) (following r (texts as ++ w)) =
      as.map toCapture ++
        Command.capturesFrom (.between none) (following (r.afterText (texts as)) w) := by
  induction as generalizing r with
  | nil => rfl
  | cons a as ih =>
    have ha := has a List.mem_cons_self
    have hstops := stops_blanks ha.toIsSeparate hr
    rw [texts_cons, List.append_assoc, ha.following_eq hstops, afterText_append,
      ha.afterText_eq hstops, List.cons_append, Command.capturesFrom_blank rfl, ofParameter,
      List.cons_append, List.cons_append, List.append_assoc, List.singleton_append,
      Command.capturesFrom_parameter rfl rfl ha.isClosed.isBalanced rfl,
      ih (fun b hb ↦ has b (List.mem_cons_of_mem a hb)) (stops_closing _)]
    rfl

end Argument

end ControlLanguage
