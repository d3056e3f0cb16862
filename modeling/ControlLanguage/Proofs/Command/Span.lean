import ControlLanguage.Proofs.Command.Reading
import ControlLanguage.Proofs.Part.Lexing
import ControlLanguage.Proofs.Text.Identifier

/-!
# Texts that are read as a whole

A text that is put into a value must not run into what stands around it. `Text.IsSpan` says when it
does not: **behind an opening parenthesis it is read as tokens with balanced parentheses, the last
of them complete, and no white space stands at its ends**. Then behind a blank it is read as the
same tokens, and a blank or a parenthesis behind it begins a token of its own.

So spans may be joined with blanks and put in parentheses, and the result is a span again. Words are
spans, and so is the text of a value that was read, if it is whole.
-/

namespace ControlLanguage

open Shape Token

namespace Token

/-- Tokens that end in ink end with a lexeme that a blank ends. -/
theorem Chain.extended_blank {s s' : Shape} {ts : List Token} (h : Chain s ts s')
    (hs' : s' ≠ .literal false) (hend : Text.EndsInk (texts ts)) : s'.extended ' ' = none := by
  rcases List.eq_nil_or_concat' ts with rfl | ⟨us, t, rfl⟩
  · exact absurd rfl hend.ne_nil
  obtain ⟨s₁, -, hf⟩ := chain_concat.1 h
  -- a blank goes on with a run of blanks or with an open literal, and the text ends in neither
  by_contra hne
  obtain ⟨longer, hlonger⟩ := Option.ne_none_iff_exists'.1 hne
  rcases extended_eq_some_of_isBlank (by decide) hlonger with rfl | rfl
  · rw [texts_append, texts_cons, hf.text_eq_of_blank, texts_nil, List.append_nil] at hend
    exact (hend.of_append (List.cons_ne_nil _ _)).not_isWhite (Text.isWhite_blanks 1)
  · exact hs' rfl

/-- Tokens that are all complete end outside of literals. -/
theorem Chain.ne_literal_of_isComplete {s s' : Shape} {ts : List Token} (h : Chain s ts s')
    (hs : s ≠ .literal false) (hts : ∀ t ∈ ts, t.IsComplete) : s' ≠ .literal false := by
  induction h with
  | nil => exact hs
  | @cons s s₁ s' t ts hf _ ih =>
    refine ih ?_ fun u hu ↦ hts u (List.mem_cons_of_mem t hu)
    obtain ⟨c, u, htext, -, hu, -⟩ := hf
    obtain ⟨r, r', ⟨d, v, htext', -, hv, -⟩, hr'⟩ := hts t List.mem_cons_self
    obtain ⟨rfl, rfl⟩ := List.cons.inj (htext.symm.trans htext')
    rwa [Option.some.inj (hu.symm.trans hv)]

end Token

namespace Text

/-- Behind an opening parenthesis the text is read as tokens with balanced parentheses, and it ends
outside of literals. It has no white space at its ends. -/
structure IsSpan (t : Text) : Prop where
  exists_chain : ∃ ts s, texts ts = t ∧ Chain .opening ts s ∧ s ≠ .literal false ∧ IsBalanced 0 ts
  trim_eq : t.trim = t

namespace IsSpan

variable {t u : Text}

theorem ink (h : IsSpan t) (hne : t ≠ []) : BeginsInk t ∧ EndsInk t := by
  rcases trim_eq_nil_or_ink t with hnil | hink
  · exact absurd (h.trim_eq.symm.trans hnil) hne
  · rwa [h.trim_eq] at hink

/-- What is read behind the parenthesis is read as a whole. -/
theorem of_runsOn (h : RunsOn .opening 0 t) (ht : t.trim = t) : IsSpan t := by
  obtain ⟨u, ts, s₁, r, rfl, hu, hchain, hr, hbalanced, hnil⟩ := h
  obtain rfl := hnil fun c _ ↦ rfl
  obtain rfl := Option.some.inj hu
  exact ⟨⟨ts, r, rfl, hchain, hr, hbalanced⟩, ht⟩

theorem nil : IsSpan [] :=
  ⟨⟨[], .opening, rfl, Chain.nil _, by decide, rfl⟩, rfl⟩

/-- A span may be put in parentheses behind another one. -/
theorem append_parenthesised (ht : IsSpan t) (hu : IsSpan u) :
    IsSpan (t ++ '(' :: u ++ [')']) := by
  obtain ⟨ts, s, rfl, hts, hs, hbalanced⟩ := ht.exists_chain
  obtain ⟨us, r, rfl, hus, hr, hbalanced'⟩ := hu.exists_chain
  have hchain : Chain .opening (ts ++ Token.opening :: (us ++ [Token.closing])) .closing :=
    hts.append (Chain.cons (follows_opening hs)
      (hus.append (Chain.cons (follows_closing hr) (Chain.nil _))))
  have hlast : IsBalanced 1 [Token.closing] := (isBalanced_cons_closing rfl).2 rfl
  have hparen : IsBalanced 0 (Token.opening :: (us ++ [Token.closing])) :=
    (isBalanced_cons_opening rfl).2 (hbalanced'.append hlast)
  refine ⟨⟨_, _, by simp [Token.opening, Token.closing], hchain, by decide,
    hbalanced.append hparen⟩, trim_of_ink ?_ ?_⟩
  · by_cases hnil : texts ts = []
    · rw [hnil]
      exact ⟨'(', _, rfl, by decide⟩
    · rw [List.append_assoc]
      exact (ht.ink hnil).1.append _
  · exact ⟨_, ')', rfl, by decide⟩

/-- Spans may be joined with a blank. -/
theorem append_blank (ht : IsSpan t) (ht' : t ≠ []) (hu : IsSpan u) (hu' : u ≠ []) :
    IsSpan (t ++ ' ' :: u) := by
  obtain ⟨hbegin, hend⟩ := ht.ink ht'
  obtain ⟨hbegin', hend'⟩ := hu.ink hu'
  obtain ⟨ts, s, rfl, hts, hs, hbalanced⟩ := ht.exists_chain
  obtain ⟨us, r, rfl, hus, hr, hbalanced'⟩ := hu.exists_chain
  -- the second text begins with ink, so behind a blank it is read as behind a parenthesis
  have hfirst : Chain .blank us r := by
    cases hus with
    | nil => exact absurd rfl hu'
    | @cons _ _ _ t us hf hus =>
      refine (Chain.cons hf hus).congr fun c hc ↦ ?_
      obtain ⟨d, v, hd, hink⟩ := hbegin'
      obtain rfl : d = c := by
        obtain ⟨e, w, he⟩ := List.exists_cons_of_ne_nil hf.text_ne_nil
        rw [texts_cons, he] at hd
        rw [he] at hc
        exact (List.cons.inj hd).1.symm.trans (Option.some.inj hc)
      simp [extended, isBlank_eq_false_of_ink hink]
  have hchain : Chain .opening (ts ++ Token.blank :: us) r :=
    hts.append (Chain.cons (follows_blank (hts.extended_blank hs hend)) hfirst)
  have hrest : IsBalanced 0 (Token.blank :: us) :=
    (isBalanced_cons_of_ne (by decide) (by decide)).2 hbalanced'
  refine ⟨⟨_, r, by simp [Token.blank], hchain, hr, hbalanced.append hrest⟩, trim_of_ink ?_ ?_⟩
  · exact hbegin.append _
  · exact (hend'.append [' ']).append _

/-- **Spans that are joined with blanks make a span.** -/
theorem joinBlank {ts : List Text} (hts : ∀ t ∈ ts, IsSpan t ∧ t ≠ []) : IsSpan (joinBlank ts) := by
  have hjoined : ∀ t ts, (∀ u ∈ t :: ts, IsSpan u ∧ u ≠ []) →
      IsSpan (Text.joinBlank (t :: ts)) ∧ Text.joinBlank (t :: ts) ≠ [] := by
    intro t ts hts
    induction ts generalizing t with
    | nil =>
      rw [Part.joinBlank_singleton]
      exact hts t List.mem_cons_self
    | cons u ts ih =>
      obtain ⟨ht, hne⟩ := hts t List.mem_cons_self
      obtain ⟨hrest, hrest'⟩ := ih u fun v hv ↦ hts v (List.mem_cons_of_mem t hv)
      rw [Part.joinBlank_cons t (List.cons_ne_nil u ts)]
      exact ⟨ht.append_blank hne hrest hrest', by simp⟩
  rcases ts with _ | ⟨t, ts⟩
  · exact nil
  · exact (hjoined t ts hts).1

end IsSpan

/-! ### Words -/

/-- A word without white space, parentheses and quotes. -/
structure IsWord (t : Text) : Prop where
  ne_nil : t ≠ []
  isInk : ∀ c ∈ t, isWhiteSpace c = false ∧ c ≠ '(' ∧ c ≠ ')' ∧ c ≠ quote

instance (t : Text) : Decidable (IsWord t) :=
  haveI : Decidable (∀ c ∈ t, isWhiteSpace c = false ∧ c ≠ '(' ∧ c ≠ ')' ∧ c ≠ quote) :=
    List.decidableBAll _ t
  decidable_of_iff (t ≠ [] ∧ ∀ c ∈ t, isWhiteSpace c = false ∧ c ≠ '(' ∧ c ≠ ')' ∧ c ≠ quote)
    ⟨fun h ↦ ⟨h.1, h.2⟩, fun h ↦ ⟨h.ne_nil, h.isInk⟩⟩

theorem IsWord.endsWord_eq_false {t : Text} (h : IsWord t) : ∀ c ∈ t, endsWord c = false := by
  intro c hc
  obtain ⟨hw, ho, hp, -⟩ := h.isInk c hc
  simp [endsWord, isBlank_eq_false_of_ink hw, ho, hp]

/-- A word is a span, even if it is not one token. -/
theorem IsWord.isSpan {t : Text} (h : IsWord t) : IsSpan t := by
  have hends := h.endsWord_eq_false
  -- a sign of a variable begins a token within the word, so the induction is on its characters
  have hruns : ∀ {s : Shape} {u : Text}, s.IsInner → (∀ c ∈ u, c ∈ t) → RunsOn s 0 u := by
    intro s u hs hsub
    induction u generalizing s with
    | nil => exact ⟨[], [], s, s, rfl, rfl, Chain.nil s, hs.2, rfl, fun _ ↦ rfl⟩
    | cons c u ih =>
      have hc := hsub c List.mem_cons_self
      have hquote := (h.isInk c hc).2.2.2
      exact (ih (isWordlike_after_of_endsWord hs (hends c hc) hquote).isInner
        fun d hd ↦ hsub d (List.mem_cons_of_mem c hd)).cons hs (hends c hc) hquote
  obtain ⟨c, v, hc⟩ := List.exists_cons_of_ne_nil h.ne_nil
  obtain ⟨w, d, hd⟩ := (List.eq_nil_or_concat' t).resolve_left h.ne_nil
  refine .of_runsOn (hruns ⟨by decide, by decide⟩ fun c hc ↦ hc) (trim_of_ink ?_ ?_)
  · exact ⟨c, v, hc, (h.isInk c (by simp [hc])).1⟩
  · exact ⟨w, d, hd, (h.isInk d (by simp [hd])).1⟩

/-- A word is read as a command name where the text begins with it. -/
theorem IsWord.reads {name w : Text} (h : IsWord name) (hw : w = [] ∨ ∃ u, w = ' ' :: u) :
    Command.Reads (name ++ w) name .name w := by
  obtain ⟨c, u, rfl⟩ := List.exists_cons_of_ne_nil h.ne_nil
  have hends := h.endsWord_eq_false
  have hquote := (h.isInk c List.mem_cons_self).2.2.2
  have hc := hends c List.mem_cons_self
  simp only [endsWord, Bool.or_eq_false_iff, decide_eq_false_iff_not] at hc
  refine ⟨rfl, ⟨c, u, rfl, hc.1.1, ?_⟩, ?_⟩
  · rw [show begun false c = .name by simp [begun, hc, hquote]]
    exact run?_self (Or.inr rfl) fun d hd ↦ hends d (List.mem_cons_of_mem c hd)
  · rcases hw with rfl | ⟨u, rfl⟩
    · exact stops_nil _
    · exact stops_cons.2 rfl

theorem isWord_of_isWordChar {t : Text} (hne : t ≠ []) (ht : ∀ c ∈ t, isWordChar c = true) :
    IsWord t := by
  refine ⟨hne, fun c hc ↦ ?_⟩
  obtain ⟨hspace, hlabel, hends, -⟩ := wordChar_spec (ht c hc)
  simp only [endsWord, Bool.or_eq_false_iff, decide_eq_false_iff_not] at hends
  refine ⟨hspace, hends.1.2, hends.2, ?_⟩
  rintro rfl
  exact absurd hlabel (by decide)

/-- A keyword is a word, unless there is a line feed behind it. -/
theorem isWord_of_isIdentifier {t : Text} (h : t.isIdentifier = true)
    (hwhite : ∀ c ∈ t, isWhiteSpace c = true → isBlank c = true) : IsWord t := by
  obtain ⟨c, u, w, rfl, -, hu, hw⟩ := exists_word h
  obtain rfl : w = [] := by
    refine hw.resolve_right ?_
    rintro rfl
    exact absurd (hwhite '\n' (by simp) (by decide)) (by decide)
  rw [List.append_nil]
  exact isWord_of_isWordChar (List.cons_ne_nil c u) hu

end Text

namespace Token

/-- **What balanced and complete tokens spell is a span.** -/
theorem Chain.isSpan_text {s : Shape} {ts : List Token} (h : Chain .opening ts s)
    (hbalanced : IsBalanced 0 ts) (hts : ∀ t ∈ ts, t.IsComplete)
    (hwhite : ∀ c ∈ texts ts, isWhiteSpace c = true → isBlank c = true) :
    Text.IsSpan (spelling ts) ∧ (Value.ofTokens ts).text = spelling ts := by
  have hs : s ≠ .literal false := h.ne_literal_of_isComplete (by decide) hts
  obtain ⟨us, r, hspell, hus, hr, -, hthin⟩ := exists_written h hs hwhite
  exact ⟨⟨⟨us, r, hspell.symm, hus, hr, (hthin us (Thinned.self true us)).isBalanced hbalanced⟩,
    Text.trim_trim _⟩, h.text_ofTokens hs hwhite⟩

end Token

/-- A value is a span where the splitter and the lexer agree on it. -/
theorem Part.IsValue.isSpan {t : Text} (h : Part.IsValue t) : t.IsSpan := by
  obtain ⟨ts, s, hts, hchain, hs, hbalanced⟩ := h.tidy.exists_chain
  exact ⟨⟨ts, s, hts, hchain, hs, hbalanced⟩, h.trim_eq⟩

end ControlLanguage
