import ControlLanguage.Proofs.Format.Atom
import ControlLanguage.Proofs.Format.Piece
import ControlLanguage.Proofs.Part.Splitting

/-!
# Tidy texts are what the lexer reads

A value that was read is tidy, if quotes occur in its literals only and no literal is empty
(`Chain.tidy`), and **a tidy text is read as a chain of tokens with balanced parentheses**
(`exists_chain`). So a value that is put together from tidy texts can be written into a statement,
and reading the statement gives it back.
-/

namespace ControlLanguage

open Text Shape Token

/-! ### Literals -/

namespace Shape

/-- A literal with its quotes doubled is one token. -/
theorem run?_doubled (b : Text) :
    (literal false).run? (Part.doubled b ++ ['\x27']) = some (.literal true) := by
  induction b with
  | nil => rfl
  | cons c b ih =>
    by_cases hc : c = '\x27'
    · rw [hc, Part.doubled_cons_quote]
      exact run?_cons.2 ⟨_, rfl, run?_cons.2 ⟨_, rfl, ih⟩⟩
    · rw [Part.doubled_cons_of_ne hc]
      refine run?_cons.2 ⟨.literal false, ?_, ih⟩
      simp [extended, quote, hc]

/-- What runs to the end of a literal is a text with its quotes doubled. -/
theorem exists_doubled {u : Text} (h : (literal false).run? u = some (.literal true)) :
    ∃ b, u = Part.doubled b ++ ['\x27'] := by
  induction u using List.twoStepInduction with
  | nil => simp [run?] at h
  | singleton c =>
    obtain ⟨longer, hc, hnil⟩ := run?_cons.1 h
    obtain rfl := Option.some.inj hnil
    have hquote : decide (c = quote) = true := by simpa [extended] using hc
    obtain rfl : c = '\x27' := of_decide_eq_true hquote
    exact ⟨[], rfl⟩
  | cons_cons c d u ih₁ ih₂ =>
    obtain ⟨longer, hc, hrest⟩ := run?_cons.1 h
    obtain rfl : literal (c = quote) = longer := Option.some.inj hc
    by_cases hquote : c = quote
    · -- a quote that does not end the literal is doubled
      obtain ⟨longer, hd, hu⟩ := run?_cons.1 hrest
      have hdquote : d = quote := by
        by_contra hne
        simp [extended, hquote, hne] at hd
      obtain rfl : literal false = longer := by simpa [extended, hquote, hdquote] using hd
      obtain ⟨b, rfl⟩ := ih₁ hu
      exact ⟨'\x27' :: b, by rw [hquote, hdquote]; rfl⟩
    · rw [decide_eq_false hquote] at hrest
      obtain ⟨b, hb⟩ := ih₂ d hrest
      exact ⟨c :: b, by rw [hb, Part.doubled_cons_of_ne hquote, List.cons_append]⟩

/-! ### Words -/

/-- A word goes on as a word. -/
theorem IsWordlike.run? {s s' : Shape} {u : Text} (hs : s.IsWordlike) (h : s.run? u = some s') :
    s'.IsWordlike ∧ ∀ c ∈ u, endsWord c = false := by
  induction u generalizing s with
  | nil => exact ⟨Option.some.inj h ▸ hs, nofun⟩
  | cons c u ih =>
    obtain ⟨longer, hc, hu⟩ := run?_cons.1 h
    have hstep : longer.IsWordlike ∧ endsWord c = false := by
      have hletter : c.isAlphanum = true → endsWord c = false :=
        fun h ↦ (endsWord_of_isPlain (isPlain_of_isAlphanum h)).1
      have halpha : c.isAlpha = true → c.isAlphanum = true := by
        intro h
        simp [Char.isAlphanum, h]
      rcases hs with rfl | rfl | rfl | rfl <;>
        simp only [extended, Option.ite_none_left_eq_some, Option.ite_none_right_eq_some,
          Option.some.injEq] at hc <;> obtain ⟨hc, rfl⟩ := hc
      · exact ⟨Or.inl rfl, by simpa using hc⟩
      · exact ⟨Or.inr (Or.inl rfl), hletter hc⟩
      · exact ⟨Or.inr (Or.inr (Or.inl rfl)), hletter (halpha hc)⟩
      · exact ⟨Or.inr (Or.inr (Or.inr rfl)), hletter (halpha hc)⟩
    obtain ⟨hs', hu'⟩ := ih hstep.1 hu
    refine ⟨hs', fun d hd ↦ ?_⟩
    rcases List.mem_cons.1 hd with rfl | hd
    · exact hstep.2
    · exact hu' d hd

/-- Nothing goes on with a tidy text, unless it is a word. -/
theorem stops_of_tidy {loose : Bool} {s : Shape} {d : Nat} {t : Text} (h : Part.Tidy loose s d t)
    (hs : s = .blank ∨ s = .opening ∨ s = .closing ∨ s = .literal true) : s.Stops t := by
  cases h with
  | nil => exact stops_nil s
  | quoted _ hnone => exact stops_cons.2 hnone
  | blank _ hnone => exact stops_cons.2 hnone
  | opening => exact stops_cons.2 (by rcases hs with rfl | rfl | rfl | rfl <;> rfl)
  | closing => exact stops_cons.2 (by rcases hs with rfl | rfl | rfl | rfl <;> rfl)
  | plain hc =>
    obtain ⟨-, hblank, hquote, -⟩ := endsWord_of_isPlain hc
    refine stops_cons.2 ?_
    rcases hs with rfl | rfl | rfl | rfl <;> simp [extended, hblank, hquote]

end Shape

/-! ### From tokens to a tidy text -/

namespace Token

/-- What a token that is complete may be. -/
theorem Follows.cases {s s' : Shape} {t : Token} (h : Follows s t s') (hs' : s' ≠ .literal false) :
    (t.text = [' '] ∧ s' = .blank ∧ s.extended ' ' = none) ∨
    (t.text = ['('] ∧ s' = .opening) ∨ (t.text = [')'] ∧ s' = .closing) ∨
    (∃ b, t.text = quoted b ∧ s' = .literal true ∧ s.extended quote = none) ∨
    (s'.IsWordlike ∧ t.text ≠ [] ∧ ∀ c ∈ t.text, endsWord c = false) := by
  obtain ⟨c, u, htext, hstop, hu, hk, hblank⟩ := id h
  have hparen : ∀ {p : Shape}, (∀ d, p.extended d = none) → p.run? u = some s' →
      u = [] ∧ s' = p := by
    intro p hp hrun
    cases u with
    | nil => exact ⟨rfl, (Option.some.inj hrun).symm⟩
    | cons d u =>
      obtain ⟨longer, hd, -⟩ := run?_cons.1 hrun
      rw [hp d] at hd
      exact absurd hd nofun
  -- the first character tells what the token is
  by_cases hb : isBlank c = true
  · have hs₁ := (h.isBlank_iff htext).1 hb
    obtain ⟨rfl, -⟩ := List.cons.inj (htext.symm.trans (hblank hs₁))
    exact Or.inl ⟨hblank hs₁, hs₁, hstop⟩
  by_cases hopening : c = '('
  · subst hopening
    obtain ⟨rfl, rfl⟩ := hparen (fun _ ↦ rfl) hu
    exact Or.inr (Or.inl ⟨htext, rfl⟩)
  by_cases hclosing : c = ')'
  · subst hclosing
    obtain ⟨rfl, rfl⟩ := hparen (fun _ ↦ rfl) hu
    exact Or.inr (Or.inr (Or.inl ⟨htext, rfl⟩))
  by_cases hquote : c = quote
  · subst hquote
    have hkind : t.kind = .literal := by
      obtain ⟨closed, rfl⟩ := literal_of_run? hu
      exact hk
    obtain ⟨v, hv, hrun⟩ := h.exists_literal hs' hkind
    obtain ⟨b, rfl⟩ := exists_doubled hrun
    have hs₁ : s' = .literal true := by
      obtain ⟨-, rfl⟩ := List.cons.inj (htext.symm.trans hv)
      exact Option.some.inj (hu.symm.trans hrun)
    exact Or.inr (Or.inr (Or.inr (Or.inl ⟨b, hv, hs₁, hstop⟩)))
  · have hends : endsWord c = false := by simp [endsWord, hb, hopening, hclosing]
    obtain ⟨hword, hrest⟩ := (isWordlike_begun hends hquote).run? hu
    refine Or.inr (Or.inr (Or.inr (Or.inr ⟨hword, htext ▸ List.cons_ne_nil c u, fun d hd ↦ ?_⟩)))
    rw [htext] at hd
    rcases List.mem_cons.1 hd with rfl | hd
    · exact hends
    · exact hrest d hd

/-- No quotes outside of literals, no literal that is empty, and no white space but blanks. -/
structure IsTidy (t : Token) : Prop where
  isQuote_eq_false : t.kind ≠ .literal → ∀ c ∈ t.text, Nesting.isQuote c = false
  ne_empty : t.text ≠ ['\x27', '\x27']
  isBlank_of_isWhiteSpace : ∀ c ∈ t.text, isWhiteSpace c = true → isBlank c = true

theorem IsTidy.isPlain {t : Token} (h : t.IsTidy) (hkind : t.kind ≠ .literal)
    (hword : ∀ c ∈ t.text, endsWord c = false) : ∀ c ∈ t.text, isPlain c = true := by
  intro c hc
  have hends := hword c hc
  simp only [endsWord, Bool.or_eq_false_iff, decide_eq_false_iff_not] at hends
  refine isPlain_iff.2 ⟨Bool.eq_false_iff.2 fun hw ↦ ?_, h.isQuote_eq_false hkind c hc, hends.1.2,
    hends.2⟩
  rw [h.isBlank_of_isWhiteSpace c hc hw] at hends
  exact Bool.noConfusion hends.1.1

/-- A word is neither a literal nor a parenthesis. -/
theorem Follows.kind_of_isWordlike {s s' : Shape} {t : Token} (h : Follows s t s')
    (hs' : s'.IsWordlike) : t.kind ≠ .literal ∧ t.kind ≠ .opening ∧ t.kind ≠ .closing := by
  obtain ⟨c, u, -, -, -, hk, -⟩ := h
  rw [hk]
  rcases hs' with rfl | rfl | rfl | rfl <;> simp only [Shape.kind] <;> try split_ifs
  all_goals simp

/-- Behind a lexeme of shape `s` a text goes on with that lexeme, and then it is read as tokens that
close `depth` parentheses; it ends outside of literals. -/
def RunsOn (s : Shape) (depth : Nat) (t : Text) : Prop :=
  ∃ u ts s₁ r, t = u ++ texts ts ∧ s.run? u = some s₁ ∧ Chain s₁ ts r ∧ r ≠ .literal false ∧
    IsBalanced depth ts ∧ (s.Stops t → u = [])

/-- One more character that is no blank, parenthesis or quote goes on with the lexeme in front, or
it begins a word. -/
theorem RunsOn.cons {s : Shape} (hs : s.IsInner) {c : Char} (hends : endsWord c = false)
    (hquote : c ≠ quote) {depth : Nat} {t : Text} (h : RunsOn (s.after c) depth t) :
    RunsOn s depth (c :: t) := by
  have hword := isWordlike_after_of_endsWord hs hends hquote
  obtain ⟨u, ts, s₁, r, rfl, hu, hchain, hr, hbalanced, -⟩ := h
  rcases hext : s.extended c with _ | longer
  · -- the character begins a token
    rw [after_of_stops hext] at hu hword
    have hs₁ := (hword.run? hu).1
    have hf : Follows s ⟨s₁.kind (c :: u), c :: u, 0⟩ s₁ :=
      ⟨c, u, rfl, hext, hu, rfl, fun hblank ↦ by rw [hblank] at hs₁; simp [IsWordlike] at hs₁⟩
    obtain ⟨-, hopening, hclosing⟩ := hf.kind_of_isWordlike hs₁
    exact ⟨[], _ :: ts, s, r, rfl, rfl, Chain.cons hf hchain, hr,
      (isBalanced_cons_of_ne hopening hclosing).2 hbalanced, fun _ ↦ rfl⟩
  · rw [after_of_extended hext] at hu
    refine ⟨c :: u, ts, s₁, r, rfl, run?_cons.2 ⟨longer, hext, hu⟩, hchain, hr, hbalanced,
      fun hstop ↦ ?_⟩
    rw [stops_cons, hext] at hstop
    exact absurd hstop (Option.some_ne_none longer)

/-- So do plain characters. -/
theorem RunsOn.plain_append {w : Text} (hw : ∀ c ∈ w, isPlain c = true) {s : Shape} (hs : s.IsInner)
    {depth : Nat} {t : Text} (h : RunsOn (s.afterText w) depth t) : RunsOn s depth (w ++ t) := by
  induction w generalizing s with
  | nil => exact h
  | cons c w ih =>
    have hc := hw c List.mem_cons_self
    obtain ⟨hends, -, hquote, -⟩ := endsWord_of_isPlain hc
    exact (ih (fun d hd ↦ hw d (List.mem_cons_of_mem c hd)) (isWordlike_after hs hc).isInner h).cons
      hs hends hquote

/-- A literal is one token where a quote begins it. -/
theorem RunsOn.quoted_append (b : Text) {s : Shape} (hs : s.extended quote = none) {depth : Nat}
    {t : Text} (h : RunsOn (.literal true) depth t) (ht : (literal true).Stops t) :
    RunsOn s depth (quoted b ++ t) := by
  obtain ⟨u, ts, s₁, r, rfl, hu, hchain, hr, hbalanced, hnil⟩ := h
  obtain rfl := hnil ht
  obtain rfl := Option.some.inj hu
  have hf : Follows s ⟨.literal, quoted b, 0⟩ (.literal true) :=
    ⟨'\x27', Part.doubled b ++ ['\x27'], rfl, hs, run?_doubled b, rfl, nofun⟩
  exact ⟨[], _ :: ts, s, r, rfl, rfl, Chain.cons hf hchain, hr,
    (isBalanced_cons_of_ne (by simp) (by simp)).2 hbalanced, fun _ ↦ rfl⟩

/-- **Tokens that are tidy spell a tidy text.** -/
theorem Chain.tidy {s s' : Shape} {ts : List Token} (h : Chain s ts s') (hs' : s' ≠ .literal false)
    {d : Nat} (hbalanced : IsBalanced d ts) (htidy : ∀ t ∈ ts, t.IsTidy) :
    Part.Tidy true s d (texts ts) := by
  induction h generalizing d with
  | nil s =>
    rw [show d = 0 from hbalanced]
    exact Part.Tidy.nil s
  | @cons s s₁ s' t ts hf hc ih =>
    have ht := htidy t List.mem_cons_self
    have hrest : ∀ {e : Nat}, IsBalanced e ts → Part.Tidy true s₁ e (texts ts) :=
      fun he ↦ ih hs' he fun u hu ↦ htidy u (List.mem_cons_of_mem t hu)
    have hkind : t.kind = s₁.kind t.text := hf.kind_eq
    rw [texts_cons]
    rcases hf.cases (hc.shape_ne_literal hs') with ⟨htext, rfl, hstop⟩ | ⟨htext, rfl⟩ |
      ⟨htext, rfl⟩ | ⟨b, htext, rfl, hstop⟩ | ⟨hword, hne, hends⟩
    · have hb : t.kind = .blank := hkind
      rw [isBalanced_cons_of_ne (by simp [hb]) (by simp [hb])] at hbalanced
      rw [htext]
      exact Part.Tidy.blank (Or.inl rfl) hstop (hrest hbalanced)
    · rw [isBalanced_cons_opening hkind] at hbalanced
      rw [htext]
      exact Part.Tidy.opening (hrest hbalanced)
    · rcases d with _ | d
      · exact absurd hbalanced (not_isBalanced_zero_cons hkind)
      · rw [isBalanced_cons_closing hkind] at hbalanced
        rw [htext]
        exact Part.Tidy.closing (hrest hbalanced)
    · have hl : t.kind = .literal := hkind
      rw [isBalanced_cons_of_ne (by simp [hl]) (by simp [hl])] at hbalanced
      have hb : b ≠ [] := by
        rintro rfl
        exact ht.ne_empty htext
      rw [htext]
      exact Part.Tidy.quoted hb hstop (hrest hbalanced)
    · obtain ⟨hliteral, hopening, hclosing⟩ := hf.kind_of_isWordlike hword
      rw [isBalanced_cons_of_ne hopening hclosing] at hbalanced
      exact Part.Tidy.plain_append (ht.isPlain hliteral hends) (hf.afterText.symm ▸ hrest hbalanced)

end Token

/-! ### From a tidy text to tokens -/

namespace Part

/-- **A tidy text is a chain of tokens with balanced parentheses**, behind what is left of the
lexeme in front. -/
theorem Tidy.runsOn {loose : Bool} {s : Shape} {d : Nat} {t : Text}
    (h : Tidy loose s d t) (hs : s.IsInner) : RunsOn s d t := by
  induction h with
  | nil s => exact ⟨[], [], s, s, rfl, rfl, Chain.nil s, hs.2, rfl, fun _ ↦ rfl⟩
  | @quoted s d b t hb hstop hrest ih =>
    exact (ih ⟨nofun, nofun⟩).quoted_append b hstop (stops_of_tidy hrest (by simp))
  | @blank s d t _ hstop hrest ih =>
    obtain ⟨u, ts, s₁, r, rfl, hu, hchain, hr, hbalanced, hnil⟩ := ih ⟨nofun, nofun⟩
    obtain rfl := hnil (stops_of_tidy hrest (by simp))
    obtain rfl := Option.some.inj hu
    exact ⟨[], Token.blank :: ts, s, r, rfl, rfl, Chain.cons (follows_blank hstop) hchain, hr,
      (isBalanced_cons_of_ne (by decide) (by decide)).2 hbalanced, fun _ ↦ rfl⟩
  | @opening s d t hrest ih =>
    obtain ⟨u, ts, s₁, r, rfl, hu, hchain, hr, hbalanced, hnil⟩ := ih ⟨nofun, nofun⟩
    obtain rfl := hnil (stops_of_tidy hrest (by simp))
    obtain rfl := Option.some.inj hu
    exact ⟨[], Token.opening :: ts, s, r, rfl, rfl, Chain.cons (follows_opening hs.2) hchain, hr,
      (isBalanced_cons_opening rfl).2 hbalanced, fun _ ↦ rfl⟩
  | @closing s d t hrest ih =>
    obtain ⟨u, ts, s₁, r, rfl, hu, hchain, hr, hbalanced, hnil⟩ := ih ⟨nofun, nofun⟩
    obtain rfl := hnil (stops_of_tidy hrest (by simp))
    obtain rfl := Option.some.inj hu
    exact ⟨[], Token.closing :: ts, s, r, rfl, rfl, Chain.cons (follows_closing hs.2) hchain, hr,
      (isBalanced_cons_closing rfl).2 hbalanced, fun _ ↦ rfl⟩
  | @plain s d c t hc _ ih =>
    obtain ⟨hends, -, hquote, -⟩ := endsWord_of_isPlain hc
    exact (ih (isWordlike_after hs hc).isInner).cons hs hends hquote

/-- A value between its parentheses. -/
theorem Tidy.exists_chain {t : Text} (h : Tidy true .opening 0 t) :
    ∃ ts r, texts ts = t ∧ Chain .opening ts r ∧ r ≠ .literal false ∧ IsBalanced 0 ts := by
  obtain ⟨u, ts, s₁, r, rfl, hu, hchain, hr, hbalanced, hnil⟩ := h.runsOn ⟨nofun, nofun⟩
  obtain rfl := hnil (stops_of_tidy h (by simp))
  obtain rfl := Option.some.inj hu
  exact ⟨ts, r, rfl, hchain, hr, hbalanced⟩

/-! ### The text of a value -/

/-- The text of a value is that of its tokens, or that without white space around it. -/
theorem text_ofTokens (ts : List Token) :
    (Value.ofTokens ts).text = texts ts ∨ (Value.ofTokens ts).text = (texts ts).trim := by
  rcases ts with _ | ⟨t, _ | ⟨u, ts⟩⟩
  · exact Or.inr rfl
  · rw [Value.ofTokens]
    split_ifs
    · exact Or.inl (List.append_nil t.text).symm
    · exact Or.inr rfl
  · exact Or.inr rfl

/-- So it is tidy if its tokens are. -/
theorem tidy_text_ofTokens {ts : List Token} (h : Tidy true .opening 0 (texts ts)) :
    Tidy true .opening 0 (Value.ofTokens ts).text := by
  rcases text_ofTokens ts with heq | heq <;> rw [heq]
  · exact h
  · exact h.trim

theorem text_ofTokens_of_trim {ts : List Token} (h : (texts ts).trim = texts ts) :
    (Value.ofTokens ts).text = texts ts := by
  rcases text_ofTokens ts with heq | heq <;> rw [heq]
  exact h

end Part

end ControlLanguage
