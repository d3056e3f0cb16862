import ControlLanguage.Proofs.Command.Printing

/-!
# Printing what was read

Printing closes every value, so what was read with its last value open is not read back. Then the
parenthesis that was added is read as part of the value, **and another one is added each time the
command is printed** (`Text.IsOpen`). All other commands are read back, whatever their names are.
-/

namespace ControlLanguage

open Text Token

/-! ### Open values -/

namespace Token

theorem Follows.kind_eq_literal {s : Shape} {t : Token} {closed : Bool}
    (h : Follows s t (.literal closed)) : t.kind = .literal :=
  h.kind_eq

/-- A literal that is left open goes on with a closing parenthesis. -/
theorem Follows.extend {s : Shape} {t : Token} (h : Follows s t (.literal false)) :
    Follows s ⟨.literal, t.text ++ [')'], 0⟩ (.literal false) := by
  obtain ⟨c, u, htext, hstop, hu, -⟩ := h
  refine ⟨c, u ++ [')'], by rw [htext]; rfl, hstop, ?_, rfl, fun hs ↦ Shape.noConfusion hs⟩
  exact Shape.run?_append.2 ⟨_, hu, rfl⟩

/-- It stays one without the blanks at its end. -/
theorem Follows.trimEnd {s : Shape} {t : Token} (h : Follows s t (.literal false))
    (hwhite : ∀ c ∈ t.text, isWhiteSpace c = true → isBlank c = true) :
    Follows s ⟨.literal, t.text.trimEnd, 0⟩ (.literal false) := by
  obtain ⟨c, u, htrim, -⟩ := Text.trimEnd_beginsInk (h.beginsInk (by decide) hwhite)
  obtain ⟨w, hw, htext⟩ := Text.exists_trimEnd_append t.text
  obtain ⟨d, v, hd, hstop, hv, -⟩ := h
  rw [htrim, hd] at htext
  obtain ⟨rfl, rfl⟩ := List.cons.inj htext
  refine ⟨d, u, htrim, hstop, ?_, rfl, fun hs ↦ Shape.noConfusion hs⟩
  obtain ⟨r, hr, hrest⟩ := Shape.run?_append.1 hv
  rcases w with _ | ⟨e, w⟩
  · rwa [Option.some.inj hrest] at hr
  · -- the literal goes on with a blank
    obtain ⟨longer, he, hrest'⟩ := Shape.run?_cons.1 hrest
    have hblank : isBlank e = true :=
      hwhite e (by rw [hd]; simp) (hw e List.mem_cons_self)
    rcases Shape.extended_eq_some_of_isBlank hblank he with rfl | rfl
    · exact absurd (Shape.run?_blank hrest) (by decide)
    · exact hr

end Token

namespace Text

/-- One more closing parenthesis does not close the value. -/
structure IsOpen (t : Text) : Prop where
  exists_chain : ∃ ts s, texts ts = t ++ [')'] ∧ Chain .opening ts s ∧ IsClosable 0 ts
  beginsInk : BeginsInk (t ++ [')'])

theorem IsOpen.trim_eq {t : Text} (h : IsOpen t) : (t ++ [')']).trim = t ++ [')'] :=
  trim_of_ink h.beginsInk ⟨t, ')', rfl, by decide⟩

end Text

namespace Token

variable {ts : List Token} {s : Shape}

/-- Tokens that leave a parenthesis open spell an open value. -/
theorem Chain.isOpen_of_not_isBalanced (h : Chain .opening ts s) (hs : s ≠ .literal false)
    (hwhite : ∀ c ∈ texts ts, isWhiteSpace c = true → isBlank c = true)
    (hclosable : IsClosable 0 ts) (hbalanced : ¬ IsBalanced 0 ts) : IsOpen (spelling ts) := by
  obtain ⟨us, r, hspell, hus, hr, -, hthin⟩ := exists_written h hs hwhite
  obtain ⟨n, hn⟩ := hclosable
  -- at least one parenthesis is missing, and the one that is added takes its place
  rcases n with _ | n
  · rw [List.replicate_zero, List.append_nil] at hn
    exact absurd hn hbalanced
  have hthinned := (hthin us (Thinned.self true us)).isBalanced_append hn
  rw [List.replicate_succ, List.append_cons] at hthinned
  refine ⟨⟨us ++ [closing], .closing, ?_, ?_, n, hthinned⟩, ?_⟩
  · rw [hspell, texts_append]
    rfl
  · exact hus.append (Chain.cons (follows_closing hr) (Chain.nil _))
  · rcases Text.trim_eq_nil_or_ink (texts ts) with hnil | hink
    · rw [show spelling ts = [] from hnil]
      exact ⟨')', [], rfl, by decide⟩
    · exact hink.1.append _

/-- The text of a chain begins with ink if no blank stands in front. -/
theorem Chain.beginsInk_texts {s' : Shape} (h : Chain s ts s') (hne : ts ≠ [])
    (hhead : ∀ t ∈ ts.head?, t.kind ≠ .blank)
    (hwhite : ∀ c ∈ texts ts, isWhiteSpace c = true → isBlank c = true) :
    BeginsInk (texts ts) := by
  obtain ⟨t, us, rfl⟩ := List.exists_cons_of_ne_nil hne
  obtain ⟨r, hf, -⟩ := chain_cons.1 h
  rw [texts_cons]
  exact (hf.beginsInk (mt hf.kind_eq_blank_iff.2 (hhead t rfl)) fun c hc ↦
    hwhite c (by simp [hc])).append _

/-- A text of tokens that ends in a literal left open, without the white space at its ends: one
blank in front may be missing, and the literal may be shorter. -/
theorem Chain.exists_written_of_literal {t : Token}
    (h : Chain .opening (ts ++ [t]) (.literal false))
    (hwhite : ∀ c ∈ texts (ts ++ [t]), isWhiteSpace c = true → isBlank c = true) :
    ∃ us v, spelling (ts ++ [t]) = texts (us ++ [v]) ∧
      Chain .opening (us ++ [v]) (.literal false) ∧ BeginsInk (texts (us ++ [v])) ∧
      (IsClosable 0 (ts ++ [t]) → IsClosable 0 (us ++ [v])) := by
  obtain ⟨r, hts, hf⟩ := chain_concat.1 h
  have hwhite' : ∀ c ∈ t.text, isWhiteSpace c = true → isBlank c = true :=
    fun c hc ↦ hwhite c (by simp [hc])
  -- the white space at the end is part of the literal, the one in front is a token of its own
  have hf' := hf.trimEnd hwhite'
  generalize hv : (⟨.literal, t.text.trimEnd, 0⟩ : Token) = v at hf'
  have hvtext : v.text = t.text.trimEnd := by rw [← hv]
  obtain ⟨gap, us, rfl, hgap, hhead⟩ := hts.exists_gap
  obtain ⟨s₁, -, hus⟩ := chain_append.1 hts
  have hchain : Chain s₁ (us ++ [v]) (.literal false) := chain_concat.2 ⟨_, hus, hf'⟩
  have hink : BeginsInk (texts (us ++ [v])) := by
    refine hchain.beginsInk_texts (by simp) ?_ fun c hc ↦ hwhite c ?_
    · rcases us with _ | ⟨u, us⟩
      · simp [hf'.kind_eq_literal]
      · exact hhead
    · simp only [texts_append, texts_cons, texts_nil, List.append_nil, List.mem_append,
        hvtext] at hc ⊢
      exact hc.imp Or.inr fun hc ↦ (List.rdropWhile_prefix isWhiteSpace t.text).subset hc
  refine ⟨us, v, ?_, ?_, hink, fun hclosable ↦ ?_⟩
  · have hnot : ¬ IsWhite t.text := (hf.beginsInk (by decide) hwhite').not_isWhite
    calc spelling (gap ++ us ++ [t]) = (texts (gap ++ us) ++ t.text).trimEnd.trimStart := by
          rw [trimStart_trimEnd]
          simp [spelling, texts]
      _ = (texts gap ++ texts (us ++ [v])).trimStart := by
          rw [trimEnd_append _ hnot]
          simp [hvtext]
      _ = texts (us ++ [v]) := by
          rw [trimStart_append_of_isWhite hgap.isWhite, trimStart_of_beginsInk hink]
  · obtain ⟨w, ws, hw⟩ := List.exists_cons_of_ne_nil (show us ++ [v] ≠ [] by simp)
    rw [hw] at hchain ⊢
    exact hchain.congr fun c _ ↦ rfl
  · have hsame : IsClosable 0 (gap ++ (us ++ [v])) :=
      hclosable.congr_kind (by simp [hf.kind_eq_literal, hf'.kind_eq_literal])
    rcases hgap with rfl | ⟨b, rfl, hb, -⟩
    · exact hsame
    · exact (isClosable_cons_of_ne (by simp [hb]) (by simp [hb])).1 hsame

/-- A text that ends in a literal left open is an open value. -/
theorem Chain.isOpen_texts {t : Token} (h : Chain .opening (ts ++ [t]) (.literal false))
    (hink : BeginsInk (texts (ts ++ [t]))) (hclosable : IsClosable 0 (ts ++ [t])) :
    IsOpen (texts (ts ++ [t])) := by
  obtain ⟨r, hts, hf⟩ := chain_concat.1 h
  refine ⟨⟨ts ++ [⟨.literal, t.text ++ [')'], 0⟩], .literal false, ?_, ?_, ?_⟩, hink.append _⟩
  · simp
  · exact chain_concat.2 ⟨r, hts, hf.extend⟩
  · exact hclosable.congr_kind (by simp [hf.kind_eq_literal])

/-- **Tokens that end in a literal left open spell an open value.** Trimming leaves the literal
open. -/
theorem Chain.isOpen_of_literal (h : Chain .opening ts (.literal false))
    (hwhite : ∀ c ∈ texts ts, isWhiteSpace c = true → isBlank c = true)
    (hclosable : IsClosable 0 ts) : IsOpen (Value.ofTokens ts).text := by
  obtain ⟨us, t, rfl⟩ := (List.eq_nil_or_concat' ts).resolve_left fun hnil ↦ by
    subst hnil
    cases h
  rcases us with _ | ⟨u, us⟩
  · -- a single literal is a scalar value and is not trimmed
    obtain ⟨r, -, hf⟩ := chain_concat.1 h
    have hkind : t.kind = .literal := hf.kind_eq_literal
    have hscalar : (Value.ofTokens [t]).text = texts ([] ++ [t]) := by
      simp [Value.ofTokens, Token.isScalar, hkind, Value.text]
    rw [List.nil_append, hscalar]
    exact h.isOpen_texts (h.beginsInk_texts (by simp) (by simp [hkind]) hwhite) hclosable
  · obtain ⟨ws, v, hspell, hchain, hink, himp⟩ := h.exists_written_of_literal hwhite
    have hvalue : (Value.ofTokens (u :: us ++ [t])).text = spelling (u :: us ++ [t]) := by
      rcases us with _ | ⟨w, us⟩ <;> rfl
    rw [hvalue, hspell]
    exact hchain.isOpen_texts hink (himp hclosable)

end Token

namespace Command

/-- **A parameter that is left open takes in the parenthesis that was added.** -/
theorem capturesFrom_spelled_of_isOpen {keyword v : Text} (hkeyword : keyword.isIdentifier = true)
    (hv : IsOpen v) {r : Shape} (hr : r.extended ' ' = none) :
    (capturesFrom (.between none) (following r (Statement.spelled [(keyword, v)]))).map
      Capture.entry = [(keyword, v ++ [')'])] := by
  obtain ⟨ts, s, hts, hchain, hclosable⟩ := hv.exists_chain
  have hwhole : Chain r (Token.blank :: ofKeyword keyword :: Token.opening :: ts) s :=
    Chain.cons (follows_blank hr) (Chain.cons (follows_of_isIdentifier hkeyword)
      (Chain.cons (follows_opening (by decide)) hchain))
  have htexts : Statement.spelled [(keyword, v)] =
      texts (Token.blank :: ofKeyword keyword :: Token.opening :: ts) ++ [] := by
    simp [Statement.spelled, ValueRules.parenthesised, hts, Token.blank, ofKeyword, Token.opening]
  have htokens : (Token.blank :: ofKeyword keyword :: Token.opening :: ts).map unplaced ++
      following s [] = Token.blank :: ofKeyword keyword :: Token.opening :: ts.map unplaced := by
    rw [show following s [] = [] from rfl, List.append_nil]
    rfl
  have hvalue : (Value.ofTokens (ts.map unplaced)).text = v ++ [')'] := by
    rw [Part.text_ofTokens_of_trim, texts_unplaced, hts]
    rw [texts_unplaced, hts, hv.trim_eq]
  rw [htexts, following_chain hwhole (Shape.stops_nil s), htokens, capturesFrom_blank rfl,
    capturesFrom_keyword _ rfl rfl,
    capturesFrom_inside_of_isClosable (hclosable.congr_kind (by simp [unplaced]))]
  show [(keyword, (Value.ofTokens (ts.map unplaced)).text)] = _
  rw [hvalue]

/-! ### Commands that were read -/

/-- The value ends outside of parentheses and literals. -/
structure Capture.IsWhole (c : Capture) : Prop where
  isBalanced : IsBalanced 0 c.tokens
  isComplete : ∀ t ∈ c.tokens, t.IsComplete

theorem Capture.isWhole_unplaced {c : Capture} : c.unplaced.IsWhole ↔ c.IsWhole := by
  obtain ⟨halike, halike'⟩ := alike_unplaced c.tokens
  constructor
  · rintro ⟨hbalanced, hcomplete⟩
    exact ⟨hbalanced.congr halike', fun t ht ↦ hcomplete t.unplaced (List.mem_map_of_mem ht)⟩
  · rintro ⟨hbalanced, hcomplete⟩
    refine ⟨hbalanced.congr halike, fun t ht ↦ ?_⟩
    obtain ⟨u, hu, rfl⟩ := List.mem_map.1 ht
    exact hcomplete u hu

namespace Reads

variable {t name rest : Text} {q : Shape} (h : Reads t name q rest)

include h

/-- Nothing is captured behind a name that ends in a literal left open. -/
theorem extended_blank (hne : captures (tokenize t) ≠ []) : q.extended ' ' = none := by
  by_contra hblank
  obtain ⟨longer, hlonger⟩ := Option.ne_none_iff_exists'.1 hblank
  rcases Shape.extended_eq_some_of_isBlank (by decide) hlonger with rfl | rfl
  · exact h.ne_blank rfl
  · obtain rfl : rest = [] := by
      rcases rest with _ | ⟨d, rest⟩
      · rfl
      · have hstop := Shape.stops_cons.1 h.stops
        simp [Shape.extended] at hstop
    exact hne (List.map_eq_nil_iff.1 h.captures_eq)

theorem stops_spelled : q.Stops (Statement.spelled (entries t)) := by
  by_cases hnil : captures (tokenize t) = []
  · rw [entries, hnil]
    exact Shape.stops_nil q
  · rcases Statement.spelled_eq_nil_or (entries t) with hspelled | ⟨u, hu⟩
    · rw [hspelled]
      exact Shape.stops_nil q
    · rw [hu]
      exact Shape.stops_cons.2 (h.extended_blank hnil)

/-- A whole capture has a keyword and the text of a span. -/
theorem isSpan_entry (hwhite : ∀ d ∈ t, isWhiteSpace d = true → isBlank d = true) {c : Capture}
    (hc : c ∈ captures (tokenize t)) (hwhole : c.IsWhole) :
    c.entry.1.isIdentifier = true ∧ IsSpan c.entry.2 := by
  obtain ⟨s, after, hkeyword, hvalue, -⟩ := h.exists_chain hc
  obtain ⟨hspan, htext⟩ := hvalue.of_unplaced.isSpan_text hwhole.isBalanced hwhole.isComplete
    fun d hd ↦ h.isBlank_of_mem hwhite hc d (List.mem_append_right _ hd)
  refine ⟨hkeyword.isIdentifier, ?_⟩
  show IsSpan (Value.ofTokens c.tokens).text
  rwa [htext]

/-- A closed capture is whole, since a literal left open would take in the parenthesis. -/
theorem isWhole_of_isClosed {c : Capture} (hc : c ∈ captures (tokenize t)) (hclosed : c.isClosed) :
    c.IsWhole := by
  obtain ⟨s, after, -, hvalue, hafter, -, hparen, -⟩ := h.exists_chain hc
  obtain ⟨hbalanced, u, hu, -⟩ := hparen hclosed
  have hs : s ≠ .literal false :=
    hafter.ne_literal_of_ne_nil (List.ne_nil_of_mem (List.mem_of_mem_head? hu))
  exact Capture.isWhole_unplaced.1 ⟨hbalanced, hvalue.isComplete hs⟩

/-- A capture that is not whole has an open value. -/
theorem isOpen_entry (hwhite : ∀ d ∈ t, isWhiteSpace d = true → isBlank d = true) {c : Capture}
    (hc : c ∈ captures (tokenize t)) (hwhole : ¬ c.IsWhole) :
    c.entry.1.isIdentifier = true ∧ IsOpen c.entry.2 := by
  obtain ⟨s, after, hkeyword, hvalue, -, -, -, hclosable⟩ := h.exists_chain hc
  have hwhite' : ∀ d ∈ texts c.tokens, isWhiteSpace d = true → isBlank d = true :=
    fun d hd ↦ h.isBlank_of_mem hwhite hc d (List.mem_append_right _ hd)
  have hclosable' : IsClosable 0 c.tokens := hclosable.congr_kind (by simp [unplaced])
  refine ⟨hkeyword.isIdentifier, ?_⟩
  show IsOpen (Value.ofTokens c.tokens).text
  by_cases hs : s = .literal false
  · subst hs
    exact hvalue.of_unplaced.isOpen_of_literal hwhite' hclosable'
  · have hcomplete := hvalue.of_unplaced.isComplete hs
    rw [hvalue.of_unplaced.text_ofTokens hs hwhite']
    exact hvalue.of_unplaced.isOpen_of_not_isBalanced hs hwhite' hclosable'
      fun hbalanced ↦ hwhole ⟨hbalanced, hcomplete⟩

/-- Whole values are read back. -/
theorem text_of_isWhole (hwhite : ∀ d ∈ t, isWhiteSpace d = true → isBlank d = true)
    (hwhole : ∀ c ∈ captures (tokenize t), c.IsWhole) :
    (ofText (name ++ Statement.spelled (entries t))).text =
      name ++ Statement.spelled (entries t) := by
  have hreads : Reads (name ++ Statement.spelled (entries t)) name q
      (Statement.spelled (entries t)) := ⟨rfl, h.run, h.stops_spelled⟩
  have hback := hreads.entries_of_spelled fun p hp ↦ by
    obtain ⟨c, hc, rfl⟩ := List.mem_map.1 hp
    exact h.isSpan_entry hwhite hc (hwhole c hc)
  rw [text_eq, hreads.name_eq, entries_ofText, hback]

/-- Only the last value can be open. -/
theorem exists_open (hwhole : ¬ ∀ c ∈ captures (tokenize t), c.IsWhole) :
    ∃ cs c, captures (tokenize t) = cs ++ [c] ∧ (∀ d ∈ cs, d.IsWhole) ∧ ¬ c.IsWhole := by
  obtain ⟨cs, c, hcaptures, hclosed⟩ := (captures_isClosed (tokenize t)).resolve_left
    fun hall ↦ hwhole fun c hc ↦ h.isWhole_of_isClosed hc (hall c hc)
  have hcs : ∀ d ∈ cs, d.IsWhole := fun d hd ↦
    h.isWhole_of_isClosed (by simp [hcaptures, hd]) (hclosed d hd)
  refine ⟨cs, c, hcaptures, hcs, fun hc ↦ hwhole fun d hd ↦ ?_⟩
  rw [hcaptures, List.mem_append, List.mem_singleton] at hd
  rcases hd with hd | rfl
  · exact hcs d hd
  · exact hc

/-- **An open value takes in the parenthesis that was added**, and another one is added. -/
theorem text_of_not_isWhole (hwhite : ∀ d ∈ t, isWhiteSpace d = true → isBlank d = true)
    (hwhole : ¬ ∀ c ∈ captures (tokenize t), c.IsWhole) :
    (ofText (name ++ Statement.spelled (entries t))).text =
      name ++ Statement.spelled (entries t) ++ [')'] := by
  obtain ⟨cs, c, hcaptures, hcs, hopen⟩ := h.exists_open hwhole
  obtain ⟨hkeyword, hvalue⟩ := h.isOpen_entry hwhite (by simp [hcaptures]) hopen
  -- the values in front of the open one are read back as they stand
  have hspans : ∀ p ∈ cs.map Capture.entry, p.1.isIdentifier = true ∧ IsSpan p.2 := by
    intro p hp
    obtain ⟨d, hd, rfl⟩ := List.mem_map.1 hp
    exact h.isSpan_entry hwhite (by simp [hcaptures, hd]) (hcs d hd)
  have hspelled : Statement.spelled (entries t) =
      Statement.spelled (cs.map Capture.entry) ++ Statement.spelled [c.entry] := by
    rw [entries, hcaptures]
    simp [Statement.spelled]
  have hreads : Reads (name ++ Statement.spelled (entries t)) name q
      (Statement.spelled (entries t)) := ⟨rfl, h.run, h.stops_spelled⟩
  have hentries := hreads.entries_eq
  have hstops := h.stops_spelled
  rw [hspelled] at hentries hstops hreads ⊢
  obtain ⟨r, hr, hback⟩ :=
    Statement.capturesFrom_spelled_append hspans (Statement.spelled [c.entry]) hstops
  have hr' : r.extended ' ' = none := by
    rcases hr with rfl | rfl
    · exact h.extended_blank (by simp [hcaptures])
    · rfl
  rw [hback, capturesFrom_spelled_of_isOpen hkeyword hvalue hr'] at hentries
  rw [text_eq, hreads.name_eq, entries_ofText, hentries]
  simp [Statement.spelled, ValueRules.parenthesised]

end Reads

/-! ### Blanks in front of the command name -/

theorem nameAndRest?_dropWhile (t : Text) :
    (nameAndRest? (tokenize t)).map (fun (name, rest) ↦ (name.unplaced, rest.map unplaced)) =
      (nameAndRest? (tokenize (t.dropWhile isBlank))).map
        fun (name, rest) ↦ (name.unplaced, rest.map unplaced) := by
  rw [← nameAndRest?_unplaced, ← nameAndRest?_unplaced, tokenize_unplaced, tokenize_unplaced]
  rcases t with _ | ⟨c, t⟩
  · rfl
  -- a run of blanks is one token, and reading drops it
  by_cases hc : isBlank c = true
  · obtain ⟨hshape, hrest⟩ := Lexeme.continued_blank t
    rw [List.dropWhile_cons_of_pos hc, Lexeme.ofText, Shape.begun_of_isBlank hc, ← hrest,
      List.map_cons, nameAndRest?, List.dropWhile_cons_of_pos, nameAndRest?]
    simp [Lexeme.toToken, Lexeme.push, hshape, Shape.kind]
  · rw [List.dropWhile_cons_of_neg hc]

/-- Blanks in front of a statement do not change its name and its captures. -/
theorem ofText_dropWhile (t : Text) : (ofText t).name = (ofText (t.dropWhile isBlank)).name ∧
    (captures (tokenize t)).map Capture.unplaced =
      (captures (tokenize (t.dropWhile isBlank))).map Capture.unplaced := by
  have hname : ∀ u, (ofText u).name = ((nameAndRest? (tokenize u)).map fun (name, rest) ↦
      (name.unplaced, rest.map unplaced)).elim [] (·.1.text) := by
    intro u
    rw [ofText, ofTokens]
    cases nameAndRest? (tokenize u) <;> rfl
  have hcaptures : ∀ u, (captures (tokenize u)).map Capture.unplaced =
      ((nameAndRest? (tokenize u)).map fun (name, rest) ↦
        (name.unplaced, rest.map unplaced)).elim [] fun (_, rest) ↦
          capturesFrom (.between none) rest := by
    intro u
    rw [captures]
    cases nameAndRest? (tokenize u) with
    | none => rfl
    | some x => exact (capturesFrom_unplaced (.between none) x.2).symm
  rw [hname, hname, hcaptures, hcaptures, nameAndRest?_dropWhile]
  exact ⟨rfl, rfl⟩

/-- **When printing is stable.** A command that was read is printed the same again exactly if all of
its values are whole. -/
theorem text_ofText_text_iff {s : Text}
    (hwhite : ∀ c ∈ s, isWhiteSpace c = true → isBlank c = true) :
    (ofText (ofText s).text).text = (ofText s).text ↔ ∀ c ∈ captures (tokenize s), c.IsWhole := by
  obtain ⟨hname, hcaptures⟩ := ofText_dropWhile s
  have hwhole : (∀ c ∈ captures (tokenize s), c.IsWhole) ↔
      ∀ c ∈ captures (tokenize (s.dropWhile isBlank)), c.IsWhole := by
    have hmap : ∀ cs : List Capture, (∀ c ∈ cs, c.IsWhole) ↔
        ∀ c ∈ cs.map Capture.unplaced, c.IsWhole := fun cs ↦ by
      simp only [List.forall_mem_map, Capture.isWhole_unplaced]
    rw [hmap, hcaptures, ← hmap]
  have hentries : entries s = entries (s.dropWhile isBlank) := by
    have hmap := congrArg (List.map Capture.entry) hcaptures
    simpa only [entries, List.map_map, Function.comp_def, Capture.entry_unplaced] using hmap
  have htext : (ofText s).text = (ofText (s.dropWhile isBlank)).name ++
      Statement.spelled (entries (s.dropWhile isBlank)) := by
    rw [text_eq, entries_ofText, hname, hentries]
  have hwhite' : ∀ c ∈ s.dropWhile isBlank, isWhiteSpace c = true → isBlank c = true :=
    fun c hc ↦ hwhite c ((List.dropWhile_suffix isBlank).subset hc)
  have hhead := List.head?_dropWhile_not isBlank s
  rw [hwhole, htext]
  generalize s.dropWhile isBlank = t at *
  rcases t with _ | ⟨c, u⟩
  · exact ⟨fun _ c hc ↦ absurd hc List.not_mem_nil, fun _ ↦ rfl⟩
  obtain ⟨n, q, rest, hreads⟩ := exists_reads (c := c) (by simpa using hhead) u
  rw [hreads.name_eq]
  refine ⟨fun heq ↦ ?_, hreads.text_of_isWhole hwhite'⟩
  -- with an open value the text gets longer each time
  by_contra hopen
  rw [hreads.text_of_not_isWhole hwhite' hopen] at heq
  simpa using congrArg List.length heq

/-- **Printing and reading back.** What is read from a printable command has its name, its keywords
and the texts of its values. What is printed from a command that was read is read as the same
command exactly if no value is left open. -/
theorem ofText_text_and_text_ofText_iff :
    (∀ c : Command, c.IsPrintable → (ofText c.text).name = c.name ∧
      (ofText c.text).parameters.map Parameter.entry = c.parameters.map Parameter.entry) ∧
    ∀ s : Text, (∀ c ∈ s, isWhiteSpace c = true → isBlank c = true) →
      ((ofText (ofText s).text).text = (ofText s).text ↔ ∀ c ∈ captures (tokenize s), c.IsWhole) :=
  ⟨fun _ h ↦ h.ofText_text, fun _ ↦ text_ofText_text_iff⟩

/-- A command with values of all forms. -/
def nestedCommand : Command :=
  ⟨"C".toList, [⟨"K".toList, .array [.scalar "'A'".toList,
    .function "%SST".toList [.scalar "&V".toList,
      .expression (following .opening " 1 *EQ (2)".toList)],
    .command ⟨"GOTO".toList, [⟨"L".toList, .scalar "1".toList⟩]⟩]⟩]⟩

/-- A list with a literal, a call and a command in it, and a value that is not closed. -/
theorem ofText_text_nestedCommand :
    nestedCommand.text = "C K(('A' %SST(&V 1 *EQ (2)) GOTO L(1)))".toList ∧
      (ofText nestedCommand.text).name = "C".toList ∧
      (ofText nestedCommand.text).parameters.map Parameter.entry =
        [("K".toList, "('A' %SST(&V 1 *EQ (2)) GOTO L(1))".toList)] ∧
      ∀ c ∈ captures (tokenize "  C K(A (B)".toList), c.IsWhole := by
  have hscalar : ∀ {t : Text} {u : Token}, following .opening t = [u] → u.text = t →
      u.isScalar = true → IsBalanced 0 [u] → Shape.opening.afterText t ≠ .literal false →
      t.all (fun c ↦ !isWhiteSpace c || isBlank c) = true →
      (Value.scalar t).IsPrintable ∧ ¬ (Value.scalar t).IsBlank := by
    intro t u hu htext hkind hbalanced hclosed hwhite
    exact ⟨⟨u, htext, hkind,
      hu ▸ isExpression_following (hu ▸ hbalanced) hclosed (isBlank_of_all hwhite)⟩, id⟩
  have hsource : IsExpression (following .opening " 1 *EQ (2)".toList) :=
    isExpression_following rfl (by decide) (isBlank_of_all (by decide))
  have hfilled : ¬ (Value.expression (following .opening " 1 *EQ (2)".toList)).IsBlank :=
    fun h ↦ absurd (h ⟨.value, ['1'], 0⟩ (by decide)) (by decide)
  have hcall : (Value.function "%SST".toList [.scalar "&V".toList,
      .expression (following .opening " 1 *EQ (2)".toList)]).IsPrintable :=
    ⟨by decide,
      hscalar (u := ⟨.variable, "&V".toList, 0⟩) rfl rfl rfl rfl (by decide) (by decide),
      ⟨hsource, hfilled⟩, trivial⟩
  have hcommand : (Value.command ⟨"GOTO".toList, [⟨"L".toList,
      .scalar "1".toList⟩]⟩).IsPrintable :=
    ⟨by decide, ⟨⟨by decide, isBlank_of_all (by decide)⟩,
      (hscalar (u := ⟨.value, "1".toList, 0⟩) rfl rfl rfl rfl (by decide) (by decide)).1⟩, trivial⟩
  have hprintable : nestedCommand.IsPrintable :=
    ⟨by decide, ⟨⟨by decide, isBlank_of_all (by decide)⟩,
      hscalar (u := ⟨.literal, "'A'".toList, 0⟩) rfl rfl rfl rfl (by decide) (by decide),
      ⟨hcall, id⟩, ⟨hcommand, id⟩, trivial⟩, trivial⟩
  obtain ⟨hname, hentries⟩ := ofText_text_and_text_ofText_iff.1 nestedCommand hprintable
  refine ⟨by decide +kernel, hname, hentries.trans (by decide +kernel), ?_⟩
  have hblank := isBlank_of_all (t := "  C K(A (B)".toList) (by decide)
  exact (ofText_text_and_text_ofText_iff.2 _ hblank).1 (by decide +kernel)

/-- Printing is not stable for a value that leaves a parenthesis open, nor where other white space
is trimmed in front of a quote, which then begins a literal. -/
theorem not_forall_text_ofText :
    (¬ ∀ s : Text, (ofText (ofText s).text).text = (ofText s).text) ∧
      (ofText "C K(A (B".toList).text = "C K(A (B)".toList ∧
      (ofText "C K(A (B)".toList).text = "C K(A (B))".toList ∧
      (ofText "C K(\u00a0'A B)".toList).text = "C K('A B)".toList ∧
      (ofText "C K('A B)".toList).text = "C K('A B))".toList := by
  have hfirst : (ofText "C K(A (B".toList).text = "C K(A (B)".toList := by decide +kernel
  have hsecond : (ofText "C K(A (B)".toList).text = "C K(A (B))".toList := by decide +kernel
  refine ⟨fun hall ↦ ?_, hfirst, hsecond, by decide +kernel, by decide +kernel⟩
  have hstable := hall "C K(A (B".toList
  rw [hfirst, hsecond] at hstable
  exact absurd hstable (by decide)

end Command

end ControlLanguage
