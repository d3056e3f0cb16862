import ControlLanguage.Proofs.Command.Capture
import ControlLanguage.Proofs.Format.Piece

/-!
# How a command is read

The command name is the first lexeme, and it is read by other rules than the words behind it.
`Command.Reads` divides a text into its name and the rest; **the parameters are captured from the
rest alone**, so a name in another case, or other blanks behind it, does not change them.

Each capture that is closed can be written and read back (`Reads.isReadable`): no literal in front
of its closing parenthesis can be open.
-/

namespace ControlLanguage

open Shape

/-- A lexeme extended as far as possible. -/
theorem Shape.exists_run? (s : Shape) (t : Text) :
    ∃ u v q, t = u ++ v ∧ s.run? u = some q ∧ q.Stops v := by
  induction t generalizing s with
  | nil => exact ⟨[], [], s, rfl, rfl, stops_nil s⟩
  | cons c t ih =>
    rcases hc : s.extended c with _ | longer
    · exact ⟨[], c :: t, s, rfl, rfl, stops_cons.2 hc⟩
    · obtain ⟨u, v, q, rfl, hu, hv⟩ := ih longer
      exact ⟨c :: u, v, q, rfl, run?_cons.2 ⟨longer, hc, hu⟩, hv⟩

/-- A run of blanks has nothing but blanks. -/
theorem Shape.isBlank_of_run? {c : Char} {t : Text} (h : (begun true c).run? t = some .blank) :
    ∀ d ∈ c :: t, isBlank d = true := by
  have hrun : ∀ {r : Shape} {u : Text}, r.run? u = some .blank →
      r = .blank ∧ ∀ d ∈ u, isBlank d = true := by
    intro r u hu
    induction u generalizing r with
    | nil => exact ⟨Option.some.inj hu, by simp⟩
    | cons d u ih =>
      obtain ⟨longer, hd, hrest⟩ := run?_cons.1 hu
      obtain ⟨rfl, hall⟩ := ih hrest
      obtain ⟨rfl, hblank⟩ := extended_eq_blank_iff.1 hd
      exact ⟨rfl, List.forall_mem_cons.2 ⟨hblank, hall⟩⟩
  obtain ⟨hbegun, hall⟩ := hrun h
  exact List.forall_mem_cons.2 ⟨isBlank_of_begun hbegun, hall⟩

theorem Lexeme.map_snd_placed (column : Nat) (ls : List Lexeme) :
    (placed column ls).map (·.2) = ls := by
  induction ls generalizing column with
  | nil => rfl
  | cons l ls ih => rw [placed, List.map_cons, ih]

namespace Token

theorem tokenize_unplaced (t : Text) :
    (tokenize t).map unplaced = (Lexeme.ofText t).map (·.toToken 0) := by
  rw [tokenize, List.map_map, ← Lexeme.map_snd_placed 1 (Lexeme.ofText t), List.map_map]
  rfl

theorem following_ne_nil {s : Shape} {t : Text} (hs : s.Stops t) (ht : t ≠ []) :
    following s t ≠ [] := by
  obtain ⟨c, t, rfl⟩ := List.exists_cons_of_ne_nil ht
  rw [following, Lexeme.following, Lexeme.continued_cons_of_stops t (stops_cons.1 hs)]
  exact List.cons_ne_nil _ _

/-- A text that ends in ink is read as tokens that do, unless it only goes on with the lexeme in
front. The last lexeme is no run of blanks, so its token has its characters. -/
theorem endsInk_texts_following {s : Shape} {t : Text} (h : Text.EndsInk t) :
    following s t = [] ∨ Text.EndsInk (texts (following s t)) := by
  induction t generalizing s with
  | nil => exact Or.inl rfl
  | cons c t ih =>
    have hrest : t ≠ [] → Text.EndsInk t := fun ht ↦ Text.EndsInk.of_append (s := [c]) h ht
    rcases hc : s.extended c with _ | longer
    · refine Or.inr ?_
      obtain ⟨u, v, q, rfl, hu, hv⟩ := exists_run? (begun true c) t
      rw [following_cons_append hc hu hv, texts_cons]
      by_cases hnil : v = []
      · -- the lexeme runs to the end of the text, so it is no run of blanks
        subst hnil
        rw [List.append_nil] at h
        have hq : q ≠ .blank := by
          rintro rfl
          exact h.not_isWhite fun d hd ↦ isWhiteSpace_of_isBlank (isBlank_of_run? hu d hd)
        have htext : ((⟨q, c :: u⟩ : Lexeme).toToken 0).text = c :: u := if_neg hq
        have hlast : following q [] = [] := rfl
        rw [htext, hlast, texts_nil, List.append_nil]
        exact h
      · have hend := ih (s := begun true c) (hrest (by simp [hnil]))
        rw [following_append_of_run? hu hv] at hend
        exact (hend.resolve_left (following_ne_nil hv hnil)).append _
    · rw [following_cons_of_extended t hc]
      by_cases ht : t = []
      · exact Or.inl (by rw [ht]; rfl)
      · exact ih (hrest ht)

/-- A token that names a parameter was read as a word of identifier shape, so it is a keyword. -/
theorem Follows.ofKeyword {s s' : Shape} {k : Token} (hf : Follows s k s')
    (hk : k.namesParameter = true) : Follows .blank (ofKeyword k.text) .word := by
  obtain ⟨c, u, htext, -, hu, hkind, -⟩ := id hf
  have hword : s' = .word ∧ k.text.isIdentifier = true := by
    rw [namesParameter, hkind] at hk
    rcases s' with _ | _ | _ | _ | _ | _ | _ | _ | _
    case word => exact ⟨rfl, by by_contra hident; simp [Shape.kind, hident] at hk⟩
    all_goals simp [Shape.kind] at hk
  obtain ⟨rfl, hident⟩ := hword
  have hc : isBlank c = false :=
    Bool.eq_false_iff.2 fun hb ↦ absurd ((hf.isBlank_iff htext).1 hb) (by simp)
  refine ⟨c, u, htext, ?_, hu, ?_, fun h ↦ Shape.noConfusion h⟩
  · simp [extended, hc]
  · simp [Token.ofKeyword, Shape.kind, hident]

/-- Strict reading finds the same tokens. -/
theorem tokenize_eq_of_tokenizeStrict {t : Text} {ts : List Token}
    (h : tokenizeStrict t = .ok ts) : tokenize t = ts := by
  rw [tokenizeStrict] at h
  split at h
  · cases h
  · exact Except.ok.inj h

/-- A text without open literals is read strictly. -/
theorem tokenizeStrict_eq {t : Text} (h : ∀ l ∈ Lexeme.ofText t, l.isUnclosed = false) :
    tokenizeStrict t = .ok (tokenize t) := by
  have hnone : (placedLexemes t).find? (·.2.isUnclosed) = none :=
    List.find?_eq_none.2 fun x hx ↦ by
      have hmem : x.2 ∈ (placedLexemes t).map (·.2) := List.mem_map_of_mem hx
      rw [placedLexemes, Lexeme.map_snd_placed] at hmem
      simp [h x.2 hmem]
  rw [tokenizeStrict, hnone]

/-- Strict reading leaves no literal open. -/
theorem isUnclosed_eq_false {t : Text} {ts : List Token} (h : tokenizeStrict t = .ok ts) :
    ∀ l ∈ Lexeme.ofText t, l.isUnclosed = false := by
  intro l hl
  rw [← Lexeme.map_snd_placed 1 (Lexeme.ofText t)] at hl
  obtain ⟨⟨column, l⟩, hmem, rfl⟩ := List.mem_map.1 hl
  rw [tokenizeStrict] at h
  cases hfind : (placedLexemes t).find? (·.2.isUnclosed) with
  | some x => simp [hfind] at h
  | none => simpa using List.find?_eq_none.1 hfind _ hmem

end Token

namespace Command

open Token

/-- A text that begins with its command name, which is a lexeme of shape `q`. -/
structure Reads (t name : Text) (q : Shape) (rest : Text) : Prop where
  eq_append : t = name ++ rest
  run : ∃ c u, name = c :: u ∧ isBlank c = false ∧ (begun false c).run? u = some q
  stops : q.Stops rest

/-- A text that does not begin with a blank begins with its command name. -/
theorem exists_reads {c : Char} (hc : isBlank c = false) (t : Text) :
    ∃ name q rest, Reads (c :: t) name q rest := by
  obtain ⟨u, v, q, rfl, hu, hv⟩ := exists_run? (begun false c) t
  exact ⟨c :: u, q, v, rfl, ⟨c, u, rfl, hc, hu⟩, hv⟩

theorem begun_ne_blank {named : Bool} {c : Char} (hc : isBlank c = false) :
    begun named c ≠ .blank := by
  rw [begun, if_neg (by simp [hc])]
  split_ifs <;> simp

namespace Reads

variable {t name rest : Text} {q : Shape}

theorem ne_blank (h : Reads t name q rest) : q ≠ .blank := by
  obtain ⟨c, u, -, hc, hu⟩ := h.run
  exact run?_ne_blank (begun_ne_blank hc) hu

theorem ofText_eq (h : Reads t name q rest) :
    Lexeme.ofText t = ⟨q, name⟩ :: Lexeme.following q rest := by
  obtain ⟨c, u, hname, hc, hu⟩ := h.run
  rw [h.eq_append, hname, List.cons_append, Lexeme.ofText,
    Lexeme.continued_false (begun_ne_blank hc), Lexeme.continued_append hu,
    Lexeme.continued_of_stops h.stops]
  simp [Lexeme.push]

theorem tokenize_unplaced (h : Reads t name q rest) :
    (tokenize t).map unplaced = ⟨q.kind name, name, 0⟩ :: following q rest := by
  rw [Token.tokenize_unplaced, h.ofText_eq, List.map_cons, following]
  simp [Lexeme.toToken, Lexeme.text, h.ne_blank]

theorem kind_ne_blank (h : Reads t name q rest) : q.kind name ≠ .blank := by
  have hne := h.ne_blank
  rcases q with _ | _ | _ | _ | _ | _ | _ | _ | _
  case blank => exact absurd rfl hne
  all_goals
    rw [Shape.kind]
    try split_ifs
    all_goals simp

theorem nameAndRest?_eq (h : Reads t name q rest) :
    (nameAndRest? (tokenize t)).map (fun (n, ts) ↦ (n.unplaced, ts.map unplaced)) =
      some (⟨q.kind name, name, 0⟩, following q rest) := by
  rw [← nameAndRest?_unplaced, h.tokenize_unplaced, nameAndRest?,
    List.dropWhile_cons_of_neg (by simpa using h.kind_ne_blank)]

/-- The first lexeme names the command. -/
theorem name_eq (h : Reads t name q rest) : (Command.ofText t).name = name := by
  obtain ⟨⟨n, ts⟩, hn, heq⟩ := Option.map_eq_some_iff.1 h.nameAndRest?_eq
  rw [Command.ofText, ofTokens, hn]
  exact congrArg (·.1.text) heq

/-- **The parameters are captured from the rest.** -/
theorem captures_eq (h : Reads t name q rest) :
    (captures (tokenize t)).map Capture.unplaced =
      capturesFrom (.between none) (following q rest) := by
  obtain ⟨⟨n, ts⟩, hn, heq⟩ := Option.map_eq_some_iff.1 h.nameAndRest?_eq
  have hts : ts.map unplaced = following q rest := congrArg (·.2) heq
  rw [captures, hn, ← hts]
  exact (capturesFrom_unplaced (.between none) ts).symm

/-- A text without open literals has a closed name and ends outside of literals. -/
theorem of_isUnclosed_eq_false (h : Reads t name q rest)
    (hclosed : ∀ l ∈ Lexeme.ofText t, l.isUnclosed = false) :
    q ≠ .literal false ∧ q.afterText rest ≠ .literal false := by
  rw [h.ofText_eq] at hclosed
  have hq : q ≠ .literal false := by
    rintro rfl
    exact absurd (hclosed _ List.mem_cons_self) (by simp [Lexeme.isUnclosed])
  refine ⟨hq, fun hend ↦ ?_⟩
  obtain ⟨l, hl, hshape⟩ := Lexeme.exists_shape_eq_afterText q rest
  rw [Lexeme.continued_of_stops h.stops] at hl
  rcases List.mem_cons.1 hl with rfl | hl
  · exact hq (hshape.trans hend)
  · refine absurd (hclosed l (List.mem_cons_of_mem _ hl)) ?_
    simp [Lexeme.isUnclosed, hshape.trans hend]

theorem of_tokenizeStrict (h : Reads t name q rest) {ts : List Token}
    (hstrict : tokenizeStrict t = .ok ts) :
    q ≠ .literal false ∧ q.afterText rest ≠ .literal false :=
  h.of_isUnclosed_eq_false (isUnclosed_eq_false hstrict)

/-- A text that ends outside of literals is read strictly. -/
theorem tokenizeStrict_eq (h : Reads t name q rest) (hend : q.afterText rest ≠ .literal false) :
    tokenizeStrict t = .ok (tokenize t) := by
  refine Token.tokenizeStrict_eq ?_
  have hclosed := Lexeme.isUnclosed_eq_false hend
  rw [Lexeme.continued_of_stops h.stops] at hclosed
  rw [h.ofText_eq]
  exact List.forall_mem_cons.2 (List.forall_mem_cons.1 hclosed)

theorem chain (h : Reads t name q rest) : Chain q (following q rest) (q.afterText rest) := by
  have hchain := chain_following q rest
  rwa [Lexeme.continued_of_stops h.stops] at hchain

/-- A capture has its parts in the rest. -/
theorem captured (h : Reads t name q rest) {c : Capture} (hc : c ∈ captures (tokenize t)) :
    Captured (following q rest) c.unplaced := by
  have hmem : c.unplaced ∈ capturesFrom (.between none) (following q rest) := by
    rw [← h.captures_eq]
    exact List.mem_map_of_mem hc
  have hdone : Position.Reached [] (.between none) := by
    intro keyword hkeyword
    cases hkeyword
  exact captured_of_mem_capturesFrom hdone hmem

/-- The parts of a capture in the rest, as a chain. -/
theorem exists_chain (h : Reads t name q rest) {c : Capture} (hc : c ∈ captures (tokenize t)) :
    ∃ s after, Follows .blank (ofKeyword c.keyword) .word ∧
      Chain .opening (c.tokens.map unplaced) s ∧ Chain s after (q.afterText rest) ∧
      (∀ d ∈ c.keyword ++ texts (c.tokens.map unplaced), d ∈ texts (following q rest)) ∧
      (c.isClosed →
        IsBalanced 0 (c.tokens.map unplaced) ∧ ∃ u ∈ after.head?, u.kind = .closing) ∧
      IsClosable 0 (c.tokens.map unplaced) := by
  obtain ⟨before, k, o, after, hts, hnames, hktext, ho, hparen⟩ := h.captured hc
  have hchain := h.chain
  rw [hts] at hchain
  generalize q.afterText rest = r at hchain
  obtain ⟨s₁, -, hchain⟩ := chain_append.1 hchain
  obtain ⟨s₂, hk, hchain⟩ := chain_cons.1 hchain
  obtain ⟨s₃, hof, hchain⟩ := chain_cons.1 hchain
  obtain rfl := hof.kind_eq_opening_iff.1 ho
  obtain ⟨s₄, hvalue, hafter⟩ := chain_append.1 hchain
  refine ⟨s₄, after, hktext ▸ hk.ofKeyword hnames, hvalue, hafter, fun d hd ↦ ?_, hparen⟩
  have hkeyword : k.text = c.keyword := hktext
  have htokens : c.unplaced.tokens = c.tokens.map unplaced := rfl
  rw [← hkeyword] at hd
  rw [hts, htokens]
  simp only [texts_append, texts_cons, List.mem_append] at hd ⊢
  tauto

/-- The white space in a capture is that of the text. -/
theorem isBlank_of_mem (h : Reads t name q rest)
    (hwhite : ∀ d ∈ t, isWhiteSpace d = true → isBlank d = true) {c : Capture}
    (hc : c ∈ captures (tokenize t)) :
    ∀ d ∈ c.keyword ++ texts c.tokens, isWhiteSpace d = true → isBlank d = true := by
  obtain ⟨s, after, -, -, -, hsub, -⟩ := h.exists_chain hc
  intro d hd hw
  rw [← texts_unplaced] at hd
  rcases mem_of_mem_texts_following (hsub d hd) with hd' | rfl
  · exact hwhite d (by rw [h.eq_append]; exact List.mem_append_right _ hd') hw
  · decide

/-- **A closed capture can be written and read back**, if its keyword is an ASCII word. -/
theorem isReadable (h : Reads t name q rest)
    (hwhite : ∀ d ∈ t, isWhiteSpace d = true → isBlank d = true) {c : Capture}
    (hc : c ∈ captures (tokenize t)) (hclosed : c.isClosed = true) (hascii : c.keyword.IsAscii) :
    c.unplaced.IsReadable := by
  obtain ⟨s, after, hkeyword, hvalue, hafter, -, hparen, -⟩ := h.exists_chain hc
  obtain ⟨hbalanced, u, hu, -⟩ := hparen hclosed
  have hs : s ≠ .literal false := hafter.ne_literal_of_ne_nil (List.ne_nil_of_mem
    (List.mem_of_mem_head? hu))
  refine ⟨hkeyword, hascii, ⟨s, hvalue, hs⟩, hbalanced, ?_⟩
  rw [show texts c.unplaced.tokens = texts c.tokens from texts_unplaced c.tokens]
  exact h.isBlank_of_mem hwhite hc

/-- Every token of a value is a lexeme, and a complete one if the text was read strictly. -/
theorem exists_follows (h : Reads t name q rest) {c : Capture} (hc : c ∈ captures (tokenize t)) :
    ∀ u ∈ c.tokens, ∃ s s', Follows s u s' := by
  obtain ⟨s, after, -, hvalue, -⟩ := h.exists_chain hc
  intro u hu
  obtain ⟨r, r', hf⟩ := hvalue.exists_follows _ (List.mem_map_of_mem hu)
  exact ⟨r, r', hf⟩

/-- Every token of a value ends in ink, unless it is a blank: only the last one can be a literal
left open, and then it ends where the text does. -/
theorem endsInk_of_mem (h : Reads t name q rest)
    (hwhite : ∀ d ∈ t, isWhiteSpace d = true → isBlank d = true) (hend : Text.EndsInk t)
    {c : Capture} (hc : c ∈ captures (tokenize t)) {u : Token} (hu : u ∈ c.tokens)
    (hblank : u.kind ≠ .blank) : Text.EndsInk u.text := by
  obtain ⟨before, k, o, after, hts, -⟩ := h.captured hc
  obtain ⟨x, y, hxy⟩ := List.append_of_mem (List.mem_map_of_mem (f := unplaced) hu)
  obtain ⟨pre, post, hsplit⟩ : ∃ pre post, following q rest = pre ++ u.unplaced :: post := by
    refine ⟨before ++ k :: o :: x, y ++ after, ?_⟩
    rw [hts, show c.unplaced.tokens = _ from hxy]
    simp
  have hchain := h.chain
  rw [hsplit] at hchain
  generalize q.afterText rest = r at hchain
  obtain ⟨s, -, hchain⟩ := chain_append.1 hchain
  obtain ⟨s', hf, hpost⟩ := chain_cons.1 hchain
  -- a literal is left open only by the last token, which takes in the end of the text
  by_cases hs' : s' = .literal false
  · obtain rfl : post = [] := by
      by_contra hne
      exact hpost.ne_literal_of_ne_nil hne hs'
    have hrest : Text.EndsInk rest := by
      rw [h.eq_append] at hend
      refine hend.of_append ?_
      rintro rfl
      exact absurd hsplit.symm (by simp [following, Lexeme.following, Lexeme.continued])
    have htexts := (endsInk_texts_following (s := q) hrest).resolve_left (by simp [hsplit])
    rw [hsplit, texts_append, texts_cons, texts_nil, List.append_nil] at htexts
    exact htexts.of_append hf.text_ne_nil
  · refine hf.endsInk hs' (mt hf.kind_eq_blank_iff.2 hblank) fun d hd hw ↦ ?_
    have hmem : d ∈ texts (following q rest) := by
      rw [hsplit, texts_append, texts_cons]
      exact List.mem_append_right _ (List.mem_append_left _ hd)
    rcases mem_of_mem_texts_following hmem with hd' | rfl
    · exact hwhite d (by rw [h.eq_append]; exact List.mem_append_right _ hd') hw
    · decide

theorem isComplete (h : Reads t name q rest) {ts : List Token} (hstrict : tokenizeStrict t = .ok ts)
    {c : Capture} (hc : c ∈ captures (tokenize t)) : ∀ u ∈ c.tokens, u.IsComplete := by
  obtain ⟨s, after, -, hvalue, hafter, -⟩ := h.exists_chain hc
  have hs : s ≠ .literal false := hafter.shape_ne_literal (h.of_tokenizeStrict hstrict).2
  intro u hu
  obtain ⟨r, r', hf, hr'⟩ := hvalue.isComplete hs _ (List.mem_map_of_mem hu)
  exact ⟨r, r', hf, hr'⟩

end Reads

end Command

end ControlLanguage
