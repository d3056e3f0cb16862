import ControlLanguage.Proofs.Command.Reading

/-!
# Tokens tile the text

Reading a text loses nothing but the length of its runs of blanks: **each token covers a piece of
the text, and the pieces follow one another without a gap** (`tokenize_tiles`). What is lost does
not matter to the lexer, since every boundary is decided by characters that a shorter run leaves in
place, so the text of the tokens is read as the same tokens (`tokenize_texts`).

The tiling holds along the run of the automaton. What is known about the lexeme being read is
`Shape.Holds`, with a lemma for a character that goes on with the lexeme and one for a character
that begins the next.
-/

namespace ControlLanguage

open Shape

/-- A run of blanks that cannot be made longer, between the text before and after it. -/
def Text.IsRun (before run after : Text) : Prop :=
  (∀ c ∈ run, isBlank c = true) ∧ (∀ c ∈ before.getLast?, isBlank c = false) ∧
    ∀ c ∈ after.head?, isBlank c = false

namespace Token

/-- A token covers a piece of text, between the text before and after it. Outside literals, blanks
stand in the runs that tokens of their own cover. -/
structure Covers (before source after : Text) (a : Token) : Prop where
  column_eq : a.column = before.length + 1
  ne_nil : source ≠ []
  text_eq : a.kind ≠ .blank → a.text = source
  isRun : a.kind = .blank → a.text = [' '] ∧ Text.IsRun before source after
  not_isBlank : a.kind ≠ .blank → a.kind ≠ .literal → ∀ c ∈ source, isBlank c = false

/-- The tokens cover the text behind `before`: the piece of each one begins where the piece of the
token in front ends, and the last piece ends the text. -/
inductive Tiles : (before : Text) → List Token → Text → Prop where
  | nil (before : Text) : Tiles before [] []
  | cons {before source after : Text} {a : Token} {ts : List Token} :
      Covers before source after a → Tiles (before ++ source) ts after →
        Tiles before (a :: ts) (source ++ after)

/-- No token beside a run of blanks is one. -/
theorem Tiles.isChain {before t : Text} {ts : List Token} (h : Tiles before ts t) :
    ts.IsChain fun a b ↦ a.kind = .blank → b.kind ≠ .blank := by
  induction h with
  | nil => exact .nil
  | @cons before source after a ts ha hrest ih =>
    cases hrest with
    | nil => exact .singleton a
    | @cons _ source' after' b ts hb _ =>
      refine .cons_cons (fun hka hkb ↦ ?_) ih
      -- the first blank of the second run would belong to the first one
      obtain ⟨c, u, rfl⟩ := List.exists_cons_of_ne_nil hb.ne_nil
      have hblank : isBlank c = true := (hb.isRun hkb).2.1 c List.mem_cons_self
      have hink : isBlank c = false := (ha.isRun hka).2.2.2 c rfl
      exact Bool.noConfusion (hblank.symm.trans hink)

end Token

namespace Shape

/-! ### The lexeme being read -/

theorem kind_eq_blank_iff {s : Shape} {t : Text} : s.kind t = .blank ↔ s = .blank := by
  rcases s with _ | _ | _ | _ | _ | _ | _ | _ | _ <;> simp only [kind] <;> try split_ifs
  all_goals simp

theorem kind_literal (closed : Bool) (t : Text) : kind (.literal closed) t = .literal :=
  rfl

/-- What the shape of the current lexeme tells about its characters `u` and the text before. -/
structure Holds (before u : Text) (s : Shape) : Prop where
  ne_nil : u ≠ []
  isBlank : s = .blank → ∀ c ∈ u, isBlank c = true
  before_not_isBlank : s = .blank → ∀ c ∈ before.getLast?, ControlLanguage.isBlank c = false
  not_isBlank : s ≠ .blank → (∀ closed, s ≠ .literal closed) →
    ∀ c ∈ u, ControlLanguage.isBlank c = false
  last_not_isBlank : s ≠ .blank → s ≠ .literal false →
    ∀ c ∈ u.getLast?, ControlLanguage.isBlank c = false

/-- Only a run of blanks turns into one, and a literal stays a literal. -/
theorem extended_cases {s s' : Shape} {c : Char} (h : s.extended c = some s') :
    (s = .blank ∧ s' = .blank ∧ isBlank c = true) ∨
      (∃ closed closed', s = .literal closed ∧ s' = .literal closed' ∧
        (closed' = true → c = quote)) ∨
      (s' = s ∧ s ≠ .blank ∧ (∀ closed, s ≠ .literal closed) ∧ isBlank c = false) := by
  by_cases hc : isBlank c = true
  · rcases extended_eq_some_of_isBlank hc h with rfl | rfl
    · exact .inl ⟨rfl, (Option.some.inj ((if_pos hc).symm.trans h)).symm, hc⟩
    · exact .inr (.inl ⟨false, _, rfl, (Option.some.inj h).symm, of_decide_eq_true⟩)
  · rw [Bool.not_eq_true] at hc
    rcases s with _ | _ | _ | (_ | _) | _ | _ | _ | _ | _
    case blank => simp [extended, hc] at h
    case opening => simp [extended] at h
    case closing => simp [extended] at h
    case literal.false =>
      exact .inr (.inl ⟨false, _, rfl, (Option.some.inj h).symm, of_decide_eq_true⟩)
    case literal.true =>
      rw [extended] at h
      split_ifs at h
      exact .inr (.inl ⟨true, false, rfl, (Option.some.inj h).symm, by simp⟩)
    all_goals
      rw [extended] at h
      split_ifs at h
      exact .inr (.inr ⟨(Option.some.inj h).symm, by simp, by simp, hc⟩)

/-- The character goes on with the lexeme. -/
theorem Holds.extended {before u : Text} {s s' : Shape} {c : Char} (h : Holds before u s)
    (hc : s.extended c = some s') : Holds before (u ++ [c]) s' := by
  have hmem : ∀ {p : Bool}, (∀ d ∈ u, ControlLanguage.isBlank d = p) →
      ControlLanguage.isBlank c = p → ∀ d ∈ u ++ [c], ControlLanguage.isBlank d = p := by
    intro p hu hp d hd
    rcases List.mem_append.1 hd with hd | hd
    · exact hu d hd
    · exact List.mem_singleton.1 hd ▸ hp
  rcases extended_cases hc with ⟨rfl, rfl, hb⟩ | ⟨closed, closed', rfl, rfl, hq⟩ |
    ⟨rfl, hne, hl, hb⟩
  · exact ⟨by simp, fun _ ↦ hmem (h.isBlank rfl) hb, h.before_not_isBlank,
      fun hne ↦ absurd rfl hne, fun hne ↦ absurd rfl hne⟩
  · refine ⟨by simp, nofun, nofun, fun _ hl ↦ absurd rfl (hl closed'), fun _ hclosed d hd ↦ ?_⟩
    obtain rfl : c = d := by simpa using hd
    rw [hq (by cases closed' <;> simp_all)]
    decide
  · exact ⟨by simp, fun hs ↦ absurd hs hne, fun hs ↦ absurd hs hne,
      fun _ _ ↦ hmem (h.not_isBlank hne hl) hb, fun _ _ d hd ↦ by
        obtain rfl : c = d := by simpa using hd
        exact hb⟩

/-- A lexeme of one character. -/
theorem holds_begun {before : Text} {c : Char} (named : Bool)
    (h : ControlLanguage.isBlank c = true →
      ∀ d ∈ before.getLast?, ControlLanguage.isBlank d = false) :
    Holds before [c] (.begun named c) := by
  by_cases hb : ControlLanguage.isBlank c = true
  · rw [begun_of_isBlank hb]
    exact ⟨by simp, fun _ ↦ by simpa using hb, fun _ ↦ h hb, fun hne ↦ absurd rfl hne,
      fun hne ↦ absurd rfl hne⟩
  · rw [Bool.not_eq_true] at hb
    have hne : Shape.begun named c ≠ .blank := Command.begun_ne_blank hb
    exact ⟨by simp, fun hs ↦ absurd hs hne, fun hs ↦ absurd hs hne, fun _ _ ↦ by simpa using hb,
      fun _ _ ↦ by simpa using hb⟩

/-- The character begins the next lexeme: neither a run of blanks nor an open literal ends in
front of a blank. -/
theorem Holds.begun {before u : Text} {s : Shape} {c : Char} (h : Holds before u s)
    (hc : s.extended c = none) (named : Bool) : Holds (before ++ u) [c] (.begun named c) := by
  refine holds_begun named fun hb ↦ ?_
  have hs : s ≠ .blank := fun hs ↦ by simp [hs, Shape.extended, hb] at hc
  have hl : s ≠ .literal false := fun hs ↦ by simp [hs, Shape.extended] at hc
  rw [List.getLast?_append_of_ne_nil _ h.ne_nil]
  exact h.last_not_isBlank hs hl

/-- A lexeme that is finished covers its characters. -/
theorem Holds.covers {before u after : Text} {s : Shape} (h : Holds before u s)
    (hs : s.Stops after) :
    Token.Covers before u after ((⟨s, u⟩ : Lexeme).toToken (before.length + 1)) where
  column_eq := rfl
  ne_nil := h.ne_nil
  text_eq hk := if_neg fun hs ↦ hk (kind_eq_blank_iff.2 hs)
  isRun hk := by
    obtain rfl := kind_eq_blank_iff.1 hk
    refine ⟨rfl, h.isBlank rfl, h.before_not_isBlank rfl, fun c hc ↦ ?_⟩
    have hstop := hs c hc
    rw [Shape.extended] at hstop
    split_ifs at hstop with hb
    exact Bool.eq_false_iff.2 hb
  not_isBlank hk hl := by
    refine h.not_isBlank (fun hs ↦ hk (kind_eq_blank_iff.2 hs)) fun closed hs ↦ hl ?_
    show s.kind u = .literal
    rw [hs, kind_literal]

end Shape

namespace Token

/-! ### The run over the text -/

/-- The lexemes read from `t` on, behind `before` and the characters `u` of the current lexeme,
cover `u` and `t`. -/
theorem tiles_continued {before u : Text} {s : Shape} (named : Bool) (t : Text)
    (h : Holds before u s) :
    Tiles before
      ((Lexeme.placed (before.length + 1)
        (⟨(Lexeme.continued named s t).1.shape, u ++ (Lexeme.continued named s t).1.source⟩ ::
          (Lexeme.continued named s t).2)).map fun (column, l) ↦ l.toToken column)
      (u ++ t) := by
  induction t generalizing named s before u with
  | nil =>
    simpa [Lexeme.continued, Lexeme.placed] using
      Tiles.cons (h.covers (stops_nil s)) (Tiles.nil (before ++ u))
  | cons c t ih =>
    rcases hc : s.extended c with _ | longer
    · have hrest := ih (named || decide (s ≠ .blank)) (h.begun hc (named || decide (s ≠ .blank)))
      simp only [Lexeme.continued, hc, Lexeme.placed, List.map_cons, List.append_nil] at hrest ⊢
      refine Tiles.cons (h.covers (stops_cons.2 hc)) ?_
      simpa [Lexeme.push, Nat.add_right_comm] using hrest
    · have hrest := ih named (h.extended hc)
      rw [Lexeme.continued_cons_of_extended t hc]
      simpa [Lexeme.push] using hrest

/-- **The tokens of a text tile it.** -/
theorem tokenize_tiles (t : Text) : Tiles [] (tokenize t) t := by
  cases t with
  | nil => exact Tiles.nil []
  | cons c t =>
    have hbegun : Holds [] [c] (.begun false c) := holds_begun false (by simp)
    exact tiles_continued false t hbegun

/-! ### Reading the text of the tokens -/

/-- A text that begins with its command name is read as its tokens' text is. -/
theorem tokenize_texts_of_reads {t name rest : Text} {q : Shape}
    (h : Command.Reads t name q rest) :
    (tokenize (texts (tokenize t))).map unplaced = (tokenize t).map unplaced := by
  have hchain : Chain q (following q rest) (q.afterText rest) := by
    have := chain_following q rest
    rwa [Lexeme.continued_of_stops h.stops] at this
  have htexts : texts (tokenize t) = name ++ texts (following q rest) := by
    rw [← texts_unplaced, h.tokenize_unplaced, texts_cons]
  have hreads : Command.Reads (texts (tokenize t)) name q (texts (following q rest)) := by
    refine ⟨htexts, h.run, ?_⟩
    by_cases hnil : following q rest = []
    · rw [hnil]
      exact stops_nil q
    · simpa using hchain.stops hnil []
  rw [hreads.tokenize_unplaced, h.tokenize_unplaced]
  have hrest := following_chain hchain (stops_nil _)
  have hplaced : (following q rest).map unplaced = following q rest := List.map_map
  rw [List.append_nil, hplaced] at hrest
  rw [hrest]
  simp [following, Lexeme.following, Lexeme.continued]

/-- A text that begins with a blank is read as one run of blanks and what stands behind it. -/
theorem exists_ofText_of_isBlank {c : Char} (hc : isBlank c = true) (t : Text) :
    ∃ l, l.shape = .blank ∧ Lexeme.ofText (c :: t) = l :: Lexeme.ofText (t.dropWhile isBlank) := by
  obtain ⟨hshape, hrest⟩ := Lexeme.continued_blank t
  refine ⟨(Lexeme.continued false .blank t).1.push c, hshape, ?_⟩
  rw [Lexeme.ofText, begun_of_isBlank hc, hrest]

theorem tokenize_of_isBlank {c : Char} (hc : isBlank c = true) (t : Text) :
    (tokenize (c :: t)).map unplaced =
      ⟨.blank, [' '], 0⟩ :: (tokenize (t.dropWhile isBlank)).map unplaced := by
  obtain ⟨l, hshape, htext⟩ := exists_ofText_of_isBlank hc t
  rw [tokenize_unplaced, tokenize_unplaced, htext, List.map_cons]
  simp [Lexeme.toToken, Lexeme.text, hshape, Shape.kind]

/-- The tokens of a text without blanks in front spell one. -/
theorem dropWhile_texts_tokenize {t : Text} (h : ∀ c ∈ t.head?, isBlank c = false) :
    (texts (tokenize t)).dropWhile isBlank = texts (tokenize t) := by
  cases t with
  | nil => rfl
  | cons c t =>
    obtain ⟨name, q, rest, hreads⟩ := Command.exists_reads (h c rfl) t
    obtain ⟨d, u, rfl, hd, -⟩ := hreads.run
    rw [← texts_unplaced, hreads.tokenize_unplaced, texts_cons]
    exact List.dropWhile_cons_of_neg (by simpa using hd)

/-- **The text of the tokens is read as the same tokens.** -/
theorem tokenize_texts (t : Text) :
    (tokenize (texts (tokenize t))).map unplaced = (tokenize t).map unplaced := by
  have hink : ∀ {r : Text}, (∀ c ∈ r.head?, isBlank c = false) →
      (tokenize (texts (tokenize r))).map unplaced = (tokenize r).map unplaced := by
    intro r hr
    cases r with
    | nil => rfl
    | cons c r =>
      obtain ⟨name, q, rest, hreads⟩ := Command.exists_reads (hr c rfl) r
      exact tokenize_texts_of_reads hreads
  by_cases ht : ∀ c ∈ t.head?, isBlank c = false
  · exact hink ht
  · cases t with
    | nil => simp at ht
    | cons c t =>
      have hc : isBlank c = true := by simpa using ht
      -- behind the run of blanks the text begins with ink
      have hr : ∀ d ∈ (t.dropWhile isBlank).head?, isBlank d = false := by
        intro d hd
        have hhead := List.head?_dropWhile_not isBlank t
        rwa [Option.mem_def.1 hd] at hhead
      rw [← texts_unplaced (tokenize (c :: t)), tokenize_of_isBlank hc, texts_cons,
        texts_unplaced, List.singleton_append, tokenize_of_isBlank (by decide),
        dropWhile_texts_tokenize hr, hink hr]

/-- **Tokenizing is lossless**: the tokens tile the text, no two runs of blanks are adjacent, and
reading the concatenated token texts gives the same tokens. -/
theorem tokenize_lossless (t : Text) :
    Tiles [] (tokenize t) t ∧
      ((tokenize t).IsChain fun a b ↦ a.kind = .blank → b.kind ≠ .blank) ∧
      (tokenize (texts (tokenize t))).map (fun a ↦ (a.kind, a.text)) =
        (tokenize t).map fun a ↦ (a.kind, a.text) := by
  have hunplaced : ∀ ts : List Token,
      (ts.map unplaced).map (fun a ↦ (a.kind, a.text)) = ts.map fun a ↦ (a.kind, a.text) :=
    fun ts ↦ by rw [List.map_map]; rfl
  refine ⟨tokenize_tiles t, (tokenize_tiles t).isChain, ?_⟩
  rw [← hunplaced, tokenize_texts, hunplaced]

end Token

end ControlLanguage
