import ControlLanguage.Proofs.Token.Tiling
import Mathlib.Data.List.Chain

/-!
# Strict reading

Text can be read in two ways that differ in one respect: the strict reader refuses a literal that
lacks its closing quote. `Token.read` is one reader for both. It goes through the text once and
takes its decision at the end of it, for **only at the end of the text can a literal be left open**:
an open literal takes in every character, so nothing follows it.

Whether a literal is closed shows in its characters alone. After the opening quote, quotes that
belong to the literal come in pairs (`Text.QuotesPaired`), and one that is left over closes it.
-/

namespace ControlLanguage

open Shape

namespace Text

/-- Every quote belongs to a doubled pair, counted from the left. -/
inductive QuotesPaired : Text → Prop where
  | nil : QuotesPaired []
  | other {c : Char} {t : Text} : c ≠ quote → QuotesPaired t → QuotesPaired (c :: t)
  | pair {t : Text} : QuotesPaired t → QuotesPaired (quote :: quote :: t)

/-- A literal stays open along a text exactly if the quotes in it are paired. -/
theorem quotesPaired_iff_run? {t : Text} :
    t.QuotesPaired ↔ (literal false).run? t = some (.literal false) := by
  constructor
  · intro h
    induction h with
    | nil => rfl
    | other hc _ ih => exact run?_cons.2 ⟨.literal false, by simp [extended, hc], ih⟩
    | pair _ ih => exact run?_cons.2 ⟨.literal true, rfl, run?_cons.2 ⟨.literal false, rfl, ih⟩⟩
  · intro h
    induction t using List.twoStepInduction with
    | nil => exact .nil
    | singleton c =>
      by_cases hc : c = quote
      · simp [run?, extended, hc] at h
      · exact .other hc .nil
    | cons_cons c d t ih ih' =>
      obtain ⟨longer, hlonger, hrest⟩ := run?_cons.1 h
      obtain rfl := Option.some.inj hlonger
      by_cases hc : c = quote
      · -- the literal could end here, so it goes on with a second quote
        rw [hc, decide_eq_true rfl] at hrest
        obtain ⟨longer, hlonger, ht⟩ := run?_cons.1 hrest
        rw [extended] at hlonger
        split_ifs at hlonger with hd
        obtain rfl := Option.some.inj hlonger
        rw [hc, hd]
        exact .pair (ih ht)
      · rw [decide_eq_false hc] at hrest
        exact .other hc (ih' d hrest)

end Text

namespace Lexeme

/-- A lexeme is begun by its first character and extended by the others. -/
def IsRun (l : Lexeme) : Prop :=
  ∃ named c u, l.source = c :: u ∧ (begun named c).run? u = some l.shape

theorem isRun_of_mem_continued {named : Bool} {s : Shape} {t : Text} :
    ∀ l ∈ (continued named s t).2, l.IsRun := by
  induction t generalizing named s with
  | nil => exact fun l hl ↦ nomatch hl
  | cons c t ih =>
    rcases hc : s.extended c with _ | longer
    · intro l hl
      simp only [continued, hc] at hl
      rcases List.mem_cons.1 hl with rfl | hl
      · exact ⟨_, c, _, rfl, run?_continued _ _ t⟩
      · exact ih l hl
    · rw [continued_cons_of_extended t hc]
      exact ih

theorem isRun_of_mem_ofText {t : Text} : ∀ l ∈ ofText t, l.IsRun := by
  cases t with
  | nil => exact fun l hl ↦ nomatch hl
  | cons c t =>
    intro l hl
    rcases List.mem_cons.1 hl with rfl | hl
    · exact ⟨false, c, _, rfl, run?_continued false _ t⟩
    · exact isRun_of_mem_continued l hl

/-- An open literal takes in any character. -/
theorem isUnclosed_eq_false_of_extended {s : Shape} {c : Char} (hc : s.extended c = none)
    (taken : Text) : (⟨s, taken⟩ : Lexeme).isUnclosed = false := by
  refine decide_eq_false ?_
  rintro (rfl : s = .literal false)
  cases hc

/-- Each lexeme but the last one is closed. -/
def OnlyLastUnclosed (ls : List Lexeme) : Prop :=
  ls.IsChain fun l _ ↦ l.isUnclosed = false

theorem OnlyLastUnclosed.push {l : Lexeme} {ls : List Lexeme} (h : OnlyLastUnclosed (l :: ls))
    (c : Char) : OnlyLastUnclosed (l.push c :: ls) := by
  cases ls with
  | nil => exact .singleton _
  | cons next ls =>
    obtain ⟨hl, hls⟩ := List.isChain_cons_cons.1 h
    exact .cons_cons hl hls

theorem onlyLastUnclosed_continued (named : Bool) (s : Shape) (t : Text) :
    OnlyLastUnclosed ((continued named s t).1 :: (continued named s t).2) := by
  induction t generalizing named s with
  | nil => exact .singleton _
  | cons c t ih =>
    rcases hc : s.extended c with _ | longer
    · simp only [continued, hc]
      exact .cons_cons (isUnclosed_eq_false_of_extended hc []) ((ih _ _).push c)
    · rw [continued_cons_of_extended t hc]
      exact (ih named longer).push c

/-- **Nothing follows a literal that is left open.** -/
theorem onlyLastUnclosed_ofText (t : Text) : OnlyLastUnclosed (ofText t) := by
  cases t with
  | nil => exact .nil
  | cons c t => exact (onlyLastUnclosed_continued false _ t).push c

end Lexeme

namespace Token

/-- A literal whose closing quote is missing, as its characters show. -/
def IsOpenLiteral (a : Token) : Prop :=
  a.kind = .literal ∧ ∃ u : Text, a.text = quote :: u ∧ u.QuotesPaired

/-- A lexeme lacks its closing quote exactly if the characters of its token show it. -/
theorem isOpenLiteral_toToken_iff {l : Lexeme} (h : l.IsRun) (column : Nat) :
    (l.toToken column).IsOpenLiteral ↔ l.isUnclosed = true := by
  obtain ⟨named, c, u, hsource, hrun⟩ := h
  have hunclosed : l.isUnclosed = true ↔ l.shape = .literal false := decide_eq_true_iff
  rw [hunclosed]
  constructor
  · rintro ⟨hkind, v, htext, hv⟩
    obtain ⟨closed, hshape⟩ := kind_eq_literal_iff.1 hkind
    have hsame : l.source = quote :: v := by
      simpa [Lexeme.toToken, Lexeme.text, hshape] using htext
    obtain ⟨rfl, rfl⟩ := List.cons.inj (hsource.symm.trans hsame)
    have hbegun : begun named quote = .literal false := rfl
    rw [hbegun, Text.quotesPaired_iff_run?.1 hv] at hrun
    exact (Option.some.inj hrun).symm
  · intro hshape
    rw [hshape] at hrun
    obtain ⟨closed, hbegun⟩ := exists_literal_of_run? hrun
    have hc : c = quote := by
      rw [begun] at hbegun
      split_ifs at hbegun with _ _ _ hq
      exact hq
    subst hc
    refine ⟨kind_eq_literal_iff.2 ⟨false, hshape⟩, u, ?_, Text.quotesPaired_iff_run?.2 hrun⟩
    simp [Lexeme.toToken, Lexeme.text, hshape, hsource]

/-! ### The last token -/

theorem isRun_of_mem_placedLexemes {t : Text} {x : Nat × Lexeme} (hx : x ∈ placedLexemes t) :
    x.2.IsRun := by
  have hmem : x.2 ∈ (placedLexemes t).map (·.2) := List.mem_map_of_mem hx
  rw [placedLexemes, Lexeme.map_snd_placed] at hmem
  exact Lexeme.isRun_of_mem_ofText _ hmem

theorem isChain_placedLexemes (t : Text) :
    (placedLexemes t).IsChain fun x _ ↦ x.2.isUnclosed = false := by
  have hchain := Lexeme.onlyLastUnclosed_ofText t
  rwa [← Lexeme.map_snd_placed 1 (Lexeme.ofText t), ← placedLexemes, Lexeme.OnlyLastUnclosed,
    List.isChain_map] at hchain

/-- Strict reading fails at the last lexeme or not at all. -/
theorem find?_placedLexemes (t : Text) :
    (placedLexemes t).find? (·.2.isUnclosed) =
      (placedLexemes t).getLast?.filter (·.2.isUnclosed) := by
  have hchain := isChain_placedLexemes t
  generalize placedLexemes t = xs at hchain
  induction hchain with
  | nil => rfl
  | singleton x => simp [Option.filter]
  | cons_cons hx _ ih =>
    rw [List.find?_cons_of_neg (by simp [hx]), ih, List.getLast?_cons_cons]

/-- **Each token that another one follows is closed.** -/
theorem isChain_tokenize (t : Text) : (tokenize t).IsChain fun a _ ↦ ¬ a.IsOpenLiteral := by
  rw [tokenize, List.isChain_map]
  refine (isChain_placedLexemes t).imp_of_mem_imp fun x _ hx _ hclosed hopen ↦ ?_
  have hunclosed := (isOpenLiteral_toToken_iff (isRun_of_mem_placedLexemes hx) x.1).1 hopen
  exact Bool.noConfusion (hclosed.symm.trans hunclosed)

/-- A literal that is the last token ends the text. -/
theorem Tiles.exists_of_getLast? {before t : Text} {ts : List Token} {a : Token}
    (h : Tiles before ts t) (ha : ts.getLast? = some a) (hk : a.kind = .literal) :
    ∃ x, t = x ++ a.text ∧ a.column = before.length + x.length + 1 := by
  induction h with
  | nil => cases ha
  | @cons before source after b ts hb hrest ih =>
    rcases ts with _ | ⟨next, ts⟩
    · obtain rfl : b = a := Option.some.inj ha
      cases hrest
      exact ⟨[], by simp [hb.text_eq (by simp [hk])], hb.column_eq⟩
    · obtain ⟨x, htext, hcolumn⟩ := ih (List.getLast?_cons_cons.symm.trans ha)
      refine ⟨source ++ x, by rw [htext, List.append_assoc], ?_⟩
      rw [hcolumn, List.length_append, List.length_append]
      omega

/-! ### One reader for both modes -/

/-- Reads a text from the character behind `taken`, the first characters of a lexeme that begins at
`column` and has shape `s` so far. A strict reader fails where the text ends in an open literal. -/
def readFrom (strict named : Bool) (column : Nat) (s : Shape) (taken : Text) :
    Text → Except UnclosedLiteral (List Token)
  | [] =>
    if strict && s = .literal false then .error ⟨column⟩
    else .ok [(⟨s, taken⟩ : Lexeme).toToken column]
  | c :: t =>
    match s.extended c with
    | some longer => readFrom strict named column longer (taken ++ [c]) t
    | none =>
      let named := named || s ≠ .blank
      (readFrom strict named (column + taken.length) (.begun named c) [c] t).map
        ((⟨s, taken⟩ : Lexeme).toToken column :: ·)

/-- Reads a text, strictly or not. -/
def read (strict : Bool) : Text → Except UnclosedLiteral (List Token)
  | [] => .ok []
  | c :: t => readFrom strict false 1 (.begun false c) [c] t

/-- The tokens of placed lexemes; for a strict reader, the place of an open literal instead. -/
def ofPlaced (strict : Bool) (ls : List (Nat × Lexeme)) : Except UnclosedLiteral (List Token) :=
  match if strict then ls.find? (·.2.isUnclosed) else none with
  | some (column, _) => .error ⟨column⟩
  | none => .ok (ls.map fun (column, l) ↦ l.toToken column)

theorem ofPlaced_singleton (strict : Bool) (column : Nat) (l : Lexeme) :
    ofPlaced strict [(column, l)] =
      if strict && l.isUnclosed then .error ⟨column⟩ else .ok [l.toToken column] := by
  cases strict <;> cases hl : l.isUnclosed <;> simp [ofPlaced, hl]

theorem ofPlaced_cons {strict : Bool} {l : Lexeme} (hl : l.isUnclosed = false) (column : Nat)
    (ls : List (Nat × Lexeme)) : ofPlaced strict ((column, l) :: ls) =
      (ofPlaced strict ls).map (l.toToken column :: ·) := by
  have hfind : ((column, l) :: ls).find? (·.2.isUnclosed) = ls.find? (·.2.isUnclosed) :=
    List.find?_cons_of_neg (by simp [hl])
  rw [ofPlaced, ofPlaced, hfind]
  split <;> rfl

/-- The reader finds the lexemes in their places. -/
theorem readFrom_eq (strict named : Bool) (column : Nat) (s : Shape) (taken t : Text) :
    readFrom strict named column s taken t = ofPlaced strict (Lexeme.placed column
      (⟨(Lexeme.continued named s t).1.shape, taken ++ (Lexeme.continued named s t).1.source⟩ ::
        (Lexeme.continued named s t).2)) := by
  induction t generalizing named column s taken with
  | nil =>
    simp only [Lexeme.continued, List.append_nil, Lexeme.placed, ofPlaced_singleton]
    rfl
  | cons c t ih =>
    rcases hc : s.extended c with _ | longer
    · have hclosed := Lexeme.isUnclosed_eq_false_of_extended hc taken
      simp only [readFrom, hc, ih, Lexeme.continued, List.append_nil, List.singleton_append]
      exact (ofPlaced_cons hclosed column _).symm
    · simp only [readFrom, hc, ih, Lexeme.continued_cons_of_extended t hc, Lexeme.push,
        List.append_assoc, List.singleton_append]

/-- **The reader is the lexer in both modes.** -/
theorem read_eq (strict : Bool) (t : Text) :
    read strict t = if strict then tokenizeStrict t else .ok (tokenize t) := by
  have hread : read strict t = ofPlaced strict (placedLexemes t) := by
    cases t with
    | nil => cases strict <;> rfl
    | cons c t => exact readFrom_eq strict false 1 _ [c] t
  rw [hread, ofPlaced]
  cases strict <;> rfl

/-! ### What strict reading refuses -/

/-- **Strict reading decides by the last token.** It fails at the column of that token if it is an
open literal, and else it finds the tokens of the text. -/
theorem tokenizeStrict_iff_getLast? (t : Text) :
    (∀ e, tokenizeStrict t = .error e ↔
      ∃ a, (tokenize t).getLast? = some a ∧ a.IsOpenLiteral ∧ e.column = a.column) ∧
    ∀ ts, tokenizeStrict t = .ok ts ↔
      ts = tokenize t ∧ ∀ a ∈ (tokenize t).getLast?, ¬ a.IsOpenLiteral := by
  have hlast : (tokenize t).getLast? =
      (placedLexemes t).getLast?.map fun (column, l) ↦ l.toToken column := List.getLast?_map
  rw [tokenizeStrict, find?_placedLexemes, hlast]
  rcases hplaced : (placedLexemes t).getLast? with _ | ⟨column, l⟩
  · simp [eq_comm]
  · have hopen : (l.toToken column).IsOpenLiteral ↔ l.isUnclosed = true :=
      isOpenLiteral_toToken_iff (isRun_of_mem_placedLexemes (List.mem_of_getLast? hplaced)) column
    cases hl : l.isUnclosed with
    | false =>
      have hclosed : ¬ (l.toToken column).IsOpenLiteral := fun h ↦ by simp [hopen.1 h] at hl
      simp [Option.filter, hl, hclosed, eq_comm]
    | true =>
      have hcolumn : ∀ e : UnclosedLiteral, ⟨column⟩ = e ↔ e.column = (l.toToken column).column :=
        fun e ↦ ⟨fun h ↦ h ▸ rfl, fun h ↦ congrArg UnclosedLiteral.mk h.symm⟩
      simp [Option.filter, hl, hopen.2 hl, hcolumn]

/-- **The two modes differ in one error only.** They are one reader, which fails in strict mode
exactly if the last token is an open literal, at the column of that token, and finds the same tokens
otherwise. A token that another one follows is never an open literal, and one that is extends to the
end of the text. -/
theorem tokenizeStrict_refuses_openLiteral (t : Text) :
    (∀ strict, read strict t = if strict then tokenizeStrict t else .ok (tokenize t)) ∧
      (∀ e, tokenizeStrict t = .error e ↔
        ∃ a, (tokenize t).getLast? = some a ∧ a.IsOpenLiteral ∧ e.column = a.column) ∧
      (∀ ts, tokenizeStrict t = .ok ts ↔
        ts = tokenize t ∧ ∀ a ∈ (tokenize t).getLast?, ¬ a.IsOpenLiteral) ∧
      ((tokenize t).IsChain fun a _ ↦ ¬ a.IsOpenLiteral) ∧
      ∀ a, (tokenize t).getLast? = some a → a.IsOpenLiteral →
        ∃ x, t = x ++ a.text ∧ a.column = x.length + 1 := by
  obtain ⟨herror, hok⟩ := tokenizeStrict_iff_getLast? t
  refine ⟨fun strict ↦ read_eq strict t, herror, hok, isChain_tokenize t, fun a ha hopen ↦ ?_⟩
  obtain ⟨x, htext, hcolumn⟩ := (tokenize_tiles t).exists_of_getLast? ha hopen.1
  exact ⟨x, htext, by simpa using hcolumn⟩

/-- A doubled quote does not close the literal, and the parenthesis belongs to it. -/
theorem tokenizeStrict_refuses_openLiteral_call :
    (∃ a, (tokenize "CALL PGM('A''B)".toList).getLast? = some a ∧ a.IsOpenLiteral ∧
      ∃ x, "CALL PGM('A''B)".toList = x ++ a.text ∧ a.column = x.length + 1) ∧
    tokenizeStrict "CALL PGM('A''B)".toList = .error ⟨10⟩ := by
  obtain ⟨-, herror, -, -, hend⟩ := tokenizeStrict_refuses_openLiteral "CALL PGM('A''B)".toList
  have hlast : (tokenize "CALL PGM('A''B)".toList).getLast? =
      some ⟨.literal, "'A''B)".toList, 10⟩ := rfl
  have hopen : IsOpenLiteral ⟨.literal, "'A''B)".toList, 10⟩ :=
    ⟨rfl, "A''B)".toList, rfl, Text.quotesPaired_iff_run?.2 rfl⟩
  exact ⟨⟨_, hlast, hopen, hend _ hlast hopen⟩, (herror ⟨10⟩).2 ⟨_, hlast, hopen, rfl⟩⟩

end Token

end ControlLanguage
