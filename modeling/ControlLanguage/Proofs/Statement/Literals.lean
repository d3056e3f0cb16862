import Mathlib.Data.List.DropRight
import ControlLanguage.Proofs.Part.Grouping
import ControlLanguage.Proofs.Statement.Occurrences
import ControlLanguage.Proofs.Token.LetterCase

/-!
# Literals inside a value

A value may mix literals with operators, variables and calls, and how it is written is decided from
its first character or its overall form, before any literal is looked at. Still **a value is quoted
as a whole or its literals are kept as they are** (`exists_assembleOne_literals`), with one
exception: what begins with an asterisk is taken for a special value and put in upper case, literals
and all (`literals_of_operator_and_white_space`).

The literals of a text are those that the lexer finds in it behind an opening parenthesis
(`Text.literalTokens`). They are the literals of the value in the statement if trimming takes
nothing but blanks from it (`Chain.literalTokens_trim`).
-/

namespace ControlLanguage

open Text Shape Token

/-! ### The literals of a text -/

/-- The texts of the literals in a list of tokens. -/
def Token.literalTexts (ts : List Token) : List Text :=
  (ts.filter (·.kind = .literal)).map (·.text)

namespace Text

/-- The texts of the literals that the lexer finds in a text between parentheses. -/
def literalTokens (t : Text) : List Text :=
  literalTexts (Token.following .opening t)

/-- The text without the blanks at its ends, where other white space may remain. -/
def trimBlanks (t : Text) : Text :=
  (t.dropWhile isBlank).rdropWhile isBlank

/-- Blanks around a text are taken away. -/
theorem trimBlanks_append {g t g' : Text} (hg : ∀ c ∈ g, isBlank c = true)
    (hg' : ∀ c ∈ g', isBlank c = true) (hhead : ∀ c ∈ t.head?, isBlank c = false)
    (hlast : ∀ c ∈ t.getLast?, isBlank c = false) : trimBlanks (g ++ (t ++ g')) = t := by
  rw [trimBlanks, List.dropWhile_append_of_pos hg]
  rcases List.eq_nil_or_concat' t with rfl | ⟨u, c, rfl⟩
  · rw [List.nil_append, List.dropWhile_eq_nil_iff.2 hg']
    rfl
  · have hdrop : (u ++ [c] ++ g').dropWhile isBlank = u ++ [c] ++ g' := by
      cases u <;> exact List.dropWhile_cons_of_neg (by simp [hhead _ rfl])
    have hc : isBlank c = false := hlast c List.getLast?_concat
    rw [hdrop, List.rdropWhile, List.reverse_append,
      List.dropWhile_append_of_pos (by simpa using hg'), List.reverse_concat,
      List.dropWhile_cons_of_neg (by simp [hc]), ← List.reverse_concat, List.reverse_reverse]

end Text

namespace Token

/-- Literals are found in each run of tokens. -/
theorem literalTexts_append (ts us : List Token) :
    literalTexts (ts ++ us) = literalTexts ts ++ literalTexts us := by
  simp [literalTexts]

/-- The columns of the tokens do not matter. -/
theorem literalTexts_unplaced (ts : List Token) :
    literalTexts (ts.map unplaced) = literalTexts ts := by
  rw [literalTexts, List.filter_map, List.map_map]
  rfl

/-- There are no literals between parameters. -/
theorem IsGap.literalTexts_eq {ts : List Token} (h : IsGap ts) : literalTexts ts = [] := by
  rcases h with rfl | ⟨b, rfl, hb, -⟩
  · rfl
  · simp [literalTexts, hb]

section Chain

variable {s' : Shape} {ts : List Token}

theorem Chain.literalTokens_texts (h : Chain .opening ts s') :
    (texts ts).literalTokens = literalTexts ts := by
  have hfollowing := following_chain h (stops_nil s')
  rw [List.append_nil] at hfollowing
  rw [literalTokens, hfollowing, literalTexts_append, literalTexts_unplaced]
  exact List.append_nil _

/-- **The literals of a value are those of its tokens**, if trimming takes nothing but blanks from
its ends. -/
theorem Chain.literalTokens_trim (h : Chain .opening ts s') (hs' : s' ≠ .literal false)
    (hends : (texts ts).trim = (texts ts).trimBlanks) :
    (texts ts).trim.literalTokens = literalTexts ts := by
  obtain ⟨gap, us, gap', r, rfl, hgap, hgap', -, hhead, hlast, hus, hr⟩ := h.exists_gaps hs'
  have hblanks : (texts (gap ++ (us ++ gap'))).trimBlanks = texts us := by
    rw [texts_append, texts_append]
    exact trimBlanks_append hgap.isBlank hgap'.isBlank (hus.isBlank_head hhead)
      (hus.isBlank_getLast hr hlast)
  rw [hends, hblanks, hus.literalTokens_texts, literalTexts_append, literalTexts_append,
    hgap.literalTexts_eq, hgap'.literalTexts_eq, List.nil_append, List.append_nil]

end Chain

end Token

namespace Text

/-- Without a quote there is no literal. -/
theorem literalTokens_eq_nil {t : Text} (h : quote ∉ t) : t.literalTokens = [] := by
  rw [literalTokens, literalTexts, List.map_eq_nil_iff, List.filter_eq_nil_iff]
  intro u hu hk
  obtain ⟨s, s', hf⟩ := (chain_following .opening t).exists_follows u hu
  obtain ⟨v, -, htext, -⟩ := hf.exists_quote (of_decide_eq_true hk)
  have hmem : quote ∈ texts (Token.following .opening t) :=
    List.mem_flatMap.2 ⟨u, hu, by simp [htext]⟩
  rcases mem_of_mem_texts_following hmem with hmem | hblank
  · exact h hmem
  · exact absurd hblank (by decide)

/-- **Upper case takes the literals along**, if it makes no ASCII character of another one. -/
theorem literalTokens_upper {t : Text} (h : t.KeepsAscii) :
    t.upper.literalTokens = t.literalTokens.map upper := by
  have hkind : ∀ l : Lexeme,
      (l.upper.toToken 0).kind = .literal ↔ (l.toToken 0).kind = .literal :=
    fun l ↦ kind_eq_literal_iff.trans kind_eq_literal_iff.symm
  have htext : ∀ l : Lexeme, (l.toToken 0).kind = .literal →
      (l.upper.toToken 0).text = (l.toToken 0).text.upper := by
    rintro ⟨s, source⟩ hl
    obtain ⟨closed, rfl⟩ := kind_eq_literal_iff.1 hl
    rfl
  rw [literalTokens, literalTokens, Token.following, Token.following, Lexeme.following_upper h]
  generalize Lexeme.following .opening t = ls
  have hfilter : ls.filter (fun l ↦ (l.upper.toToken 0).kind = .literal) =
      ls.filter (fun l ↦ (l.toToken 0).kind = .literal) :=
    List.filter_congr fun l _ ↦ decide_eq_decide.2 (hkind l)
  calc literalTexts ((ls.map Lexeme.upper).map (·.toToken 0))
      = (ls.filter fun l ↦ (l.upper.toToken 0).kind = .literal).map
          (fun l ↦ (l.upper.toToken 0).text) := by
        rw [literalTexts, List.map_map, List.filter_map, List.map_map]
        rfl
    _ = (ls.filter fun l ↦ (l.toToken 0).kind = .literal).map
          (fun l ↦ (l.toToken 0).text.upper) := by
        rw [hfilter]
        exact List.map_congr_left fun l hl ↦ htext l (of_decide_eq_true (List.mem_filter.1 hl).2)
    _ = (literalTexts (ls.map (·.toToken 0))).map upper := by
        rw [literalTexts, List.filter_map, List.map_map, List.map_map]
        rfl

/-! ### The literals of a value that is written -/

/-- **A value is quoted as a whole or keeps its literals**, unless it begins with an asterisk. -/
theorem literalTokens_canonical {type t : Text} (htype : isNameType type = false)
    (hne : t.trim ≠ []) (hempty : t.trim ≠ "''".toList) :
    canonical [] type t = quoted t.trim ∨
      (canonical [] type t).literalTokens = t.trim.literalTokens ∨
      t.trim.head? = some '*' ∧ canonical [] type t = t.trim.upper := by
  rcases canonical_cases [] type t with ⟨-, h | h⟩ | ⟨-, ⟨h, -⟩ | ⟨h, hcapital, hquoted⟩ | h⟩
  · exact absurd h hne
  · exact absurd h hempty
  · exact Or.inr (Or.inl (congrArg literalTokens h))
  · by_cases hstar : t.trim.head? = some '*'
    · exact Or.inr (Or.inr ⟨hstar, h⟩)
    · -- a name has no literals, and neither has its upper case
      have hname : t.isName = true := by
        have hname : t.trim.isName = true := by
          simpa [isCapitalised, htype, hstar, hquoted] using hcapital
        rwa [isName, trim_trim] at hname
      have hquote : quote ∉ t.trim := by
        rcases Part.isNamePart_of_isName hname hquoted with ⟨b, -, hb⟩ | ⟨-, hplain⟩
        · rw [hb, isQuoted_quoted] at hquoted
          exact Bool.noConfusion hquoted
        · exact fun hmem ↦ absurd (hplain _ hmem).1 (by decide)
      have hupper : quote ∉ t.trim.upper := by
        intro hmem
        obtain ⟨c, hc, hcapital⟩ := List.mem_flatMap.1 hmem
        rw [(eq_of_mem_upperChar hcapital (by decide)).2] at hquote
        exact hquote hc
      rw [h, literalTokens_eq_nil hupper, literalTokens_eq_nil hquote]
      exact Or.inr (Or.inl rfl)
  · exact Or.inl h

end Text

namespace Statement

section Single

variable {p : ParameterSpec} (hsingle : p.max ≤ 1) (hqualifiers : p.qualifiers = [])
  (helements : p.elements = [])

include hsingle hqualifiers helements

/-- **The literals inside a value are kept**, unless the value is quoted as a whole or begins with
an asterisk. One that begins with an asterisk is written in upper case, and so are its literals. -/
theorem exists_assembleOne_literals (hallowed : p.allowedValues = [])
    (hname : isNameType p.type = false) (hcommand : isCommandType p.type = false) {s : Text}
    {ts : List Token} (hstrict : tokenizeStrict s = .ok ts) {c : Command.Capture}
    (hc : c ∈ Command.captures ts) {t : Text} (ht : c.toParameter.value.text = t)
    (hne : t.trim ≠ []) (hempty : t.trim ≠ "''".toList) {v : ParameterValue}
    (hv : v = .text t ∨ v = p.interpret t) (name : Text) {present : List Text}
    (hpresent : p.key ∈ present.map upper) :
    (∃ r, assembleOne name p v present = .ok (commandName name ++
          if ElementKey.keyword? p.key = none then
            ' ' :: p.keyword ++ ValueRules.parenthesised r else []) ∧
        (r = quoted t.trim ∨ r.literalTokens = t.trim.literalTokens ∨
          t.trim.head? = some '*' ∧ r = t.trim.upper ∧
            (t.trim.KeepsAscii → r.literalTokens = t.trim.literalTokens.map upper))) ∧
      ((texts c.tokens).trim = (texts c.tokens).trimBlanks →
        t.trim.literalTokens = literalTexts c.tokens) := by
  have hlist := ParameterSpec.isElementList_eq_false helements
  have hqualified := ParameterSpec.isQualified_eq_false hqualifiers
  have hmultiple : p.isMultiple = false := decide_eq_false (Int.not_lt.2 hsingle)
  obtain ⟨u, rfl, hu⟩ : ∃ u, v = .text u ∧ u.trim = t.trim := by
    rcases hv with rfl | rfl
    · exact ⟨t, rfl, rfl⟩
    · exact ⟨t.trim, ParameterSpec.interpret_value hlist hqualified hmultiple t, trim_trim t⟩
  have hwritten : p.rules.writtenText u = canonical [] p.type t := by
    rw [p.writtenText_rules hcommand, hallowed, ← canonical_trim, hu, canonical_trim]
  have hrender := ValueRules.render_value hlist hqualified hmultiple p.rules u
  rw [hwritten] at hrender
  have hform : canonical [] p.type t ≠ [] := by
    rw [← canonical_trim]
    exact mt (canonical_eq_nil_iff (trim_trim t) hne).1 hempty
  have hnonempty : (ParameterValue.text u).isEmpty = false := by
    rw [ParameterValue.isEmpty, hu]
    exact List.isEmpty_eq_false_iff.2 hne
  refine ⟨⟨_, assembleOne_of_present name hrender hform hnonempty hpresent, ?_⟩, fun hends ↦ ?_⟩
  · rcases literalTokens_canonical hname hne hempty with h | h | ⟨hstar, h⟩
    · exact Or.inl h
    · exact Or.inr (Or.inl h)
    · exact Or.inr (Or.inr ⟨hstar, h, fun hkeeps ↦ by rw [h, literalTokens_upper hkeeps]⟩)
  · obtain rfl := tokenize_eq_of_tokenizeStrict hstrict
    obtain ⟨r, hchain, hr, -⟩ := Command.exists_chain_of_mem_captures hstrict hc
    have htrim : t.trim = (texts c.tokens).trim := by
      rw [← ht]
      rcases Part.text_ofTokens c.tokens with h | h <;> rw [Command.Capture.toParameter, h]
      exact trim_trim _
    rw [htrim]
    exact hchain.literalTokens_trim hr hends

end Single

/-- A parameter that takes one value. -/
def singleValue (keyword type : Text) : ParameterSpec :=
  ⟨keyword, type, 0, 1, none, [], [], []⟩

/-- The literals of a condition, one with a quote inside. -/
theorem exists_assembleOne_literals_condition :
    let p := singleValue "Cond".toList "*LGL".toList
    let s : Text := "IF COND( (&A *EQ 'x''Y')  *or (&b *NE 'z') )".toList
    let t : Text := "(&A *EQ 'x''Y') *or (&b *NE 'z')".toList
    tokenizeStrict s = .ok (tokenize s) ∧ ∃ c ∈ Command.captures (tokenize s),
      c.isClosed = true ∧ c.toParameter.value.text = t ∧
      p.max ≤ 1 ∧ p.qualifiers = [] ∧ p.elements = [] ∧ p.allowedValues = [] ∧
      isNameType p.type = false ∧ isCommandType p.type = false ∧ t.trim ≠ [] ∧
      t.trim ≠ "''".toList ∧ p.key ∈ ["cond".toList].map upper ∧
      (texts c.tokens).trim = (texts c.tokens).trimBlanks ∧
      literalTexts c.tokens = ["'x''Y'".toList, "'z'".toList] ∧
      (∃ r, assembleOne "IF".toList p (p.interpret t) ["cond".toList] =
          .ok (commandName "IF".toList ++
            if ElementKey.keyword? p.key = none then
              ' ' :: p.keyword ++ ValueRules.parenthesised r else []) ∧
        (r = quoted t.trim ∨ r.literalTokens = t.trim.literalTokens ∨
          t.trim.head? = some '*' ∧ r = t.trim.upper ∧
            (t.trim.KeepsAscii → r.literalTokens = t.trim.literalTokens.map upper))) ∧
      ((texts c.tokens).trim = (texts c.tokens).trimBlanks →
        t.trim.literalTokens = literalTexts c.tokens) := by
  intro p s t
  have hstrict : tokenizeStrict s = .ok (tokenize s) := rfl
  have hc := List.head_mem (l := Command.captures (tokenize s)) (by decide +kernel)
  have ht : ((Command.captures (tokenize s)).head (by decide +kernel)).toParameter.value.text =
      t := by
    decide +kernel
  have hname : isNameType p.type = false := by decide +kernel
  have hcommand : isCommandType p.type = false := by decide +kernel
  have hne : t.trim ≠ [] := by decide +kernel
  have hempty : t.trim ≠ "''".toList := by decide +kernel
  have hpresent : p.key ∈ ["cond".toList].map upper := by decide +kernel
  exact ⟨hstrict, _, hc, by decide +kernel, ht, by decide, rfl, rfl, rfl, hname, hcommand, hne,
    hempty, hpresent, by decide +kernel, by decide +kernel,
    exists_assembleOne_literals (by decide) rfl rfl rfl hname hcommand hstrict hc ht hne hempty
      (Or.inr rfl) "IF".toList hpresent⟩

/-- An operator in front is taken for a special value, and the literal behind it is put in upper
case. White space in front of a quote belongs to the same word, and trimmed away it leaves a
literal. -/
theorem literals_of_operator_and_white_space :
    let p := singleValue "K".toList "*LGL".toList
    let s : Text := "IF K(*NOT (&A *EQ 'abc'))".toList
    let t : Text := "*NOT (&A *EQ 'abc')".toList
    let s' : Text := "X K(\u00a0'A')".toList
    let t' : Text := "\u00a0'A'".toList
    (tokenizeStrict s = .ok (tokenize s) ∧
      (Command.captures (tokenize s)).map (fun c ↦ (c.isClosed, c.toParameter.value.text)) =
        [(true, t)] ∧
      assembleOne "IF".toList p (.text t) ["K".toList] =
        .ok "IF K(*NOT (&A *EQ 'ABC'))".toList ∧
      "*NOT (&A *EQ 'ABC')".toList ≠ quoted t.trim ∧ t.literalTokens = ["'abc'".toList] ∧
      literalTokens "*NOT (&A *EQ 'ABC')".toList = ["'ABC'".toList]) ∧
    tokenizeStrict s' = .ok (tokenize s') ∧
      (Command.captures (tokenize s')).map (fun c ↦ (c.isClosed, c.toParameter.value.text)) =
        [(true, t')] ∧
      assembleOne "X".toList p (.text t') ["K".toList] = .ok "X K('A')".toList ∧
      "'A'".toList ≠ quoted t'.trim ∧ t'.literalTokens = [] ∧
      literalTokens "'A'".toList = ["'A'".toList] := by
  refine ⟨⟨rfl, ?_, ?_, ?_, ?_, ?_⟩, rfl, ?_, ?_, ?_, ?_, ?_⟩ <;> decide +kernel

end Statement

end ControlLanguage
