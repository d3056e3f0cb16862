import ControlLanguage.Command.Printer
import ControlLanguage.Proofs.Statement.Assembled

/-!
# Printing and reading back

A command that was built can be printed and read back, if its parts are such as the lexer could have
read: then **the text that is read has the same name, the same keywords and the same values**,
though a list or a call is read as a run of tokens. The induction over the tree shows one thing
only, that the text of a value is a span (`Value.isSpan_text`).
-/

namespace ControlLanguage

open Text Token

/-! ### What can be printed -/

namespace Token

/-- Tokens that the lexer makes of some text behind the opening parenthesis of a value: balanced,
with complete literals and with no other white space than blanks. -/
structure IsExpression (ts : List Token) : Prop where
  exists_source : ∃ source, ts.map unplaced = following .opening source
  isBalanced : IsBalanced 0 ts
  isComplete : ∀ t ∈ ts, t.IsComplete
  isBlank_of_isWhiteSpace : ∀ c ∈ texts ts, isWhiteSpace c = true → isBlank c = true

/-- The text of one such token, of a kind that makes a scalar value. -/
def IsScalarText (t : Text) : Prop :=
  ∃ u : Token, u.text = t ∧ u.isScalar = true ∧ IsExpression [u]

/-- A text that closes its parentheses and literals is read as an expression. -/
theorem isExpression_following {source : Text}
    (hbalanced : IsBalanced 0 (following .opening source))
    (hclosed : Shape.opening.afterText source ≠ .literal false)
    (hwhite : ∀ c ∈ source, isWhiteSpace c = true → isBlank c = true) :
    IsExpression (following .opening source) := by
  have hchain := chain_following .opening source
  rw [Lexeme.continued_of_stops (s := .opening) fun _ _ ↦ rfl] at hchain
  -- the only character of the tokens that may not be one of the text is a blank
  refine ⟨⟨source, ?_⟩, hbalanced, hchain.isComplete hclosed, fun c hc hw ↦ ?_⟩
  · rw [following, List.map_map]
    rfl
  · rcases mem_of_mem_texts_following hc with hc | rfl
    · exact hwhite c hc hw
    · decide

/-- An expression is spelled as a span. -/
theorem IsExpression.isSpan_text {ts : List Token} (h : IsExpression ts) :
    IsSpan (spelling ts) ∧ (Value.ofTokens ts).text = spelling ts := by
  obtain ⟨source, hsource⟩ := h.exists_source
  have hchain := chain_following .opening source
  have hstop : Shape.opening.Stops source := fun _ _ ↦ rfl
  rw [Lexeme.continued_of_stops hstop, ← hsource] at hchain
  exact hchain.of_unplaced.isSpan_text h.isBalanced h.isComplete h.isBlank_of_isWhiteSpace

/-- An expression that is not all blanks has ink. -/
theorem IsExpression.spelling_ne_nil {ts : List Token} (h : IsExpression ts) {t : Token}
    (ht : t ∈ ts) (hk : t.kind ≠ .blank) : spelling ts ≠ [] := by
  intro hnil
  obtain ⟨s, s', hf, -⟩ := h.isComplete t ht
  have hwhite : IsWhite (texts ts) := isWhite_iff_trim_eq_nil.2 hnil
  have hsub : ∀ c ∈ t.text, c ∈ texts ts := fun c hc ↦ List.mem_flatMap.2 ⟨t, ht, hc⟩
  obtain ⟨c, u, htext, hc⟩ := hf.beginsInk (mt hf.kind_eq_blank_iff.2 hk)
    fun c hc ↦ h.isBlank_of_isWhiteSpace c (hsub c hc)
  rw [hwhite c (hsub c (by simp [htext]))] at hc
  exact Bool.noConfusion hc

end Token

/-- An expression that is empty or all blanks. -/
def Value.IsBlank : Value → Prop
  | .expression ts => ∀ t ∈ ts, t.kind = .blank
  | _ => False

mutual

/-- A value that can be printed and read back, a tree of values of all known forms. -/
def Value.IsPrintable : Value → Prop
  | .scalar t => IsScalarText t
  | .expression ts => IsExpression ts
  | .array items => Value.ArePrintable items
  | .function name args => IsWord name ∧ Value.ArePrintable args
  | .command c => c.IsPrintable
  | .unknown => False

/-- Items of a list and arguments of a call have to leave a trace. -/
def Value.ArePrintable : List Value → Prop
  | [] => True
  | v :: vs => (v.IsPrintable ∧ ¬ v.IsBlank) ∧ Value.ArePrintable vs

/-- A command whose name is a word, with printable parameters. -/
def Command.IsPrintable : Command → Prop
  | ⟨name, parameters⟩ => IsWord name ∧ Parameter.ArePrintable parameters

/-- A parameter with a keyword of identifier shape and a printable value. -/
def Parameter.IsPrintable : Parameter → Prop
  | ⟨keyword, value⟩ => (keyword.isIdentifier = true ∧
      ∀ c ∈ keyword, isWhiteSpace c = true → isBlank c = true) ∧ value.IsPrintable

/-- All of the parameters are printable. -/
def Parameter.ArePrintable : List Parameter → Prop
  | [] => True
  | p :: ps => p.IsPrintable ∧ Parameter.ArePrintable ps

end

/-! ### The text of a value -/

theorem Command.text_ne_nil {c : Command} (h : c.IsPrintable) : c.text ≠ [] := by
  obtain ⟨name, parameters⟩ := c
  obtain ⟨hname, -⟩ := h
  obtain ⟨d, u, rfl⟩ := List.exists_cons_of_ne_nil hname.ne_nil
  rw [text]
  by_cases hnil : Parameter.texts parameters = []
  · rw [hnil, Part.joinBlank_singleton]
    exact List.cons_ne_nil d u
  · rw [Part.joinBlank_cons _ hnil]
    simp

/-- Only a value that is all blanks leaves no trace. -/
theorem Value.text_ne_nil {v : Value} (h : v.IsPrintable) (hblank : ¬ v.IsBlank) :
    v.text ≠ [] := by
  cases v with
  | scalar t =>
    obtain ⟨u, rfl, hscalar, hu⟩ := h
    obtain ⟨s, s', hf, -⟩ := hu.isComplete u List.mem_cons_self
    exact hf.text_ne_nil
  | expression ts =>
    simp only [IsBlank, not_forall] at hblank
    obtain ⟨t, ht, hk⟩ := hblank
    exact IsExpression.spelling_ne_nil h ht hk
  | array items => simp [Value.text]
  | function name args => simp [Value.text]
  | command c => exact Command.text_ne_nil h
  | unknown => exact absurd h id

mutual

/-- **The text of a printable value is a span.** -/
theorem Value.isSpan_text : ∀ v : Value, v.IsPrintable → IsSpan v.text
  | .scalar t, h => by
    obtain ⟨u, rfl, hscalar, hu⟩ := h
    obtain ⟨hspan, htext⟩ := hu.isSpan_text
    rw [← htext, Value.ofTokens, if_pos hscalar] at hspan
    exact hspan
  | .expression ts, h => (IsExpression.isSpan_text h).1
  | .array items, h => by
    have hitems := Value.isSpan_of_mem_texts items h
    exact IsSpan.nil.append_parenthesised (IsSpan.joinBlank hitems)
  | .function name args, h => by
    have hargs := Value.isSpan_of_mem_texts args h.2
    exact h.1.isSpan.append_parenthesised (IsSpan.joinBlank hargs)
  | .command c, h => Command.isSpan_text c h
  | .unknown, h => absurd h id

theorem Value.isSpan_of_mem_texts : ∀ vs : List Value, Value.ArePrintable vs →
    ∀ t ∈ Value.texts vs, IsSpan t ∧ t ≠ []
  | [], _, t, ht => absurd ht List.not_mem_nil
  | v :: vs, h, t, ht => by
    rcases List.mem_cons.1 ht with rfl | ht
    · exact ⟨Value.isSpan_text v h.1.1, Value.text_ne_nil h.1.1 h.1.2⟩
    · exact Value.isSpan_of_mem_texts vs h.2 t ht

/-- **So is a command whose parts can be printed.** -/
theorem Command.isSpan_text : ∀ c : Command, c.IsPrintable → IsSpan c.text
  | ⟨name, parameters⟩, h => by
    refine IsSpan.joinBlank fun t ht ↦ ?_
    rcases List.mem_cons.1 ht with rfl | ht
    · exact ⟨h.1.isSpan, h.1.ne_nil⟩
    · exact Parameter.isSpan_of_mem_texts parameters h.2 t ht

theorem Parameter.isSpan_text : ∀ p : Parameter, p.IsPrintable → IsSpan p.text
  | ⟨_, value⟩, h =>
    (isWord_of_isIdentifier h.1.1 h.1.2).isSpan.append_parenthesised (Value.isSpan_text value h.2)

theorem Parameter.isSpan_of_mem_texts : ∀ ps : List Parameter, Parameter.ArePrintable ps →
    ∀ t ∈ Parameter.texts ps, IsSpan t ∧ t ≠ []
  | [], _, t, ht => absurd ht List.not_mem_nil
  | p :: ps, h, t, ht => by
    rcases List.mem_cons.1 ht with rfl | ht
    · refine ⟨Parameter.isSpan_text p h.1, ?_⟩
      obtain ⟨keyword, value⟩ := p
      simp [Parameter.text]
    · exact Parameter.isSpan_of_mem_texts ps h.2 t ht

end

/-! ### The text of a command -/

/-- A keyword and the text of its value. -/
def Parameter.entry (p : Parameter) : Text × Text :=
  (p.keyword, p.value.text)

namespace Command

/-- **A command is printed as its name and its parameters**, each behind a blank. -/
theorem text_eq (c : Command) :
    c.text = c.name ++ Statement.spelled (c.parameters.map Parameter.entry) := by
  obtain ⟨name, parameters⟩ := c
  rw [text]
  -- what is printed takes the place of the name when a parameter is added to it
  induction parameters generalizing name with
  | nil => exact (Part.joinBlank_singleton name).trans (List.append_nil name).symm
  | cons p ps ih =>
    obtain ⟨keyword, value⟩ := p
    rw [Parameter.texts, Part.joinBlank_cons _ (List.cons_ne_nil _ _), ih, List.map_cons,
      Statement.spelled_cons]
    simp [Parameter.entry, Parameter.text, ValueRules.parenthesised]

/-- The entries of a command are those of its text. -/
theorem entries_ofText (t : Text) : (ofText t).parameters.map Parameter.entry = entries t :=
  List.map_map

/-- Parameters that can be printed are spans with names. -/
theorem isSpan_of_arePrintable {ps : List Parameter} (h : Parameter.ArePrintable ps) :
    ∀ q ∈ ps.map Parameter.entry, q.1.isIdentifier = true ∧ IsSpan q.2 := by
  induction ps with
  | nil => simp
  | cons p ps ih =>
    obtain ⟨keyword, value⟩ := p
    rw [List.map_cons, List.forall_mem_cons]
    exact ⟨⟨h.1.1.1, Value.isSpan_text value h.1.2⟩, ih h.2⟩

/-- **A printable command is read back.** -/
theorem IsPrintable.ofText_text {c : Command} (h : c.IsPrintable) :
    (ofText c.text).name = c.name ∧
      (ofText c.text).parameters.map Parameter.entry = c.parameters.map Parameter.entry := by
  obtain ⟨name, parameters⟩ := c
  have hreads := h.1.reads (Statement.spelled_eq_nil_or (parameters.map Parameter.entry))
  rw [text_eq, entries_ofText]
  exact ⟨hreads.name_eq, hreads.entries_of_spelled (isSpan_of_arePrintable h.2)⟩

end Command

end ControlLanguage
