import ControlLanguage.Proofs.Canonical.Settled
import ControlLanguage.Proofs.Part.Fields
import ControlLanguage.Proofs.Part.Lexing
import ControlLanguage.Proofs.Part.Unwrapping

/-!
# Quoted texts are literals

Four readers tell where a literal ends, each in its own way. The lexer lets a quote close a literal
until another one follows it; the splitter opens and closes a quoted run at each quote; the search
for atoms looks ahead for a quote without a partner; and where a value is written only its two ends
are looked at. **They agree on a text in quotes**, whatever is inside, because its quotes are
doubled: the lexer reads all of it as one literal (`Lexeme.following_quoted_append`), the splitter
finds nothing free in it (`Part.isWhole_quoted`), and the texts that are their own only literals are
the quoted ones (`Text.literals_eq_singleton_iff`).
-/

namespace ControlLanguage

open Shape Text

/-! ### The lexer -/

/-- Where a quote begins a lexeme, a quoted text is one closed literal. -/
theorem Lexeme.following_quoted_append {s : Shape} (hs : s.extended quote = none) (b : Text)
    {u : Text} (hu : (literal true).Stops u) :
    following s (quoted b ++ u) = ⟨.literal true, quoted b⟩ :: following (.literal true) u := by
  have hrun : (begun true quote).run? (Part.doubled b ++ [quote]) = some (.literal true) :=
    run?_doubled b
  exact following_cons_append hs hrun hu

/-! ### The search for literals -/

namespace Text

/-- A text with a quote has a literal that ends at a quote. -/
theorem literalLength_ne_none {t : Text} (h : quote ∈ t) : literalLength t ≠ none := by
  induction t using List.twoStepInduction with
  | nil => cases h
  | singleton c => simp [literalLength, ← List.mem_singleton.1 h]
  | cons_cons c d t _ ih =>
    by_cases hc : c = quote
    · by_cases hd : d = quote
      · rcases hrest : literalLength t with _ | n <;> simp [literalLength, hc, hd, hrest]
      · simp [literalLength, hc, hd]
    · have hrest : quote ∈ d :: t := (List.mem_cons.1 h).resolve_left (Ne.symm hc)
      rw [literalLength, if_neg hc, ne_eq, Option.map_eq_none_iff]
      exact ih d hrest

/-- What the search reads to its end is a closed literal for the lexer. -/
theorem run?_of_literalLength {t : Text} (h : literalLength t = some t.length) :
    (literal false).run? t = some (.literal true) := by
  induction t using List.twoStepInduction with
  | nil => simp [literalLength] at h
  | singleton c =>
    by_cases hc : c = quote
    · simp [hc, run?, extended]
    · simp [literalLength, hc] at h
  | cons_cons c d t ih ih' =>
    by_cases hc : c = quote
    · -- a quote in front of other characters belongs to the literal if it is doubled
      by_cases hd : d = quote
      · rcases hrest : literalLength t with _ | n
        · simp [literalLength, hc, hd, hrest] at h
        · have hn : n = t.length := by simpa [literalLength, hc, hd, hrest] using h
          rw [hc, hd]
          exact run?_cons.2 ⟨_, rfl, run?_cons.2 ⟨_, rfl, ih (hn ▸ hrest)⟩⟩
      · simp [literalLength, hc, hd] at h
    · rw [literalLength, if_neg hc, Option.map_eq_some_iff] at h
      obtain ⟨n, hrest, hn⟩ := h
      have hlength : n = (d :: t).length := Nat.succ.inj hn
      refine run?_cons.2 ⟨.literal false, ?_, ih' d (hlength ▸ hrest)⟩
      simp [extended, hc]

/-- A text is its own only literal exactly if it is a quoted text. -/
theorem literals_eq_singleton_iff {t : Text} : t.literals = [t] ↔ ∃ b, t = quoted b := by
  constructor
  · intro h
    have hmem : t ∈ t.literals := h.symm ▸ List.mem_singleton_self t
    obtain ⟨u, rfl⟩ := exists_of_mem_literalsAfter hmem
    obtain ⟨n, hn⟩ := Option.ne_none_iff_exists'.1
      (literalLength_ne_none (List.mem_append_right u (List.mem_singleton_self quote)))
    -- the literal that is found first ends inside the text and reaches to its end
    have hle : n ≤ (u ++ [quote]).length := by
      obtain ⟨v, rest, hv, rfl⟩ := exists_of_literalLength hn
      simp [hv]
    rw [literals, literalsAfter, if_pos rfl, hn] at h
    have htake : (u ++ [quote]).take n = u ++ [quote] := (List.cons.inj (List.cons.inj h).1).2
    have hlength : n = (u ++ [quote]).length :=
      Nat.le_antisymm hle ((List.take_eq_self_iff _).1 htake)
    obtain ⟨b, hb⟩ := exists_doubled (run?_of_literalLength (hlength ▸ hn))
    exact ⟨b, congrArg _ hb⟩
  · rintro ⟨b, rfl⟩
    exact literals_of_run? (run?_doubled b)

end Text

/-! ### The splitter -/

namespace Part

theorem occurrences_quoted (b : Text) : occurrences (quoted b) = [quoted b] := by
  rw [occurrences, isWhole_quoted, List.map_singleton, trim_quoted]
  rfl

theorem qualified_quoted (n : Int) (b : Text) : qualified n (quoted b) = [quoted b] := by
  rw [qualified, isWhole_quoted, limited_eq_self (Int.le_max_right n 1), List.map_singleton,
    trim_quoted]
  rfl

theorem unwrapped_quoted (b : Text) : unwrapped (quoted b) = quoted b := by
  have hhead : (quoted b).trim.head? ≠ some '(' := by
    rw [trim_quoted]
    exact fun h ↦ absurd (Option.some.inj h) (by decide)
  rw [unwrapped_of_head?_ne hhead, trim_quoted]

end Part

/-! ### The readers agree -/

/-- The lexemes of a statement whose only value is a quoted text. -/
theorem placedLexemes_quoted (b : Text) :
    Token.placedLexemes ("X K(".toList ++ (quoted b ++ [')'])) =
      [(1, ⟨.name, ['X']⟩), (2, ⟨.blank, [' ']⟩), (3, ⟨.word, ['K']⟩), (4, ⟨.opening, ['(']⟩),
        (5, ⟨.literal true, quoted b⟩), (5 + (quoted b).length, ⟨.closing, [')']⟩)] := by
  have hlexemes : Lexeme.ofText ("X K(".toList ++ (quoted b ++ [')'])) =
      ⟨.name, ['X']⟩ :: ⟨.blank, [' ']⟩ :: ⟨.word, ['K']⟩ :: ⟨.opening, ['(']⟩ ::
        Lexeme.following .opening (quoted b ++ [')']) := rfl
  rw [Lexeme.following_quoted_append rfl b (stops_cons.2 rfl)] at hlexemes
  rw [Token.placedLexemes, hlexemes]
  rfl

theorem Command.ofText_quoted (b : Text) :
    Command.ofText ("X K(".toList ++ (quoted b ++ [')'])) =
      ⟨['X'], [⟨['K'], .scalar (quoted b)⟩]⟩ := by
  rw [Command.ofText, Token.tokenize, placedLexemes_quoted]
  rfl

/-- **All readers take a quoted text for one literal.** As the value of a parameter it is read as
one literal token; it is its only occurrence, its only part as a name, and not in parentheses; it
is its only literal and an atom of the command; and it is written as it is, unless it is empty. -/
theorem Text.oneLiteral_quoted (b : Text) :
    Token.tokenizeStrict ("X K(".toList ++ (quoted b ++ [')'])) = .ok
        [⟨.command, ['X'], 1⟩, ⟨.blank, [' '], 2⟩, ⟨.keyword, ['K'], 3⟩, ⟨.opening, ['('], 4⟩,
          ⟨.literal, quoted b, 5⟩, ⟨.closing, [')'], 5 + (quoted b).length⟩] ∧
      Part.occurrences (quoted b) = [quoted b] ∧
      (∀ n, Part.qualified n (quoted b) = [quoted b]) ∧
      Part.unwrapped (quoted b) = quoted b ∧
      (quoted b).literals = [quoted b] ∧
      (∀ k, quoted b ∈ (Command.ofText ("X K(".toList ++ (quoted b ++ [')']))).atoms k) ∧
      ∀ allowed type, canonical allowed type (quoted b) = if b = [] then [] else quoted b := by
  have hliterals : (quoted b).literals = [quoted b] := literals_eq_singleton_iff.2 ⟨b, rfl⟩
  refine ⟨?tokens, Part.occurrences_quoted b, fun n ↦ Part.qualified_quoted n b,
    Part.unwrapped_quoted b, hliterals, fun k ↦ ?atom, fun allowed type ↦ ?canonical⟩
  case tokens =>
    rw [Token.tokenizeStrict, Token.tokenize, placedLexemes_quoted]
    rfl
  case atom =>
    rw [Command.mem_atoms, Command.ofText_quoted]
    simp [Atom.ofParameters, Atom.ofParameter, Atom.ofValue, Atom.ofScalar, hliterals]
  case canonical =>
    split_ifs with hb
    · rw [hb]
      rfl
    · exact canonical_of_isQuoted allowed type (Part.trim_quoted b) (isQuoted_quoted b)
        (quoted_ne hb)

end ControlLanguage
