import ControlLanguage.Token.Lexer
import Mathlib.Data.List.Basic

/-!
# Lexing a text in pieces

The lexer decides from the shape reached so far and one character, so lexing distributes over
concatenation: **a list of tokens is what the lexer makes of their joined texts exactly when each
token is one lexeme and the next one begins where it cannot go on**. That local condition is
`Token.Chain`. Lexing any text gives a chain (`chain_following`), and a chain is what lexing its
text gives (`following_chain`); parts of a chain, and chains put together at a place where the
lexeme has to stop, are chains again.

Everything here is about the text behind the command name. The name itself is one lexeme and is
treated at the end.
-/

namespace ControlLanguage

namespace Shape

/-! ### Shapes along a text -/

/-- What is known after one more character, which goes on with the lexeme or begins the next
one. -/
def after (s : Shape) (c : Char) : Shape :=
  (s.extended c).getD (.begun true c)

/-- What is known after a text. -/
def afterText (s : Shape) (t : Text) : Shape :=
  t.foldl after s

/-- The shape of a lexeme extended by all of a text. -/
def run? (s : Shape) : Text → Option Shape
  | [] => some s
  | c :: t => (s.extended c).bind fun longer ↦ run? longer t

/-- The lexeme cannot go on with a text. -/
def Stops (s : Shape) (t : Text) : Prop :=
  ∀ c ∈ t.head?, s.extended c = none

/-- Every token stops at the end of the text. -/
theorem stops_nil (s : Shape) : s.Stops [] := by
  simp [Stops]

theorem stops_cons {s : Shape} {c : Char} {t : Text} : s.Stops (c :: t) ↔ s.extended c = none := by
  simp [Stops]

@[simp]
theorem afterText_nil (s : Shape) : s.afterText [] = s :=
  rfl

@[simp]
theorem afterText_cons (s : Shape) (c : Char) (t : Text) :
    s.afterText (c :: t) = (s.after c).afterText t :=
  rfl

@[simp]
theorem afterText_append (s : Shape) (t u : Text) :
    s.afterText (t ++ u) = (s.afterText t).afterText u :=
  List.foldl_append

theorem after_of_extended {s s' : Shape} {c : Char} (h : s.extended c = some s') :
    s.after c = s' := by
  rw [after, h, Option.getD_some]

/-- A token begins where the one before cannot be longer. -/
theorem after_of_stops {s : Shape} {c : Char} (h : s.extended c = none) :
    s.after c = .begun true c := by
  rw [after, h, Option.getD_none]

theorem run?_cons {s s' : Shape} {c : Char} {t : Text} :
    s.run? (c :: t) = some s' ↔ ∃ longer, s.extended c = some longer ∧ longer.run? t = some s' := by
  rw [run?, Option.bind_eq_some_iff]

/-- A run through two texts is a run through the first and then one through the second. -/
theorem run?_append {s s' : Shape} {t u : Text} :
    s.run? (t ++ u) = some s' ↔ ∃ r, s.run? t = some r ∧ r.run? u = some s' := by
  induction t generalizing s with
  | nil => simp [run?]
  | cons c t ih =>
    simp only [List.cons_append, run?_cons, ih]
    constructor
    · rintro ⟨longer, hc, r, ht, hu⟩
      exact ⟨r, ⟨longer, hc, ht⟩, hu⟩
    · rintro ⟨r, ⟨longer, hc, ht⟩, hu⟩
      exact ⟨longer, hc, r, ht, hu⟩

/-- A run is what the lexer does within a token. -/
theorem afterText_of_run? {s s' : Shape} {t : Text} (h : s.run? t = some s') :
    s.afterText t = s' := by
  induction t generalizing s with
  | nil => simpa [run?] using h
  | cons c t ih =>
    obtain ⟨longer, hc, ht⟩ := run?_cons.1 h
    rw [afterText_cons, after_of_extended hc]
    exact ih ht

/-- The shapes in which a lexeme may go on with a blank. -/
theorem extended_eq_some_of_isBlank {s s' : Shape} {c : Char} (hc : isBlank c = true)
    (h : s.extended c = some s') : s = .blank ∨ s = .literal false := by
  have hq : c ≠ quote := by
    rintro rfl
    exact absurd hc (by decide)
  have hw : endsWord c = true := by simp [endsWord, hc]
  have ha : c.isAlphanum = false ∧ c.isAlpha = false := by
    simp only [isBlank, Bool.or_eq_true, decide_eq_true_eq] at hc
    rcases hc with rfl | rfl <;> decide
  rcases s with _ | _ | _ | (_ | _) | _ | _ | _ | _ | _ <;> simp_all [extended]

/-- All blanks end the same lexemes. -/
theorem extended_blank_eq_none {s : Shape} {c : Char} (hc : isBlank c = true)
    (h : s.extended c = none) : s.extended ' ' = none := by
  by_contra hne
  obtain ⟨s', hs'⟩ := Option.ne_none_iff_exists'.1 hne
  rcases extended_eq_some_of_isBlank (by decide) hs' with rfl | rfl
  · simp [extended, hc] at h
  · simp [extended] at h

/-- A blank begins a token of blanks. -/
theorem begun_of_isBlank {named : Bool} {c : Char} (hc : isBlank c = true) :
    begun named c = .blank := by
  simp [begun, hc]

/-- And nothing else does. -/
theorem isBlank_of_begun {named : Bool} {c : Char} (h : begun named c = .blank) :
    isBlank c = true := by
  rw [begun] at h
  split_ifs at h with hc
  exact hc

/-- Only a run of blanks is extended to one. -/
theorem extended_eq_blank_iff {s : Shape} {c : Char} :
    s.extended c = some .blank ↔ s = .blank ∧ isBlank c = true := by
  constructor
  · intro h
    rcases s with _ | _ | _ | (_ | _) | _ | _ | _ | _ | _ <;> simp [extended] at h
    exact ⟨rfl, h⟩
  · rintro ⟨rfl, hc⟩
    exact if_pos hc

/-- A run of blanks goes on with blanks only. -/
theorem run?_blank {s' : Shape} {t : Text} (h : Shape.blank.run? t = some s') : s' = .blank := by
  induction t with
  | nil => exact (Option.some.inj h).symm
  | cons c t ih =>
    obtain ⟨longer, hc, ht⟩ := run?_cons.1 h
    by_cases hb : isBlank c = true
    · rw [extended, if_pos hb, Option.some.injEq] at hc
      exact ih (hc ▸ ht)
    · simp [extended, hb] at hc

/-- Blanks are all one token. -/
theorem run?_blank_of_isBlank {t : Text} (ht : ∀ c ∈ t, isBlank c = true) :
    Shape.blank.run? t = some .blank := by
  induction t with
  | nil => rfl
  | cons c t ih =>
    exact run?_cons.2 ⟨.blank, if_pos (ht c List.mem_cons_self),
      ih fun d hd ↦ ht d (List.mem_cons_of_mem c hd)⟩

theorem afterText_of_isBlank {s : Shape} {t : Text} (hs : s.Stops t) (hne : t ≠ [])
    (ht : ∀ c ∈ t, isBlank c = true) : s.afterText t = .blank := by
  obtain ⟨c, u, rfl⟩ := List.exists_cons_of_ne_nil hne
  rw [afterText_cons, after_of_stops (stops_cons.1 hs), begun_of_isBlank (ht c List.mem_cons_self)]
  exact afterText_of_run? (run?_blank_of_isBlank fun d hd ↦ ht d (List.mem_cons_of_mem c hd))

/-- A command name stays one. -/
theorem run?_name {s' : Shape} {t : Text} (h : Shape.name.run? t = some s') : s' = .name := by
  induction t with
  | nil => exact (Option.some.inj h).symm
  | cons c t ih =>
    obtain ⟨longer, hc, ht⟩ := run?_cons.1 h
    rw [extended] at hc
    split_ifs at hc
    obtain rfl := Option.some.inj hc
    exact ih ht

/-- A lexeme that begins with something else than a blank does not turn into a run of blanks. -/
theorem run?_ne_blank {s s' : Shape} {t : Text} (hs : s ≠ .blank) (h : s.run? t = some s') :
    s' ≠ .blank := by
  induction t generalizing s with
  | nil =>
    rw [run?, Option.some.injEq] at h
    exact h ▸ hs
  | cons c t ih =>
    obtain ⟨longer, hc, ht⟩ := run?_cons.1 h
    refine ih ?_ ht
    rintro rfl
    rcases s with _ | _ | _ | closed | _ | _ | _ | _ | _ <;> try cases closed
    all_goals simp [extended] at hc hs

end Shape

namespace Lexeme

open Shape

/-! ### Lexing after the command name -/

/-- The lexemes after the current one, whose shape so far is `s`. -/
def following (s : Shape) (t : Text) : List Lexeme :=
  (continued true s t).2

/-- A token goes on with a character that makes it longer. -/
theorem continued_cons_of_extended {named : Bool} {s s' : Shape} {c : Char} (t : Text)
    (h : s.extended c = some s') :
    continued named s (c :: t) =
      ((continued named s' t).1.push c, (continued named s' t).2) := by
  rw [continued, h]

/-- **And it ends where the next one cannot make it longer.** -/
theorem continued_cons_of_stops {s : Shape} {c : Char} (t : Text) (h : s.extended c = none) :
    continued true s (c :: t) =
      (⟨s, []⟩, (continued true (.begun true c) t).1.push c ::
        (continued true (.begun true c) t).2) := by
  rw [continued, h]
  rfl

/-- The current lexeme is extended by what belongs to it. -/
theorem run?_continued (named : Bool) (s : Shape) (t : Text) :
    s.run? (continued named s t).1.source = some (continued named s t).1.shape := by
  induction t generalizing named s with
  | nil => rfl
  | cons c t ih =>
    rcases h : s.extended c with _ | s'
    · simp [continued, h, run?]
    · rw [continued_cons_of_extended t h]
      exact run?_cons.2 ⟨s', h, ih named s'⟩

/-- Characters that extend the current lexeme become part of it. -/
theorem continued_append {s s' : Shape} {t : Text} (h : s.run? t = some s') (u : Text) :
    continued true s (t ++ u) =
      (⟨(continued true s' u).1.shape, t ++ (continued true s' u).1.source⟩, following s' u) := by
  induction t generalizing s with
  | nil =>
    rw [run?, Option.some.injEq] at h
    rw [h]
    rfl
  | cons c t ih =>
    obtain ⟨longer, hc, ht⟩ := run?_cons.1 h
    rw [List.cons_append, continued_cons_of_extended _ hc, ih ht]
    rfl

theorem continued_of_stops {s : Shape} {t : Text} (h : s.Stops t) :
    continued true s t = (⟨s, []⟩, following s t) := by
  cases t with
  | nil => rfl
  | cons c t => rw [following, continued_cons_of_stops t (stops_cons.1 h)]

/-- A lexeme is read to its end, and then the ones behind it. -/
theorem following_cons_append {s s' : Shape} {c : Char} {t u : Text} (hs : s.extended c = none)
    (ht : (Shape.begun true c).run? t = some s') (hu : s'.Stops u) :
    following s (c :: (t ++ u)) = ⟨s', c :: t⟩ :: following s' u := by
  rw [following, continued_cons_of_stops _ hs, continued_append ht, continued_of_stops hu]
  simp [push]

/-- **Lexing distributes over concatenation** where a lexeme ends. -/
theorem continued_append_of_stops {s : Shape} {t u : Text} (h : (s.afterText t).Stops u) :
    continued true s (t ++ u) =
      ((continued true s t).1, following s t ++ following (s.afterText t) u) := by
  induction t generalizing s with
  | nil => exact continued_of_stops h
  | cons c t ih =>
    rw [afterText_cons] at h
    rcases hc : s.extended c with _ | s'
    · rw [after_of_stops hc] at h
      rw [List.cons_append, continued_cons_of_stops _ hc, ih h, afterText_cons, after_of_stops hc,
        show following s (c :: t) = _ from congrArg (·.2) (continued_cons_of_stops t hc),
        continued_cons_of_stops t hc]
      rfl
    · rw [after_of_extended hc] at h
      rw [List.cons_append, continued_cons_of_extended _ hc, ih h, afterText_cons,
        after_of_extended hc,
        show following s (c :: t) = _ from congrArg (·.2) (continued_cons_of_extended t hc),
        continued_cons_of_extended t hc]
      rfl

/-- After something else than blanks the command name is known to be read. -/
theorem continued_false {s : Shape} (hs : s ≠ .blank) (t : Text) :
    continued false s t = continued true s t := by
  induction t generalizing s with
  | nil => rfl
  | cons c t ih =>
    rcases h : s.extended c with _ | s'
    · rw [continued, continued, h]
      simp [hs]
    · have hs' : s' ≠ .blank :=
        run?_ne_blank hs (t := [c]) (run?_cons.2 ⟨s', h, rfl⟩)
      rw [continued_cons_of_extended t h, continued_cons_of_extended t h, ih hs']

/-- A run of blanks in front of a text is one lexeme. -/
theorem continued_blank (t : Text) : (continued false .blank t).1.shape = .blank ∧
    (continued false .blank t).2 = ofText (t.dropWhile isBlank) := by
  induction t with
  | nil => exact ⟨rfl, rfl⟩
  | cons c t ih =>
    by_cases hc : isBlank c = true
    · have hext : Shape.blank.extended c = some .blank := if_pos hc
      rw [continued_cons_of_extended t hext, List.dropWhile_cons_of_pos hc]
      exact ih
    · have hext : Shape.blank.extended c = none := if_neg hc
      rw [continued, hext, List.dropWhile_cons_of_neg hc]
      exact ⟨rfl, rfl⟩

/-- The lexer stands at the shape of the last lexeme. -/
theorem exists_shape_eq_afterText (s : Shape) (t : Text) :
    ∃ l ∈ (continued true s t).1 :: following s t, l.shape = s.afterText t := by
  induction t generalizing s with
  | nil => exact ⟨⟨s, []⟩, List.mem_cons_self, rfl⟩
  | cons c t ih =>
    obtain ⟨l, hl, hshape⟩ := ih (s.after c)
    rw [← afterText_cons] at hshape
    rcases h : s.extended c with _ | s'
    · rw [after_of_stops h] at hl
      rw [following, continued_cons_of_stops t h]
      rcases List.mem_cons.1 hl with rfl | hl
      · exact ⟨_, List.mem_cons_of_mem _ List.mem_cons_self, hshape⟩
      · exact ⟨l, List.mem_cons_of_mem _ (List.mem_cons_of_mem _ hl), hshape⟩
    · rw [after_of_extended h] at hl
      rw [following, continued_cons_of_extended t h]
      rcases List.mem_cons.1 hl with rfl | hl
      · exact ⟨_, List.mem_cons_self, hshape⟩
      · exact ⟨l, List.mem_cons_of_mem _ hl, hshape⟩

/-- Only the last lexeme can be a literal that lacks its closing quote. -/
theorem isUnclosed_eq_false {s : Shape} {t : Text} (h : s.afterText t ≠ .literal false) :
    ∀ l ∈ (continued true s t).1 :: following s t, l.isUnclosed = false := by
  induction t generalizing s with
  | nil =>
    refine List.forall_mem_singleton.2 (decide_eq_false ?_)
    exact h
  | cons c t ih =>
    rw [afterText_cons] at h
    rcases hc : s.extended c with _ | s'
    · rw [after_of_stops hc] at h
      rw [following, continued_cons_of_stops t hc]
      refine List.forall_mem_cons.2
        ⟨decide_eq_false ?_, List.forall_mem_cons.2 (List.forall_mem_cons.1 (ih h))⟩
      -- an open literal takes in any character
      rintro (rfl : s = .literal false)
      exact absurd hc nofun
    · rw [after_of_extended hc] at h
      rw [following, continued_cons_of_extended t hc]
      exact List.forall_mem_cons.2 (List.forall_mem_cons.1 (ih h))

/-- The lexemes hold characters of the text only. -/
theorem mem_of_mem_source {s : Shape} {t : Text} {l : Lexeme} {c : Char}
    (hl : l ∈ (continued true s t).1 :: following s t) (hc : c ∈ l.source) : c ∈ t := by
  induction t generalizing s l with
  | nil =>
    obtain rfl := List.mem_singleton.1 hl
    cases hc
  | cons d t ih =>
    -- pushing `d` on the current lexeme is the only way to use it
    have hpush : ∀ {s' : Shape} {l' : Lexeme}, l' ∈ (continued true s' t).1.push d ::
        following s' t → c ∈ l'.source → c ∈ d :: t := by
      intro s' l' hl' hc'
      rcases List.mem_cons.1 hl' with rfl | hl'
      · rcases List.mem_cons.1 hc' with rfl | hc'
        · exact List.mem_cons_self
        · exact List.mem_cons_of_mem _ (ih List.mem_cons_self hc')
      · exact List.mem_cons_of_mem _ (ih (List.mem_cons_of_mem _ hl') hc')
    rcases h : s.extended d with _ | s'
    · rw [following, continued_cons_of_stops t h] at hl
      rcases List.mem_cons.1 hl with rfl | hl
      · cases hc
      · exact hpush hl hc
    · rw [following, continued_cons_of_extended t h] at hl
      exact hpush hl hc

end Lexeme

namespace Token

open Shape

/-! ### Chains of tokens -/

/-- The token without its column. -/
def unplaced (t : Token) : Token :=
  { t with column := 0 }

/-- The text that a list of tokens spells, white space at its ends included. -/
def texts (ts : List Token) : Text :=
  ts.flatMap (·.text)

@[simp]
theorem texts_nil : texts [] = [] :=
  rfl

@[simp]
theorem texts_cons (t : Token) (ts : List Token) : texts (t :: ts) = t.text ++ texts ts :=
  List.flatMap_cons

@[simp]
theorem texts_append (ts us : List Token) : texts (ts ++ us) = texts ts ++ texts us :=
  List.flatMap_append

/-- The columns of tokens are not part of their texts. -/
theorem texts_unplaced (ts : List Token) : texts (ts.map unplaced) = texts ts := by
  rw [texts, List.flatMap_map]
  rfl

/-- The tokens after the current lexeme, without their columns. -/
def following (s : Shape) (t : Text) : List Token :=
  (Lexeme.following s t).map (·.toToken 0)

/-- A character that extends the lexeme in front adds no token. -/
theorem following_cons_of_extended {s s' : Shape} {c : Char} (t : Text)
    (h : s.extended c = some s') : following s (c :: t) = following s' t := by
  rw [following, Lexeme.following, Lexeme.continued_cons_of_extended t h]
  rfl

/-- What follows a token does not depend on its text, only on its shape. -/
theorem following_append_of_run? {s s' : Shape} {t u : Text} (ht : s.run? t = some s')
    (hu : s'.Stops u) : following s (t ++ u) = following s' u := by
  rw [following, Lexeme.following, Lexeme.continued_append ht, Lexeme.continued_of_stops hu]
  rfl

theorem following_cons_append {s s' : Shape} {c : Char} {t u : Text} (hs : s.extended c = none)
    (ht : (begun true c).run? t = some s') (hu : s'.Stops u) :
    following s (c :: (t ++ u)) = (⟨s', c :: t⟩ : Lexeme).toToken 0 :: following s' u := by
  rw [following, Lexeme.following_cons_append hs ht hu, List.map_cons]
  rfl

/-- After a lexeme of shape `s`, the text of a token is read as that token, with shape `s'`. -/
def Follows (s : Shape) (t : Token) (s' : Shape) : Prop :=
  ∃ c u, t.text = c :: u ∧ s.extended c = none ∧ (begun true c).run? u = some s' ∧
    t.kind = s'.kind t.text ∧ (s' = .blank → t.text = [' '])

/-- The shape of a token at its end decides its kind. -/
theorem Follows.kind_eq {s s' : Shape} {t : Token} (h : Follows s t s') :
    t.kind = s'.kind t.text := by
  obtain ⟨-, -, -, -, -, hk, -⟩ := h
  exact hk

/-- Blanks are one blank when read. -/
theorem Follows.text_eq_of_blank {s : Shape} {t : Token} (h : Follows s t .blank) :
    t.text = [' '] := by
  obtain ⟨-, -, -, -, -, -, hblank⟩ := h
  exact hblank rfl

/-- After a lexeme of shape `s`, the joined texts of tokens are read as these tokens, and the last
one has shape `s'`. -/
inductive Chain : Shape → List Token → Shape → Prop where
  | nil (s : Shape) : Chain s [] s
  | cons {s s' s'' : Shape} {t : Token} {ts : List Token} :
      Follows s t s' → Chain s' ts s'' → Chain s (t :: ts) s''

theorem chain_cons {s s'' : Shape} {t : Token} {ts : List Token} :
    Chain s (t :: ts) s'' ↔ ∃ s', Follows s t s' ∧ Chain s' ts s'' := by
  constructor
  · rintro (_ | ⟨hf, hc⟩)
    exact ⟨_, hf, hc⟩
  · rintro ⟨s', hf, hc⟩
    exact Chain.cons hf hc

theorem Chain.append {s s' s'' : Shape} {ts us : List Token} (h : Chain s ts s')
    (h' : Chain s' us s'') : Chain s (ts ++ us) s'' := by
  induction h with
  | nil => exact h'
  | cons hf _ ih => exact Chain.cons hf (ih h')

/-- Chains of tokens are put together at a shape. -/
theorem chain_append {s s'' : Shape} {ts us : List Token} :
    Chain s (ts ++ us) s'' ↔ ∃ s', Chain s ts s' ∧ Chain s' us s'' := by
  constructor
  · intro h
    induction ts generalizing s with
    | nil => exact ⟨s, Chain.nil s, h⟩
    | cons t ts ih =>
      obtain ⟨s₁, hf, hc⟩ := chain_cons.1 h
      obtain ⟨s', hts, hus⟩ := ih hc
      exact ⟨s', Chain.cons hf hts, hus⟩
  · rintro ⟨s', h, h'⟩
    exact h.append h'

/-- The last token of a chain has the shape of the chain. -/
theorem chain_concat {s s'' : Shape} {ts : List Token} {t : Token} :
    Chain s (ts ++ [t]) s'' ↔ ∃ s', Chain s ts s' ∧ Follows s' t s'' := by
  constructor
  · intro h
    obtain ⟨s', hts, hlast⟩ := chain_append.1 h
    obtain ⟨r, hf, hnil⟩ := chain_cons.1 hlast
    cases hnil
    exact ⟨s', hts, hf⟩
  · rintro ⟨s', hts, hf⟩
    exact hts.append (Chain.cons hf (Chain.nil _))

/-- Columns do not matter for a chain. -/
theorem Chain.of_unplaced {s s' : Shape} {ts : List Token}
    (h : Chain s (ts.map unplaced) s') : Chain s ts s' := by
  induction ts generalizing s with
  | nil => exact h
  | cons t ts ih =>
    obtain ⟨s₁, hf, hc⟩ := chain_cons.1 h
    exact Chain.cons hf (ih hc)

theorem Follows.text_ne_nil {s s' : Shape} {t : Token} (h : Follows s t s') : t.text ≠ [] := by
  obtain ⟨c, u, ht, -⟩ := h
  rw [ht]
  exact List.cons_ne_nil c u

theorem Follows.stops {s s' : Shape} {t : Token} (h : Follows s t s') (u : Text) :
    s.Stops (t.text ++ u) := by
  obtain ⟨c, v, ht, hc, -⟩ := h
  rw [ht]
  exact stops_cons.2 hc

/-- The shape after a token is that after its text. -/
theorem Follows.afterText {s s' : Shape} {t : Token} (h : Follows s t s') :
    s.afterText t.text = s' := by
  obtain ⟨c, u, ht, hc, hu, -⟩ := h
  rw [ht, afterText_cons, after_of_stops hc]
  exact afterText_of_run? hu

/-- So it is after several tokens. -/
theorem Chain.afterText {s s' : Shape} {ts : List Token} (h : Chain s ts s') :
    s.afterText (texts ts) = s' := by
  induction h with
  | nil => rfl
  | cons hf _ ih => rw [texts_cons, afterText_append, hf.afterText, ih]

/-- A chain of tokens begins where the token before stops. -/
theorem Chain.stops {s s' : Shape} {ts : List Token} (h : Chain s ts s') (hne : ts ≠ [])
    (u : Text) :
    s.Stops (texts ts ++ u) := by
  cases h with
  | nil => exact absurd rfl hne
  | cons hf _ =>
    rw [texts_cons, List.append_assoc]
    exact hf.stops _

/-- A character behind the first one of a token extends the lexeme that is read there. -/
theorem Follows.exists_run? {s s' : Shape} {t : Token} (h : Follows s t s') {u v : Text} {c : Char}
    (hu : u ≠ []) (ht : t.text = u ++ c :: v) :
    ∃ longer, (s.afterText u).extended c = some longer ∧ longer.run? v = some s' := by
  obtain ⟨d, w, htext, hd, hw, -⟩ := h
  obtain ⟨e, u, rfl⟩ := List.exists_cons_of_ne_nil hu
  obtain ⟨rfl, rfl⟩ := List.cons.inj (htext.symm.trans ht)
  obtain ⟨r, hr, hrest⟩ := run?_append.1 hw
  obtain ⟨longer, hc, hv⟩ := run?_cons.1 hrest
  refine ⟨longer, ?_, hv⟩
  rwa [afterText_cons, after_of_stops hd, afterText_of_run? hr]

/-- **Every character of the text of a chain belongs to one of its tokens.** -/
theorem Chain.exists_token {s s' : Shape} {ts : List Token} (h : Chain s ts s') {x y : Text}
    {c : Char} (hxy : texts ts = x ++ c :: y) :
    ∃ before t rest r r' u v, ts = before ++ t :: rest ∧ Chain s before r ∧ Follows r t r' ∧
      Chain r' rest s' ∧ x = texts before ++ u ∧ t.text = u ++ c :: v ∧ y = v ++ texts rest := by
  induction h generalizing x with
  | nil => simp at hxy
  | @cons s s₁ s' t ts hf hc ih =>
    rw [texts_cons, List.append_eq_append_iff] at hxy
    rcases hxy with ⟨x', rfl, hrest⟩ | ⟨u, htext, hrest⟩
    · obtain ⟨before, t', rest, r, r', u, v, rfl, hb, hf', hrest', rfl, htext, rfl⟩ := ih hrest
      exact ⟨t :: before, t', rest, r, r', u, v, rfl, Chain.cons hf hb, hf', hrest',
        by rw [texts_cons, List.append_assoc], htext, rfl⟩
    · rcases u with _ | ⟨d, v⟩
      · -- the character begins the next token
        rw [List.append_nil] at htext
        rw [List.nil_append] at hrest
        obtain ⟨before, t', rest, r, r', u, v, rfl, hb, hf', hrest', hu, htext', rfl⟩ :=
          ih (x := []) hrest.symm
        exact ⟨t :: before, t', rest, r, r', u, v, rfl, Chain.cons hf hb, hf', hrest',
          by rw [texts_cons, List.append_assoc, ← hu, htext, List.append_nil], htext', rfl⟩
      · obtain ⟨rfl, rfl⟩ := List.cons.inj hrest
        exact ⟨[], t, ts, s, s₁, x, v, rfl, Chain.nil s, hf, hc, rfl, htext, rfl⟩

/-- The tokens of a text are those of its parts, where a lexeme ends between them. -/
theorem following_append {s : Shape} {t u : Text} (h : (s.afterText t).Stops u) :
    following s (t ++ u) = following s t ++ following (s.afterText t) u := by
  rw [following, Lexeme.following, Lexeme.continued_append_of_stops h, List.map_append]
  rfl

/-- A token may follow any lexeme that stops before its text. -/
theorem Follows.congr {s s' r : Shape} {t : Token} (h : Follows s t s') (hr : r.Stops t.text) :
    Follows r t s' := by
  obtain ⟨c, u, ht, -, hu, hk, hb⟩ := h
  rw [ht] at hr
  exact ⟨c, u, ht, stops_cons.1 hr, hu, hk, hb⟩

/-- **The tokens of a chain do not depend on what stood in front**, if that stops in front of them.
-/
theorem Chain.congr {s s' r : Shape} {t : Token} {ts : List Token} (h : Chain s (t :: ts) s')
    (hr : r.Stops t.text) : Chain r (t :: ts) s' := by
  obtain ⟨s₁, hf, hc⟩ := chain_cons.1 h
  exact Chain.cons (hf.congr hr) hc

/-- A finished lexeme is read as its token. -/
theorem follows_toToken {s : Shape} {c : Char} {l : Lexeme} (h : s.extended c = none)
    (hl : (begun true c).run? l.source = some l.shape) :
    Follows s ((l.push c).toToken 0) l.shape := by
  by_cases hb : isBlank c = true
  · rw [begun_of_isBlank hb] at hl
    have hshape : l.shape = .blank := run?_blank hl
    have htext : ((l.push c).toToken 0).text = [' '] := by
      simp [Lexeme.toToken, Lexeme.text, Lexeme.push, hshape]
    refine ⟨' ', [], htext, extended_blank_eq_none hb h, ?_, ?_, fun _ ↦ htext⟩
    · rw [hshape]
      rfl
    · simp [Lexeme.toToken, Lexeme.push, hshape, Shape.kind]
  · have hne : l.shape ≠ .blank := by
      refine run?_ne_blank ?_ hl
      simp only [begun, Bool.not_true, Bool.false_eq_true, if_false]
      split_ifs <;> simp
    have htext : ((l.push c).toToken 0).text = c :: l.source := by
      simp [Lexeme.toToken, Lexeme.text, Lexeme.push, hne]
    refine ⟨c, l.source, htext, h, hl, ?_, fun hb ↦ absurd hb hne⟩
    rw [htext]
    rfl

/-- Tokens hold characters of the text and blanks only. -/
theorem mem_of_mem_texts_following {s : Shape} {t : Text} {c : Char}
    (hc : c ∈ texts (following s t)) : c ∈ t ∨ c = ' ' := by
  obtain ⟨_, htoken, hc⟩ := List.mem_flatMap.1 hc
  obtain ⟨l, hl, rfl⟩ := List.mem_map.1 htoken
  simp only [Lexeme.toToken, Lexeme.text] at hc
  split_ifs at hc
  · exact Or.inr (List.mem_singleton.1 hc)
  · exact Or.inl (Lexeme.mem_of_mem_source (List.mem_cons_of_mem _ hl) hc)

/-- **Lexing a text gives a chain.** -/
theorem chain_following (s : Shape) (t : Text) :
    Chain (Lexeme.continued true s t).1.shape (following s t) (s.afterText t) := by
  induction t generalizing s with
  | nil => exact Chain.nil s
  | cons c t ih =>
    rw [following, Lexeme.following, afterText_cons]
    rcases h : s.extended c with _ | s'
    · rw [Lexeme.continued_cons_of_stops t h, after_of_stops h, List.map_cons]
      exact Chain.cons (follows_toToken h (Lexeme.run?_continued true (begun true c) t))
        (ih (begun true c))
    · rw [Lexeme.continued_cons_of_extended t h, after_of_extended h]
      exact ih s'

/-- The lexer finds a token that follows. -/
theorem following_append_of_follows {s s' : Shape} {t : Token} (h : Follows s t s') {u : Text}
    (hu : s'.Stops u) : following s (t.text ++ u) = t.unplaced :: following s' u := by
  obtain ⟨c, v, ht, hc, hv, hk, hb⟩ := h
  have htoken : (⟨s', c :: v⟩ : Lexeme).toToken 0 = t.unplaced := by
    rw [unplaced, Token.mk.injEq]
    refine ⟨by rw [hk, ht]; rfl, ?_, rfl⟩
    by_cases hs' : s' = .blank
    · simp [Lexeme.toToken, Lexeme.text, hs', hb hs']
    · simp [Lexeme.toToken, Lexeme.text, hs', ht]
  rw [ht, List.cons_append, following_cons_append hc hv hu, htoken]

/-- **A chain is what lexing its text gives**, and lexing goes on behind it. -/
theorem following_chain {s s' : Shape} {ts : List Token} (h : Chain s ts s') {u : Text}
    (hu : s'.Stops u) : following s (texts ts ++ u) = ts.map unplaced ++ following s' u := by
  induction h with
  | nil => rfl
  | @cons s s₁ s' t ts hf hc ih =>
    have hstop : s₁.Stops (texts ts ++ u) := by
      cases ts with
      | nil =>
        cases hc
        exact hu
      | cons t' ts => exact hc.stops (List.cons_ne_nil t' ts) u
    rw [texts_cons, List.append_assoc, following_append_of_follows hf hstop, ih hu,
      List.map_cons, List.cons_append]

end Token

end ControlLanguage
