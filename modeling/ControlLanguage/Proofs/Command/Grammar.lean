import ControlLanguage.Proofs.Command.Capture

/-!
# The grammar that the reader recognises

Any list of tokens with something else than blanks in it is a command name with parameters behind
it: keywords, each with an opening parenthesis, a value and a closing parenthesis, and between them
tokens that are passed over. A `Division` writes a list down in this way, and `Division.Divides`
says when that is right. **Every list has exactly one division, and the reader returns what it
says** (`existsUnique_division`), however malformed the list is.

The division is unique since neither end of a clause can be moved. No keyword that is passed over
stands in front of an opening parenthesis, and a value that ended later would close more parentheses
than it opens.
-/

namespace ControlLanguage

namespace Token

/-! ### Counting parentheses -/

/-- The number of opening parentheses. -/
def openings (ts : List Token) : Nat :=
  ts.countP (·.kind = .opening)

/-- The number of closing parentheses. -/
def closings (ts : List Token) : Nat :=
  ts.countP (·.kind = .closing)

theorem forall_prefix_cons {P : List Token → Prop} {t : Token} {ts : List Token} :
    (∀ us, us <+: t :: ts → P us) ↔ P [] ∧ ∀ us, us <+: ts → P (t :: us) := by
  constructor
  · exact fun h ↦ ⟨h [] List.nil_prefix, fun us hus ↦ h _ ((List.prefix_cons_inj t).2 hus)⟩
  · rintro ⟨hnil, hcons⟩ us hus
    rcases List.prefix_cons_iff.1 hus with rfl | ⟨vs, rfl, hvs⟩
    · exact hnil
    · exact hcons vs hvs

/-- Tokens can be closed at the end if no beginning of them closes more than was opened. -/
theorem isClosable_iff {depth : Nat} {ts : List Token} :
    IsClosable depth ts ↔ ∀ us, us <+: ts → closings us ≤ depth + openings us := by
  induction ts generalizing depth with
  | nil =>
    refine ⟨fun _ us hus ↦ ?_, fun _ ↦ isClosable_nil depth⟩
    rw [List.prefix_nil.1 hus]
    exact Nat.zero_le _
  | cons t ts ih =>
    rw [forall_prefix_cons]
    simp only [openings, closings, List.countP_nil, Nat.zero_le, true_and, List.countP_cons]
    by_cases ho : t.kind = .opening
    · rw [isClosable_cons_opening ho, ih]
      simp [ho, openings, closings, Nat.add_assoc, Nat.add_comm 1]
    by_cases hc : t.kind = .closing
    · cases depth with
      | zero =>
        refine ⟨fun h ↦ absurd h (not_isClosable_zero_cons hc), fun h ↦ ?_⟩
        simpa [hc] using h [] List.nil_prefix
      | succ depth =>
        rw [isClosable_cons_closing hc, ih]
        simp [hc, openings, closings, Nat.add_right_comm depth 1]
    · rw [isClosable_cons_of_ne ho hc, ih]
      simp [ho, hc, openings, closings]

/-- They are balanced if moreover they close what was opened. -/
theorem isBalanced_iff {depth : Nat} {ts : List Token} :
    IsBalanced depth ts ↔ IsClosable depth ts ∧ closings ts = depth + openings ts := by
  induction ts generalizing depth with
  | nil =>
    have hnil : IsBalanced depth [] ↔ depth = 0 := Iff.rfl
    rw [hnil]
    simp [isClosable_nil, openings, closings, eq_comm]
  | cons t ts ih =>
    simp only [openings, closings, List.countP_cons] at ih ⊢
    by_cases ho : t.kind = .opening
    · rw [isBalanced_cons_opening ho, isClosable_cons_opening ho, ih]
      simp [ho, Nat.add_assoc, Nat.add_comm 1]
    by_cases hc : t.kind = .closing
    · cases depth with
      | zero =>
        exact ⟨fun h ↦ absurd h (not_isBalanced_zero_cons hc),
          fun h ↦ absurd h.1 (not_isClosable_zero_cons hc)⟩
      | succ depth =>
        rw [isBalanced_cons_closing hc, isClosable_cons_closing hc, ih]
        simp [hc, Nat.add_right_comm depth 1]
    · rw [isBalanced_cons_of_ne ho hc, isClosable_cons_of_ne ho hc, ih]
      simp [ho, hc]

/-- A value ends at the first closing parenthesis that closes more than was opened, if there is
one. -/
theorem exists_value (depth : Nat) (ts : List Token) :
    (∃ value t rest, ts = value ++ t :: rest ∧ IsBalanced depth value ∧ t.kind = .closing) ∨
      IsClosable depth ts := by
  induction ts generalizing depth with
  | nil => exact Or.inr (isClosable_nil depth)
  | cons u ts ih =>
    by_cases ho : u.kind = .opening
    · refine (ih (depth + 1)).imp ?_ (isClosable_cons_opening ho).2
      rintro ⟨value, t, rest, rfl, hvalue, ht⟩
      exact ⟨u :: value, t, rest, rfl, (isBalanced_cons_opening ho).2 hvalue, ht⟩
    by_cases hc : u.kind = .closing
    · cases depth with
      | zero => exact Or.inl ⟨[], u, ts, rfl, rfl, hc⟩
      | succ depth =>
        refine (ih depth).imp ?_ (isClosable_cons_closing hc).2
        rintro ⟨value, t, rest, rfl, hvalue, ht⟩
        exact ⟨u :: value, t, rest, rfl, (isBalanced_cons_closing hc).2 hvalue, ht⟩
    · refine (ih depth).imp ?_ (isClosable_cons_of_ne ho hc).2
      rintro ⟨value, t, rest, rfl, hvalue, ht⟩
      exact ⟨u :: value, t, rest, rfl, (isBalanced_cons_of_ne ho hc).2 hvalue, ht⟩

/-- A token that names a parameter is no parenthesis. -/
theorem kind_ne_opening {k : Token} (hk : k.namesParameter = true) : k.kind ≠ .opening := by
  intro ho
  simp [namesParameter, ho] at hk

end Token

namespace Command

open Token

/-! ### Divisions -/

/-- A parameter as it stands in a list of tokens, with the tokens behind it that are passed over. -/
structure Clause where
  keyword : Token
  opening : Token
  value : List Token
  /-- The closing parenthesis; it is missing where the value runs to the end of the list. -/
  closing : Option Token
  skipped : List Token

namespace Clause

/-- The tokens of a clause, in order. -/
def tokens (c : Clause) : List Token :=
  c.keyword :: c.opening :: (c.value ++ (c.closing.toList ++ c.skipped))

/-- The tokens in front of those that are passed over are a parameter. No beginning of the value
closes more parentheses than it opens, and a value with a closing parenthesis behind it closes all
of them. -/
structure IsParameter (c : Clause) : Prop where
  namesParameter : c.keyword.namesParameter = true
  kind_opening : c.opening.kind = .opening
  kind_closing : ∀ t ∈ c.closing, t.kind = .closing
  closings_le : ∀ us, us <+: c.value → closings us ≤ openings us
  closings_eq : c.closing ≠ none → closings c.value = openings c.value

/-- What a clause says: one token of the right kind is a scalar, and any other value is an
expression. -/
inductive Yields (c : Clause) : Parameter → Prop where
  | scalar {t : Token} : c.value = [t] → t.kind ∈ [.literal, .value, .symbolic, .variable] →
      Yields c ⟨c.keyword.text, .scalar t.text⟩
  | expression : (∀ t, c.value = [t] → t.kind ∉ [.literal, .value, .symbolic, .variable]) →
      Yields c ⟨c.keyword.text, .expression c.value⟩

/-- A clause as the reader captures it. -/
def toCapture (c : Clause) : Capture :=
  ⟨c.keyword.text, c.value, c.closing.isSome⟩

end Clause

/-- No keyword among the tokens that are passed over has an opening parenthesis directly behind it
in the list. -/
def Skips (skipped rest : List Token) : Prop :=
  ∀ before k o after, skipped ++ rest = before ++ k :: o :: after →
    k.namesParameter = true → o.kind = .opening → skipped.length ≤ before.length

/-- Clauses that may follow each other up to the end of a list. Only the last one may lack its
closing parenthesis, and then nothing stands behind its value. -/
inductive AreClauses : List Clause → Prop where
  | nil : AreClauses []
  | cons {c : Clause} {cs : List Clause} : c.IsParameter →
      Skips c.skipped (cs.flatMap Clause.tokens) →
      (c.closing = none → c.skipped = [] ∧ cs = []) → AreClauses cs → AreClauses (c :: cs)

/-- A list of tokens taken apart. -/
structure Division where
  blanks : List Token
  name : Token
  skipped : List Token
  clauses : List Clause

/-- The division is one of these tokens, and its parts are what they are said to be. -/
structure Division.Divides (d : Division) (ts : List Token) : Prop where
  tokens_eq : d.blanks ++ d.name :: (d.skipped ++ d.clauses.flatMap Clause.tokens) = ts
  kind_blanks : ∀ t ∈ d.blanks, t.kind = .blank
  kind_name : d.name.kind ≠ .blank
  skips : Skips d.skipped (d.clauses.flatMap Clause.tokens)
  areClauses : AreClauses d.clauses

/-! ### What is passed over -/

namespace Skips

variable {t : Token} {skipped rest : List Token}

theorem nil (rest : List Token) : Skips [] rest :=
  fun _ _ _ _ _ _ _ ↦ Nat.zero_le _

theorem cons (h : Skips skipped rest)
    (ht : t.namesParameter = true → ∀ o ∈ (skipped ++ rest).head?, o.kind ≠ .opening) :
    Skips (t :: skipped) rest := by
  rintro (_ | ⟨u, before⟩) k o after heq hk ho
  · obtain ⟨rfl, hrest⟩ := List.cons.inj heq
    exact absurd ho (ht hk o (congrArg List.head? hrest))
  · exact Nat.succ_le_succ (h before k o after (List.cons.inj heq).2 hk ho)

theorem tail (h : Skips (t :: skipped) rest) : Skips skipped rest := by
  intro before k o after heq hk ho
  exact Nat.le_of_succ_le_succ (h (t :: before) k o after (congrArg (t :: ·) heq) hk ho)

/-- A keyword that is passed over has no opening parenthesis behind it. -/
theorem head?_ne (h : Skips (t :: skipped) rest) (ht : t.namesParameter = true) :
    ∀ o ∈ (skipped ++ rest).head?, o.kind ≠ .opening := by
  intro o ho hkind
  obtain ⟨after, hafter⟩ := List.head?_eq_some_iff.1 ho
  exact absurd (h [] t o after (congrArg (t :: ·) hafter) ht hkind) (Nat.not_succ_le_zero _)

end Skips

/-- A list is passed over up to its first parameter. -/
theorem exists_skips (ts : List Token) : Skips ts [] ∨
    ∃ skipped k o rest, ts = skipped ++ k :: o :: rest ∧ k.namesParameter = true ∧
      o.kind = .opening ∧ Skips skipped (k :: o :: rest) := by
  induction ts with
  | nil => exact Or.inl (Skips.nil [])
  | cons t ts ih =>
    by_cases hstart : t.namesParameter = true ∧ ∃ o ∈ ts.head?, o.kind = .opening
    · obtain ⟨ht, o, ho, hkind⟩ := hstart
      obtain ⟨rest, rfl⟩ := List.head?_eq_some_iff.1 ho
      exact Or.inr ⟨[], t, o, rest, rfl, ht, hkind, Skips.nil _⟩
    have hhead : t.namesParameter = true → ∀ o ∈ ts.head?, o.kind ≠ .opening :=
      fun ht o ho hkind ↦ hstart ⟨ht, o, ho, hkind⟩
    rcases ih with h | ⟨skipped, k, o, rest, rfl, hk, ho, h⟩
    · exact Or.inl (h.cons (by rwa [List.append_nil]))
    · exact Or.inr ⟨t :: skipped, k, o, rest, rfl, hk, ho, h.cons hhead⟩

/-- Every list of tokens behind a name consists of clauses. -/
theorem exists_areClauses (ts : List Token) : ∃ skipped cs,
    skipped ++ cs.flatMap Clause.tokens = ts ∧ Skips skipped (cs.flatMap Clause.tokens) ∧
      AreClauses cs := by
  rcases exists_skips ts with h | ⟨skipped, k, o, rest, rfl, hk, ho, hskips⟩
  · exact ⟨ts, [], List.append_nil ts, h, .nil⟩
  rcases exists_value 0 rest with ⟨value, t, behind, rfl, hvalue, ht⟩ | hvalue
  · obtain ⟨skipped', cs, hcs, hskips', hclauses⟩ := exists_areClauses behind
    obtain ⟨hclosable, hclosings⟩ := isBalanced_iff.1 hvalue
    have hparameter : Clause.IsParameter ⟨k, o, value, some t, skipped'⟩ :=
      ⟨hk, ho, fun u hu ↦ Option.some.inj hu ▸ ht,
        fun us hus ↦ by simpa using isClosable_iff.1 hclosable us hus,
        fun _ ↦ by simpa using hclosings⟩
    refine ⟨skipped, ⟨k, o, value, some t, skipped'⟩ :: cs, ?_, ?_,
      .cons hparameter hskips' nofun hclauses⟩
    · simp [Clause.tokens, ← hcs]
    · simpa [Clause.tokens, ← hcs] using hskips
  · have hparameter : Clause.IsParameter ⟨k, o, rest, none, []⟩ :=
      ⟨hk, ho, nofun, fun us hus ↦ by simpa using isClosable_iff.1 hvalue us hus,
        fun hne ↦ absurd rfl hne⟩
    refine ⟨skipped, [⟨k, o, rest, none, []⟩], ?_, ?_,
      .cons hparameter (Skips.nil _) (fun _ ↦ ⟨rfl, rfl⟩) .nil⟩
    · simp [Clause.tokens]
    · simpa [Clause.tokens] using hskips
termination_by ts.length
decreasing_by
  subst_vars
  simp only [List.length_append, List.length_cons]
  omega

/-! ### There is one division only -/

/-- A value that closes what it opens does not go on with another closing parenthesis. -/
theorem not_prefix_of_closings_le {value value' : List Token} {t : Token} (ht : t.kind = .closing)
    (hvalue : closings value = openings value)
    (hvalue' : ∀ us, us <+: value' → closings us ≤ openings us) : ¬ value ++ [t] <+: value' := by
  intro hprefix
  have hle := hvalue' _ hprefix
  simp only [closings, openings, List.countP_append, List.countP_singleton, ht] at hle hvalue
  simp at hle
  omega

/-- Two values with what stands behind them. The first one is closed, and so it ends where the
second one does. -/
theorem Clause.IsParameter.value_prefix {c c' : Clause} (h : c.IsParameter) (h' : c'.IsParameter)
    {t : Token} (ht : c.closing = some t) {rest rest' : List Token}
    (heq : c.value ++ t :: rest = c'.value ++ rest') : c'.value <+: c.value := by
  rcases List.append_eq_append_iff.1 heq with ⟨us, hvalue, hus⟩ | ⟨us, hvalue, -⟩
  · rcases us with _ | ⟨u, us⟩
    · rw [hvalue, List.append_nil]
    · obtain ⟨rfl, -⟩ := List.cons.inj hus
      refine absurd ?_ (not_prefix_of_closings_le (h.kind_closing t ht)
        (h.closings_eq (by simp [ht])) h'.closings_le)
      exact ⟨us, by rw [hvalue, List.append_assoc]; rfl⟩
  · exact ⟨us, hvalue.symm⟩

/-- The value and its end are determined by the tokens. -/
theorem Clause.IsParameter.value_unique {c c' : Clause} (h : c.IsParameter) (h' : c'.IsParameter)
    {rest rest' : List Token} (hrest : c.closing = none → rest = [])
    (hrest' : c'.closing = none → rest' = [])
    (heq : c.value ++ (c.closing.toList ++ rest) = c'.value ++ (c'.closing.toList ++ rest')) :
    c.value = c'.value ∧ c.closing = c'.closing ∧ rest = rest' := by
  have hopen : ∀ {a b : Clause} {t : Token} {us : List Token}, a.IsParameter → b.IsParameter →
      a.closing = some t → a.value ++ t :: us ≠ b.value := by
    intro a b t us ha hb ht hvalue
    have hprefix : b.value <+: a.value :=
      ha.value_prefix hb ht (hvalue.trans (List.append_nil _).symm)
    have hlength := hprefix.length_le
    rw [← hvalue, List.length_append, List.length_cons] at hlength
    omega
  rcases ht : c.closing with _ | t <;> rcases ht' : c'.closing with _ | t'
  · rw [ht, ht', hrest ht, hrest' ht'] at heq
    exact ⟨by simpa using heq, rfl, (hrest ht).trans (hrest' ht').symm⟩
  · rw [ht, ht', hrest ht] at heq
    exact absurd (by simpa using heq.symm) (hopen h' h ht')
  · rw [ht, ht', hrest' ht'] at heq
    exact absurd (by simpa using heq) (hopen h h' ht)
  · rw [ht, ht'] at heq
    have hvalue : c.value = c'.value :=
      (h'.value_prefix h ht' heq.symm).eq_of_length_le (h.value_prefix h' ht heq).length_le
    rw [hvalue, List.append_cancel_left_eq] at heq
    obtain ⟨rfl, hbehind⟩ := List.cons.inj heq
    exact ⟨hvalue, rfl, hbehind⟩

/-- A parameter of one division of the tokens is not passed over in another one. -/
theorem Skips.length_le {skipped skipped' : List Token} {cs cs' : List Clause} {c : Clause}
    (hskips : Skips skipped (cs.flatMap Clause.tokens)) (hc : c.IsParameter)
    (heq : skipped ++ cs.flatMap Clause.tokens = skipped' ++ (c :: cs').flatMap Clause.tokens) :
    skipped.length ≤ skipped'.length := by
  rw [List.flatMap_cons, Clause.tokens, List.cons_append, List.cons_append] at heq
  exact hskips skipped' c.keyword c.opening _ heq hc.namesParameter hc.kind_opening

/-- Nothing is behind a clause that is not closed. -/
theorem Clause.skipped_append_eq_nil {c : Clause} {cs : List Clause}
    (h : c.closing = none → c.skipped = [] ∧ cs = []) (hnone : c.closing = none) :
    c.skipped ++ cs.flatMap Clause.tokens = [] := by
  obtain ⟨hskipped, rfl⟩ := h hnone
  rw [hskipped]
  rfl

/-- **The clauses are determined by the tokens**, and so is what is passed over in front of them. -/
theorem AreClauses.unique {skipped skipped' : List Token} {cs cs' : List Clause}
    (hcs : AreClauses cs) (hcs' : AreClauses cs')
    (hskips : Skips skipped (cs.flatMap Clause.tokens))
    (hskips' : Skips skipped' (cs'.flatMap Clause.tokens))
    (heq : skipped ++ cs.flatMap Clause.tokens = skipped' ++ cs'.flatMap Clause.tokens) :
    skipped = skipped' ∧ cs = cs' := by
  induction hcs generalizing skipped skipped' cs' with
  | nil =>
    cases hcs' with
    | nil => exact ⟨by simpa using heq, rfl⟩
    | @cons c' cs' hc' =>
      have hlength := congrArg List.length heq
      have hless := hskips.length_le hc' heq
      simp [Clause.tokens] at hlength
      omega
  | @cons c cs hc hbehind hlast hcs ih =>
    cases hcs' with
    | nil =>
      have hlength := congrArg List.length heq
      have hless := hskips'.length_le hc heq.symm
      simp [Clause.tokens] at hlength
      omega
    | @cons c' cs' hc' hbehind' hlast' hcs' =>
      have hskipped : skipped.length = skipped'.length :=
        Nat.le_antisymm (hskips.length_le hc' heq) (hskips'.length_le hc heq.symm)
      obtain ⟨rfl, htokens⟩ := List.append_inj heq hskipped
      simp only [List.flatMap_cons, Clause.tokens, List.cons_append, List.append_assoc,
        List.cons.injEq] at htokens
      obtain ⟨hkeyword, hopening, hvalues⟩ := htokens
      obtain ⟨hvalue, hclosing, hrest⟩ := hc.value_unique hc' (Clause.skipped_append_eq_nil hlast)
        (Clause.skipped_append_eq_nil hlast') hvalues
      obtain ⟨hjunk, rfl⟩ := ih hcs' hbehind hbehind' hrest
      refine ⟨rfl, ?_⟩
      obtain ⟨keyword, opening, value, closing, skipped⟩ := c
      simp_all

/-! ### What the reader makes of a division -/

/-- The reader passes over what a division says. -/
theorem exists_candidate {skipped rest : List Token} (h : Skips skipped rest)
    {candidate : Option Text}
    (hcandidate : candidate = none ∨ ∀ o ∈ (skipped ++ rest).head?, o.kind ≠ .opening) :
    ∃ candidate', capturesFrom (.between candidate) (skipped ++ rest) =
      capturesFrom (.between candidate') rest := by
  induction skipped generalizing candidate with
  | nil => exact ⟨candidate, rfl⟩
  | cons t skipped ih =>
    rw [List.cons_append, capturesFrom_between _ (hcandidate.imp_right fun ht ↦ ht t rfl)]
    refine ih h.tail ?_
    by_cases ht : t.namesParameter = true
    · exact Or.inr (h.head?_ne ht)
    · exact Or.inl (if_neg ht)

/-- **The captures are the clauses.** -/
theorem AreClauses.capturesFrom_eq {skipped : List Token} {cs : List Clause} (hcs : AreClauses cs)
    (hskips : Skips skipped (cs.flatMap Clause.tokens)) :
    capturesFrom (.between none) (skipped ++ cs.flatMap Clause.tokens) =
      cs.map Clause.toCapture := by
  induction hcs generalizing skipped with
  | nil =>
    obtain ⟨candidate, hcandidate⟩ := exists_candidate hskips (.inl rfl)
    rw [hcandidate]
    rfl
  | @cons c cs hc hbehind hlast hcs ih =>
    obtain ⟨candidate, hcandidate⟩ := exists_candidate hskips (.inl rfl)
    -- the keyword is no parenthesis, so what was read before it does not matter
    rw [hcandidate, List.flatMap_cons, Clause.tokens, List.cons_append, List.cons_append,
      capturesFrom_between _ (.inr (kind_ne_opening hc.namesParameter)),
      if_pos hc.namesParameter, capturesFrom_between_opening _ hc.kind_opening, List.map_cons]
    have hclosable : IsClosable 0 c.value :=
      isClosable_iff.2 fun us hus ↦ by simpa using hc.closings_le us hus
    rcases ht : c.closing with _ | t
    · obtain ⟨hskipped, rfl⟩ := hlast ht
      rw [hskipped]
      simp [capturesFrom_inside_of_isClosable hclosable, Clause.toCapture, ht]
    · have hbalanced : IsBalanced 0 c.value :=
        isBalanced_iff.2 ⟨hclosable, by simpa using hc.closings_eq (by simp [ht])⟩
      rw [Option.toList_some, List.append_assoc, List.append_assoc, List.singleton_append,
        capturesFrom_inside hbalanced (hc.kind_closing t ht), ih hbehind]
      simp [Clause.toCapture, ht]

theorem Clause.yields_toParameter (c : Clause) : c.Yields c.toCapture.toParameter := by
  have hscalar : ∀ t : Token,
      t.isScalar = true ↔ t.kind ∈ [.literal, .value, .symbolic, .variable] := by
    intro t
    simp [isScalar, or_assoc]
  rcases hvalue : c.value with _ | ⟨t, _ | ⟨u, us⟩⟩
  · rw [Capture.toParameter, toCapture, hvalue, Value.ofTokens, ← hvalue]
    · exact .expression fun t ht ↦ nomatch hvalue.symm.trans ht
    · exact fun t ht ↦ nomatch ht
  · by_cases ht : t.isScalar = true
    · rw [Capture.toParameter, toCapture, hvalue, Value.ofTokens, if_pos ht]
      exact .scalar hvalue ((hscalar t).1 ht)
    · rw [Capture.toParameter, toCapture, hvalue, Value.ofTokens, if_neg ht, ← hvalue]
      refine .expression fun u hu ↦ ?_
      obtain rfl : t = u := by simpa [hvalue] using hu
      exact mt (hscalar t).2 ht
  · rw [Capture.toParameter, toCapture, hvalue, Value.ofTokens, ← hvalue]
    · exact .expression fun t ht ↦ nomatch hvalue.symm.trans ht
    · exact fun t ht ↦ nomatch ht

namespace Division

variable {d d' : Division} {ts : List Token}

theorem Divides.nameAndRest?_eq (h : d.Divides ts) :
    nameAndRest? ts = some (d.name, d.skipped ++ d.clauses.flatMap Clause.tokens) := by
  have hdrop : ts.dropWhile (·.kind = .blank) =
      d.name :: (d.skipped ++ d.clauses.flatMap Clause.tokens) := by
    rw [← h.tokens_eq, List.dropWhile_append_of_pos fun t ht ↦ by simp [h.kind_blanks t ht],
      List.dropWhile_cons_of_neg (by simp [h.kind_name])]
  rw [nameAndRest?, hdrop]

/-- The blanks in front and the name are determined by the tokens. -/
theorem Divides.unique (h : d.Divides ts) (h' : d'.Divides ts) : d = d' := by
  have hname := h.nameAndRest?_eq.symm.trans h'.nameAndRest?_eq
  obtain ⟨hname, hrest⟩ := Prod.mk.inj (Option.some.inj hname)
  obtain ⟨hskipped, hclauses⟩ := h.areClauses.unique h'.areClauses h.skips h'.skips hrest
  have hblanks : d.blanks = d'.blanks := by
    have heq := h.tokens_eq.trans h'.tokens_eq.symm
    rwa [hname, hskipped, hclauses, List.append_cancel_right_eq] at heq
  cases d
  cases d'
  simp_all

theorem exists_divides (h : ∃ t ∈ ts, t.kind ≠ .blank) : ∃ d : Division, d.Divides ts := by
  have hsplit := List.takeWhile_append_dropWhile (p := fun t : Token ↦ t.kind = .blank) (l := ts)
  rcases hdrop : ts.dropWhile (·.kind = .blank) with _ | ⟨name, rest⟩
  · obtain ⟨t, ht, hkind⟩ := h
    exact absurd (by simpa using List.dropWhile_eq_nil_iff.1 hdrop t ht) hkind
  obtain ⟨skipped, cs, rfl, hskips, hclauses⟩ := exists_areClauses rest
  refine ⟨⟨ts.takeWhile (·.kind = .blank), name, skipped, cs⟩, ?_, fun t ht ↦ ?_, ?_, hskips,
    hclauses⟩
  · rw [← hdrop]
    exact hsplit
  · simpa using List.mem_takeWhile_imp ht
  · have hhead := List.head?_dropWhile_not (fun t : Token ↦ decide (t.kind = .blank)) ts
    rw [hdrop] at hhead
    simpa using hhead

end Division

/-- **The reader recognises exactly its grammar.** Tokens that are not all blanks have one division,
and the command that they are read as has its name and, in order, the parameters of its clauses. -/
theorem existsUnique_division {ts : List Token} (h : ∃ t ∈ ts, t.kind ≠ .blank) :
    (∃! d : Division, d.Divides ts) ∧ ∀ d : Division, d.Divides ts →
      (ofTokens ts).name = d.name.text ∧
        List.Forall₂ Clause.Yields d.clauses (ofTokens ts).parameters := by
  obtain ⟨d, hd⟩ := Division.exists_divides h
  refine ⟨⟨d, hd, fun d' hd' ↦ hd'.unique hd⟩, fun d hd ↦ ?_⟩
  have hcaptures : captures ts = d.clauses.map Clause.toCapture := by
    rw [captures, hd.nameAndRest?_eq]
    exact hd.areClauses.capturesFrom_eq hd.skips
  rw [ofTokens, hd.nameAndRest?_eq, hcaptures, List.map_map]
  refine ⟨rfl, List.forall₂_map_right_iff.2 (List.forall₂_same.2 fun c _ ↦ ?_)⟩
  exact c.yields_toParameter

/-- Stray parentheses, a keyword with a blank behind it and a nested group are read, and the last
value is not closed: ` PGM)A (C(D(E)F)G(H`, with `G` and `H` classified loosely. -/
theorem existsUnique_division_stray :
    let word (kind : TokenKind) (c : Char) : Token := ⟨kind, [c], 0⟩
    let value := [word .keyword 'D', .opening, word .keyword 'E', .closing, word .value 'F']
    let ts := [.blank, ⟨.command, "PGM".toList, 0⟩, .closing, word .keyword 'A', .blank, .opening,
      word .keyword 'C', .opening] ++ value ++
        [.closing, word .value 'G', .opening, word .value 'H']
    (∃ t ∈ ts, t.kind ≠ .blank) ∧ ∃! d : Division, d.Divides ts ∧ d.name.text = "PGM".toList ∧
      List.Forall₂ Clause.Yields d.clauses
        [⟨['C'], .expression value⟩, ⟨['G'], .scalar ['H']⟩] := by
  intro word value ts
  have h : ∃ t ∈ ts, t.kind ≠ .blank := ⟨word .keyword 'A', by decide, by decide⟩
  obtain ⟨⟨d, hd, hunique⟩, hreads⟩ := existsUnique_division h
  obtain ⟨hname, hparameters⟩ := hreads d hd
  exact ⟨h, d, ⟨hd, hname.symm, hparameters⟩, fun d' hd' ↦ hunique d' hd'.1⟩

end Command

end ControlLanguage
