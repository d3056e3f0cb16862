import ControlLanguage.Command.Parser
import ControlLanguage.Format.Atom
import ControlLanguage.Proofs.Format.Break
import ControlLanguage.Proofs.Token.Thinning

/-!
# The atoms of a value that was read

Formatting relies on two facts about the atoms of a value read from source: **every literal of the
value is one of them**, and no atom has a blank at either end. A scalar is searched for literals
again, from its text; for a scalar that is itself a literal the search finds all of it, because it
reads quotes as the lexer does (`literalLength_of_run?`).
-/

namespace ControlLanguage

open Shape

namespace Text

/-! ### Literals found in a text -/

/-- The search reads up to the closing quote. -/
theorem literalLength_of_run? {t : Text} (h : (literal false).run? t = some (.literal true)) :
    literalLength t = some t.length := by
  induction t using List.twoStepInduction with
  | nil => simp [run?] at h
  | singleton c =>
    obtain ⟨longer, hc, hlast⟩ := run?_cons.1 h
    simp only [extended, Option.some.injEq] at hc
    simp only [run?, Option.some.injEq] at hlast
    subst hc
    have hq : c = quote := by simpa using hlast
    simp [literalLength, hq]
  | cons_cons c d t ih ih' =>
    obtain ⟨longer, hc, hrest⟩ := run?_cons.1 h
    simp only [extended, Option.some.injEq] at hc
    subst hc
    by_cases hq : c = quote
    · -- the next character must be a quote too, and the literal goes on behind it
      simp only [hq, decide_true] at hrest
      obtain ⟨longer, hd, ht⟩ := run?_cons.1 hrest
      rw [extended] at hd
      split_ifs at hd with hdq
      obtain rfl := Option.some.inj hd
      simp [literalLength, hq, hdq, ih ht]
    · simp only [hq, decide_false] at hrest
      rw [literalLength, if_neg hq, ih' d hrest]
      rfl

/-- What is found ends in a quote. -/
theorem exists_of_literalLength {t : Text} {n : Nat} (h : literalLength t = some n) :
    ∃ u rest, t = u ++ quote :: rest ∧ n = u.length + 1 := by
  induction t using List.twoStepInduction generalizing n with
  | nil => simp [literalLength] at h
  | singleton c =>
    by_cases hq : c = quote
    · subst hq
      exact ⟨[], [], rfl, by simpa [literalLength] using h.symm⟩
    · simp [literalLength, hq] at h
  | cons_cons c d t ih ih' =>
    by_cases hq : c = quote
    · subst hq
      have hfirst : n = 1 → ∃ u rest, quote :: d :: t = u ++ quote :: rest ∧ n = u.length + 1 :=
        fun hn ↦ ⟨[], d :: t, rfl, hn⟩
      by_cases hd : d = quote
      · subst hd
        rcases hrest : literalLength t with _ | m
        · exact hfirst (by simpa [literalLength, hrest] using h.symm)
        · obtain ⟨u, rest, rfl, rfl⟩ := ih hrest
          refine ⟨quote :: quote :: u, rest, rfl, ?_⟩
          simpa [literalLength, hrest] using h.symm
      · exact hfirst (by simpa [literalLength, hd] using h.symm)
    · rw [literalLength, if_neg hq, Option.map_eq_some_iff] at h
      obtain ⟨m, hm, rfl⟩ := h
      obtain ⟨u, rest, hrest, rfl⟩ := ih' d hm
      exact ⟨c :: u, rest, by rw [hrest]; rfl, rfl⟩

/-- What is found stands between quotes. -/
theorem exists_of_mem_literalsAfter {skip : Nat} {t a : Text} (h : a ∈ literalsAfter skip t) :
    ∃ u, a = quote :: (u ++ [quote]) := by
  induction t generalizing skip with
  | nil => simp [literalsAfter] at h
  | cons c t ih =>
    cases skip with
    | succ skip => exact ih h
    | zero =>
      rw [literalsAfter] at h
      split_ifs at h with hq
      · rcases hlen : literalLength t with _ | n
        · rw [hlen] at h
          exact ih h
        · rw [hlen] at h
          rcases List.mem_cons.1 h with rfl | h
          · obtain ⟨u, rest, rfl, rfl⟩ := exists_of_literalLength hlen
            have htake : (u ++ quote :: rest).take (u.length + 1) = u ++ [quote] := by
              rw [List.take_length_add_append]
              rfl
            exact ⟨u, by rw [htake, hq]⟩
          · exact ih h
      · exact ih h

theorem isUnpadded_of_mem_literalsAfter {skip : Nat} {t a : Text} (h : a ∈ literalsAfter skip t) :
    a.IsUnpadded := by
  obtain ⟨u, rfl⟩ := exists_of_mem_literalsAfter h
  rw [IsUnpadded, ← List.cons_append, List.getLast?_concat]
  exact ⟨by simp [quote], by decide⟩

theorem literalsAfter_of_length_le {skip : Nat} {t : Text} (h : t.length ≤ skip) :
    literalsAfter skip t = [] := by
  induction t generalizing skip with
  | nil => rfl
  | cons c t ih =>
    cases skip with
    | zero => exact absurd h (Nat.not_succ_le_zero _)
    | succ skip => exact ih (Nat.le_of_succ_le_succ h)

/-- A closed literal is found as a whole. -/
theorem literals_of_run? {t : Text} (h : (literal false).run? t = some (.literal true)) :
    literals (quote :: t) = [quote :: t] := by
  rw [literals, literalsAfter, if_pos rfl, literalLength_of_run? h]
  dsimp only
  rw [List.take_length, literalsAfter_of_length_le (Nat.le_refl _)]

end Text

namespace Token

/-- The token is one complete lexeme of some text. -/
def IsComplete (t : Token) : Prop :=
  ∃ s s', Follows s t s' ∧ s' ≠ .literal false

theorem Chain.exists_follows {s s' : Shape} {ts : List Token} (h : Chain s ts s') :
    ∀ t ∈ ts, ∃ r r', Follows r t r' := by
  induction h with
  | nil => simp
  | cons hf _ ih =>
    intro u hu
    rcases List.mem_cons.1 hu with rfl | hu
    · exact ⟨_, _, hf⟩
    · exact ih u hu

/-- No token follows an unclosed literal. -/
theorem Chain.ne_literal_of_ne_nil {s s' : Shape} {ts : List Token} (h : Chain s ts s')
    (hne : ts ≠ []) : s ≠ .literal false := by
  cases h with
  | nil => exact absurd rfl hne
  | cons hf =>
    obtain ⟨c, u, -, hstop, -⟩ := hf
    rintro rfl
    simp [extended] at hstop

theorem Chain.shape_ne_literal {s s' : Shape} {ts : List Token} (h : Chain s ts s')
    (hs' : s' ≠ .literal false) : s ≠ .literal false := by
  by_cases hts : ts = []
  · subst hts
    cases h
    exact hs'
  · exact h.ne_literal_of_ne_nil hts

/-- Only the last token of a chain can be an unclosed literal. -/
theorem Chain.isComplete {s s' : Shape} {ts : List Token} (h : Chain s ts s')
    (hs' : s' ≠ .literal false) : ∀ t ∈ ts, t.IsComplete := by
  induction h with
  | nil => simp
  | @cons s s₁ s' t ts hf hc ih =>
    have hs₁ : s₁ ≠ .literal false := hc.shape_ne_literal hs'
    intro u hu
    rcases List.mem_cons.1 hu with rfl | hu
    · exact ⟨s, s₁, hf, hs₁⟩
    · exact ih hs' u hu

/-- A lexeme is a literal from its first character on. -/
theorem exists_literal_of_run? {s : Shape} {u : Text} {closed : Bool}
    (h : s.run? u = some (.literal closed)) : ∃ closed, s = .literal closed := by
  induction u generalizing s with
  | nil => exact ⟨closed, Option.some.inj h⟩
  | cons c u ih =>
    obtain ⟨longer, hc, hu⟩ := run?_cons.1 h
    obtain ⟨closed', rfl⟩ := ih hu
    rcases s with _ | _ | _ | closed'' | _ | _ | _ | _ | _
    case literal => exact ⟨closed'', rfl⟩
    all_goals simp [extended] at hc

theorem kind_eq_literal_iff {s : Shape} {t : Text} :
    s.kind t = .literal ↔ ∃ closed, s = .literal closed := by
  rcases s with _ | _ | _ | closed | _ | _ | _ | _ | _ <;> simp only [Shape.kind] <;>
    try split_ifs
  all_goals simp

/-- A literal is a quote and the rest of the literal, closed or not. -/
theorem Follows.exists_quote {s s' : Shape} {t : Token} (h : Follows s t s')
    (ht : t.kind = .literal) : ∃ u closed, t.text = quote :: u ∧ s' = .literal closed ∧
      (literal false).run? u = some (.literal closed) := by
  obtain ⟨c, u, htext, -, hu, hk, -⟩ := h
  obtain ⟨closed, rfl⟩ := kind_eq_literal_iff.1 (hk.symm.trans ht)
  obtain ⟨closed', hbegun⟩ := exists_literal_of_run? hu
  have hc : c = quote ∧ closed' = false := by
    simp only [begun, Bool.not_true, Bool.false_eq_true, if_false] at hbegun
    split_ifs at hbegun with _ _ _ hq
    exact ⟨hq, (Shape.literal.inj hbegun).symm⟩
  rw [hbegun, hc.2] at hu
  exact ⟨u, closed, hc.1 ▸ htext, rfl, hu⟩

/-- A complete literal. -/
theorem Follows.exists_literal {s s' : Shape} {t : Token} (h : Follows s t s')
    (hs' : s' ≠ .literal false) (ht : t.kind = .literal) :
    ∃ u, t.text = quote :: u ∧ (literal false).run? u = some (.literal true) := by
  obtain ⟨u, closed, htext, rfl, hu⟩ := h.exists_quote ht
  cases closed with
  | false => exact absurd rfl hs'
  | true => exact ⟨u, htext, hu⟩

theorem Follows.head?_ne {s s' : Shape} {t : Token} (h : Follows s t s') (ht : t.kind ≠ .blank) :
    t.text.head? ≠ some ' ' := by
  obtain ⟨c, u, htext, -⟩ := id h
  rw [htext]
  rintro hc
  obtain rfl := Option.some.inj hc
  exact ht (h.kind_eq_blank_iff.2 ((h.isBlank_iff htext).1 (by decide)))

theorem IsComplete.isUnpadded {t : Token} (h : t.IsComplete) (ht : t.kind ≠ .blank) :
    t.text.IsUnpadded := by
  obtain ⟨s, s', hf, hs'⟩ := h
  obtain ⟨v, d, hlast, hd⟩ := hf.exists_concat hs' (mt hf.kind_eq_blank_iff.2 ht)
  refine ⟨hf.head?_ne ht, ?_⟩
  rw [hlast, List.getLast?_concat]
  rintro hc
  obtain rfl := Option.some.inj hc
  exact absurd hd (by decide)

end Token

namespace Atom

open Token

theorem isUnpadded_opened {keyword : Text} (h : keyword.head? ≠ some ' ') :
    (opened keyword).IsUnpadded := by
  rw [opened, Text.IsUnpadded, List.getLast?_concat]
  refine ⟨?_, by decide⟩
  rcases keyword with _ | ⟨c, keyword⟩
  · decide
  · exact h

theorem isUnpadded_trim (t : Text) : t.trim.IsUnpadded := by
  rcases Text.trim_eq_nil_or_ink t with h | ⟨⟨c, u, hb, hc⟩, ⟨v, d, he, hd⟩⟩
  · rw [h]
    exact ⟨nofun, nofun⟩
  · refine ⟨?_, ?_⟩
    · rw [hb]
      rintro h
      obtain rfl := Option.some.inj h
      exact absurd hc (by decide)
    · rw [he, List.getLast?_concat]
      rintro h
      obtain rfl := Option.some.inj h
      exact absurd hd (by decide)

theorem isUnpadded_of_mem_ofScalar {t a : Text} (h : a ∈ ofScalar t) : a.IsUnpadded := by
  rw [ofScalar] at h
  rcases List.mem_append.1 h with h | h
  · split_ifs at h
    · rw [List.mem_singleton.1 h]
      exact isUnpadded_trim t
    · simp at h
  · exact Text.isUnpadded_of_mem_literalsAfter h

/-- Where an atom of an expression comes from. -/
theorem exists_of_mem_ofTokens {ts : List Token} {a : Text} (h : a ∈ ofTokens ts) :
    ∃ t ∈ ts, t.kind ≠ .blank ∧ (a = t.text ∨ a = opened t.text) := by
  induction ts with
  | nil => simp [ofTokens] at h
  | cons t ts ih =>
    rw [ofTokens] at h
    rcases List.mem_append.1 h with h | h
    · refine ⟨t, List.mem_cons_self, ?_⟩
      split at h
      next hk => exact ⟨by simp [hk], Or.inl (List.mem_singleton.1 h)⟩
      next hk =>
        split_ifs at h
        · exact ⟨by simp [hk], Or.inl (List.mem_singleton.1 h)⟩
        · simp at h
      next hk =>
        split_ifs at h
        · exact ⟨by simp [hk], Or.inr (List.mem_singleton.1 h)⟩
        · simp at h
      next => simp at h
    · obtain ⟨u, hu, ha⟩ := ih h
      exact ⟨u, List.mem_cons_of_mem t hu, ha⟩

theorem isUnpadded_of_mem_ofTokens {ts : List Token} (hts : ∀ t ∈ ts, t.IsComplete) {a : Text}
    (h : a ∈ ofTokens ts) : a.IsUnpadded := by
  obtain ⟨t, ht, hk, rfl | rfl⟩ := exists_of_mem_ofTokens h
  · exact (hts t ht).isUnpadded hk
  · exact isUnpadded_opened ((hts t ht).isUnpadded hk).1

/-- The atoms of a value that was read have no blanks at the ends. -/
theorem isUnpadded_of_mem_ofValue (k : KeywordCase) {ts : List Token}
    (hts : ∀ t ∈ ts, t.IsComplete) {a : Text} (h : a ∈ ofValue k (.ofTokens ts)) :
    a.IsUnpadded := by
  rcases ts with _ | ⟨t, _ | ⟨u, ts⟩⟩
  · exact isUnpadded_of_mem_ofTokens hts h
  · rw [Value.ofTokens] at h
    split_ifs at h
    · exact isUnpadded_of_mem_ofScalar h
    · exact isUnpadded_of_mem_ofTokens hts h
  · exact isUnpadded_of_mem_ofTokens hts h

/-- They end in ink if the tokens do that are not blanks. -/
theorem endsInk_of_mem_ofValue (k : KeywordCase) {ts : List Token}
    (hts : ∀ t ∈ ts, t.kind ≠ .blank → Text.EndsInk t.text) {a : Text}
    (h : a ∈ ofValue k (.ofTokens ts)) : Text.EndsInk a := by
  have htokens : a ∈ ofTokens ts → Text.EndsInk a := by
    intro ha
    obtain ⟨t, ht, hk, rfl | rfl⟩ := exists_of_mem_ofTokens ha
    · exact hts t ht hk
    · exact ⟨t.text, '(', rfl, by decide⟩
  rcases ts with _ | ⟨t, _ | ⟨u, ts⟩⟩
  · exact htokens h
  · rw [Value.ofTokens] at h
    split_ifs at h with hscalar
    · have hblank : t.kind ≠ .blank := by
        intro hb
        simp [Token.isScalar, hb] at hscalar
      have hink : Text.EndsInk t.text := hts t List.mem_cons_self hblank
      rcases List.mem_append.1 (show a ∈ ofScalar t.text from h) with ha | ha
      · split_ifs at ha
        · rw [List.mem_singleton.1 ha]
          refine ((Text.trim_eq_nil_or_ink t.text).resolve_left fun hnil ↦ ?_).2
          exact hink.not_isWhite (Text.isWhite_iff_trim_eq_nil.2 hnil)
        · simp at ha
      · obtain ⟨u, rfl⟩ := Text.exists_of_mem_literalsAfter ha
        exact ⟨Shape.quote :: u, Shape.quote, rfl, by decide⟩
    · exact htokens h
  · exact htokens h

/-- None of them begins with a blank, even where a literal is left open. -/
theorem head?_ne_of_mem_ofValue (k : KeywordCase) {ts : List Token}
    (hts : ∀ t ∈ ts, ∃ s s', Follows s t s') {a : Text} (h : a ∈ ofValue k (.ofTokens ts)) :
    a.head? ≠ some ' ' := by
  have htokens : a ∈ ofTokens ts → a.head? ≠ some ' ' := by
    intro ha
    obtain ⟨t, ht, hk, hat⟩ := exists_of_mem_ofTokens ha
    obtain ⟨s, s', hf⟩ := hts t ht
    have hhead := hf.head?_ne hk
    rcases hat with rfl | rfl
    · exact hhead
    · exact (isUnpadded_opened hhead).1
  rcases ts with _ | ⟨t, _ | ⟨u, ts⟩⟩
  · exact htokens h
  · rw [Value.ofTokens] at h
    split_ifs at h
    · exact (isUnpadded_of_mem_ofScalar h).1
    · exact htokens h
  · exact htokens h

/-- The atoms of the first tokens may depend on the token behind them; those of the others do
not depend on the tokens in front. -/
theorem mem_ofTokens_append {ts us : List Token} {a : Text} (h : a ∈ ofTokens us) :
    a ∈ ofTokens (ts ++ us) := by
  induction ts with
  | nil => exact h
  | cons t ts ih => exact List.mem_append_right _ ih

theorem mem_ofTokens_of_literal {ts : List Token} {t : Token} (h : t ∈ ts)
    (ht : t.kind = .literal) : t.text ∈ ofTokens ts := by
  obtain ⟨before, after, rfl⟩ := List.append_of_mem h
  refine mem_ofTokens_append ?_
  simp [ofTokens, ht]

/-- **Every literal of a value that was read is an atom.** -/
theorem mem_ofValue_of_literal (k : KeywordCase) {ts : List Token} {t : Token} (h : t ∈ ts)
    (ht : t.kind = .literal) (hcomplete : t.IsComplete) : t.text ∈ ofValue k (.ofTokens ts) := by
  rcases ts with _ | ⟨u, _ | ⟨v, ts⟩⟩
  · cases h
  · obtain rfl := List.mem_singleton.1 h
    obtain ⟨s, s', hf, hs'⟩ := hcomplete
    obtain ⟨u, htext, hu⟩ := hf.exists_literal hs' ht
    have hscalar : Value.ofTokens [t] = .scalar t.text := by
      simp [Value.ofTokens, Token.isScalar, ht]
    rw [hscalar, ofValue, ofScalar, htext, Text.literals_of_run? hu]
    exact List.mem_append_right _ (List.mem_singleton_self _)
  · exact mem_ofTokens_of_literal h ht

/-- Every number of it is one, if there is no white space around it. -/
theorem mem_ofValue_of_number (k : KeywordCase) {ts : List Token} {t : Token} (h : t ∈ ts)
    (ht : t.kind = .value) (hnumber : t.text.isNumber = true) (htrim : t.text.trim = t.text) :
    t.text ∈ ofValue k (.ofTokens ts) := by
  have htokens : t.text ∈ ofTokens ts := by
    obtain ⟨before, after, rfl⟩ := List.append_of_mem h
    refine mem_ofTokens_append ?_
    simp [ofTokens, ht, hnumber]
  rcases ts with _ | ⟨u, _ | ⟨v, ts⟩⟩
  · cases h
  · obtain rfl := List.mem_singleton.1 h
    have hscalar : Value.ofTokens [t] = .scalar t.text := by
      simp [Value.ofTokens, Token.isScalar, ht]
    rw [hscalar, ofValue, ofScalar, if_pos hnumber, htrim]
    exact List.mem_append_left _ (List.mem_singleton_self _)
  · exact htokens

/-- A keyword of it makes one together with the opening parenthesis behind it. -/
theorem mem_ofValue_of_keyword (k : KeywordCase) {ts before after : List Token} {t o : Token}
    (h : ts = before ++ t :: o :: after) (ht : t.kind = .keyword) (ho : o.kind = .opening) :
    opened t.text ∈ ofValue k (.ofTokens ts) := by
  have htokens : opened t.text ∈ ofTokens ts := by
    rw [h]
    refine mem_ofTokens_append ?_
    simp [ofTokens, ht, ho]
  rcases ts with _ | ⟨u, _ | ⟨v, ts⟩⟩
  · simp at h
  · rcases before with _ | ⟨b, before⟩ <;> simp at h
  · exact htokens

/-- Where an atom of parameters that were read comes from. -/
theorem exists_of_mem_ofParameters {k : KeywordCase} {cs : List Command.Capture} {a : Text}
    (h : a ∈ ofParameters k (cs.map Command.Capture.toParameter)) :
    ∃ c ∈ cs, a = opened (k.apply c.keyword) ∨ a ∈ ofValue k (.ofTokens c.tokens) := by
  induction cs with
  | nil => simp [ofParameters] at h
  | cons c cs ih =>
    rw [List.map_cons, ofParameters, Command.Capture.toParameter, ofParameter] at h
    rcases List.mem_append.1 h with h | h
    · exact ⟨c, List.mem_cons_self, List.mem_cons.1 h⟩
    · obtain ⟨d, hd, ha⟩ := ih h
      exact ⟨d, List.mem_cons_of_mem _ hd, ha⟩

/-- The parameters have the atoms of each of them. -/
theorem mem_ofParameters {k : KeywordCase} {cs : List Command.Capture} {c : Command.Capture}
    (hc : c ∈ cs) {a : Text}
    (h : a = opened (k.apply c.keyword) ∨ a ∈ ofValue k (.ofTokens c.tokens)) :
    a ∈ ofParameters k (cs.map Command.Capture.toParameter) := by
  induction cs with
  | nil => cases hc
  | cons d cs ih =>
    rw [List.map_cons, ofParameters]
    rcases List.mem_cons.1 hc with rfl | hc
    · exact List.mem_append_left _ (List.mem_cons.2 h)
    · exact List.mem_append_right _ (ih hc)

end Atom

/-- The atoms of a command are those of its parameters. -/
theorem Command.mem_atoms {k : KeywordCase} {c : Command} {a : Text} :
    a ∈ c.atoms k ↔ a ∈ Atom.ofParameters k c.parameters := by
  rw [atoms, List.mem_mergeSort, List.mem_eraseDups]
  cases c
  rfl

/-- **The atoms of a command are any list of them in order**, so they are found without the sorting
being run. -/
theorem Command.atoms_eq_of_perm {k : KeywordCase} {c : Command} {as : List Text}
    (hperm : (Atom.ofCommand k c).eraseDups.Perm as) (hsorted : as.Pairwise fun s t ↦ ¬ t < s) :
    c.atoms k = as := by
  have hle : ∀ {s t : Text}, (!decide (t < s)) = true ↔ ¬ t < s := by simp
  refine ((List.mergeSort_perm _ _).trans hperm).eq_of_pairwise
    (fun s t _ _ hst hts ↦ List.le_antisymm (hle.1 hst) (hle.1 hts))
    (List.pairwise_mergeSort (fun r s t hrs hst ↦ ?_) (fun s t ↦ ?_) _) (hsorted.imp hle.2)
  · exact hle.2 (List.le_trans (hle.1 hrs) (hle.1 hst))
  · rw [Bool.or_eq_true, hle, hle]
    exact List.le_total s t

end ControlLanguage
