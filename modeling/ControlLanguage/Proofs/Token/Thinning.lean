import ControlLanguage.Proofs.Text.Trim
import ControlLanguage.Proofs.Token.Lexing
import Mathlib.Data.List.Forall2
import Mathlib.Tactic.Tauto

/-!
# Dropping blanks after opening parentheses

Cutting a line directly behind an opening parenthesis and its blank loses that blank, and writing
a value between parentheses loses the blanks at its ends. Both are covered by one relation between
lists of tokens, `Token.Thinned`.

Lines are cut by character and not by token, so the same relation is needed on texts, where it
depends on the shape that the lexer has reached: **a parenthesis inside a literal protects its
blanks**. `exists_thinned` carries the relation from the text of a chain over to its tokens.
-/

namespace ControlLanguage

open Shape

/-- The second text is the first one without some blanks that stand directly behind an opening
parenthesis. The shape is the one reached before the first text. -/
inductive Text.Thinned : Shape → Text → Text → Prop where
  | nil (s : Shape) : Thinned s [] []
  | keep {s : Shape} {c : Char} {t u : Text} :
      Thinned (s.after c) t u → Thinned s (c :: t) (c :: u)
  | drop {t u : Text} : (∀ c ∈ t.head?, isBlank c = false) →
      Thinned .blank t u → Thinned .opening (' ' :: t) u

/-- The second list holds the same tokens as the first one, except for blanks at the end and
directly behind opening parentheses. `opened` tells whether one stands in front of the list. -/
inductive Token.Thinned : Bool → List Token → List Token → Prop where
  | nil (opened : Bool) : Thinned opened [] []
  | keep {opened : Bool} {t u : Token} {ts us : List Token} : t.kind = u.kind → t.text = u.text →
      Thinned (t.kind = .opening) ts us → Thinned opened (t :: ts) (u :: us)
  | drop {t : Token} {ts us : List Token} : t.kind = .blank →
      Thinned false ts us → Thinned true (t :: ts) us
  | last {opened : Bool} {t : Token} : t.kind = .blank → Thinned opened [t] []

namespace Text

theorem Thinned.refl (s : Shape) (t : Text) : Thinned s t t := by
  induction t generalizing s with
  | nil => exact Thinned.nil s
  | cons c t ih => exact Thinned.keep (ih (s.after c))

theorem Thinned.append {s : Shape} (t : Text) {u v : Text} (h : Thinned (s.afterText t) u v) :
    Thinned s (t ++ u) (t ++ v) := by
  induction t generalizing s with
  | nil => exact h
  | cons c t ih => exact Thinned.keep (ih h)

/-- Inside a lexeme nothing is dropped. -/
theorem Thinned.exists_of_run? {s s' : Shape} {t u v : Text} (hrun : s.run? t = some s')
    (h : Thinned s (t ++ u) v) : ∃ w, v = t ++ w ∧ Thinned s' u w := by
  induction t generalizing s v with
  | nil => exact ⟨v, rfl, Option.some.inj hrun ▸ h⟩
  | cons c t ih =>
    obtain ⟨longer, hc, ht⟩ := run?_cons.1 hrun
    cases h with
    | keep h =>
      rw [after_of_extended hc] at h
      obtain ⟨w, rfl, hw⟩ := ih ht h
      exact ⟨w, rfl, hw⟩
    | drop => simp [extended] at hc

end Text

namespace Token

/-- In front of something else than a blank it does not matter what stands before. -/
theorem Thinned.congr {opened opened' : Bool} {t : Token} {ts us : List Token}
    (ht : t.kind ≠ .blank) (h : Thinned opened (t :: ts) us) : Thinned opened' (t :: ts) us := by
  cases h with
  | keep hk htext h => exact Thinned.keep hk htext h
  | drop hb => exact absurd hb ht
  | last hb => exact absurd hb ht

theorem Thinned.eq_nil {opened : Bool} {us : List Token} (h : Thinned opened [] us) : us = [] := by
  cases h
  rfl

/-- Nothing need be dropped. -/
theorem Thinned.self (opened : Bool) (ts : List Token) : Thinned opened ts ts := by
  induction ts generalizing opened with
  | nil => exact Thinned.nil opened
  | cons t ts ih => exact Thinned.keep rfl rfl (ih _)

/-- A last token other than a blank is kept. -/
theorem Thinned.exists_concat {opened : Bool} {ts ws : List Token} {t : Token}
    (ht : t.kind ≠ .blank) (h : Thinned opened (ts ++ [t]) ws) :
    ∃ vs t', ws = vs ++ [t'] ∧ Thinned opened ts vs ∧ t.kind = t'.kind ∧ t.text = t'.text := by
  induction ts generalizing opened ws with
  | nil =>
    cases h with
    | keep hk htext h =>
      rw [h.eq_nil]
      exact ⟨[], _, rfl, Thinned.nil opened, hk, htext⟩
    | drop hb => exact absurd hb ht
    | last hb => exact absurd hb ht
  | cons u ts ih =>
    rw [List.cons_append] at h
    generalize hw : ts ++ [t] = w at h
    cases h with
    | keep hk htext h =>
      obtain ⟨vs, t', rfl, hvs, halike⟩ := ih (hw ▸ h)
      exact ⟨_ :: vs, t', rfl, Thinned.keep hk htext hvs, halike⟩
    | drop hb h =>
      obtain ⟨vs, t', rfl, hvs, halike⟩ := ih (hw ▸ h)
      exact ⟨vs, t', rfl, Thinned.drop hb hvs, halike⟩
    | last => simp at hw

/-- A blank at the end may be dropped on top of others. -/
theorem Thinned.concat_blank {opened : Bool} {ts us : List Token} (h : Thinned opened ts us)
    {b : Token} (hb : b.kind = .blank) (hne : ∀ t ∈ ts.getLast?, t.kind ≠ .blank) :
    Thinned opened (ts ++ [b]) us := by
  induction h with
  | nil => exact Thinned.last hb
  | @keep opened t u ts us hk htext h ih =>
    refine Thinned.keep hk htext (ih fun t' ht' ↦ hne t' ?_)
    rw [List.getLast?_cons, Option.mem_def.1 ht']
    rfl
  | @drop t ts us ht h ih =>
    refine Thinned.drop ht (ih fun t' ht' ↦ hne t' ?_)
    rw [List.getLast?_cons, Option.mem_def.1 ht']
    rfl
  | @last opened t ht => exact absurd ht (hne t rfl)

theorem Follows.kind_eq_blank_iff {s s' : Shape} {t : Token} (h : Follows s t s') :
    t.kind = .blank ↔ s' = .blank := by
  obtain ⟨c, u, -, -, -, hk, -⟩ := h
  rw [hk]
  rcases s' with _ | _ | _ | _ | _ | _ | _ | _ | _ <;> simp only [Shape.kind] <;> try split_ifs
  all_goals simp

theorem Follows.kind_eq_opening_iff {s s' : Shape} {t : Token} (h : Follows s t s') :
    t.kind = .opening ↔ s' = .opening := by
  obtain ⟨c, u, -, -, -, hk, -⟩ := h
  rw [hk]
  rcases s' with _ | _ | _ | _ | _ | _ | _ | _ | _ <;> simp only [Shape.kind] <;> try split_ifs
  all_goals simp

/-- A token of a chain is a run of blanks exactly when it begins with one. -/
theorem Follows.isBlank_iff {s s' : Shape} {t : Token} {c : Char} {u : Text} (h : Follows s t s')
    (ht : t.text = c :: u) : isBlank c = true ↔ s' = .blank := by
  obtain ⟨d, v, htext, -, hv, -, hb⟩ := h
  obtain ⟨rfl, rfl⟩ := List.cons.inj (htext.symm.trans ht)
  constructor
  · intro hc
    rw [begun_of_isBlank hc] at hv
    exact run?_blank hv
  · intro hs'
    obtain ⟨rfl, -⟩ := List.cons.inj ((hb hs').symm.trans htext)
    decide

/-- No token follows a blank but one that begins with ink. -/
theorem Follows.shape_ne_blank {s' : Shape} {t : Token} (h : Follows .blank t s') :
    s' ≠ .blank := by
  rintro rfl
  obtain ⟨c, u, ht, hc, -, -, hb⟩ := h
  obtain ⟨rfl, -⟩ := List.cons.inj ((hb rfl).symm.trans ht)
  simp [extended, isBlank] at hc

/-- **Thinning the text of a chain thins its tokens.** The result is a chain again, but it may end
in an opening parenthesis where there was a blank behind it. -/
theorem exists_thinned {s s' : Shape} {ts : List Token} {u : Text} (h : Chain s ts s')
    (hu : Text.Thinned s (texts ts) u) :
    ∃ us r, Thinned (s = .opening) ts us ∧ Chain s us r ∧ (r = s' ∨ r = .opening) ∧
      texts us = u := by
  induction h generalizing u with
  | nil s =>
    cases hu
    exact ⟨[], s, Thinned.nil _, Chain.nil s, Or.inl rfl, rfl⟩
  | @cons s s₁ s' t ts hf hc ih =>
    obtain ⟨c, v, htext, hstop, hrun, hk, hb⟩ := id hf
    rw [texts_cons, htext, List.cons_append] at hu
    generalize hw : v ++ texts ts = w at hu
    cases hu with
    | keep hu =>
      rw [← hw, after_of_stops hstop] at hu
      obtain ⟨w, rfl, hw⟩ := hu.exists_of_run? hrun
      obtain ⟨us, r, hthin, hchain, hr, rfl⟩ := ih hw
      refine ⟨t :: us, r, Thinned.keep rfl rfl ?_, Chain.cons hf hchain, hr, ?_⟩
      · rwa [decide_eq_decide.2 hf.kind_eq_opening_iff]
      · rw [texts_cons, htext, List.cons_append]
    | drop hhead hu =>
      -- the dropped character is a whole token, and what follows it is not a blank
      have hs₁ : s₁ = .blank := (hf.isBlank_iff htext).1 (by decide)
      have hv : v = [] := (List.cons.inj ((hb hs₁).symm.trans htext)).2.symm
      subst hs₁ hv
      rw [List.nil_append] at hw
      rw [← hw] at hu
      obtain ⟨us, r, hthin, hchain, hr, rfl⟩ := ih hu
      have hdrop : Thinned true (t :: ts) us := Thinned.drop (hf.kind_eq_blank_iff.2 rfl) hthin
      cases us with
      | nil => exact ⟨[], .opening, hdrop, Chain.nil _, Or.inr rfl, rfl⟩
      | cons t' us =>
        refine ⟨t' :: us, r, hdrop, hchain.congr ?_, hr, rfl⟩
        intro d _
        rfl

/-! ### Blanks at the ends of a value -/

/-- The last character of a lexeme that is complete and not a run of blanks is ink. -/
theorem not_isBlank_of_run? {s s' : Shape} {u : Text} {c : Char} (h : s.run? (u ++ [c]) = some s')
    (hs' : s' ≠ .literal false) (hb : s' ≠ .blank) : isBlank c = false := by
  by_contra hc
  rw [Bool.not_eq_false] at hc
  induction u generalizing s with
  | nil =>
    obtain ⟨longer, hext, hlast⟩ := run?_cons.1 h
    rw [run?, Option.some.injEq] at hlast
    subst hlast
    rcases extended_eq_some_of_isBlank hc hext with rfl | rfl
    · rw [extended, if_pos hc, Option.some.injEq] at hext
      exact hb hext.symm
    · have hq : c ≠ quote := by
        rintro rfl
        exact absurd hc (by decide)
      simp [extended, hq] at hext
      exact hs' hext.symm
  | cons d u ih =>
    obtain ⟨longer, -, hrest⟩ := run?_cons.1 h
    exact ih hrest

/-- A complete token ends in a character that is not a blank, unless it is a run of blanks. -/
theorem Follows.exists_concat {s s' : Shape} {t : Token} (h : Follows s t s')
    (hs' : s' ≠ .literal false) (hb : s' ≠ .blank) :
    ∃ u c, t.text = u ++ [c] ∧ isBlank c = false := by
  obtain ⟨d, v, htext, -, hv, -⟩ := id h
  rcases List.eq_nil_or_concat' v with rfl | ⟨v, c, rfl⟩
  · exact ⟨[], d, htext, Bool.eq_false_iff.2 fun hd ↦ hb ((h.isBlank_iff htext).1 hd)⟩
  · exact ⟨d :: v, c, htext, not_isBlank_of_run? hv hs' hb⟩

theorem Follows.endsInk {s s' : Shape} {t : Token} (h : Follows s t s') (hs' : s' ≠ .literal false)
    (hb : s' ≠ .blank) (hw : ∀ c ∈ t.text, isWhiteSpace c = true → isBlank c = true) :
    Text.EndsInk t.text := by
  obtain ⟨u, c, htext, hblank⟩ := h.exists_concat hs' hb
  refine ⟨u, c, htext, Bool.eq_false_iff.2 fun hc ↦ ?_⟩
  rw [hw c (by simp [htext]) hc] at hblank
  exact Bool.noConfusion hblank

theorem Follows.beginsInk {s s' : Shape} {t : Token} (h : Follows s t s') (hb : s' ≠ .blank)
    (hw : ∀ c ∈ t.text, isWhiteSpace c = true → isBlank c = true) : Text.BeginsInk t.text := by
  obtain ⟨c, u, htext, -⟩ := id h
  refine ⟨c, u, htext, Bool.eq_false_iff.2 fun hc ↦ ?_⟩
  exact hb ((h.isBlank_iff htext).1 (hw c (by simp [htext]) hc))

/-- A single blank, or nothing. -/
def IsGap (ts : List Token) : Prop :=
  ts = [] ∨ ∃ b : Token, ts = [b] ∧ b.kind = .blank ∧ b.text = [' ']

theorem IsGap.isWhite {ts : List Token} (h : IsGap ts) : Text.IsWhite (texts ts) := by
  rcases h with rfl | ⟨b, rfl, -, hb⟩
  · exact Text.isWhite_nil
  · rw [texts_cons, hb]
    exact Text.isWhite_blanks 1

theorem IsGap.isBlank {ts : List Token} (h : IsGap ts) : ∀ c ∈ texts ts, isBlank c = true := by
  rcases h with rfl | ⟨b, rfl, -, hb⟩
  · simp
  · rw [texts_cons, hb]
    exact List.forall_mem_singleton.2 (by decide)

/-- Behind a token of a chain there is at most one blank before the next one. -/
theorem Chain.exists_gap {s s' : Shape} {ts : List Token} (h : Chain s ts s') :
    ∃ gap us, ts = gap ++ us ∧ IsGap gap ∧ ∀ t ∈ us.head?, t.kind ≠ .blank := by
  cases h with
  | nil => exact ⟨[], [], rfl, Or.inl rfl, by simp⟩
  | @cons s s₁ s' t ts hf hc =>
    by_cases ht : t.kind = .blank
    · have hs₁ := hf.kind_eq_blank_iff.1 ht
      refine ⟨[t], ts, rfl, Or.inr ⟨t, rfl, ht, (hs₁ ▸ hf).text_eq_of_blank⟩, fun t' ht' hb ↦ ?_⟩
      cases hc with
      | nil => simp at ht'
      | cons hf' hc' =>
        obtain rfl : _ = t' := by simpa using ht'
        exact (hs₁ ▸ hf').shape_ne_blank (hf'.kind_eq_blank_iff.1 hb)
    · exact ⟨[], t :: ts, rfl, Or.inl rfl, by simpa using ht⟩

/-- In front of the end of a chain there is at most one blank. -/
theorem Chain.exists_final_gap {s s' : Shape} {ts : List Token} (h : Chain s ts s') :
    ∃ us gap, ts = us ++ gap ∧ IsGap gap ∧ ∀ t ∈ us.getLast?, t.kind ≠ .blank := by
  rcases List.eq_nil_or_concat' ts with rfl | ⟨us, t, rfl⟩
  · exact ⟨[], [], rfl, Or.inl rfl, by simp⟩
  · by_cases ht : t.kind = .blank
    · obtain ⟨s₁, hus, hf⟩ := chain_concat.1 h
      have hs₂ := hf.kind_eq_blank_iff.1 ht
      refine ⟨us, [t], rfl, Or.inr ⟨t, rfl, ht, (hs₂ ▸ hf).text_eq_of_blank⟩, fun t' ht' hb ↦ ?_⟩
      obtain ⟨us', rfl⟩ := List.getLast?_eq_some_iff.1 ht'
      obtain ⟨s₃, -, hf'⟩ := chain_concat.1 hus
      exact (hf'.kind_eq_blank_iff.1 hb ▸ hf).shape_ne_blank hs₂
    · exact ⟨us ++ [t], [], (List.append_nil _).symm, Or.inl rfl, by simpa using ht⟩

/-- The text of tokens neither begins nor ends with a blank, if no blanks stand at the ends. -/
theorem Chain.isBlank_head {s s' : Shape} {ts : List Token} (h : Chain s ts s')
    (hhead : ∀ t ∈ ts.head?, t.kind ≠ .blank) : ∀ c ∈ (texts ts).head?, isBlank c = false := by
  cases h with
  | nil => simp
  | @cons s s₁ s' t ts hf hc =>
    obtain ⟨c, u, htext, -⟩ := id hf
    rw [texts_cons, htext]
    intro d hd
    obtain rfl : c = d := Option.some.inj hd
    exact Bool.eq_false_iff.2 fun hb ↦
      hhead t rfl (hf.kind_eq_blank_iff.2 ((hf.isBlank_iff htext).1 hb))

theorem Chain.isBlank_getLast {s s' : Shape} {ts : List Token} (h : Chain s ts s')
    (hs' : s' ≠ .literal false) (hlast : ∀ t ∈ ts.getLast?, t.kind ≠ .blank) :
    ∀ c ∈ (texts ts).getLast?, isBlank c = false := by
  rcases List.eq_nil_or_concat' ts with rfl | ⟨us, t, rfl⟩
  · simp
  · obtain ⟨s₁, -, hf⟩ := chain_concat.1 h
    obtain ⟨u, c, htext, hc⟩ := hf.exists_concat hs'
      (mt hf.kind_eq_blank_iff.2 (hlast t List.getLast?_concat))
    rw [texts_append, texts_cons, texts_nil, List.append_nil, htext, ← List.append_assoc,
      List.getLast?_concat]
    rintro d hd
    rwa [← Option.some.inj hd]

/-- Tokens whose text is free of white space other than blanks spell a text with ink at both ends,
if no blanks stand at the ends. -/
theorem Chain.trim_texts {s s' : Shape} {ts : List Token} (h : Chain s ts s')
    (hs' : s' ≠ .literal false) (hhead : ∀ t ∈ ts.head?, t.kind ≠ .blank)
    (hlast : ∀ t ∈ ts.getLast?, t.kind ≠ .blank)
    (hw : ∀ c ∈ texts ts, isWhiteSpace c = true → isBlank c = true) :
    (texts ts).trim = texts ts := by
  have hink : ∀ c ∈ texts ts, isBlank c = false → isWhiteSpace c = false :=
    fun c hc hblank ↦ Bool.eq_false_iff.2 fun h ↦ Bool.eq_false_iff.1 hblank (hw c hc h)
  by_cases hnil : texts ts = []
  · rw [hnil]
    rfl
  · obtain ⟨c, u, hcu⟩ := List.exists_cons_of_ne_nil hnil
    obtain ⟨v, d, hvd⟩ := (List.eq_nil_or_concat' (texts ts)).resolve_left hnil
    exact Text.trim_of_ink
      ⟨c, u, hcu, hink c (by simp [hcu]) (h.isBlank_head hhead c (by simp [hcu]))⟩
      ⟨v, d, hvd, hink d (by simp [hvd]) (h.isBlank_getLast hs' hlast d (by simp [hvd]))⟩

/-- The tokens of a value without the blanks at its ends are a chain as well. -/
theorem Chain.exists_gaps {s' : Shape} {ts : List Token} (h : Chain .opening ts s')
    (hs' : s' ≠ .literal false) :
    ∃ gap us gap' r, ts = gap ++ (us ++ gap') ∧ IsGap gap ∧ IsGap gap' ∧ (us = [] → gap' = []) ∧
      (∀ t ∈ us.head?, t.kind ≠ .blank) ∧ (∀ t ∈ us.getLast?, t.kind ≠ .blank) ∧
      Chain .opening us r ∧ r ≠ .literal false := by
  obtain ⟨gap, rest, rfl, hgap, hhead⟩ := h.exists_gap
  obtain ⟨s₁, hgapc, hrest⟩ := chain_append.1 h
  obtain ⟨us, gap', rfl, hgap', hlast⟩ := hrest.exists_final_gap
  obtain ⟨r, hus, hend⟩ := chain_append.1 hrest
  rcases us with _ | ⟨t, us⟩
  · -- nothing but blanks: they are all in front
    have hnil : gap' = [] := by
      rcases hgap' with rfl | ⟨b, rfl, hb, -⟩
      · rfl
      · exact absurd hb (hhead b rfl)
    exact ⟨gap, [], gap', .opening, rfl, hgap, hgap', fun _ ↦ hnil, by simp, by simp,
      Chain.nil _, by simp⟩
  · have ht : t.kind ≠ .blank := hhead t rfl
    have hr : r ≠ .literal false := by
      rcases hgap' with rfl | ⟨b, rfl, -, -⟩
      · cases hend
        exact hs'
      · obtain ⟨s₂, ⟨c, v, -, hc, -⟩, -⟩ := chain_cons.1 hend
        rintro rfl
        simp [extended] at hc
    exact ⟨gap, t :: us, gap', r, rfl, hgap, hgap', by simp, by simpa using ht, hlast,
      hus.congr fun d _ ↦ rfl, hr⟩

/-- The blanks at the ends of a value are trimmed away. -/
theorem spelling_gaps {gap us gap' : List Token} (hgap : IsGap gap) (hgap' : IsGap gap') :
    spelling (gap ++ (us ++ gap')) = (texts us).trim := by
  show Text.trim (texts (gap ++ (us ++ gap'))) = _
  rw [texts_append, Text.trim_append_of_isWhite hgap.isWhite, texts_append]
  by_cases hwhite : Text.IsWhite (texts us)
  · rw [Text.trim_of_isWhite hwhite,
      Text.trim_of_isWhite (Text.isWhite_append.2 ⟨hwhite, hgap'.isWhite⟩)]
  · rw [Text.trim, Text.trimStart_append hwhite, Text.trimEnd_append_of_isWhite _ hgap'.isWhite]
    rfl

/-- **A value is written as the chain of its tokens without the blanks at its ends.** -/
theorem Chain.exists_spelling {s' : Shape} {ts : List Token} (h : Chain .opening ts s')
    (hs' : s' ≠ .literal false) (hw : ∀ c ∈ texts ts, isWhiteSpace c = true → isBlank c = true) :
    ∃ gap us gap' r, ts = gap ++ (us ++ gap') ∧ IsGap gap ∧ IsGap gap' ∧ (us = [] → gap' = []) ∧
      (∀ t ∈ us.head?, t.kind ≠ .blank) ∧ (∀ t ∈ us.getLast?, t.kind ≠ .blank) ∧
      spelling ts = texts us ∧ Chain .opening us r ∧ r ≠ .literal false := by
  obtain ⟨gap, us, gap', r, rfl, hgap, hgap', hnil, hhead, hlast, hus, hr⟩ := h.exists_gaps hs'
  -- what is left when the blanks are trimmed away has ink at both ends
  have htrim := hus.trim_texts hr hhead hlast fun c hc ↦ hw c (by simp at hc ⊢; tauto)
  exact ⟨gap, us, gap', r, rfl, hgap, hgap', hnil, hhead, hlast,
    (spelling_gaps hgap hgap').trans htrim, hus, hr⟩

/-- Blanks at the ends may be dropped on top of others. -/
theorem Thinned.gap {gap us gap' vs : List Token} (h : Thinned true us vs) (hgap : IsGap gap)
    (hgap' : IsGap gap') (hnil : us = [] → gap' = []) (hhead : ∀ t ∈ us.head?, t.kind ≠ .blank)
    (hlast : ∀ t ∈ us.getLast?, t.kind ≠ .blank) : Thinned true (gap ++ (us ++ gap')) vs := by
  rcases us with _ | ⟨t, us⟩
  · obtain rfl := hnil rfl
    cases h
    rcases hgap with rfl | ⟨b, rfl, hb, -⟩
    · exact Thinned.nil true
    · exact Thinned.last hb
  · have hfinal : Thinned true (t :: us ++ gap') vs := by
      rcases hgap' with rfl | ⟨b, rfl, hb, -⟩
      · rwa [List.append_nil]
      · exact h.concat_blank hb hlast
    rcases hgap with rfl | ⟨b, rfl, hb, -⟩
    · exact hfinal
    · exact Thinned.drop hb (hfinal.congr (hhead t rfl))

/-- What thins the tokens as they are written thins the tokens of the value. -/
theorem exists_written {s' : Shape} {ts : List Token} (h : Chain .opening ts s')
    (hs' : s' ≠ .literal false) (hw : ∀ c ∈ texts ts, isWhiteSpace c = true → isBlank c = true) :
    ∃ us r, spelling ts = texts us ∧ Chain .opening us r ∧ r ≠ .literal false ∧
      (∀ t ∈ us, t ∈ ts) ∧ ∀ vs, Thinned true us vs → Thinned true ts vs := by
  obtain ⟨gap, us, gap', r, rfl, hgap, hgap', hnil, hhead, hlast, hspell, hus, hr⟩ :=
    h.exists_spelling hs' hw
  exact ⟨us, r, hspell, hus, hr, fun t ht ↦ by simp [ht],
    fun vs hvs ↦ hvs.gap hgap hgap' hnil hhead hlast⟩

/-! ### Tokens that cannot be thinned -/

/-- No blank stands at the end or directly behind an opening parenthesis. -/
def IsTight : Bool → List Token → Prop
  | _, [] => True
  | opened, t :: ts => (t.kind = .blank → opened = false ∧ ts ≠ []) ∧ IsTight (t.kind = .opening) ts

instance decidableIsTight : (opened : Bool) → (ts : List Token) → Decidable (IsTight opened ts)
  | _, [] => .isTrue trivial
  | opened, t :: ts =>
    have := decidableIsTight (t.kind = .opening) ts
    inferInstanceAs (Decidable ((t.kind = .blank → opened = false ∧ ts ≠ []) ∧
      IsTight (t.kind = .opening) ts))

/-- Two tokens of one kind with one text. -/
def Alike (t u : Token) : Prop :=
  t.kind = u.kind ∧ t.text = u.text

/-- Tokens are alike without their columns. -/
theorem alike_unplaced (ts : List Token) :
    List.Forall₂ Alike ts (ts.map unplaced) ∧ List.Forall₂ Alike (ts.map unplaced) ts := by
  rw [List.forall₂_map_right_iff, List.forall₂_map_left_iff]
  exact ⟨List.forall₂_same.2 fun t _ ↦ ⟨rfl, rfl⟩, List.forall₂_same.2 fun t _ ↦ ⟨rfl, rfl⟩⟩

theorem Thinned.alike {opened : Bool} {ts us : List Token} (h : Thinned opened ts us)
    (ht : IsTight opened ts) : List.Forall₂ Alike ts us := by
  induction h with
  | nil => exact List.Forall₂.nil
  | keep hk htext _ ih => exact List.Forall₂.cons ⟨hk, htext⟩ (ih ht.2)
  | drop hb => exact absurd (ht.1 hb).1 (by simp)
  | last hb => exact absurd rfl (ht.1 hb).2

/-- The columns of the tokens do not matter. -/
theorem Thinned.congr_alike {opened : Bool} {ts us vs : List Token} (h : Thinned opened ts us)
    (hv : List.Forall₂ Alike us vs) : Thinned opened ts vs := by
  induction h generalizing vs with
  | nil =>
    cases hv
    exact Thinned.nil _
  | keep hk htext _ ih =>
    rcases hv with _ | ⟨⟨hk', htext'⟩, hvs⟩
    exact Thinned.keep (hk.trans hk') (htext.trans htext') (ih hvs)
  | drop hb _ ih => exact Thinned.drop hb (ih hv)
  | last hb =>
    cases hv
    exact Thinned.last hb

theorem Thinned.congr_left {opened : Bool} {ts us vs : List Token} (h : Thinned opened us vs)
    (hu : List.Forall₂ Alike ts us) : Thinned opened ts vs := by
  induction h generalizing ts with
  | nil =>
    cases hu
    exact Thinned.nil _
  | keep hk htext _ ih =>
    rcases hu with _ | ⟨⟨hk', htext'⟩, hus⟩
    refine Thinned.keep (hk'.trans hk) (htext'.trans htext) ?_
    rw [hk']
    exact ih hus
  | drop hb _ ih =>
    rcases hu with _ | ⟨⟨hk', -⟩, hus⟩
    exact Thinned.drop (hk'.trans hb) (ih hus)
  | last hb =>
    rcases hu with _ | ⟨⟨hk', -⟩, hus⟩
    cases hus
    exact Thinned.last (hk'.trans hb)

end Token

end ControlLanguage
