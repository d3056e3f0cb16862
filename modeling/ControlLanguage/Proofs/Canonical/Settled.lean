import ControlLanguage.Parameter.Rendering
import ControlLanguage.Proofs.Part.Splitting
import ControlLanguage.Proofs.Text.Capital

/-!
# The canonical form is settled

A value in canonical form is its own canonical form, although the recognisers are asked again: a
name in upper case is still a name, and a quoted text is recognised as quoted before anything else
could be done to it. What comes out is one of five kinds of texts (`IsCanonical`), and the texts of
these kinds are those that stay as they are.

**The canonical form of one part is one part**, and one that is not in parentheses does not get any.
-/

namespace ControlLanguage

namespace Text

/-! ### Quoted texts -/

/-- A quoted text is known by its ends and its length. -/
theorem isQuoted_iff {t : Text} : t.isQuoted = true ↔
    ∃ q, (q = '\x27' ∨ q = '"') ∧ t.head? = some q ∧ t.getLast? = some q ∧ 2 ≤ t.length := by
  rw [isQuoted]
  constructor
  · intro h
    rcases hhead : t.head? with _ | a
    · simp [hhead] at h
    rcases hlast : t.getLast? with _ | b
    · simp [hlast] at h
    simp only [hhead, hlast, Bool.and_eq_true, Bool.or_eq_true, decide_eq_true_eq] at h
    obtain ⟨⟨hlength, rfl⟩, hq⟩ := h
    exact ⟨a, hq, rfl, rfl, hlength⟩
  · rintro ⟨q, hq, hhead, hlast, hlength⟩
    simp [hhead, hlast, hlength, hq]

theorem isQuoted_quoted (t : Text) : (quoted t).isQuoted = true := by
  refine isQuoted_iff.2 ⟨'\x27', Or.inl rfl, rfl, List.getLast?_concat, ?_⟩
  simp [quoted]

theorem two_lt_length_quoted {t : Text} (ht : t ≠ []) : 2 < (quoted t).length := by
  obtain ⟨c, u, rfl⟩ := List.exists_cons_of_ne_nil ht
  have hlength : (quoted (c :: u)).length = (Part.doubled (c :: u)).length + 2 := by
    rw [Part.quoted_eq, List.length_cons, List.length_append, List.length_singleton]
  rw [hlength]
  by_cases hc : c = '\x27'
  · rw [hc, Part.doubled_cons_quote, List.length_cons]
    omega
  · rw [Part.doubled_cons_of_ne hc, List.length_cons]
    omega

/-- The literal of a text with a character in it is not the empty one. -/
theorem quoted_ne {t : Text} (ht : t ≠ []) : quoted t ≠ ['\x27', '\x27'] :=
  fun h ↦ absurd (two_lt_length_quoted ht) (by rw [h]; decide)

/-- Quotes do not come from a change of case. -/
theorem isQuoted_of_upper {t : Text} (h : t.upper.isQuoted = true) : t.isQuoted = true := by
  obtain ⟨q, hq, hhead, hlast, hlength⟩ := isQuoted_iff.1 h
  have hup : upperChar q = [q] ∧ isPlain q = false := by
    rcases hq with rfl | rfl <;> decide
  rw [head?_upper hup.1 hup.2] at hhead
  rw [getLast?_upper hup.1 hup.2] at hlast
  refine isQuoted_iff.2 ⟨q, hq, hhead, hlast, ?_⟩
  obtain ⟨u, rfl⟩ := List.head?_eq_some_iff.1 hhead
  rcases u with _ | ⟨c, u⟩
  · rw [upper_singleton, hup.1] at hlength
    exact hlength
  · simp

theorem isQuoted_upper (t : Text) : t.upper.isQuoted = t.isQuoted := by
  refine Bool.eq_iff_iff.2 ⟨isQuoted_of_upper, fun h ↦ ?_⟩
  obtain ⟨q, hq, hhead, hlast, hlength⟩ := isQuoted_iff.1 h
  have hup : upperChar q = [q] ∧ isPlain q = false := by
    rcases hq with rfl | rfl <;> decide
  refine isQuoted_iff.2 ⟨q, hq, (head?_upper hup.1 hup.2).2 hhead,
    (getLast?_upper hup.1 hup.2).2 hlast, ?_⟩
  obtain ⟨u, rfl⟩ := List.head?_eq_some_iff.1 hhead
  have hu : u ≠ [] := by
    rintro rfl
    exact absurd hlength (Nat.not_le.2 Nat.one_lt_two)
  have hpos := List.length_pos_iff.2 (mt upper_eq_nil_iff.1 hu)
  rw [upper_cons, hup.1, List.singleton_append, List.length_cons]
  omega

/-! ### Names -/

/-- The characters of a name are letters or ASCII characters. -/
theorem isLetter_or_lt_of_isNameChar {c : Char} (h : isNameChar c = true) :
    isLetter c = true ∨ c.toNat < 128 := by
  simp only [isNameChar, isLabelChar, isNameStart, Bool.or_eq_true, decide_eq_true_eq] at h
  rcases h with ((((((h | rfl) | rfl) | rfl) | h) | rfl) | rfl)
  · exact Or.inl h
  · exact Or.inr (by decide)
  · exact Or.inr (by decide)
  · exact Or.inr (by decide)
  · exact Or.inr (toNat_of_isAlphanum (by simp [Char.isAlphanum, h]))
  · exact Or.inr (by decide)
  · exact Or.inr (by decide)

/-- The capital of a character of a name is one character of a name. -/
theorem upperChar_of_isNameChar {c : Char} (h : isNameChar c = true) :
    ∃ d, upperChar c = [d] ∧ isNameChar d = true ∧
      (isNameStart c = true → isNameStart d = true) := by
  have hascii : ∀ n < 128, isNameChar (Char.ofNat n) = true →
      (upperChar (Char.ofNat n)).length = 1 ∧ (upperChar (Char.ofNat n)).all isNameChar = true ∧
        (isNameStart (Char.ofNat n) = true →
          (upperChar (Char.ofNat n)).all isNameStart = true) := by
    decide +kernel
  have hspec : (upperChar c).length = 1 ∧ (upperChar c).all isNameChar = true ∧
      (isNameStart c = true → (upperChar c).all isNameStart = true) := by
    rcases isLetter_or_lt_of_isNameChar h with hc | hc
    · exact forall_letter (P := fun c ↦ isNameChar c = true → (upperChar c).length = 1 ∧
        (upperChar c).all isNameChar = true ∧
          (isNameStart c = true → (upperChar c).all isNameStart = true)) hascii
        (by decide +kernel) (by decide +kernel) (by decide +kernel) (by decide +kernel) hc h
    · exact forall_ascii (P := fun c ↦ isNameChar c = true → (upperChar c).length = 1 ∧
        (upperChar c).all isNameChar = true ∧
          (isNameStart c = true → (upperChar c).all isNameStart = true)) hascii hc h
  obtain ⟨hlength, hname, hstart⟩ := hspec
  obtain ⟨d, hd⟩ := List.length_eq_one_iff.1 hlength
  rw [hd] at hname hstart
  exact ⟨d, hd, by simpa using hname, by simpa using hstart⟩

/-- **Names stay names in upper case, and of the same length**, since no capital of a letter in a
name is a sequence. -/
theorem all_isNameChar_upper {t : Text} (h : t.all isNameChar = true) :
    t.upper.all isNameChar = true ∧ t.upper.length = t.length := by
  induction t with
  | nil => exact ⟨rfl, rfl⟩
  | cons c t ih =>
    rw [List.all_cons, Bool.and_eq_true] at h
    obtain ⟨d, hd, hname, -⟩ := upperChar_of_isNameChar h.1
    obtain ⟨hall, hlength⟩ := ih h.2
    rw [upper_cons, hd, List.singleton_append, List.all_cons, hname, hall, List.length_cons,
      List.length_cons, hlength]
    exact ⟨rfl, rfl⟩

theorem isBareName_upper {t : Text} (h : t.isBareName = true) : t.upper.isBareName = true := by
  rcases t with _ | ⟨c, t⟩
  · exact Bool.noConfusion h
  simp only [isBareName, Bool.and_eq_true, decide_eq_true_eq] at h
  obtain ⟨⟨hstart, hall⟩, hlength⟩ := h
  obtain ⟨d, hd, -, hdstart⟩ := upperChar_of_isNameChar (c := c) (by
    simp [isNameChar, isLabelChar, hstart])
  obtain ⟨hupper, hupperLength⟩ := all_isNameChar_upper hall
  rw [upper_cons, hd, List.singleton_append]
  simp only [isBareName, Bool.and_eq_true, decide_eq_true_eq]
  exact ⟨⟨hdstart hstart, hupper⟩, hupperLength.symm ▸ hlength⟩

/-- A name without quotes: a bare name, perhaps with an ampersand in front. -/
theorem isName_iff {t : Text} (ht : t.trim = t) (hq : t.isQuoted = false) : t.isName = true ↔
    t.isBareName = true ∨ ∃ name, t = '&' :: name ∧ isBareName name = true := by
  simp only [isName, ht]
  rcases t with _ | ⟨c, t⟩
  · simp [hq]
  by_cases hc : c = '&'
  · subst hc
    have hstart : isBareName ('&' :: t) = false := by
      simp [isBareName, show isNameStart '&' = false from by decide]
    simp [hstart]
  · simp [hq, hc]

/-- A qualified name stays one, too. -/
theorem isName_upper {t : Text} (ht : t.trim = t) (hq : t.isQuoted = false)
    (h : t.isName = true) : t.upper.isName = true := by
  have htrim : t.upper.trim = t.upper := (trim_upper t).trans (congrArg upper ht)
  refine (isName_iff htrim ((isQuoted_upper t).trans hq)).2 ?_
  rcases (isName_iff ht hq).1 h with h | ⟨name, rfl, hname⟩
  · exact Or.inl (isBareName_upper h)
  · exact Or.inr ⟨upper name, rfl, isBareName_upper hname⟩

/-! ### The canonical form -/

section Canonical

variable (allowed : List Text) (type : Text)

/-- White space around a text does not count. -/
theorem canonical_trim (t : Text) : canonical allowed type t.trim = canonical allowed type t := by
  rw [canonical, canonical, trim_trim]

/-- What may become of a value. -/
theorem canonical_cases (t : Text) :
    canonical allowed type t = [] ∧ (t.trim = [] ∨ t.trim = ['\x27', '\x27']) ∨
      t.trim ≠ [] ∧ (canonical allowed type t = t.trim ∧
          (t.trim.isQuoted = true ∧ t.trim ≠ ['\x27', '\x27'] ∨
            isCapitalised allowed type t.trim = false ∧
              (t.trim.isExpression = true ∨ t.trim.isNumber = true)) ∨
        canonical allowed type t = t.trim.upper ∧ isCapitalised allowed type t.trim = true ∧
          t.trim.isQuoted = false ∨
        canonical allowed type t = quoted t.trim) := by
  rw [canonical]
  by_cases hnil : t.trim = [] ∨ t.trim = ['\x27', '\x27']
  · rw [if_pos (by simpa using hnil)]
    exact Or.inl ⟨rfl, hnil⟩
  obtain ⟨hne, hempty⟩ := not_or.1 hnil
  refine Or.inr ⟨hne, ?_⟩
  rw [if_neg (by simpa using hnil)]
  by_cases hcap : isCapitalised allowed type t.trim = true
  · by_cases hq : t.trim.isQuoted = true
    · exact Or.inl ⟨by rw [if_pos hcap, if_pos hq], Or.inl ⟨hq, hempty⟩⟩
    · exact Or.inr (Or.inl ⟨by rw [if_pos hcap, if_neg hq], hcap, by simpa using hq⟩)
  · rw [if_neg hcap]
    split_ifs with hexpression hq hnumber
    · exact Or.inl ⟨rfl, Or.inr ⟨by simpa using hcap, Or.inl hexpression⟩⟩
    · exact Or.inl ⟨rfl, Or.inl ⟨hq, hempty⟩⟩
    · exact Or.inl ⟨rfl, Or.inr ⟨by simpa using hcap, Or.inr hnumber⟩⟩
    · exact Or.inr (Or.inr rfl)

/-- A literal is canonical, unless it is empty. -/
theorem canonical_of_isQuoted {t : Text} (ht : t.trim = t) (hq : t.isQuoted = true)
    (hne : t ≠ ['\x27', '\x27']) : canonical allowed type t = t := by
  have hnil : t ≠ [] := by
    rintro rfl
    exact Bool.noConfusion hq
  simp only [canonical, ht, hq, if_true]
  rw [if_neg (by simp [hnil, hne])]
  simp

/-- What is put in upper case would be put in upper case again. -/
theorem isCapitalised_upper {t : Text} (ht : t.trim = t) (hq : t.isQuoted = false)
    (h : isCapitalised allowed type t = true) :
    isCapitalised allowed type t.upper = true := by
  simp only [isCapitalised, Bool.or_eq_true, Bool.and_eq_true, decide_eq_true_eq] at h ⊢
  rw [upper_upper]
  rcases h with ((h | h) | ⟨h, -⟩) | h
  · exact Or.inl (Or.inl (Or.inl h))
  · exact Or.inl (Or.inl (Or.inr h))
  · exact Or.inl (Or.inr ⟨isName_upper ht hq h, by rw [isQuoted_upper, hq]; rfl⟩)
  · exact Or.inr (head?_upper_of_head? (by decide) h)

/-- The texts in canonical form, for the values that a parameter allows and its type: no text, and
trimmed texts of four kinds. Only a text that is quoted is not asked whether it has to be in upper
case. -/
inductive IsCanonical : Text → Prop
  | empty : IsCanonical []
  | quoted {t : Text} (trim_eq : t.trim = t) (isQuoted_eq : t.isQuoted = true)
      (ne_empty : t ≠ ['\x27', '\x27']) : IsCanonical t
  | capital {t : Text} (trim_eq : t.trim = t) (ne_nil : t ≠ []) (isQuoted_eq : t.isQuoted = false)
      (isCapitalised_eq : isCapitalised allowed type t = true) (upper_eq : t.upper = t) :
      IsCanonical t
  | expression {t : Text} (trim_eq : t.trim = t)
      (isCapitalised_eq : isCapitalised allowed type t = false)
      (isExpression_eq : t.isExpression = true) : IsCanonical t
  | number {t : Text} (trim_eq : t.trim = t)
      (isCapitalised_eq : isCapitalised allowed type t = false)
      (isNumber_eq : t.isNumber = true) : IsCanonical t

/-- What the canonical form gives is canonical. -/
theorem isCanonical_canonical (t : Text) :
    IsCanonical allowed type (canonical allowed type t) := by
  rcases canonical_cases allowed type t with
    ⟨h, -⟩ | ⟨hne, ⟨h, hreason⟩ | ⟨h, hcap, hq⟩ | h⟩ <;> rw [h]
  · exact .empty
  · rcases hreason with ⟨hq, hempty⟩ | ⟨hcap, hexpression | hnumber⟩
    · exact .quoted (trim_trim t) hq hempty
    · exact .expression (trim_trim t) hcap hexpression
    · exact .number (trim_trim t) hcap hnumber
  · -- an upper case is recognised as the text was, and it is an upper case already
    exact .capital (by rw [trim_upper, trim_trim]) (mt upper_eq_nil_iff.1 hne)
      ((isQuoted_upper _).trans hq) (isCapitalised_upper allowed type (trim_trim t) hq hcap)
      (upper_upper _)
  · exact .quoted (Part.trim_quoted _) (isQuoted_quoted _) (quoted_ne hne)

variable {allowed type} in
/-- And what is canonical stays as it is. -/
theorem IsCanonical.canonical_eq {t : Text} (h : IsCanonical allowed type t) :
    canonical allowed type t = t := by
  cases h with
  | empty => rfl
  | quoted ht hq hne => exact canonical_of_isQuoted allowed type ht hq hne
  | capital ht hne hq hcap hupper =>
    have hempty : t ≠ ['\x27', '\x27'] := by
      rintro rfl
      exact Bool.noConfusion hq
    simp [canonical, ht, hne, hempty, hcap, hq, hupper]
  | expression ht hcap hexpression =>
    have hnil : ¬(t = [] ∨ t = ['\x27', '\x27']) := by
      rintro (rfl | rfl) <;> exact absurd hexpression (by decide)
    simp [canonical, ht, hnil, hcap, hexpression]
  | number ht hcap hnumber =>
    have hnil : ¬(t = [] ∨ t = ['\x27', '\x27']) := by
      rintro (rfl | rfl) <;> exact absurd hnumber (by decide)
    simp [canonical, ht, hnil, hcap, hnumber]

/-- **A canonical form is its own canonical form**, and the texts that are their own canonical form
are those that are recognised as such. -/
theorem canonical_canonical (t : Text) :
    canonical allowed type (canonical allowed type t) = canonical allowed type t ∧
      (canonical allowed type t = t ↔ IsCanonical allowed type t) :=
  ⟨(isCanonical_canonical allowed type t).canonical_eq,
    fun h ↦ h ▸ isCanonical_canonical allowed type t, IsCanonical.canonical_eq⟩

end Canonical

end Text

/-! ### Values and parts in canonical form -/

namespace ValueRules

open Text ControlLanguage.Part

variable (rules : ValueRules)

/-- **A text that was written is written as it is.** -/
theorem writtenText_writtenText (t : Text) :
    rules.writtenText (rules.writtenText t) = rules.writtenText t := by
  rw [writtenText, writtenText]
  split_ifs
  · exact trim_trim t
  · exact (isCanonical_canonical _ _ t).canonical_eq

/-- What may become of a value that is not empty. -/
theorem writtenText_cases {t : Text} (ht : t.trim = t) (hne : t ≠ [])
    (hempty : t ≠ ['\x27', '\x27']) :
    rules.writtenText t = t ∨ rules.writtenText t = t.upper ∨ rules.writtenText t = quoted t := by
  rw [writtenText]
  split_ifs
  · exact Or.inl ht
  · rcases canonical_cases rules.allowed rules.type t with h | ⟨-, ⟨h, -⟩ | ⟨h, -⟩ | h⟩
    · rw [ht] at h
      exact absurd h.2 (not_or.2 ⟨hne, hempty⟩)
    · exact Or.inl (h.trans ht)
    · exact Or.inr (Or.inl (h.trans (congrArg upper ht)))
    · exact Or.inr (Or.inr (h.trans (congrArg quoted ht)))

/-- A tidy text has no empty literal. -/
theorem ne_of_tidy {loose : Bool} {s : Shape} {d : Nat} {t : Text} (h : Tidy loose s d t) :
    t ≠ ['\x27', '\x27'] := by
  intro heq
  generalize hu : t = u at h heq
  cases h with
  | nil => exact absurd heq.symm (List.cons_ne_nil _ _)
  | @quoted _ _ b t hb =>
    have hlength := congrArg List.length heq
    have hlong := two_lt_length_quoted hb
    rw [List.length_append, show ['\x27', '\x27'].length = 2 from rfl] at hlength
    omega
  | blank => exact absurd (List.cons.inj heq).1 (by decide)
  | opening => exact absurd (List.cons.inj heq).1 (by decide)
  | closing => exact absurd (List.cons.inj heq).1 (by decide)
  | plain hc =>
    obtain ⟨rfl, -⟩ := List.cons.inj heq
    exact absurd hc (by decide)

section Tidy

variable {loose : Bool} {s : Shape} {t : Text}

/-- **A tidy value is written as a tidy text.** -/
theorem tidy_writtenText (h : Tidy loose s 0 t) (hs : s = .blank ∨ s = .opening)
    (ht : t.trim = t) (hne : t ≠ []) : Tidy loose s 0 (rules.writtenText t) := by
  rcases rules.writtenText_cases ht hne (ne_of_tidy h) with heq | heq | heq <;> rw [heq]
  · exact h
  · exact h.upper (by rcases hs with rfl | rfl <;> exact ⟨nofun, nofun⟩) (Or.inl rfl)
  · rw [← List.append_nil (quoted t)]
    exact Tidy.quoted hne (by rcases hs with rfl | rfl <;> rfl) (Tidy.nil _)

/-- Nothing is written with white space around it. -/
theorem ink_writtenText (h : Tidy loose s 0 t) (ht : t.trim = t) (hne : t ≠ []) :
    BeginsInk (rules.writtenText t) ∧ EndsInk (rules.writtenText t) := by
  have hink : BeginsInk t ∧ EndsInk t := ht ▸ (trim_eq_nil_or_ink t).resolve_left (ht.symm ▸ hne)
  rcases rules.writtenText_cases ht hne (ne_of_tidy h) with heq | heq | heq <;> rw [heq]
  · exact hink
  · exact ⟨hink.1.upper, hink.2.upper⟩
  · exact ⟨beginsInk_quoted t, endsInk_quoted t⟩

end Tidy

/-- What is written for a part is a part. -/
theorem isPart_writtenText {t : Text} (h : IsPart t) : IsPart (rules.writtenText t) :=
  ⟨rules.tidy_writtenText h.tidy (Or.inl rfl) h.trim_eq h.ne_nil,
    (rules.ink_writtenText h.tidy h.trim_eq h.ne_nil).1.ne_nil⟩

theorem isValue_writtenText {t : Text} (h : IsValue t) : IsValue (rules.writtenText t) := by
  obtain ⟨hbegins, hends⟩ := rules.ink_writtenText h.tidy h.trim_eq h.ne_nil
  exact ⟨rules.tidy_writtenText h.tidy (Or.inr rfl) h.trim_eq h.ne_nil, trim_of_ink hbegins hends,
    hbegins.ne_nil⟩

/-- A part in parentheses was in parentheses before. -/
theorem head?_of_writtenText {t : Text} (ht : t.trim = t) (hne : t ≠ [])
    (hempty : t ≠ ['\x27', '\x27']) (hhead : (rules.writtenText t).head? = some '(') :
    t.head? = some '(' := by
  rcases rules.writtenText_cases ht hne hempty with heq | heq | heq
  · rwa [heq] at hhead
  · rw [heq] at hhead
    exact (head?_upper (by decide) (by decide)).1 hhead
  · rw [heq] at hhead
    exact absurd (Option.some.inj hhead) (by decide)

end ValueRules

end ControlLanguage
