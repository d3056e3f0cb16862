import ControlLanguage.Parameter.Rendering
import ControlLanguage.Proofs.Part.Splitting

/-!
# Parentheses around a value

A part in parentheses that enclose all of it is taken out of them as a tidy text
(`tidy_unwrapped`), and **a tidy text that is put in parentheses is taken out unchanged**
(`unwrapped_parenthesised`). Both rest on the same fact: the outer parenthesis stays open exactly as
long as the depth inside does not fall below zero.
-/

namespace ControlLanguage

open Text ValueRules

namespace Text

/-- A last character that is not the first one too is the last of the others. -/
theorem getLast?_of_cons {c d : Char} {t : Text} (h : (c :: t).getLast? = some d) (hc : c ≠ d) :
    t ≠ [] ∧ t.getLast? = some d := by
  have hne : t ≠ [] := by
    rintro rfl
    exact hc (Option.some.inj h)
  rw [List.getLast?_cons_of_ne_nil hne] at h
  exact ⟨hne, h⟩

end Text

namespace Part

section Step

variable {n m : Nesting} {c : Char} {t : Text} (ht : t ≠ []) (h : n.after c = m)

include ht h

/-- A parenthesis stays open while the depth is not zero. -/
theorem staysOpen_cons :
    staysOpen n (c :: t) = (decide (m.depth ≠ 0) && staysOpen m t) := by
  obtain ⟨d, u, rfl⟩ := List.exists_cons_of_ne_nil ht
  rw [← h]
  rfl

theorem staysOpen_cons_of_ne (hm : m.depth ≠ 0) : staysOpen n (c :: t) = staysOpen m t := by
  rw [staysOpen_cons ht h, decide_eq_true hm, Bool.true_and]

end Step

theorem depth_opened {d : Nat} (hd : 0 < d) : (opened d).depth ≠ 0 := by
  show (d : Int) ≠ 0
  omega

/-- A literal closes no parenthesis. -/
theorem staysOpen_quoted {d : Nat} (hd : 0 < d) (b : Text) {t : Text} (ht : t ≠ []) :
    staysOpen (opened d) (quoted b ++ t) = staysOpen (opened d) t := by
  have hdepth := depth_opened hd
  have hinside :
      staysOpen ⟨some '\x27', d⟩ (doubled b ++ '\x27' :: t) = staysOpen (opened d) t := by
    induction b with
    | nil => exact staysOpen_cons_of_ne ht (after_literal_quote d) hdepth
    | cons c b ih =>
      have hne : doubled b ++ '\x27' :: t ≠ [] := by simp
      by_cases hc : c = '\x27'
      · rw [hc, doubled_cons_quote, List.cons_append, List.cons_append,
          staysOpen_cons_of_ne (List.cons_ne_nil _ _) (after_literal_quote d) hdepth,
          staysOpen_cons_of_ne hne (after_quote d) hdepth, ih]
      · rw [doubled_cons_of_ne hc, List.cons_append,
          staysOpen_cons_of_ne hne (after_literal_of_ne hc d) hdepth, ih]
  rw [quoted_eq, List.cons_append, List.append_assoc, List.singleton_append,
    staysOpen_cons_of_ne (by simp) (after_quote d) hdepth, hinside]

namespace Tidy

variable {loose : Bool} {s : Shape} {d : Nat} {t : Text}

/-- A parenthesis in front of a tidy text stays open up to its end. -/
theorem staysOpen_append_closing (h : Tidy loose s d t) :
    staysOpen (opened (d + 1)) (t ++ [')']) = true := by
  have hne : ∀ u : Text, u ++ [')'] ≠ [] := by simp
  induction h with
  | nil => rfl
  | quoted _ _ _ ih =>
    rw [List.append_assoc, staysOpen_quoted (Nat.succ_pos _) _ (hne _)]
    exact ih
  | blank _ _ _ ih =>
    exact (staysOpen_cons_of_ne (hne _) (after_opened_blank _)
      (depth_opened (Nat.succ_pos _))).trans ih
  | opening _ ih =>
    exact (staysOpen_cons_of_ne (hne _) (after_opened_opening _)
      (depth_opened (Nat.succ_pos _))).trans ih
  | closing _ ih =>
    exact (staysOpen_cons_of_ne (hne _) (after_opened_closing _)
      (depth_opened (Nat.succ_pos _))).trans ih
  | plain hc _ ih =>
    exact (staysOpen_cons_of_ne (hne _) (after_opened_of_isPlain hc _)
      (depth_opened (Nat.succ_pos _))).trans ih

/-- A text whose first parenthesis stays open up to its last one, without the latter. -/
theorem exists_of_staysOpen (h : Tidy loose s d t) (hd : 0 < d)
    (hopen : staysOpen (opened d) t = true) (hlast : t.getLast? = some ')') :
    ∃ u, t = u ++ [')'] ∧ Tidy true s (d - 1) u := by
  -- the depth stays positive up to the last parenthesis, which closes the first one
  induction h with
  | nil => exact absurd hd (Nat.lt_irrefl 0)
  | @quoted s d b t hb hs _ ih =>
    have hne : t ≠ [] := by
      rintro rfl
      rw [List.append_nil, quoted_eq, ← List.cons_append, List.getLast?_concat] at hlast
      exact absurd (Option.some.inj hlast) (by decide)
    rw [List.getLast?_append_of_ne_nil _ hne] at hlast
    rw [staysOpen_quoted hd b hne] at hopen
    obtain ⟨u, rfl, hu⟩ := ih hd hopen hlast
    exact ⟨Text.quoted b ++ u, (List.append_assoc _ _ _).symm, Tidy.quoted hb hs hu⟩
  | blank _ hs _ ih =>
    obtain ⟨hne, hlast⟩ := getLast?_of_cons hlast (by decide)
    rw [staysOpen_cons_of_ne hne (after_opened_blank _) (depth_opened hd)] at hopen
    obtain ⟨u, rfl, hu⟩ := ih hd hopen hlast
    exact ⟨' ' :: u, rfl, Tidy.blank (Or.inl rfl) hs hu⟩
  | @opening s d _ _ ih =>
    obtain ⟨hne, hlast⟩ := getLast?_of_cons hlast (by decide)
    rw [staysOpen_cons_of_ne hne (after_opened_opening _) (depth_opened (Nat.succ_pos _))] at hopen
    obtain ⟨u, rfl, hu⟩ := ih (Nat.succ_pos _) hopen hlast
    obtain ⟨e, rfl⟩ := Nat.exists_eq_add_of_lt hd
    exact ⟨'(' :: u, rfl, Tidy.opening (by simpa using hu)⟩
  | @closing s d t hrest ih =>
    by_cases hne : t = []
    · subst hne
      obtain rfl := hrest.depth_eq_zero
      exact ⟨[], rfl, Tidy.nil s⟩
    · rw [List.getLast?_cons_of_ne_nil hne] at hlast
      rw [staysOpen_cons hne (after_opened_closing d), Bool.and_eq_true, decide_eq_true_eq] at hopen
      have hpos : 0 < d := by
        have : (d : Int) ≠ 0 := hopen.1
        omega
      obtain ⟨u, rfl, hu⟩ := ih hpos hopen.2 hlast
      obtain ⟨e, rfl⟩ := Nat.exists_eq_add_of_lt hpos
      exact ⟨')' :: u, rfl, Tidy.closing (by simpa using hu)⟩
  | plain hc _ ih =>
    obtain ⟨hne, hlast⟩ := getLast?_of_cons hlast (isPlain_iff.1 hc).2.2.2
    rw [staysOpen_cons_of_ne hne (after_opened_of_isPlain hc _) (depth_opened hd)] at hopen
    obtain ⟨u, rfl, hu⟩ := ih hd hopen hlast
    exact ⟨_ :: u, rfl, Tidy.plain hc hu⟩

end Tidy

/-- What follows an opening parenthesis is tidy one level deeper. -/
theorem Tidy.of_opening {loose : Bool} {s : Shape} {d : Nat} {t : Text}
    (h : Tidy loose s d ('(' :: t)) : Tidy loose .opening (d + 1) t := by
  generalize hu : '(' :: t = u at h
  cases h with
  | nil => exact absurd hu (List.cons_ne_nil _ _)
  | quoted => exact absurd (List.cons.inj hu).1 (by decide)
  | blank => exact absurd (List.cons.inj hu).1 (by decide)
  | opening hrest =>
    obtain ⟨-, rfl⟩ := List.cons.inj hu
    exact hrest
  | closing => exact absurd (List.cons.inj hu).1 (by decide)
  | plain hc =>
    obtain ⟨rfl, -⟩ := List.cons.inj hu
    exact absurd hc (by decide)

/-- A text is taken out of a parenthesis that is closed by the last character only. -/
theorem isWrapped_iff {t : Text} : isWrapped t = true ↔
    ∃ u, t.trim = '(' :: (u ++ [')']) ∧ staysOpen .outside ('(' :: (u ++ [')'])) = true := by
  simp only [isWrapped, Bool.and_eq_true, decide_eq_true_eq]
  constructor
  · rintro ⟨⟨⟨-, hhead⟩, hlast⟩, hopen⟩
    obtain ⟨v, hv⟩ := List.head?_eq_some_iff.1 hhead
    rw [hv] at hlast hopen ⊢
    obtain ⟨u, rfl⟩ := List.getLast?_eq_some_iff.1 (getLast?_of_cons hlast (by decide)).2
    exact ⟨u, rfl, hopen⟩
  · rintro ⟨u, ht, hopen⟩
    have hlength : 2 ≤ ('(' :: (u ++ [')'])).length := by
      rw [List.length_cons, List.length_append, List.length_singleton]
      omega
    rw [ht]
    exact ⟨⟨⟨hlength, rfl⟩, by rw [← List.cons_append, List.getLast?_concat]⟩, hopen⟩

/-- **What is in the parentheses of a part is tidy.** -/
theorem tidy_unwrapped {t : Text} (h : IsPart t) : Tidy true .opening 0 (unwrapped t) := by
  by_cases hwrapped : isWrapped t = true
  · obtain ⟨u, ht, hopen⟩ := isWrapped_iff.1 hwrapped
    rw [unwrapped, if_pos hwrapped, ht, List.tail_cons, List.dropLast_concat]
    rw [h.trim_eq] at ht
    subst ht
    rw [show Nesting.outside = opened 0 from rfl, staysOpen_cons_of_ne (List.concat_ne_nil _ _)
      (after_opened_opening 0) (depth_opened Nat.one_pos)] at hopen
    obtain ⟨v, hv, htidy⟩ := h.tidy.of_opening.exists_of_staysOpen Nat.one_pos hopen
      List.getLast?_concat
    rw [List.append_cancel_right hv]
    exact htidy.trim
  · rw [unwrapped, if_neg hwrapped, h.trim_eq]
    exact h.isValue.tidy

/-- A text that does not begin with a parenthesis is not in parentheses. -/
theorem unwrapped_of_head?_ne {t : Text} (h : t.trim.head? ≠ some '(') : unwrapped t = t.trim := by
  rw [unwrapped, if_neg]
  simp [isWrapped, h]

section Parentheses

variable {t : Text} (h : Tidy true .opening 0 t)

include h

theorem isPart_parenthesised : IsPart (parenthesised t) :=
  ⟨Tidy.opening h.append_closing, List.cons_ne_nil _ _⟩

/-- **What was put in parentheses is taken out unchanged.** -/
theorem unwrapped_parenthesised (ht : t.trim = t) : unwrapped (parenthesised t) = t := by
  have htrim : (parenthesised t).trim = parenthesised t := (isPart_parenthesised h).trim_eq
  have hopen : staysOpen .outside (parenthesised t) = true :=
    (staysOpen_cons_of_ne (by simp) (after_opened_opening 0) (depth_opened Nat.one_pos)).trans
      h.staysOpen_append_closing
  have hlast : (parenthesised t).getLast? = some ')' := List.getLast?_concat
  have hwrapped : isWrapped (parenthesised t) = true := by
    simp only [isWrapped, htrim, hopen, hlast, Bool.and_true]
    simp [parenthesised]
  rw [unwrapped, if_pos hwrapped, htrim]
  show Text.trim (t ++ [')']).dropLast = t
  rw [List.dropLast_concat, ht]

end Parentheses

end Part

end ControlLanguage
