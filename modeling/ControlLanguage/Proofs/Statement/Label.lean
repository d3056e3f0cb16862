import ControlLanguage.Proofs.Text.LetterCase
import ControlLanguage.Statement.Label

/-!
# Labels that are written and read

A label is read from a text that begins with label characters, but only if a colon comes next. So
two things have to be shown of a formatted statement: the label in front is read as it was written,
and **a statement without a label does not get one**, although its command name may well consist of
label characters and hold colons.
-/

namespace ControlLanguage

namespace Statement

open Text

/-- A word that can be a label. -/
def IsLabel (t : Text) : Prop :=
  (∃ c ∈ t.head?, isNameStart c = true) ∧ ∀ c ∈ t, isLabelChar c = true

theorem isLabelChar_of_isNameStart {c : Char} (h : isNameStart c = true) :
    isLabelChar c = true := by
  simp [isLabelChar, h]

/-- When a text has a label. -/
theorem label?_eq_some_iff {t : Text} (h : BeginsInk t) {label rest : Text} :
    label? t = some (label, rest) ↔ (∃ c ∈ t.head?, isNameStart c = true) ∧
      label = t.takeWhile isLabelChar ∧ trimStart (t.dropWhile isLabelChar) = ':' :: rest := by
  obtain ⟨c, u, rfl, hc⟩ := h
  have htrim : trimStart (c :: u) = c :: u := trimStart_of_beginsInk ⟨c, u, rfl, hc⟩
  simp only [label?, htrim, List.head?_cons, Option.mem_def, Option.some.injEq, exists_eq_left']
  by_cases hname : isNameStart c = true
  · simp only [hname, if_true, true_and]
    split
    next rest' hcolon =>
      simp only [hcolon, Option.some.injEq, Prod.mk.injEq, List.cons.injEq, true_and]
      exact and_congr_left fun _ ↦ eq_comm
    next hother =>
      constructor
      · simp
      · rintro ⟨-, hcolon⟩
        exact absurd hcolon (hother rest)
  · simp [hname]

/-- Indentation does not count for a label. -/
theorem label?_trimStart (t : Text) : label? t.trimStart = label? t := by
  rcases isWhite_or_beginsInk_trimStart t with h | h
  · rw [label?, label?, trimStart_of_isWhite h]
    rfl
  · rw [label?, label?, trimStart_of_beginsInk h]

/-- Text behind a label does not matter. -/
theorem label?_append {t label rest : Text} (h : BeginsInk t)
    (hread : label? t = some (label, rest))
    (u : Text) : label? (t ++ u) = some (label, rest ++ u) := by
  obtain ⟨hstart, rfl, hdrop⟩ := (label?_eq_some_iff h).1 hread
  have hne : t.dropWhile isLabelChar ≠ [] := by
    intro hnil
    rw [hnil] at hdrop
    simp [trimStart] at hdrop
  have hwhite : ¬ IsWhite (t.dropWhile isLabelChar) := by
    intro hwhite
    rw [trimStart_of_isWhite hwhite] at hdrop
    simp at hdrop
  refine (label?_eq_some_iff (h.append u)).2 ⟨?_, ?_, ?_⟩
  · rwa [List.head?_append_of_ne_nil _ h.ne_nil]
  · rw [List.takeWhile_append, if_neg]
    intro hlen
    refine hne (List.dropWhile_eq_nil_iff.2 fun c hc ↦ ?_)
    have heq := (List.takeWhile_prefix isLabelChar (l := t)).eq_of_length hlen
    rw [← heq] at hc
    exact List.mem_takeWhile_imp hc
  · rw [List.dropWhile_append, if_neg (by simpa using hne), trimStart_append hwhite, hdrop,
      List.cons_append]

/-- A statement without a label has none when the blanks around it are dropped. -/
theorem label?_trim_eq_none {t : Text} (h : label? t = none) : label? t.trim = none := by
  by_contra hsome
  obtain ⟨⟨label, rest⟩, hread⟩ := Option.ne_none_iff_exists'.1 hsome
  rcases trim_eq_nil_or_ink t with hnil | ⟨hink, -⟩
  · rw [hnil] at hread
    simp [label?, trimStart] at hread
  · obtain ⟨w, -, hw⟩ := exists_trimEnd_append t.trimStart
    have hread' := label?_append hink hread w
    rw [trim, ← hw, label?_trimStart, h] at hread'
    simp at hread'

/-- What is read as a label is a word that can be one. -/
theorem isLabel_of_label? {t label rest : Text} (h : label? t = some (label, rest)) :
    IsLabel label := by
  rcases isWhite_or_beginsInk_trimStart t with hwhite | hink
  · rw [label?, trimStart_of_isWhite hwhite] at h
    simp at h
  · obtain ⟨⟨c, hc, hname⟩, rfl, -⟩ := (label?_eq_some_iff hink).1 ((label?_trimStart t).trans h)
    obtain ⟨u, hu⟩ : ∃ u, t.trimStart = c :: u := by
      cases hcases : t.trimStart with
      | nil => simp [hcases] at hc
      | cons d u =>
        rw [hcases] at hc
        exact ⟨u, by rw [Option.some.inj hc]⟩
    refine ⟨⟨c, ?_, hname⟩, fun d hd ↦ List.mem_takeWhile_imp hd⟩
    rw [hu, List.takeWhile_cons_of_pos (isLabelChar_of_isNameStart hname)]
    rfl

theorem IsLabel.beginsInk {t : Text} (h : IsLabel t) : BeginsInk t := by
  obtain ⟨⟨c, hc, hname⟩, -⟩ := h
  cases t with
  | nil => simp at hc
  | cons d u =>
    obtain rfl := Option.some.inj hc
    exact ⟨d, u, rfl, isWhiteSpace_of_isLabelChar (isLabelChar_of_isNameStart hname)⟩

/-- A label in ASCII is one in either case. -/
theorem IsLabel.apply (k : KeywordCase) {t : Text} (h : IsLabel t) (ht : t.IsAscii) :
    IsLabel (k.apply t) := by
  obtain ⟨⟨c, hc, hname⟩, hall⟩ := h
  rw [k.apply_of_isAscii ht]
  constructor
  · cases t with
    | nil => simp at hc
    | cons d u =>
      obtain rfl := Option.some.inj hc
      exact ⟨k.char d, rfl, by rwa [k.isNameStart_char (ht d List.mem_cons_self)]⟩
  · intro e he
    obtain ⟨d, hd, rfl⟩ := List.mem_map.1 he
    rw [k.isLabelChar_char (ht d hd)]
    exact hall d hd

/-- **A label is read as it was written**, with the text behind its colon. -/
theorem ofText_labelled {label t : Text} (hlabel : IsLabel label) (n : Nat) (hbegin : BeginsInk t)
    (hend : EndsInk t) :
    ofText (label ++ ':' :: (blanks n ++ t)) = ⟨some label, t⟩ := by
  have hcolon : isLabelChar ':' = false := by decide
  have hread : label? (label ++ ':' :: (blanks n ++ t)) = some (label, blanks n ++ t) := by
    refine (label?_eq_some_iff (hlabel.beginsInk.append _)).2 ⟨?_, ?_, ?_⟩
    · obtain ⟨⟨c, hc, hname⟩, -⟩ := hlabel
      refine ⟨c, ?_, hname⟩
      rw [List.head?_append, Option.mem_def.1 hc]
      rfl
    · rw [List.takeWhile_append_of_pos hlabel.2, List.takeWhile_cons_of_neg (by simp [hcolon]),
        List.append_nil]
    · rw [List.dropWhile_append_of_pos hlabel.2, List.dropWhile_cons_of_neg (by simp [hcolon])]
      exact trimStart_of_beginsInk ⟨':', _, rfl, by decide⟩
  rw [ofText, hread]
  simp only [trim_append_of_isWhite (isWhite_blanks n), trim_of_ink hbegin hend]

theorem head?_apply (k : KeywordCase) {t : Text} (ht : t.IsAscii) :
    (∃ c ∈ (k.apply t).head?, isNameStart c = true) ↔ ∃ c ∈ t.head?, isNameStart c = true := by
  rw [k.apply_of_isAscii ht]
  cases t with
  | nil => simp
  | cons c t => simp [k.isNameStart_char (ht c List.mem_cons_self)]

/-- What is behind the name of a label is the same in either case. -/
theorem dropWhile_apply (k : KeywordCase) {t : Text} (ht : t.IsAscii) :
    (k.apply t).dropWhile isLabelChar = (t.dropWhile isLabelChar).map k.char := by
  rw [k.apply_of_isAscii ht, List.dropWhile_map]
  congr 1
  induction t with
  | nil => rfl
  | cons c t ih =>
    obtain ⟨hc, ht⟩ := isAscii_cons.1 ht
    have hchar : (isLabelChar ∘ k.char) c = isLabelChar c := k.isLabelChar_char hc
    by_cases hlabel : isLabelChar c = true
    · rw [List.dropWhile_cons_of_pos (hchar.trans hlabel), List.dropWhile_cons_of_pos hlabel, ih ht]
    · rw [List.dropWhile_cons_of_neg (by rwa [hchar]), List.dropWhile_cons_of_neg hlabel]

/-- **A command name is not read as a label in another case, if it is not as it stands**, whatever
comes behind it, as long as that is nothing or stands behind a blank and is not a colon. -/
theorem label?_eq_none_of_apply (k : KeywordCase) {name t t' : Text} (hname : name.IsAscii)
    (hink : BeginsInk name) (hink' : BeginsInk (k.apply name))
    (hwhite : (∃ c ∈ name.head?, isNameStart c = true) → ∀ c ∈ name, isWhiteSpace c = false)
    (ht' : t' = [] ∨ ∃ u, t' = ' ' :: u ∧ ∀ rest, trimStart u ≠ ':' :: rest)
    (h : label? (name ++ t) = none) : label? (k.apply name ++ t') = none := by
  by_contra hsome
  obtain ⟨⟨label, rest⟩, hread⟩ := Option.ne_none_iff_exists'.1 hsome
  obtain ⟨hstart, -, hdrop⟩ := (label?_eq_some_iff (hink'.append t')).1 hread
  have hstart' : ∃ c ∈ name.head?, isNameStart c = true := by
    rw [List.head?_append_of_ne_nil _ hink'.ne_nil] at hstart
    exact (head?_apply k hname).1 hstart
  rw [List.dropWhile_append, dropWhile_apply k hname] at hdrop
  -- a label is told by what stands behind the characters that a label may have
  rcases hcases : name.dropWhile isLabelChar with _ | ⟨d, u⟩
  · -- all of the name could be a label, so what matters stands behind it
    simp only [hcases, List.map_nil, List.isEmpty_nil, if_true] at hdrop
    rcases ht' with rfl | ⟨u, rfl, hu⟩
    · simp [trimStart] at hdrop
    · rw [List.dropWhile_cons_of_neg (by decide)] at hdrop
      exact hu rest hdrop
  · -- the name goes on with another character, which is a colon exactly if it was one
    have hmem : d ∈ name := (List.dropWhile_suffix _).subset (hcases ▸ List.mem_cons_self)
    have hd : isWhiteSpace d = false := hwhite hstart' d hmem
    have hd' : isWhiteSpace (k.char d) = false := by rwa [k.isWhiteSpace_char (hname d hmem)]
    simp only [hcases, List.map_cons, List.isEmpty_cons, Bool.false_eq_true, if_false] at hdrop
    rw [List.cons_append, trimStart_of_beginsInk ⟨_, _, rfl, hd'⟩] at hdrop
    obtain rfl := (k.char_eq_iff (hname d hmem) (by decide)).1 (List.cons.inj hdrop).1
    have hread' : label? (name ++ t) = some ((name ++ t).takeWhile isLabelChar, u ++ t) := by
      refine (label?_eq_some_iff (hink.append t)).2 ⟨?_, rfl, ?_⟩
      · rwa [List.head?_append_of_ne_nil _ hink.ne_nil]
      · rw [List.dropWhile_append, hcases]
        exact trimStart_of_beginsInk ⟨':', u ++ t, rfl, hd⟩
    rw [h] at hread'
    simp at hread'

end Statement

end ControlLanguage
