import ControlLanguage.Proofs.Parameter.Keys
import ControlLanguage.Proofs.Text.Capital

/-!
# Places in an element list

A flat key names a place: that of an element, or that of an item of an element that is a list. Its
text is the keyword, the mark and one or two decimal numerals with an underscore in between, and
**that text can be read in one way only**: the keyword has no underscore, so it ends where the mark
begins (`keyword?_key`), and a numeral has none either, so it ends where the key does or a second
numeral begins (`key_inj`). Keywords may be beginnings of each other, as `LOG` and `LOG1` are.
-/

namespace ControlLanguage

/-- The place of a text in an element list. -/
inductive ElementPlace where
  /-- The text is an element. -/
  | element (i : Nat)
  /-- The text is an item of an element that is a list. -/
  | item (i j : Nat)

namespace ElementPlace

/-- The position of the element that the text is, or that it is an item of. -/
def index : ElementPlace → Nat
  | element i => i
  | item i _ => i

/-- The flat key of a place. -/
def key (keyword : Text) : ElementPlace → Text
  | element i => ElementKey.element keyword i
  | item i j => ElementKey.item keyword i j

end ElementPlace

namespace ElementKey

/-! ### Numerals -/

/-- The decimal numeral of an index. -/
def numeral (n : Nat) : Text :=
  (toString n).toList

theorem numeral_eq (n : Nat) : numeral n = Nat.toDigits 10 n :=
  Nat.toList_repr

theorem numeral_ne_nil (n : Nat) : numeral n ≠ [] := by
  rw [numeral_eq]
  exact Nat.toDigits_ne_nil

/-- A numeral consists of digits. -/
theorem isDecimalDigit_of_mem_numeral {n : Nat} {c : Char} (h : c ∈ numeral n) :
    isDecimalDigit c = true := by
  rw [numeral_eq] at h
  rw [isDecimalDigit, Nat.isDigit_of_mem_toDigits (by decide) (by decide) h, Bool.true_or]

/-- So it has no underscore in it. -/
theorem underscore_not_mem_numeral (n : Nat) : '_' ∉ numeral n := by
  rw [numeral_eq]
  exact Nat.underscore_not_in_toDigits

/-- A number is the value of its numeral. -/
theorem numeral_inj {m n : Nat} (h : numeral m = numeral n) : m = n := by
  rw [numeral_eq, numeral_eq] at h
  rw [← @Nat.ofDigitChars_ten_toDigits m, h, Nat.ofDigitChars_ten_toDigits]

/-- A numeral ends where something else than a digit follows. -/
theorem afterDigits_numeral_append (n : Nat) {t : Text}
    (ht : ∀ c ∈ t.head?, isDecimalDigit c = false) : afterDigits (numeral n ++ t) = some t := by
  obtain ⟨c, u, hcu⟩ := List.exists_cons_of_ne_nil (numeral_ne_nil n)
  have hhead : (numeral n ++ t).head?.any isDecimalDigit = true := by
    rw [hcu]
    exact isDecimalDigit_of_mem_numeral (hcu ▸ List.mem_cons_self)
  have hdrop : t.dropWhile isDecimalDigit = t := by
    cases t with
    | nil => rfl
    | cons c t => exact List.dropWhile_cons_of_neg (by rw [ht c rfl]; decide)
  rw [afterDigits, if_pos hhead,
    List.dropWhile_append_of_pos fun c hc ↦ isDecimalDigit_of_mem_numeral hc, hdrop]

/-- The mark and an index are the end of an element key, and so are the mark and two. -/
theorem isIndexed_mark_append {t rest : Text} (h : afterDigits t = some rest)
    (hrest : rest = [] ∨ ∃ u, rest = '_' :: u ∧ afterDigits u = some []) :
    isIndexed (mark ++ t) = true := by
  have hmark : mark.isPrefixOf (mark ++ t) = true :=
    List.isPrefixOf_iff_prefix.2 (List.prefix_append mark t)
  rw [isIndexed, hmark, List.drop_left, h]
  rcases hrest with rfl | ⟨u, rfl, hu⟩
  · rfl
  · show (isEnd ('_' :: u) || (afterDigits u).any isEnd) = true
    rw [hu]
    exact Bool.or_true _

/-! ### Keys -/

/-- What follows the keyword in the key of a place. -/
def indexes : ElementPlace → Text
  | .element i => numeral i
  | .item i j => numeral i ++ '_' :: numeral j

/-- A key is a keyword, the mark and the indexes. -/
theorem key_eq (keyword : Text) (p : ElementPlace) :
    p.key keyword = keyword ++ (mark ++ indexes p) := by
  cases p with
  | element i => exact List.append_assoc ..
  | item i j =>
    show keyword ++ mark ++ numeral i ++ '_' :: numeral j = _
    rw [List.append_assoc, List.append_assoc]
    rfl

/-- The indexes of a place are read as such. -/
theorem isIndexed_indexes (p : ElementPlace) : isIndexed (mark ++ indexes p) = true := by
  have hlast : ∀ n, afterDigits (numeral n) = some [] := fun n ↦ by
    have hdigits := afterDigits_numeral_append n (t := []) fun c hc ↦ nomatch hc
    rwa [List.append_nil] at hdigits
  cases p with
  | element i => exact isIndexed_mark_append (hlast i) (Or.inl rfl)
  | item i j =>
    have hfirst : afterDigits (numeral i ++ '_' :: numeral j) = some ('_' :: numeral j) :=
      afterDigits_numeral_append i fun c hc ↦ by
        rw [← Option.some.inj hc]
        decide
    exact isIndexed_mark_append hfirst (Or.inr ⟨numeral j, rfl, hlast j⟩)

theorem upper_mark_append_indexes (p : ElementPlace) :
    (mark ++ indexes p).upper = mark ++ indexes p := by
  have hnumeral : ∀ n, ∀ c ∈ numeral n, upperChar c = [c] := by
    intro n c hc
    obtain ⟨d, hd⟩ := List.exists_mem_of_ne_nil _ (upperChar_ne_nil c)
    exact upperChar_of_isDecimalDigit hd (Or.inl (isDecimalDigit_of_mem_numeral hc))
  have hindexes : ∀ c ∈ indexes p, upperChar c = [c] := by
    intro c hc
    cases p with
    | element i => exact hnumeral i c hc
    | item i j =>
      rcases List.mem_append.1 hc with hc | hc
      · exact hnumeral i c hc
      · rcases List.mem_cons.1 hc with rfl | hc
        · decide
        · exact hnumeral j c hc
  rw [Text.upper_append, Text.upper_eq_self hindexes]
  rfl

/-- Different places have different indexes. -/
theorem indexes_inj {p q : ElementPlace} (h : indexes p = indexes q) : p = q := by
  have hmem : ∀ i j, '_' ∈ numeral i ++ '_' :: numeral j := fun i j ↦ by simp
  cases p with
  | element i =>
    cases q with
    | element k => rw [numeral_inj h]
    | item k m =>
      have hnumeral : numeral i = numeral k ++ '_' :: numeral m := h
      exact absurd (hnumeral ▸ hmem k m) (underscore_not_mem_numeral i)
  | item i j =>
    cases q with
    | element k =>
      have hnumeral : numeral i ++ '_' :: numeral j = numeral k := h
      exact absurd (hnumeral ▸ hmem i j) (underscore_not_mem_numeral k)
    | item k m =>
      obtain ⟨hi, -, hj⟩ := (List.append_cons_inj_of_notMem (underscore_not_mem_numeral i)
        (underscore_not_mem_numeral j)).1 h
      rw [numeral_inj hi, numeral_inj hj]

/-- The key of a place is in upper case if its keyword is. -/
theorem upper_key {keyword : Text} (hupper : keyword.upper = keyword) (p : ElementPlace) :
    (p.key keyword).upper = p.key keyword := by
  rw [key_eq, Text.upper_append, hupper, upper_mark_append_indexes]

/-- The search passes over a text without underscores and line feeds. -/
theorem keywordFrom_append {t : Text} (h : '_' ∉ t) (hline : '\n' ∉ t) (before rest : Text) :
    keywordFrom before (t ++ rest) = keywordFrom (t.reverse ++ before) rest := by
  induction t generalizing before with
  | nil => rfl
  | cons c t ih =>
    rw [List.mem_cons, not_or] at h hline
    rw [List.cons_append, keywordFrom_cons_of_ne (Ne.symm h.1), if_neg (Ne.symm hline.1),
      ih h.2 hline.2, List.reverse_cons, List.append_assoc]
    rfl

variable {keyword : Text} (hne : keyword ≠ []) (h : '_' ∉ keyword) (hline : '\n' ∉ keyword)

include hne h hline

/-- **The key of a place has the keyword it was made with.** -/
theorem keyword?_key (p : ElementPlace) : keyword? (p.key keyword) = some keyword := by
  have hbefore : (keyword.reverse ++ []).isEmpty = false := by simpa using hne
  rw [keyword?, key_eq, keywordFrom_append h hline]
  show (if !(keyword.reverse ++ []).isEmpty && isIndexed (mark ++ indexes p) then
    some (keyword.reverse ++ []).reverse else _) = _
  rw [hbefore, isIndexed_indexes]
  show some (keyword.reverse ++ []).reverse = some keyword
  rw [List.append_nil, List.reverse_reverse]

/-- **A key belongs to one keyword and one place.** -/
theorem key_inj {keyword' : Text} (hne' : keyword' ≠ []) (h' : '_' ∉ keyword')
    (hline' : '\n' ∉ keyword') {p q : ElementPlace} (heq : p.key keyword = q.key keyword') :
    keyword = keyword' ∧ p = q := by
  have hkeyword : keyword = keyword' := by
    have hp := keyword?_key hne h hline p
    rw [heq, keyword?_key hne' h' hline' q] at hp
    exact (Option.some.inj hp).symm
  subst hkeyword
  rw [key_eq, key_eq, List.append_cancel_left_eq, List.append_cancel_left_eq] at heq
  exact ⟨rfl, indexes_inj heq⟩

end ElementKey

end ControlLanguage
