import ControlLanguage.Proofs.Format.Search
import Mathlib.Data.List.Infix
import Mathlib.Data.Nat.Find

/-!
# Places to break

The wrap loop looks for spans in the text that is left, so the same atom is found again and again
from different starting points. `SplitsAtom` says what it finds in terms of the text alone, and
`SplitsAtom.of_append` is the reason why forgetting the text in front does no harm: **an atom that
begins in front of a permitted break does not reach behind it**.

The last usable blank and the cut are then characterised by the parts into which they divide the
text.
-/

namespace ControlLanguage

namespace Text

/-- No blank stands at the start or at the end. -/
def IsUnpadded (t : Text) : Prop :=
  t.head? ≠ some ' ' ∧ t.getLast? ≠ some ' '

theorem mem_occurrencesFrom {piece t : Text} (h : piece ≠ []) {start i : Nat} :
    i ∈ occurrencesFrom start piece t ↔ ∃ j, i = start + j ∧ piece <+: t.drop j := by
  have hempty : piece.isEmpty = false := by simpa using h
  induction t generalizing start with
  | nil => simp [occurrencesFrom, hempty, h]
  | cons c t ih =>
    have hlater : (∃ j, i = start + 1 + j ∧ piece <+: t.drop j) ↔
        ∃ j, i = start + (j + 1) ∧ piece <+: (c :: t).drop (j + 1) := by
      simp only [List.drop_succ_cons, Nat.add_assoc, Nat.add_comm 1]
    have hsplit : (∃ j, i = start + j ∧ piece <+: (c :: t).drop j) ↔
        (i = start ∧ piece <+: c :: t) ∨ ∃ j, i = start + (j + 1) ∧
          piece <+: (c :: t).drop (j + 1) := by
      constructor
      · rintro ⟨_ | j, hi, hj⟩
        · exact Or.inl ⟨hi, hj⟩
        · exact Or.inr ⟨j, hi, hj⟩
      · rintro (⟨hi, hj⟩ | ⟨j, hi, hj⟩)
        · exact ⟨0, hi, hj⟩
        · exact ⟨j + 1, hi, hj⟩
    have hrec : i ∈ occurrencesFrom (start + 1) piece t ↔
        ∃ j, i = start + 1 + j ∧ piece <+: t.drop j := ih
    rw [hsplit, ← hlater, occurrencesFrom]
    by_cases hp : piece <+: c :: t
    · rw [if_pos (List.isPrefixOf_iff_prefix.2 hp), List.mem_cons, hrec]
      simp only [hp, and_true]
    · rw [if_neg (mt List.isPrefixOf_iff_prefix.1 hp), hrec]
      simp only [hp, and_false, false_or]

/-- A piece occurs where the rest of the text begins with it. -/
theorem mem_occurrences {piece t : Text} (h : piece ≠ []) {i : Nat} :
    i ∈ occurrences piece t ↔ piece <+: t.drop i := by
  simp [occurrences, mem_occurrencesFrom h]

end Text

/-- The span of an atom ends within the text. -/
theorem Span.stop_le_length {atoms : List Text} {t : Text} {s : Span}
    (h : s ∈ Span.ofAtoms atoms t) : s.stop ≤ t.length := by
  simp only [Span.ofAtoms, List.mem_flatMap, List.mem_filter, List.mem_map,
    decide_eq_true_eq] at h
  obtain ⟨a, ⟨-, hlen⟩, i, hi, rfl⟩ := h
  have hprefix := (Text.mem_occurrences (List.ne_nil_of_length_pos (by omega))).1 hi
  have hle := hprefix.length_le
  rw [List.length_drop] at hle
  simp only
  omega

namespace Break

/-- A break at position `i` of a text splits an occurrence of an atom. -/
def SplitsAtom (atoms : List Text) (t : Text) (i : Nat) : Prop :=
  ∃ a ∈ atoms, ∃ j, a <+: t.drop j ∧ j < i ∧ i < j + a.length

theorem splits_ofAtoms {atoms : List Text} {t : Text} {i : Nat} :
    splits (Span.ofAtoms atoms t) i = true ↔ SplitsAtom atoms t i := by
  simp only [splits, Span.ofAtoms, List.any_eq_true, List.mem_flatMap, List.mem_filter,
    List.mem_map, Span.hasInside, Bool.and_eq_true, decide_eq_true_eq]
  constructor
  · rintro ⟨_, ⟨a, ⟨ha, hlen⟩, j, hj, rfl⟩, hji, hi⟩
    have hne : a ≠ [] := List.ne_nil_of_length_pos (by omega)
    exact ⟨a, ha, j, (Text.mem_occurrences hne).1 hj, hji, hi⟩
  · rintro ⟨a, ha, j, hj, hji, hi⟩
    -- a position strictly inside leaves room for two characters
    have hlen : 2 ≤ a.length := by omega
    have hne : a ≠ [] := List.ne_nil_of_length_pos (by omega)
    exact ⟨_, ⟨a, ⟨ha, hlen⟩, j, (Text.mem_occurrences hne).2 hj, rfl⟩, hji, hi⟩

theorem splits_ofAtoms_eq_false {atoms : List Text} {t : Text} {i : Nat} :
    splits (Span.ofAtoms atoms t) i = false ↔ ¬ SplitsAtom atoms t i := by
  rw [← splits_ofAtoms, Bool.not_eq_true]

/-- Text in front of an atom does not matter. -/
theorem SplitsAtom.append {atoms : List Text} {t : Text} {i : Nat} (x : Text)
    (h : SplitsAtom atoms t i) : SplitsAtom atoms (x ++ t) (x.length + i) := by
  obtain ⟨a, ha, j, hj, hji, hi⟩ := h
  refine ⟨a, ha, x.length + j, ?_, by omega, by omega⟩
  rwa [List.drop_length_add_append]

/-- **An atom that begins in front of a permitted break does not reach behind it.** -/
theorem SplitsAtom.of_append {atoms : List Text} {x t : Text} {i : Nat}
    (h : SplitsAtom atoms (x ++ t) (x.length + i)) (hx : ¬ SplitsAtom atoms (x ++ t) x.length)
    (hi : 0 < i) : SplitsAtom atoms t i := by
  obtain ⟨a, ha, j, hj, hji, hlen⟩ := h
  have hstart : x.length ≤ j := by
    by_contra hlt
    exact hx ⟨a, ha, j, hj, by omega, by omega⟩
  refine ⟨a, ha, j - x.length, ?_, by omega, by omega⟩
  rwa [← List.drop_length_add_append (j - x.length), Nat.add_sub_cancel' hstart]

/-- Nor does it matter for a break behind it that a blank is dropped, which begins no atom. -/
theorem SplitsAtom.of_cons {atoms : List Text} {c : Char} {t : Text} {i : Nat}
    (h : SplitsAtom atoms (c :: t) (i + 1)) (hatoms : ∀ a ∈ atoms, a.head? ≠ some c) :
    SplitsAtom atoms t i := by
  obtain ⟨a, ha, j, hj, hji, hlen⟩ := h
  cases j with
  | zero =>
    rcases List.prefix_cons_iff.1 hj with rfl | ⟨u, rfl, -⟩
    · simp at hlen
    · exact absurd rfl (hatoms _ ha)
  | succ j => exact ⟨a, ha, j, hj, by omega, by omega⟩

/-- A break that splits an atom only in front of a character has that character at the end of the
atom. -/
theorem SplitsAtom.exists_getLast? {atoms : List Text} {x y : Text} {c : Char}
    (h : SplitsAtom atoms (x ++ c :: y) x.length)
    (h' : ¬ SplitsAtom atoms (x ++ c :: y) (x.length + 1)) :
    ∃ a ∈ atoms, a.getLast? = some c := by
  obtain ⟨a, ha, j, hj, hji, hlen⟩ := h
  have hstop : j + a.length = x.length + 1 := by
    by_contra hne
    exact h' ⟨a, ha, j, hj, by omega, by omega⟩
  refine ⟨a, ha, ?_⟩
  obtain ⟨rest, hrest⟩ := hj
  have hget : (a ++ rest)[a.length - 1]? = (x ++ c :: y)[x.length]? := by
    rw [hrest, List.getElem?_drop]
    congr 1
    omega
  rw [List.getElem?_append_left (by omega)] at hget
  rw [List.getLast?_eq_getElem?, hget]
  simp

/-! ### The last usable blank -/

section Last

variable {spans : List Span} {room : Int} {t : Text}

theorem isUsable_iff {i : Nat} :
    isUsable spans t i = true ↔ ∃ x y, t = x ++ ' ' :: y ∧ x.length = i ∧ x ≠ [] ∧
      x.getLast? ≠ some '(' ∧ splits spans i = false := by
  simp only [isUsable, Bool.and_eq_true, decide_eq_true_eq, Bool.not_eq_true', ne_eq, and_assoc]
  constructor
  · rintro ⟨hi, hblank, hlast, hsplit⟩
    obtain ⟨hlt, hget⟩ := List.getElem?_eq_some_iff.1 hblank
    have hlen : (t.take i).length = i := List.length_take_of_le (Nat.le_of_lt hlt)
    refine ⟨t.take i, t.drop (i + 1), ?_, hlen, ?_, ?_, hsplit⟩
    · rw [← hget, ← List.drop_eq_getElem_cons hlt, List.take_append_drop]
    · rintro hnil
      rw [hnil, List.length_nil] at hlen
      exact absurd hlen (Nat.ne_of_lt hi)
    · rwa [List.getLast?_eq_getElem?, hlen, List.getElem?_take_of_lt (Nat.sub_one_lt_of_lt hi)]
  · rintro ⟨x, y, rfl, rfl, hne, hlast, hsplit⟩
    have hpos : 0 < x.length := List.length_pos_iff.2 hne
    refine ⟨hpos, by simp, ?_, hsplit⟩
    rwa [List.getElem?_append_left (Nat.sub_one_lt_of_lt hpos), ← List.getLast?_eq_getElem?]

/-- A position of a usable blank is not the last one that `last?` looks at or later. -/
theorem mem_candidates {i : Nat} (hi : 0 < i) :
    i ∈ (List.range (min room (t.length - 1)).toNat.succ).reverse ↔
      (i : Int) ≤ room ∧ i + 1 ≤ t.length := by
  rw [List.mem_reverse, List.mem_range]
  omega

/-- The last usable blank divides the text. -/
theorem exists_of_last? {i : Nat} (h : last? spans room t = some i) :
    ∃ x y, t = x ++ ' ' :: y ∧ x.length = i ∧ x ≠ [] ∧ x.getLast? ≠ some '(' ∧
      splits spans i = false ∧ (i : Int) ≤ room := by
  obtain ⟨x, y, ht, hx, hne, hlast, hsplit⟩ := isUsable_iff.1 (List.find?_some h)
  have hi : 0 < i := hx ▸ List.length_pos_iff.2 hne
  have hroom := ((mem_candidates hi).1 (List.mem_of_find?_eq_some h)).1
  exact ⟨x, y, ht, hx, hne, hlast, hsplit, hroom⟩

/-- Without a usable blank, a blank within the room belongs to an atom, or stands at the start or
behind an opening parenthesis. -/
theorem splits_of_last?_eq_none (h : last? spans room t = none) {x y : Text}
    (ht : t = x ++ ' ' :: y) (hne : x ≠ []) (hlast : x.getLast? ≠ some '(')
    (hroom : (x.length : Int) ≤ room) : splits spans x.length = true := by
  by_contra hsplit
  rw [Bool.not_eq_true] at hsplit
  have husable : isUsable spans t x.length = true :=
    isUsable_iff.2 ⟨x, y, ht, rfl, hne, hlast, hsplit⟩
  have hmem : x.length ∈ (List.range (min room (t.length - 1)).toNat.succ).reverse := by
    refine (mem_candidates (List.length_pos_iff.2 hne)).2 ⟨hroom, ?_⟩
    rw [ht, List.length_append, List.length_cons]
    omega
  exact absurd husable (by simpa using List.find?_eq_none.1 h _ hmem)

end Last

/-! ### The cut -/

section Cut

variable {atoms : List Text} {room : Int} {t : Text}

/-- The cut is free, at least one character from the start and within the text. -/
theorem cut_spec (atoms : List Text) (room : Int) (ht : t ≠ []) :
    IsFree (Span.ofAtoms atoms t) room t (cut (Span.ofAtoms atoms t) room t) ∧
      1 ≤ cut (Span.ofAtoms atoms t) room t ∧ cut (Span.ofAtoms atoms t) room t ≤ t.length := by
  have hspans : ∀ s ∈ Span.ofAtoms atoms t, s.stop ≤ t.length := fun _ ↦ Span.stop_le_length
  obtain ⟨⟨hearliest, hfree⟩, -⟩ := isLeast_cut room hspans
  have hlen := List.length_pos_iff.2 ht
  have hle := cut_le_length room hspans
  rw [earliest] at hearliest
  exact ⟨hfree, by omega, by omega⟩

/-- The cut divides the text. -/
theorem exists_of_cut (atoms : List Text) (room : Int) (ht : t ≠ []) :
    ∃ x y, t = x ++ y ∧ x.length = cut (Span.ofAtoms atoms t) room t ∧ x ≠ [] ∧
      ¬ SplitsAtom atoms t x.length ∧ ((x.length : Int) ≤ room ∨ ∀ c ∈ y.head?, c = ' ') := by
  obtain ⟨hfree, hpos, hle⟩ := cut_spec atoms room ht
  generalize cut (Span.ofAtoms atoms t) room t = n at *
  have hx : (t.take n).length = n := List.length_take_of_le hle
  refine ⟨t.take n, t.drop n, (List.take_append_drop n t).symm, hx, ?_, ?_, ?_⟩
  · exact List.ne_nil_of_length_pos (hx.symm ▸ hpos)
  · rw [hx]
    exact splits_ofAtoms_eq_false.1 hfree.splits_eq_false
  · rw [hx]
    refine or_iff_not_imp_left.2 fun hroom c hc ↦ ?_
    rw [List.head?_drop, Option.mem_def] at hc
    rcases hfree.of_room_lt (Int.not_le.1 hroom) with h | h
    · rw [List.getElem?_eq_none h] at hc
      cases hc
    · exact (Option.some.inj (h.symm.trans hc)).symm

end Cut

end Break

end ControlLanguage
