import ControlLanguage.Text.WhiteSpace
import Mathlib.Data.List.DropRight
import Mathlib.Data.List.Infix

/-!
# Trimming a text that grows

Lines are put together piece by piece and trimmed at the end, so what matters is how trimming
commutes with appending. It does as soon as there is *ink* in between: a character that is not
white space. **A text that ends in ink is not changed by trimming its end**, whatever stands in
front of it, and likewise at the start.

The two predicates `BeginsInk` and `EndsInk` are the only facts about ink that the rest of the
theory uses.
-/

namespace ControlLanguage

/-- A blank is white space. -/
theorem isWhiteSpace_of_isBlank {c : Char} (h : isBlank c = true) : isWhiteSpace c = true := by
  simp only [isBlank, Bool.or_eq_true, decide_eq_true_eq] at h
  rcases h with rfl | rfl <;> decide

/-- What is not white space is no blank. -/
theorem isBlank_eq_false_of_ink {c : Char} (h : isWhiteSpace c = false) : isBlank c = false := by
  refine Bool.eq_false_iff.2 fun hb ↦ ?_
  rw [isWhiteSpace_of_isBlank hb] at h
  exact Bool.noConfusion h

namespace Text

/-- Whether all white space is blank can be seen character by character. -/
theorem isBlank_of_all {t : Text} (h : t.all (fun c ↦ !isWhiteSpace c || isBlank c) = true) :
    ∀ c ∈ t, isWhiteSpace c = true → isBlank c = true := by
  intro c hc hw
  simpa [hw] using List.all_eq_true.1 h c hc

/-- The first character is not white space. -/
def BeginsInk (t : Text) : Prop :=
  ∃ c u, t = c :: u ∧ isWhiteSpace c = false

/-- The last character is not white space. -/
def EndsInk (t : Text) : Prop :=
  ∃ u c, t = u ++ [c] ∧ isWhiteSpace c = false

/-- Nothing but white space. -/
def IsWhite (t : Text) : Prop :=
  ∀ c ∈ t, isWhiteSpace c = true

theorem BeginsInk.ne_nil {t : Text} (h : BeginsInk t) : t ≠ [] := by
  obtain ⟨c, u, rfl, -⟩ := h
  exact List.cons_ne_nil c u

theorem EndsInk.ne_nil {t : Text} (h : EndsInk t) : t ≠ [] := by
  obtain ⟨u, c, rfl, -⟩ := h
  simp

theorem BeginsInk.append {t : Text} (h : BeginsInk t) (u : Text) : BeginsInk (t ++ u) := by
  obtain ⟨c, v, rfl, hc⟩ := h
  exact ⟨c, v ++ u, rfl, hc⟩

theorem EndsInk.append {t : Text} (u : Text) (h : EndsInk t) : EndsInk (u ++ t) := by
  obtain ⟨v, c, rfl, hc⟩ := h
  exact ⟨u ++ v, c, by rw [List.append_assoc], hc⟩

/-- The end of a text is that of its last part. -/
theorem EndsInk.of_append {s t : Text} (h : EndsInk (s ++ t)) (ht : t ≠ []) : EndsInk t := by
  obtain ⟨u, c, hu, hc⟩ := h
  obtain ⟨v, d, rfl⟩ := (List.eq_nil_or_concat' t).resolve_left ht
  rw [← List.append_assoc] at hu
  have hcd : d = c := by simpa using (List.append_inj' hu rfl).2
  exact ⟨v, d, rfl, hcd ▸ hc⟩

theorem BeginsInk.not_isWhite {t : Text} (h : BeginsInk t) : ¬ IsWhite t := by
  obtain ⟨c, u, rfl, hc⟩ := h
  intro hw
  rw [hw c List.mem_cons_self] at hc
  exact Bool.noConfusion hc

theorem EndsInk.not_isWhite {t : Text} (h : EndsInk t) : ¬ IsWhite t := by
  obtain ⟨u, c, rfl, hc⟩ := h
  intro hw
  rw [hw c (by simp)] at hc
  exact Bool.noConfusion hc

theorem isWhite_nil : IsWhite [] := by
  intro c hc
  cases hc

theorem isWhite_blanks (n : Nat) : IsWhite (blanks n) := by
  intro c hc
  rw [List.eq_of_mem_replicate hc]
  decide

/-- Two texts are white space if each of them is. -/
theorem isWhite_append {s t : Text} : IsWhite (s ++ t) ↔ IsWhite s ∧ IsWhite t := by
  simp only [IsWhite, List.mem_append]
  exact ⟨fun h ↦ ⟨fun c hc ↦ h c (.inl hc), fun c hc ↦ h c (.inr hc)⟩,
    fun h c hc ↦ hc.elim (h.1 c) (h.2 c)⟩

/-! ### The start of a text -/

theorem trimStart_of_beginsInk {t : Text} (h : BeginsInk t) : t.trimStart = t := by
  obtain ⟨c, u, rfl, hc⟩ := h
  exact List.dropWhile_cons_of_neg (by simp [hc])

/-- White space in front of a text goes with the rest of it. -/
theorem trimStart_append_of_isWhite {s : Text} (h : IsWhite s) (t : Text) :
    (s ++ t).trimStart = t.trimStart :=
  List.dropWhile_append_of_pos h

theorem trimStart_of_isWhite {t : Text} (h : IsWhite t) : t.trimStart = [] :=
  List.dropWhile_eq_nil_iff.2 h

/-- What is left begins with ink, if anything is left. -/
theorem isWhite_or_beginsInk_trimStart (t : Text) : IsWhite t ∨ BeginsInk t.trimStart := by
  induction t with
  | nil => exact Or.inl isWhite_nil
  | cons c t ih =>
    rcases hc : isWhiteSpace c with _ | _
    · refine Or.inr ?_
      rw [trimStart_of_beginsInk ⟨c, t, rfl, hc⟩]
      exact ⟨c, t, rfl, hc⟩
    · have hstep : trimStart (c :: t) = trimStart t := List.dropWhile_cons_of_pos hc
      rw [hstep]
      refine ih.imp_left fun h d hd ↦ ?_
      rcases List.mem_cons.1 hd with rfl | hd
      · exact hc
      · exact h d hd

/-- White space in front of a text, and the trimmed text. -/
theorem exists_append_trimStart (t : Text) : ∃ w, IsWhite w ∧ t = w ++ t.trimStart :=
  ⟨t.takeWhile isWhiteSpace, fun _ ↦ List.mem_takeWhile_imp,
    List.takeWhile_append_dropWhile.symm⟩

/-- **Trimming the start reaches only up to the first ink.** -/
theorem trimStart_append {s : Text} (h : ¬ IsWhite s) (t : Text) :
    (s ++ t).trimStart = s.trimStart ++ t := by
  obtain ⟨w, hw, hs⟩ := exists_append_trimStart s
  have hink : BeginsInk s.trimStart := (isWhite_or_beginsInk_trimStart s).resolve_left h
  calc (s ++ t).trimStart = (w ++ (s.trimStart ++ t)).trimStart := by
        rw [← List.append_assoc, ← hs]
    _ = (s.trimStart ++ t).trimStart := trimStart_append_of_isWhite hw _
    _ = s.trimStart ++ t := trimStart_of_beginsInk (hink.append t)

/-- Text that begins with ink may follow anything. -/
theorem trimStart_append_of_beginsInk (s : Text) {t : Text} (h : BeginsInk t) :
    (s ++ t).trimStart = s.trimStart ++ t := by
  by_cases hs : IsWhite s
  · rw [trimStart_append_of_isWhite hs, trimStart_of_isWhite hs, trimStart_of_beginsInk h,
      List.nil_append]
  · exact trimStart_append hs t

/-! ### The end of a text -/

/-- White space at the end is taken away by a function of the library. -/
theorem trimEnd_eq_rdropWhile (t : Text) : t.trimEnd = t.rdropWhile isWhiteSpace :=
  rfl

theorem trimEnd_of_endsInk {t : Text} (h : EndsInk t) : t.trimEnd = t := by
  obtain ⟨u, c, rfl, hc⟩ := h
  exact List.rdropWhile_concat_neg _ _ _ (by simp [hc])

/-- White space behind a text goes with the rest of it. -/
theorem trimEnd_append_of_isWhite (t : Text) {w : Text} (h : IsWhite w) :
    (t ++ w).trimEnd = t.trimEnd := by
  show (((t ++ w).reverse).dropWhile _).reverse = _
  rw [List.reverse_append, List.dropWhile_append_of_pos fun c hc ↦ h c (List.mem_reverse.1 hc)]
  rfl

theorem trimEnd_of_isWhite {t : Text} (h : IsWhite t) : t.trimEnd = [] :=
  List.rdropWhile_eq_nil_iff.2 h

/-- What is left ends in ink, if anything is left. -/
theorem isWhite_or_endsInk_trimEnd (t : Text) : IsWhite t ∨ EndsInk t.trimEnd := by
  induction t using List.reverseRecOn with
  | nil => exact Or.inl isWhite_nil
  | append_singleton t c ih =>
    rcases hc : isWhiteSpace c with _ | _
    · refine Or.inr ?_
      rw [trimEnd_of_endsInk ⟨t, c, rfl, hc⟩]
      exact ⟨t, c, rfl, hc⟩
    · have hw : IsWhite [c] := by
        intro d hd
        rwa [List.mem_singleton.1 hd]
      rw [trimEnd_append_of_isWhite t hw]
      exact ih.imp_left fun h ↦ isWhite_append.2 ⟨h, hw⟩

/-- The trimmed text, and white space behind it. -/
theorem exists_trimEnd_append (t : Text) : ∃ w, IsWhite w ∧ t = t.trimEnd ++ w :=
  ⟨t.rtakeWhile isWhiteSpace, fun _ ↦ List.mem_rtakeWhile_imp, by
    rw [trimEnd_eq_rdropWhile, List.rdropWhile, List.rtakeWhile, ← List.reverse_append,
      List.takeWhile_append_dropWhile, List.reverse_reverse]⟩

/-- **Trimming the end reaches only down to the last ink.** -/
theorem trimEnd_append (s : Text) {t : Text} (h : ¬ IsWhite t) :
    (s ++ t).trimEnd = s ++ t.trimEnd := by
  obtain ⟨w, hw, ht⟩ := exists_trimEnd_append t
  have hink : EndsInk t.trimEnd := (isWhite_or_endsInk_trimEnd t).resolve_left h
  calc (s ++ t).trimEnd = ((s ++ t.trimEnd) ++ w).trimEnd := by
        rw [List.append_assoc, ← ht]
    _ = (s ++ t.trimEnd).trimEnd := trimEnd_append_of_isWhite _ hw
    _ = s ++ t.trimEnd := trimEnd_of_endsInk (hink.append s)

/-- Trimming the end keeps what ends in ink. -/
theorem infix_trimEnd {w t : Text} (hw : EndsInk w) (h : w <:+: t) : w <:+: t.trimEnd := by
  obtain ⟨u, v, rfl⟩ := h
  by_cases hv : IsWhite v
  · rw [trimEnd_append_of_isWhite _ hv, trimEnd_of_endsInk (hw.append u)]
    exact (List.suffix_append u w).isInfix
  · rw [trimEnd_append _ hv]
    exact ⟨u, trimEnd v, rfl⟩

/-- Trimming the start leaves the end. -/
theorem EndsInk.trimStart {t : Text} (h : EndsInk t) : EndsInk t.trimStart := by
  obtain ⟨w, -, ht⟩ := exists_append_trimStart t
  have hink : ¬ IsWhite t.trimStart := by
    rcases isWhite_or_beginsInk_trimStart t with h' | h'
    · exact absurd h' h.not_isWhite
    · exact h'.not_isWhite
  have hend : t.trimStart.trimEnd = t.trimStart := by
    have htrim := trimEnd_of_endsInk h
    rw [ht, trimEnd_append w hink] at htrim
    exact List.append_cancel_left htrim
  rw [← hend]
  exact (isWhite_or_endsInk_trimEnd _).resolve_left hink

/-! ### Both ends -/

theorem trim_of_isWhite {t : Text} (h : IsWhite t) : t.trim = [] := by
  rw [trim, trimStart_of_isWhite h]
  rfl

/-- Between ink there is nothing to take away. -/
theorem trim_of_ink {t : Text} (hb : BeginsInk t) (he : EndsInk t) : t.trim = t := by
  rw [trim, trimStart_of_beginsInk hb, trimEnd_of_endsInk he]

theorem trim_append_of_isWhite {s : Text} (h : IsWhite s) (t : Text) : (s ++ t).trim = t.trim := by
  rw [trim, trimStart_append_of_isWhite h, trim]

/-- White space at the front may be taken away first. -/
theorem trim_trimStart_append (s t : Text) : (s.trimStart ++ t).trim = (s ++ t).trim := by
  obtain ⟨w, hw, hs⟩ := exists_append_trimStart s
  conv_rhs => rw [hs, List.append_assoc, trim_append_of_isWhite hw]

theorem trimEnd_beginsInk {t : Text} (h : BeginsInk t) : BeginsInk t.trimEnd := by
  obtain ⟨c, u, rfl, hc⟩ := h
  by_cases hu : IsWhite u
  · have heq : trimEnd ([c] ++ u) = [c] := by
      rw [trimEnd_append_of_isWhite _ hu]
      exact trimEnd_of_endsInk ⟨[], c, rfl, hc⟩
    exact ⟨c, [], heq, hc⟩
  · exact ⟨c, trimEnd u, trimEnd_append [c] hu, hc⟩

/-- The ends may be trimmed in any order. -/
theorem trimStart_trimEnd (t : Text) : t.trimEnd.trimStart = t.trim := by
  rcases isWhite_or_beginsInk_trimStart t with h | h
  · rw [trim_of_isWhite h, trimEnd_of_isWhite h]
    rfl
  · obtain ⟨w, hw, ht⟩ := exists_append_trimStart t
    calc t.trimEnd.trimStart = (w ++ t.trimStart).trimEnd.trimStart := by rw [← ht]
      _ = (w ++ t.trimStart.trimEnd).trimStart := by rw [trimEnd_append w h.not_isWhite]
      _ = t.trimStart.trimEnd.trimStart := trimStart_append_of_isWhite hw _
      _ = t.trim := trimStart_of_beginsInk (trimEnd_beginsInk h)

/-- A trimmed text is empty or has ink at both ends. -/
theorem trim_eq_nil_or_ink (t : Text) : t.trim = [] ∨ (BeginsInk t.trim ∧ EndsInk t.trim) := by
  rcases isWhite_or_beginsInk_trimStart t with h | h
  · exact Or.inl (trim_of_isWhite h)
  · refine Or.inr ⟨trimEnd_beginsInk h, ?_⟩
    exact (isWhite_or_endsInk_trimEnd t.trimStart).resolve_left h.not_isWhite

/-- Trimming keeps what has ink at both ends. -/
theorem infix_trim {w t : Text} (hb : BeginsInk w) (he : EndsInk w) (h : w <:+: t) :
    w <:+: t.trim := by
  refine infix_trimEnd he ?_
  obtain ⟨u, v, rfl⟩ := h
  rw [List.append_assoc, trimStart_append_of_beginsInk u (hb.append v), ← List.append_assoc]
  exact ⟨trimStart u, v, rfl⟩

/-- White space is taken away once and for all. -/
theorem trim_trim (t : Text) : t.trim.trim = t.trim := by
  rcases trim_eq_nil_or_ink t with h | ⟨hb, he⟩
  · rw [h]
    rfl
  · exact trim_of_ink hb he

/-- Trimming takes nothing from the middle of a text. -/
theorem mem_of_mem_trim {t : Text} {c : Char} (h : c ∈ t.trim) : c ∈ t := by
  have hend : c ∈ t.trimStart := (List.rdropWhile_prefix isWhiteSpace _).subset h
  exact (List.dropWhile_suffix isWhiteSpace).subset hend

/-- White space is what leaves nothing. -/
theorem isWhite_iff_trim_eq_nil {t : Text} : IsWhite t ↔ t.trim = [] := by
  refine ⟨trim_of_isWhite, fun h ↦ ?_⟩
  by_contra hw
  have hink := (isWhite_or_beginsInk_trimStart t).resolve_left hw
  exact (trimEnd_beginsInk hink).ne_nil h

end Text

end ControlLanguage
