import ControlLanguage.Format.Break
import Mathlib.Data.List.TakeWhile
import Mathlib.Order.Bounds.Basic

/-!
# The search for a cut

The search goes over the spans again and again, in whatever order they come, and each time a span
or a blank may carry it on. What it finds does not show that order: **it ends at the least free
position**, where no span is split and, beyond the room, the text ends or a blank stands
(`isLeast_cut`).

Two facts about one pass make this work. A pass never moves past a free position (`pass_le`), and a
position that a pass leaves alone is free (`pass_eq_iff`). Both hold for each span by itself, so the
order does not matter. Every pass but the last one moves on within the text, so the limit on their
number is not reached (`pass_cut`).
-/

namespace ControlLanguage

namespace Span

theorem hasInside_iff {s : Span} {i : Nat} : s.hasInside i = true ↔ s.start < i ∧ i < s.stop := by
  simp [hasInside]

/-- A position is only moved on. -/
theorem le_leave (i : Nat) (s : Span) : i ≤ leave i s := by
  rw [leave]
  split_ifs with h
  · exact (hasInside_iff.1 h).2.le
  · exact Nat.le_refl i

/-- A span does not carry a position past one that it does not contain. -/
theorem leave_le {s : Span} {i c : Nat} (hc : s.hasInside c = false) (hi : i ≤ c) :
    leave i s ≤ c := by
  rw [leave]
  split_ifs with h
  · by_contra hlt
    have hinside : s.hasInside c = true :=
      hasInside_iff.2 ⟨(hasInside_iff.1 h).1.trans_le hi, Nat.not_le.1 hlt⟩
    exact Bool.noConfusion (hc.symm.trans hinside)
  · exact hi

/-- It stays where no span is in the way. -/
theorem leave_eq_iff {s : Span} {i : Nat} : leave i s = i ↔ s.hasInside i = false := by
  rw [leave]
  split_ifs with h
  · have hlt := (hasInside_iff.1 h).2
    exact iff_of_false hlt.ne' (by simp [h])
  · simp [h]

/-- It is not moved beyond the end of a span. -/
theorem leave_le_of_stop_le {s : Span} {i n : Nat} (hs : s.stop ≤ n) (hi : i ≤ n) :
    leave i s ≤ n := by
  rw [leave]
  split_ifs
  · exact hs
  · exact hi

end Span

namespace Break

variable {spans : List Span} {room : Int} {t : Text} {i c : Nat}

/-- A position that splits no span and, beyond the room, is the end of the text or a blank. -/
structure IsFree (spans : List Span) (room : Int) (t : Text) (c : Nat) : Prop where
  splits_eq_false : splits spans c = false
  of_room_lt : room < c → t.length ≤ c ∨ t[c]? = some ' '

/-- A break splits no span if it is inside none. -/
theorem splits_eq_false_iff : splits spans i = false ↔ ∀ s ∈ spans, s.hasInside i = false := by
  simp [splits]

/-! ### Over the spans -/

theorem le_foldl_leave (spans : List Span) (i : Nat) : i ≤ spans.foldl Span.leave i := by
  induction spans generalizing i with
  | nil => exact Nat.le_refl i
  | cons s spans ih => exact (Span.le_leave i s).trans (ih (Span.leave i s))

/-- **No pass over the spans goes beyond a position that is free.** -/
theorem foldl_leave_le (hc : splits spans c = false) (hi : i ≤ c) :
    spans.foldl Span.leave i ≤ c := by
  rw [splits_eq_false_iff] at hc
  induction spans generalizing i with
  | nil => exact hi
  | cons s spans ih =>
    obtain ⟨hs, hspans⟩ := List.forall_mem_cons.1 hc
    exact ih hspans (Span.leave_le hs hi)

/-- A pass over the spans stays where no span is split. -/
theorem foldl_leave_eq_iff : spans.foldl Span.leave i = i ↔ splits spans i = false := by
  rw [splits_eq_false_iff]
  induction spans with
  | nil => simp
  | cons s spans ih =>
    rw [List.foldl_cons, List.forall_mem_cons, ← ih, ← Span.leave_eq_iff]
    constructor
    · intro h
      -- the position only moves on, so none of the spans has moved it
      have hs : Span.leave i s = i :=
        Nat.le_antisymm ((le_foldl_leave spans _).trans h.le) (Span.le_leave i s)
      exact ⟨hs, by rwa [hs] at h⟩
    · rintro ⟨hs, hspans⟩
      rwa [hs]

theorem foldl_leave_le_of_stop_le {n : Nat} (hspans : ∀ s ∈ spans, s.stop ≤ n) (hi : i ≤ n) :
    spans.foldl Span.leave i ≤ n := by
  induction spans generalizing i with
  | nil => exact hi
  | cons s spans ih =>
    obtain ⟨hs, hspans⟩ := List.forall_mem_cons.1 hspans
    exact ih hspans (Span.leave_le_of_stop_le hs hi)

/-! ### To the next blank -/

theorem le_nextBlank (t : Text) (i : Nat) : i ≤ nextBlank t i :=
  Nat.le_add_right i _

theorem nextBlank_le_of_length_le {n : Nat} (ht : t.length ≤ n) (hi : i ≤ n) :
    nextBlank t i ≤ n := by
  have hlen := (List.takeWhile_prefix (· ≠ ' ') (l := t.drop i)).length_le
  rw [List.length_drop] at hlen
  rw [nextBlank]
  omega

/-- A blank is not passed. -/
theorem nextBlank_le_of_getElem? (hc : t[c]? = some ' ') (hi : i ≤ c) : nextBlank t i ≤ c := by
  rw [nextBlank]
  by_contra hlt
  have hdrop : (t.drop i)[c - i]? = some ' ' := by
    rwa [List.getElem?_drop, Nat.add_sub_cancel' hi]
  rw [← List.takeWhile_append_dropWhile (p := (· ≠ ' ')) (l := t.drop i),
    List.getElem?_append_left (by omega)] at hdrop
  simpa using List.mem_takeWhile_imp (List.mem_of_getElem? hdrop)

/-- A position is its own next blank at a blank and at the end. -/
theorem nextBlank_eq_iff : nextBlank t i = i ↔ t.length ≤ i ∨ t[i]? = some ' ' := by
  rw [nextBlank, ← List.drop_eq_nil_iff, ← List.head?_drop]
  rcases t.drop i with _ | ⟨d, u⟩
  · simp
  · by_cases hd : d = ' ' <;> simp [hd]

/-! ### A pass -/

/-- A pass only moves on. -/
theorem le_pass (spans : List Span) (room : Int) (t : Text) (i : Nat) :
    i ≤ pass spans room t i := by
  have hspans := le_foldl_leave spans i
  simp only [pass]
  split_ifs
  · exact hspans.trans (le_nextBlank t _)
  · exact hspans

/-- **A pass does not move past a free position.** -/
theorem pass_le (hc : IsFree spans room t c) (hi : i ≤ c) : pass spans room t i ≤ c := by
  have hspans := foldl_leave_le hc.splits_eq_false hi
  simp only [pass]
  split_ifs with hroom
  · rcases hc.of_room_lt (by omega) with hlen | hblank
    · exact nextBlank_le_of_length_le hlen hspans
    · exact nextBlank_le_of_getElem? hblank hspans
  · exact hspans

/-- **A position that a pass leaves alone is free.** -/
theorem pass_eq_iff : pass spans room t i = i ↔ IsFree spans room t i := by
  have hspans := le_foldl_leave spans i
  have hblank := le_nextBlank t (spans.foldl Span.leave i)
  constructor
  · intro h
    have hstay : spans.foldl Span.leave i = i := by
      simp only [pass] at h
      split_ifs at h <;> omega
    refine ⟨foldl_leave_eq_iff.1 hstay, fun hroom ↦ ?_⟩
    simp only [pass, hstay, if_pos hroom] at h
    exact nextBlank_eq_iff.1 h
  · intro h
    have hstay := foldl_leave_eq_iff.2 h.splits_eq_false
    simp only [pass, hstay]
    split_ifs with hroom
    · exact nextBlank_eq_iff.2 (h.of_room_lt hroom)
    · rfl

/-- It does not go beyond the text. -/
theorem pass_le_of_length_le {n : Nat} (hspans : ∀ s ∈ spans, s.stop ≤ n) (ht : t.length ≤ n)
    (hi : i ≤ n) : pass spans room t i ≤ n := by
  have hleave := foldl_leave_le_of_stop_le hspans hi
  simp only [pass]
  split_ifs
  · exact nextBlank_le_of_length_le ht hleave
  · exact hleave

/-! ### All passes -/

/-- So the search only moves on. -/
theorem le_settle (limit i : Nat) : i ≤ settle spans room t limit i := by
  induction limit generalizing i with
  | zero => exact Nat.le_refl i
  | succ limit ih =>
    simp only [settle]
    split_ifs
    · exact Nat.le_refl i
    · exact (le_pass spans room t i).trans (ih _)

/-- **The search goes to no free position but the first.** -/
theorem settle_le (hc : IsFree spans room t c) (limit : Nat) (hi : i ≤ c) :
    settle spans room t limit i ≤ c := by
  induction limit generalizing i with
  | zero => exact hi
  | succ limit ih =>
    simp only [settle]
    split_ifs
    · exact hi
    · exact ih (pass_le hc hi)

/-- The position stays once the passes have been as many as there is room to move. -/
theorem pass_settle {n limit : Nat} (hspans : ∀ s ∈ spans, s.stop ≤ n) (ht : t.length ≤ n)
    (hi : i ≤ n) (hlimit : n ≤ i + limit) :
    pass spans room t (settle spans room t limit i) = settle spans room t limit i := by
  induction limit generalizing i with
  | zero =>
    have hle : pass spans room t i ≤ n := pass_le_of_length_le hspans ht hi
    have hge := le_pass spans room t i
    show pass spans room t i = i
    omega
  | succ limit ih =>
    have hge := le_pass spans room t i
    simp only [settle]
    split_ifs with hstay
    · exact hstay
    · exact ih (pass_le_of_length_le hspans ht hi) (by omega)

/-- **The search ends by itself**: another pass would not move the cut. -/
theorem pass_cut (hspans : ∀ s ∈ spans, s.stop ≤ t.length) :
    pass spans room t (cut spans room t) = cut spans room t := by
  -- the empty text has the position behind its first character too
  refine pass_settle (n := max 1 t.length) (fun s hs ↦ (hspans s hs).trans (le_max_right _ _))
    (le_max_right _ _) ?_ ?_
  · rw [earliest]
    omega
  · rw [earliest]
    omega

/-- A cut falls no earlier than it has to. -/
theorem earliest_le_cut : earliest room t ≤ cut spans room t :=
  le_settle _ _

/-- **The cut is the least free position** from the earliest one on. -/
theorem isLeast_cut (room : Int) (hspans : ∀ s ∈ spans, s.stop ≤ t.length) :
    IsLeast {c | earliest room t ≤ c ∧ IsFree spans room t c} (cut spans room t) :=
  ⟨⟨earliest_le_cut, pass_eq_iff.1 (pass_cut hspans)⟩, fun _ ⟨hle, hfree⟩ ↦ settle_le hfree _ hle⟩

/-- The cut is in the text, or behind the first character where there is none. -/
theorem cut_le_length (room : Int) (hspans : ∀ s ∈ spans, s.stop ≤ t.length) :
    cut spans room t ≤ max 1 t.length := by
  refine (isLeast_cut room hspans).2 ⟨?_, ?_, fun _ ↦ Or.inl (le_max_right _ _)⟩
  · rw [earliest]
    omega
  · refine splits_eq_false_iff.2 fun s hs ↦ Bool.eq_false_iff.2 fun h ↦ ?_
    have hlt := (Span.hasInside_iff.1 h).2
    have hstop := hspans s hs
    omega

end Break

end ControlLanguage
