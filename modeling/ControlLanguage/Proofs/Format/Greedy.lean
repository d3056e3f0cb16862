import ControlLanguage.Proofs.Format.Breaking
import ControlLanguage.Proofs.Format.Termination

/-!
# How far a line is filled

The wrap loop is greedy: **of the blanks at which a line may end it takes the last one within the
room**. So a break in front of a place to break happens only if that place is out of reach, and a
stretch of text that could be put on a line with the text behind it up to such a place is not
broken (`Piece.FitsAt`). And no break comes behind the last place to break as long as the word there
fits on a continuation line (`Piece.EndFits`).

Both need the places to break to stay what they are when the loop goes on with the rest of the text.
They do, because a break splits no atom.
-/

namespace ControlLanguage

open Text

/-! ### Places to break -/

namespace Break

section

variable {spans : List Span} {room : Int} {t : Text} {i k : Nat}

theorem pos_and_lt_of_isUsable (h : isUsable spans t i = true) : 0 < i ∧ i < t.length := by
  obtain ⟨x, y, rfl, rfl, hne, -⟩ := isUsable_iff.1 h
  refine ⟨List.length_pos_iff.2 hne, ?_⟩
  rw [List.length_append, List.length_cons]
  omega

theorem getElem?_of_isUsable (h : isUsable spans t i = true) : t[i]? = some ' ' := by
  simp only [isUsable, Bool.and_eq_true, decide_eq_true_eq] at h
  exact h.1.1.2

/-- **The last usable blank is the last one.** -/
theorem le_of_last?_eq_some (h : last? spans room t = some k) (hi : isUsable spans t i = true)
    (hroom : (i : Int) ≤ room) : i ≤ k := by
  obtain ⟨hpos, hlt⟩ := pos_and_lt_of_isUsable hi
  have hmem := (mem_candidates hpos).2 ⟨hroom, hlt⟩
  rw [last?, List.find?_eq_some_iff_append] at h
  obtain ⟨-, later, earlier, hsplit, hlater⟩ := h
  have hsorted : (later ++ k :: earlier).Pairwise (· > ·) := by
    rw [← hsplit, List.pairwise_reverse]
    exact List.pairwise_lt_range
  rw [hsplit] at hmem
  rcases List.mem_append.1 hmem with hmem | hmem
  · have hnot := hlater i hmem
    rw [hi] at hnot
    exact absurd hnot (by decide)
  · rcases List.mem_cons.1 hmem with rfl | hmem
    · exact Nat.le_refl i
    · exact ((List.pairwise_cons.1 (List.pairwise_append.1 hsorted).2.1).1 i hmem).le

/-- A usable blank within the room is found, or a later one. -/
theorem exists_last?_of_isUsable (hi : isUsable spans t i = true) (hroom : (i : Int) ≤ room) :
    ∃ k, last? spans room t = some k ∧ i ≤ k := by
  obtain ⟨x, y, rfl, rfl, hne, hlast, hsplit⟩ := isUsable_iff.1 hi
  cases h : last? spans room (x ++ ' ' :: y) with
  | none =>
    have hsplits := splits_of_last?_eq_none h rfl hne hlast hroom
    exact absurd (hsplits.symm.trans hsplit) (by decide)
  | some k => exact ⟨k, rfl, le_of_last?_eq_some h hi hroom⟩

end

section

variable {atoms : List Text} {x t : Text} {i k : Nat}

/-- A place to break is one without the text in front, except directly behind that text. -/
theorem isUsable_of_append (hi : 0 < i)
    (h : isUsable (Span.ofAtoms atoms (x ++ t)) (x ++ t) (x.length + i) = true) :
    isUsable (Span.ofAtoms atoms t) t i = true := by
  simp only [isUsable, Bool.and_eq_true, decide_eq_true_eq, Bool.not_eq_true',
    splits_ofAtoms_eq_false] at h ⊢
  obtain ⟨⟨⟨-, hblank⟩, hlast⟩, hsplit⟩ := h
  rw [List.getElem?_append_right (by omega), Nat.add_sub_cancel_left] at hblank
  rw [List.getElem?_append_right (by omega), Nat.add_sub_assoc hi, Nat.add_sub_cancel_left] at hlast
  exact ⟨⟨⟨hi, hblank⟩, hlast⟩, fun hsplits ↦ hsplit (hsplits.append x)⟩

/-- It is one with text in front as well, if there is a place to break before it: an atom that
begins in front does not reach behind that place. -/
theorem isUsable_append_of_lt (hki : k < i)
    (hk : isUsable (Span.ofAtoms atoms (x ++ t)) (x ++ t) (x.length + k) = true)
    (hi : isUsable (Span.ofAtoms atoms t) t i = true) :
    isUsable (Span.ofAtoms atoms (x ++ t)) (x ++ t) (x.length + i) = true := by
  simp only [isUsable, Bool.and_eq_true, decide_eq_true_eq, Bool.not_eq_true',
    splits_ofAtoms_eq_false] at hk hi ⊢
  obtain ⟨⟨⟨hpos, hblank⟩, hlast⟩, hsplit⟩ := hi
  rw [List.getElem?_append_right (by omega), List.getElem?_append_right (by omega),
    Nat.add_sub_cancel_left, Nat.add_sub_assoc hpos, Nat.add_sub_cancel_left]
  refine ⟨⟨⟨by omega, hblank⟩, hlast⟩, fun hsplits ↦ ?_⟩
  obtain ⟨a, ha, j, hj, hji, hlen⟩ := hsplits
  rcases Nat.lt_or_ge j x.length with hlt | hge
  · exact hk.2 ⟨a, ha, j, hj, by omega, by omega⟩
  · obtain ⟨d, rfl⟩ := Nat.exists_eq_add_of_le hge
    rw [List.drop_length_add_append] at hj
    exact hsplit ⟨a, ha, d, hj, by omega, by omega⟩

end

/-- What is behind the last place to break, or all of the text if there is none. -/
def lastWord (atoms : List Text) (t : Text) : Text :=
  match last? (Span.ofAtoms atoms t) t.length t with
  | some i => t.drop (i + 1)
  | none => t

section

variable {atoms : List Text} {x t : Text} {k : Nat}

theorem last?_length_eq_some_iff {spans : List Span} : last? spans t.length t = some k ↔
    isUsable spans t k = true ∧ ∀ i, isUsable spans t i = true → i ≤ k := by
  have hroom : ∀ {i}, isUsable spans t i = true → (i : Int) ≤ t.length := fun hi ↦
    Int.ofNat_le.2 (pos_and_lt_of_isUsable hi).2.le
  constructor
  · intro h
    exact ⟨List.find?_some h, fun i hi ↦ le_of_last?_eq_some h hi (hroom hi)⟩
  · rintro ⟨hk, hlast⟩
    obtain ⟨i, hi, hle⟩ := exists_last?_of_isUsable hk (hroom hk)
    rwa [Nat.le_antisymm hle (hlast i (List.find?_some hi))]

theorem lastWord_eq (h : last? (Span.ofAtoms atoms t) t.length t = some k) :
    lastWord atoms t = t.drop (k + 1) := by
  rw [lastWord, h]

theorem lastWord_suffix (atoms : List Text) (t : Text) : lastWord atoms t <:+ t := by
  rw [lastWord]
  split
  · exact List.drop_suffix _ t
  · exact List.suffix_rfl

/-- An end without blanks is behind the last place to break. -/
theorem suffix_lastWord {w : Text} (hw : w <:+ t) (hblank : ' ' ∉ w) : w <:+ lastWord atoms t := by
  rcases hlast : last? (Span.ofAtoms atoms t) t.length t with _ | k
  · rwa [lastWord, hlast]
  rw [lastWord_eq hlast]
  refine List.suffix_of_suffix_length_le hw (List.drop_suffix _ t) ?_
  by_contra hlt
  rw [List.length_drop] at hlt
  obtain ⟨y, rfl⟩ := hw
  -- the place to break would be in it
  have hget := getElem?_of_isUsable (List.find?_some hlast)
  rw [List.length_append] at hlt
  rw [List.getElem?_append_right (by omega)] at hget
  exact hblank (List.mem_of_getElem? hget)

/-- Text in front of the last place to break does not matter. -/
theorem last?_append (hpos : 0 < k)
    (h : last? (Span.ofAtoms atoms (x ++ t)) (x ++ t).length (x ++ t) = some (x.length + k)) :
    last? (Span.ofAtoms atoms t) t.length t = some k := by
  obtain ⟨husable, hlast⟩ := last?_length_eq_some_iff.1 h
  refine last?_length_eq_some_iff.2 ⟨isUsable_of_append hpos husable, fun i hi ↦ ?_⟩
  by_contra hlt
  have hle := hlast _ (isUsable_append_of_lt (Nat.lt_of_not_le hlt) husable hi)
  omega

/-- What is left of a text has the same last place to break, or it is behind that place. -/
theorem lastWord_eq_or_length_le (atoms : List Text) {n : Nat} {t' : Text}
    (ht : t = x ++ (blanks n ++ t')) (hhead : t'.head? ≠ some ' ') :
    lastWord atoms t' = lastWord atoms t ∨ t'.length ≤ (lastWord atoms t).length := by
  rcases hlast : last? (Span.ofAtoms atoms t) t.length t with _ | k
  · have hall : lastWord atoms t = t := by rw [lastWord, hlast]
    refine Or.inr ?_
    rw [hall, ht, ← List.append_assoc]
    exact (List.suffix_append _ t').length_le
  have htext : t = (x ++ blanks n) ++ t' := by rw [ht, List.append_assoc]
  generalize x ++ blanks n = y at htext
  have hdrop : t.drop y.length = t' := by rw [htext, List.drop_left]
  rw [lastWord_eq hlast]
  rcases lt_trichotomy y.length k with hlt | rfl | hlt
  · obtain ⟨i, rfl⟩ := Nat.exists_eq_add_of_le hlt.le
    rw [htext] at hlast
    have hlast' := last?_append (by omega) hlast
    refine Or.inl ?_
    rw [lastWord_eq hlast', ← hdrop, List.drop_drop]
    rfl
  · -- the text that is left would begin with the blank
    have hblank := getElem?_of_isUsable (List.find?_some hlast)
    rw [← List.head?_drop, hdrop] at hblank
    exact absurd hblank hhead
  · refine Or.inr ?_
    rw [← hdrop, List.length_drop, List.length_drop]
    omega

/-- An end that does not begin with a blank is behind the blanks. -/
theorem suffix_of_suffix_blanks_append {n : Nat} {t w : Text} (hw : w <:+ blanks n ++ t)
    (hhead : w.head? ≠ some ' ') : w <:+ t := by
  induction n with
  | zero => exact hw
  | succ n ih =>
    rcases List.suffix_cons_iff.1 (show w <:+ ' ' :: (blanks n ++ t) from hw) with rfl | hw
    · exact absurd rfl hhead
    · exact ih hw

/-- A break that comes no later than the last place to break leaves what is behind that place. -/
theorem suffix_of_suffix_lastWord {n : Nat} {t' w : Text} (ht : t = x ++ (blanks n ++ t'))
    (hx : x.length + (lastWord atoms t).length ≤ t.length) (hw : w <:+ lastWord atoms t)
    (hhead : w.head? ≠ some ' ') : w <:+ t' := by
  have hdrop : t.drop x.length = blanks n ++ t' := by
    nth_rewrite 1 [ht]
    exact List.drop_left
  refine suffix_of_suffix_blanks_append (n := n) ?_ hhead
  rw [← hdrop]
  refine hw.trans (List.suffix_of_suffix_length_le (lastWord_suffix atoms t)
    (List.drop_suffix _ t) ?_)
  rw [List.length_drop]
  omega

/-- A cut does not come behind a place to break. -/
theorem cut_le_of_isUsable {room : Int} (hk : isUsable (Span.ofAtoms atoms t) t k = true)
    (hroom : room < k) : cut (Span.ofAtoms atoms t) room t ≤ k := by
  have hpos := (pos_and_lt_of_isUsable hk).1
  simp only [isUsable, Bool.and_eq_true, decide_eq_true_eq, Bool.not_eq_true'] at hk
  refine (isLeast_cut room fun _ ↦ Span.stop_le_length).2 ⟨?_, hk.2, fun _ ↦ Or.inr hk.1.1.2⟩
  rw [earliest]
  omega

/-- No place to break is behind the last one. -/
theorem add_length_lastWord_le {i : Nat} (hi : isUsable (Span.ofAtoms atoms t) t i = true) :
    i + (lastWord atoms t).length ≤ t.length := by
  obtain ⟨k, hk, hle⟩ :=
    exists_last?_of_isUsable hi (Int.ofNat_le.2 (pos_and_lt_of_isUsable hi).2.le)
  have hlt := (pos_and_lt_of_isUsable (List.find?_some hk)).2
  rw [lastWord_eq hk, List.length_drop]
  omega

/-- Nor is a cut, which is made if no such place is within the room, as long as what is behind the
last one would fit there. -/
theorem cut_add_length_lastWord_le {room : Int}
    (hnone : last? (Span.ofAtoms atoms t) room t = none) (hlong : room < t.length)
    (hroom : ((lastWord atoms t).length : Int) ≤ room) :
    cut (Span.ofAtoms atoms t) room t + (lastWord atoms t).length ≤ t.length := by
  rcases hlast : last? (Span.ofAtoms atoms t) t.length t with _ | k
  · rw [lastWord, hlast] at hroom
    exact absurd hlong (Int.not_lt.2 hroom)
  · -- the last place to break is out of reach
    have husable := List.find?_some hlast
    have hout : room < k := by
      by_contra hin
      obtain ⟨i, hi, -⟩ := exists_last?_of_isUsable husable (Int.not_lt.1 hin)
      rw [hnone] at hi
      cases hi
    exact (Nat.add_le_add_right (cut_le_of_isUsable husable hout) _).trans
      (add_length_lastWord_le husable)

end

end Break

/-! ### A stretch that fits -/

namespace Page

/-- How many characters stand in front of a position on its line, for breaks in what is left of a
text after `start` characters. The line in hand has `width` characters. -/
def widthFrom (l : Layout) : (start width : Nat) → List LineBreak → Nat → Nat
  | start, width, [], i => width + (i - start)
  | start, width, b :: bs, i =>
    if b.resume ≤ i then widthFrom l b.resume (l.continuationColumn - 1) bs i
    else width + (i - start)

variable {l : Layout} {atoms : List Text} {p : Page}

/-- A text that fits is not broken. -/
theorem lineEnd?_of_length_le {t : Text} (h : (t.length : Int) ≤ p.room l) :
    lineEnd? t (p.nextStep l atoms t) = none := by
  rw [nextStep, if_pos h]
  rfl

/-- A line with a place to break within the room ends there or later. -/
theorem lineEnd?_of_isUsable {t : Text} {i : Nat}
    (hi : Break.isUsable (Span.ofAtoms atoms t) t i = true) (hroom : (i : Int) ≤ p.room l) :
    ∀ e ∈ lineEnd? t (p.nextStep l atoms t), i ≤ e.1 := by
  obtain ⟨k, hk, hle⟩ := Break.exists_last?_of_isUsable hi hroom
  by_cases hfits : (t.length : Int) ≤ p.room l
  · rw [lineEnd?_of_length_le hfits]
    nofun
  · have hstep : p.nextStep l atoms t = .breakAt k := by
      simp only [nextStep, if_neg hfits, hk]
    rw [hstep]
    rintro e ⟨⟩
    exact hle

/-- **A line does not end in front of a place that it has room for**, if it may end there or the
text does. Here `x` is text in front that is on the page already. -/
theorem le_of_mem_lineEnd? {x t : Text} {d : Nat} (hd : 0 < d)
    (hend : x.length + d = (x ++ t).length ∨
      Break.isUsable (Span.ofAtoms atoms (x ++ t)) (x ++ t) (x.length + d) = true)
    (hroom : (d : Int) ≤ p.room l) : ∀ e ∈ lineEnd? t (p.nextStep l atoms t), d ≤ e.1 := by
  rcases hend with hend | hend
  · rw [List.length_append] at hend
    obtain rfl : d = t.length := by omega
    rw [lineEnd?_of_length_le hroom]
    nofun
  · exact lineEnd?_of_isUsable (Break.isUsable_of_append hd hend) hroom

/-- The first break is where the first step ends the line. -/
theorem mem_lineEnd?_of_breaksFrom {limit start : Nat} {t : Text} {b : LineBreak}
    {bs : List LineBreak} (h : breaksFrom l atoms (limit + 1) start p t = b :: bs) :
    ∃ e ∈ lineEnd? t (p.nextStep l atoms t), b.stop = start + e.1 := by
  have ht : t ≠ [] := by
    rintro rfl
    rw [breaksFrom_nil] at h
    cases h
  rw [breaksFrom_succ ht] at h
  cases he : lineEnd? t (p.nextStep l atoms t) with
  | none =>
    rw [he] at h
    cases h
  | some e =>
    rw [he] at h
    obtain ⟨rfl, -⟩ := List.cons.inj h
    exact ⟨e, rfl, rfl⟩

/-- **A stretch that fits on the line where it begins is not broken.** With it has to fit the text
behind it up to a place to break or the end. The induction is on the steps, and `x` is the text in
front that is on the page already. -/
theorem le_stop_or_resume_le_of_fits (limit : Nat) {p : Page} {x t : Text} {i n e : Nat}
    (hn : 0 < n) (hx : x.length ≤ i) (he : i + n ≤ e)
    (hend : e = (x ++ t).length ∨
      Break.isUsable (Span.ofAtoms atoms (x ++ t)) (x ++ t) e = true)
    (hfits : widthFrom l x.length p.current.length (breaksFrom l atoms limit x.length p t) i +
      (e - i) + 2 ≤ l.rightMargin) :
    ∀ b ∈ breaksFrom l atoms limit x.length p t, i + n ≤ b.stop ∨ b.resume ≤ i := by
  induction limit generalizing p x t with
  | zero => simp [breaksFrom_zero]
  | succ limit ih =>
    by_cases ht : t = []
    · simp [ht, breaksFrom_nil]
    rcases wrap_or_break ht limit x.length p with ⟨-, hbreaks⟩ |
      ⟨y, m, joined, t', rfl, -, -, hbreaks⟩
    · rw [hbreaks]
      nofun
    obtain ⟨b, hb, hstop⟩ := mem_lineEnd?_of_breaksFrom hbreaks
    rw [hbreaks] at hfits ⊢
    by_cases hresume : x.length + (y.length + m) ≤ i
    · -- the stretch is behind the first break
      have hlen : (x ++ (y ++ blanks m)).length = x.length + (y.length + m) := by simp [blanks]
      have hassoc : x ++ (y ++ (blanks m ++ t')) = (x ++ (y ++ blanks m)) ++ t' := by simp
      have hwidth : ((p.append y).breakLine l joined).current.length = l.continuationColumn - 1 :=
        List.length_replicate
      rw [widthFrom, if_pos hresume, ← hlen, ← hwidth] at hfits
      rw [hassoc] at hend
      rw [← hlen] at hresume ⊢
      exact List.forall_mem_cons.2 ⟨Or.inr hresume, ih hresume hend hfits⟩
    · -- the line with the first break has room up to `e`, so it is not broken in front of it
      rw [widthFrom, if_neg hresume] at hfits
      obtain ⟨d, rfl⟩ := Nat.exists_eq_add_of_le (show x.length ≤ e by omega)
      have hroom : (d : Int) ≤ p.room l := by
        rw [room]
        omega
      have hd := le_of_mem_lineEnd? (by omega) hend hroom b hb
      have hfirst : i + n ≤ x.length + y.length := by
        have hy : x.length + y.length = x.length + b.1 := hstop
        omega
      refine List.forall_mem_cons.2 ⟨Or.inl hfirst, fun b' hb' ↦ Or.inl ?_⟩
      have hlater := le_stop_of_mem limit _ _ t' b' hb'
      omega

/-! ### The end of a text -/

/-- The first break does not come behind the last place to break. Without such a place the line is
closed in front of the text, unless there is nothing on it. -/
theorem lineEnd?_add_lastWord_le {t : Text}
    (hp : IsWhite p.current → ((Break.lastWord atoms t).length : Int) ≤ p.room l) :
    ∀ e ∈ lineEnd? t (p.nextStep l atoms t), e.1 + (Break.lastWord atoms t).length ≤ t.length := by
  have hchooses := chooses_nextStep l atoms p t
  generalize p.nextStep l atoms t = step at hchooses ⊢
  cases hchooses with
  | fits => nofun
  | breakAt _ hlast =>
    rintro e ⟨⟩
    exact Break.add_length_lastWord_le (List.find?_some hlast)
  | newLine =>
    rintro e ⟨⟩
    rw [Nat.zero_add]
    exact (Break.lastWord_suffix atoms t).length_le
  | cutAt hlong hnone hwhite =>
    intro e he
    obtain ⟨c, -, rfl⟩ := Option.map_eq_some_iff.1 he
    exact Break.cut_add_length_lastWord_le hnone hlong (hp hwhite)

/-- A line that is closed goes on with something else than a blank. -/
theorem Step.head?_ne {p p' : Page} {t t' : Text} {e : Option (Nat × Bool)}
    (h : Step l atoms p t e p' t') : t'.head? ≠ some ' ' := by
  have hwithout : ∀ u : Text, (withoutBlanks u).head? ≠ some ' ' := fun u hu ↦ by
    have hnot := List.head?_dropWhile_not (fun c ↦ decide (c = ' ')) u
    rw [← withoutBlanks, hu] at hnot
    simp at hnot
  cases h with
  | whole => nofun
  | blank x y => exact hwithout y
  | newLine => exact hwithout t
  | cut x y c hxy hne hc => exact fun h ↦ hc (Option.some.inj h)

/-- A text that fits is put on the line. -/
theorem current_wrap_of_length_le {t : Text} (h : (t.length : Int) ≤ p.room l) (limit : Nat) :
    (wrap l atoms limit p t).current = p.current ++ t := by
  by_cases ht : t = []
  · rw [ht, wrap_nil, List.append_nil]
  cases limit with
  | zero =>
    rw [wrap_zero ht]
    rfl
  | succ limit =>
    have hstep : p.nextStep l atoms t = .fits := if_pos h
    rw [wrap_succ ht, hstep, afterStep, wrap_nil]
    rfl

/-- The room on a continuation line with nothing on it. -/
theorem room_breakLine (l : Layout) (joined : Bool) (p : Page) :
    (p.breakLine l joined).room l = l.rightMargin - l.continuationColumn - 1 := by
  have hpos := l.continuation_pos
  show (l.rightMargin : Int) - (blanks (l.continuationColumn - 1)).length - 2 = _
  rw [blanks, List.length_replicate]
  omega

/-- **The end of a text stays on one line** if it and what is in front of it, back to the last place
to break, fit on a continuation line. The induction is on the steps: each one but the last ends the
line no later than at that place. -/
theorem suffix_current_wrap (limit : Nat) {p : Page} {t w : Text}
    (hw : w <:+ Break.lastWord atoms t) (hhead : w.head? ≠ some ' ')
    (hlength : l.continuationColumn + (Break.lastWord atoms t).length + 1 ≤ l.rightMargin)
    (hp : IsWhite p.current → ((Break.lastWord atoms t).length : Int) ≤ p.room l) :
    w <:+ (wrap l atoms limit p t).current := by
  by_cases hempty : w = []
  · rw [hempty]
    exact List.nil_suffix
  have hsuffix := hw.trans (Break.lastWord_suffix atoms t)
  have ht : t ≠ [] := fun h ↦ hempty (List.suffix_nil.1 (h ▸ hsuffix))
  induction limit generalizing p t with
  | zero =>
    rw [wrap_zero ht]
    exact hsuffix.trans (List.suffix_append _ _)
  | succ limit ih =>
    have hstep : Step l atoms p t _ _ _ := step_afterStep p ht
    rw [wrap_succ ht]
    generalize p.afterStep l t (p.nextStep l atoms t) = next at hstep ⊢
    obtain ⟨p', t'⟩ := next
    dsimp only at hstep ⊢
    have hfirst := hstep.head?_ne
    rcases hstep.divides with ⟨-, hp', ht'⟩ | ⟨x, n, joined, he, htext, hp', -⟩
    · obtain rfl : t' = [] := ht'
      obtain rfl : p' = p.append t := hp'
      rw [wrap_nil]
      exact hsuffix.trans (List.suffix_append _ _)
    obtain rfl : p' = (p.append x).breakLine l joined := hp'
    have hroom := room_breakLine l joined (p.append x)
    have hstart := lineEnd?_add_lastWord_le hp _ he
    have hw' := Break.suffix_of_suffix_lastWord htext hstart hw hhead
    rcases Break.lastWord_eq_or_length_le atoms htext hfirst with hsame | hle
    · have ht' : t' ≠ [] := fun h ↦ hempty (List.suffix_nil.1 (h ▸ hw'))
      refine ih (hsame ▸ hw) (by rwa [hsame]) (fun _ ↦ ?_) hw' ht'
      rw [hsame]
      omega
    · rw [current_wrap_of_length_le (by omega)]
      exact hw'.trans (List.suffix_append _ _)

/-! ### A stretch that is not broken -/

section

variable {w : Text} (hink : EndsInk w)

include hink

theorem Holds.layOut {p : Page} (h : p.Holds w) (t : Text) (start : Nat) (bs : List LineBreak) :
    (Page.layOut l t start p bs).Holds w := by
  induction bs generalizing p start with
  | nil => exact h.append _
  | cons b bs ih => exact ih ((h.append _).breakLine hink l b.joined) b.resume

/-- **A stretch of text that no break divides is on one of the lines.** -/
theorem holds_layOut {t : Text} {i : Nat} (hw : w <+: t.drop i) {start : Nat} (hstart : start ≤ i)
    {bs : List LineBreak} (hbs : ∀ b ∈ bs, i + w.length ≤ b.stop ∨ b.resume ≤ i) (p : Page) :
    (Page.layOut l t start p bs).Holds w := by
  induction bs generalizing start p with
  | nil =>
    refine holds_append p ?_
    rw [← Nat.add_sub_cancel' hstart, ← List.drop_drop] at hw
    exact hw.isInfix.trans (List.drop_suffix _ _).isInfix
  | cons b bs ih =>
    obtain ⟨hb, hbs⟩ := List.forall_mem_cons.1 hbs
    rcases hb with hb | hb
    · have htake : w <+: (t.take b.stop).drop i := by
        rw [List.drop_take]
        exact List.prefix_take_iff.2 ⟨hw, by omega⟩
      rw [← Nat.add_sub_cancel' hstart, ← List.drop_drop] at htake
      have hline := htake.isInfix.trans (List.drop_suffix (i - start) _).isInfix
      exact ((holds_append p hline).breakLine hink l b.joined).layOut hink t b.resume bs
    · exact ih hb hbs _

end

end Page

namespace Piece

/-- How many characters stand in front of a position on its line. -/
def widthBefore (l : Layout) (atoms : List Text) (q : Piece) (i : Nat) : Nat :=
  Page.widthFrom l 0 q.page.current.length (q.breaks l atoms) i

/-- The `n` characters from `i` on, with the text behind them up to a place to break or the end, fit
on the line where they begin. -/
def FitsAt (l : Layout) (atoms : List Text) (q : Piece) (i n : Nat) : Prop :=
  ∃ e, i + n ≤ e ∧
    (e = q.text.length ∨ Break.isUsable (Span.ofAtoms atoms q.text) q.text e = true) ∧
    q.widthBefore l atoms i + (e - i) + 2 ≤ l.rightMargin

/-- No break comes between the `n` characters from `i` on. -/
def KeepsAt (l : Layout) (atoms : List Text) (q : Piece) (i n : Nat) : Prop :=
  ∀ b ∈ q.breaks l atoms, i + n ≤ b.stop ∨ b.resume ≤ i

variable {l : Layout} {atoms : List Text} {q : Piece}

/-- **What fits on the line where it begins is not broken.** -/
theorem FitsAt.keepsAt {i n : Nat} (h : q.FitsAt l atoms i n) (hn : 0 < n) :
    q.KeepsAt l atoms i n := by
  obtain ⟨e, he, hend, hfits⟩ := h
  exact Page.le_stop_or_resume_le_of_fits Page.stepLimit (x := []) hn (Nat.zero_le i) he hend hfits

/-- What is not broken is on one line. -/
theorem KeepsAt.holds_filled {w : Text} {i : Nat} (h : q.KeepsAt l atoms i w.length)
    (hink : EndsInk w) (hw : w <+: q.text.drop i) : (q.filled l atoms).Holds w := by
  have hholds := Page.holds_layOut (l := l) hink hw (Nat.zero_le i) h q.page
  rw [← q.filled_eq_layOut] at hholds
  exact hholds

/-- A piece that fits on the line in hand fits there from any position. -/
theorem fitsAt_of_length_le {i n : Nat} (hi : i + n ≤ q.text.length)
    (h : (q.text.length : Int) ≤ q.page.room l) : q.FitsAt l atoms i n := by
  have hbreaks : q.breaks l atoms = [] := by
    by_contra hne
    obtain ⟨b, bs, hcons⟩ := List.exists_cons_of_ne_nil hne
    obtain ⟨e, he, -⟩ := Page.mem_lineEnd?_of_breaksFrom hcons
    rw [Page.lineEnd?_of_length_le h] at he
    cases he
  refine ⟨q.text.length, hi, Or.inl rfl, ?_⟩
  rw [widthBefore, hbreaks, Page.widthFrom]
  rw [Page.room] at h
  omega

/-- What is behind the last place to break in the piece fits on a continuation line, and also on the
line in hand if nothing stands there. -/
def EndFits (l : Layout) (atoms : List Text) (q : Piece) : Prop :=
  l.continuationColumn + (Break.lastWord atoms q.text).length + 1 ≤ l.rightMargin ∧
    (IsWhite q.page.current → ((Break.lastWord atoms q.text).length : Int) ≤ q.page.room l)

/-- **An end without blanks is not broken** if it fits with what is in front of it. -/
theorem EndFits.suffix_current_filled (h : q.EndFits l atoms) {w : Text} (hw : w <:+ q.text)
    (hblank : ' ' ∉ w) : w <:+ (q.filled l atoms).current := by
  refine Page.suffix_current_wrap Page.stepLimit (Break.suffix_lastWord hw hblank) ?_ h.1 h.2
  exact fun hhead ↦ hblank (List.mem_of_mem_head? hhead)

end Piece

end ControlLanguage
