import ControlLanguage.Proofs.Text.UpperCase
import ControlLanguage.Text.Digit

/-!
# What upper case keeps

Upper case keeps white space and digits as they are, and makes none of anything else. ASCII aside,
that is a property of the tables: their runs miss the ranges of white space and of digits, and so do
the progressions of their capitals. So **trimming commutes with upper case** (`trim_upper`).

Most characters have one capital each. `Text.HasCapitals` says so of all characters of a text, and
rules out those such as `ß`, whose capital is `SS`.
-/

namespace ControlLanguage

open Text

/-! ### White space and digits -/

/-- Whether no character of a range is changed by upper case, and none arises from it. -/
def CodeRange.isCaseless (w : CodeRange) : Bool :=
  0 < w.first && (asciiRun :: upperRuns).all (fun r ↦
    (Progression.ofRun r).misses ⟨w.first, w.last, 1⟩ &&
      (Progression.capitals r).misses ⟨w.first, w.last, 1⟩) &&
  upperSequences.all fun e ↦ (Progression.single e.1).misses ⟨w.first, w.last, 1⟩ &&
    e.2.all fun n ↦ (Progression.single n).misses ⟨w.first, w.last, 1⟩

/-- White space and digits have no case, by evaluation of the ranges. -/
theorem isCaseless_ranges :
    (whiteSpaceRanges ++ decimalDigitRanges).all CodeRange.isCaseless = true := by
  decide +kernel

namespace CodeRange

variable {w : CodeRange}

theorem toNat_of_contains {n : Nat} (hw : 0 < w.first) (h : w.contains (Char.ofNat n) = true) :
    (Char.ofNat n).toNat = n := by
  refine Progression.toNat_ofNat_of_ne fun hnull ↦ ?_
  rw [hnull, contains, Bool.and_eq_true, decide_eq_true_eq] at h
  exact absurd h.1 (Nat.not_le.2 hw)

/-- **Upper case leaves the characters of a caseless range alone**, and makes none. -/
theorem upperChar_eq (hw : w.isCaseless = true) {c d : Char} (hd : d ∈ upperChar c)
    (h : w.contains c = true ∨ w.contains d = true) : upperChar c = [c] := by
  simp only [isCaseless, Bool.and_eq_true, decide_eq_true_eq, List.all_eq_true] at hw
  obtain ⟨⟨hpos, hruns⟩, hsequences⟩ := hw
  rcases upperChar_counterpart_cases c with ⟨r, hr, hcontains, hup⟩ | ⟨codes, hmem, hup⟩ | hup
  · have hcapital := Progression.has_counterpart_of_isSettled
      (List.all_eq_true.1 isSettled_capitals r hr) hcontains
    simp only [CaseRun.contains, Bool.and_eq_true, decide_eq_true_eq, beq_iff_eq] at hcontains
    rcases h with h | h
    · rw [Progression.not_contains_of_misses (hruns r hr).1
        ⟨hcontains.1.1, hcontains.1.2, hcontains.2⟩] at h
      exact Bool.noConfusion h
    · rw [hup, List.mem_singleton] at hd
      rw [hd, CaseRun.counterpart] at h
      rw [Progression.not_contains_of_misses (hruns r hr).2
        (by rwa [toNat_of_contains hpos h])] at h
      exact Bool.noConfusion h
  · obtain ⟨hsource, hcodes⟩ := hsequences _ hmem
    rcases h with h | h
    · rw [Progression.not_contains_of_misses hsource (Progression.has_single _)] at h
      exact Bool.noConfusion h
    · rw [hup] at hd
      obtain ⟨n, hn, rfl⟩ := List.mem_map.1 hd
      rw [Progression.not_contains_of_misses (hcodes n hn)
        (by rw [toNat_of_contains hpos h]; exact Progression.has_single n)] at h
      exact Bool.noConfusion h
  · exact hup

end CodeRange

/-- White space is not changed by upper case, and nothing else becomes white space. -/
theorem upperChar_of_isWhiteSpace {c d : Char} (hd : d ∈ upperChar c)
    (h : isWhiteSpace c = true ∨ isWhiteSpace d = true) : upperChar c = [c] := by
  have hrange : ∃ w ∈ whiteSpaceRanges, w.contains c = true ∨ w.contains d = true := by
    rw [isWhiteSpace, isWhiteSpace, List.any_eq_true, List.any_eq_true] at h
    rcases h with ⟨w, hw, h⟩ | ⟨w, hw, h⟩
    · exact ⟨w, hw, Or.inl h⟩
    · exact ⟨w, hw, Or.inr h⟩
  obtain ⟨w, hw, h⟩ := hrange
  exact CodeRange.upperChar_eq
    (List.all_eq_true.1 isCaseless_ranges w (List.mem_append_left _ hw)) hd h

/-- A digit is in one of the ranges. -/
theorem exists_of_isDecimalDigit {c : Char} (h : isDecimalDigit c = true) :
    ∃ w ∈ decimalDigitRanges, w.contains c = true := by
  rw [isDecimalDigit, Bool.or_eq_true, Bool.and_eq_true, List.any_eq_true] at h
  rcases h with h | ⟨-, h⟩
  · refine ⟨⟨48, 57⟩, List.mem_cons_self, ?_⟩
    simpa [CodeRange.contains, Char.isDigit, UInt32.le_iff_toNat_le] using h
  · exact h

/-- Digits are not changed by upper case, and nothing else becomes a digit. -/
theorem upperChar_of_isDecimalDigit {c d : Char} (hd : d ∈ upperChar c)
    (h : isDecimalDigit c = true ∨ isDecimalDigit d = true) : upperChar c = [c] := by
  have hrange : ∃ w ∈ decimalDigitRanges, w.contains c = true ∨ w.contains d = true := by
    rcases h with h | h
    · obtain ⟨w, hw, hc⟩ := exists_of_isDecimalDigit h
      exact ⟨w, hw, Or.inl hc⟩
    · obtain ⟨w, hw, hd⟩ := exists_of_isDecimalDigit h
      exact ⟨w, hw, Or.inr hd⟩
  obtain ⟨w, hw, h⟩ := hrange
  exact CodeRange.upperChar_eq
    (List.all_eq_true.1 isCaseless_ranges w (List.mem_append_right _ hw)) hd h

namespace Text

/-- White space is taken away before or after the change of case. -/
theorem trim_upper (t : Text) : t.upper.trim = t.trim.upper := by
  have hwhite : ∀ {u : Text}, IsWhite u → IsWhite u.upper := by
    intro u hu d hd
    obtain ⟨c, hc, hd⟩ := List.mem_flatMap.1 hd
    rw [upperChar_of_isWhiteSpace hd (Or.inl (hu c hc)), List.mem_singleton] at hd
    exact hd ▸ hu c hc
  have hself : t.trim.upper.trim = t.trim.upper := by
    rcases trim_eq_nil_or_ink t with h | ⟨hbegins, hends⟩
    · rw [h]
      rfl
    · exact trim_of_ink hbegins.upper hends.upper
  obtain ⟨v, hv, ht⟩ := exists_append_trimStart t
  obtain ⟨w, hw, ht'⟩ := exists_trimEnd_append t.trimStart
  calc t.upper.trim = (v.upper ++ (t.trim.upper ++ w.upper)).trim := by
        rw [← upper_append, ← upper_append]
        exact congrArg (fun u ↦ (upper u).trim) (ht.trans (congrArg (v ++ ·) ht'))
    _ = (t.trim.upper ++ w.upper).trim := trim_append_of_isWhite (hwhite hv) _
    _ = t.trim.upper.trim := by
      rw [← trimStart_trimEnd, trimEnd_append_of_isWhite _ (hwhite hw), trimStart_trimEnd]
    _ = t.trim.upper := hself

/-- A sign in front of the upper case was there before. -/
theorem head?_of_upper_of_lt {t : Text} {d : Char} (hd : d.toNat < 65)
    (h : t.upper.head? = some d) : t.head? = some d := by
  rcases t with _ | ⟨c, t⟩
  · exact h
  obtain ⟨e, u, he⟩ := List.exists_cons_of_ne_nil (upperChar_ne_nil c)
  rw [upper_cons, he] at h
  obtain rfl := Option.some.inj h
  rw [eq_of_mem_upperChar_of_lt (c := c) (d := e) (by simp [he]) hd]
  rfl

/-- Each character of the text has one capital. -/
def HasCapitals (t : Text) : Prop :=
  ∀ c ∈ t, (upperChar c).length = 1

instance HasCapitals.decidable (t : Text) : Decidable (HasCapitals t) :=
  List.decidableBAll (fun c : Char ↦ (upperChar c).length = 1) t

theorem HasCapitals.of_cons {c : Char} {t : Text} (h : HasCapitals (c :: t)) :
    (∃ d, upperChar c = [d]) ∧ HasCapitals t :=
  ⟨List.length_eq_one_iff.1 (h c List.mem_cons_self), fun d hd ↦ h d (List.mem_cons_of_mem c hd)⟩

/-- One capital for each character keeps the length. -/
theorem HasCapitals.length_upper {t : Text} (h : HasCapitals t) : t.upper.length = t.length := by
  rw [upper, List.length_flatMap, List.map_congr_left h, List.map_const',
    List.sum_replicate_nat, Nat.mul_one]

theorem HasCapitals.trim {t : Text} (h : HasCapitals t) : HasCapitals t.trim :=
  fun c hc ↦ h c (mem_of_mem_trim hc)

end Text

end ControlLanguage
