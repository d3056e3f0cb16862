import ControlLanguage.Part.Nesting
import ControlLanguage.Proofs.Text.LetterCase

/-!
# Upper case is settled

Values are written in upper case before they are split again, so the change of case must not make
or hide anything that splitting looks at. **A character that is changed becomes plain characters
which stay as they are** (`upperChar_cases`); white space, quotes and parentheses are not changed.

For ASCII this holds by inspection. Beyond ASCII it is a property of the tables: the capitals of a
run are a progression of code points, and two progressions have none in common when one ends before
the other begins, or when both take every second code point and start at different parities.
-/

namespace ControlLanguage

open Text

/-- A character that is neither white space nor a quote nor a parenthesis. -/
def isPlain (c : Char) : Bool :=
  !isWhiteSpace c && !Nesting.isQuote c && c ≠ '(' && c ≠ ')'

/-- A plain character has no meaning for the splitters. -/
theorem isPlain_iff {c : Char} : isPlain c = true ↔
    isWhiteSpace c = false ∧ Nesting.isQuote c = false ∧ c ≠ '(' ∧ c ≠ ')' := by
  simp only [isPlain, Bool.and_eq_true, Bool.not_eq_true', decide_eq_true_eq, and_assoc]

theorem isPlain_of_isAlphanum {c : Char} (h : c.isAlphanum = true) : isPlain c = true := by
  have hne : ∀ d : Char, d.isAlphanum = false → c ≠ d := by
    rintro d hd rfl
    exact Bool.noConfusion (h.symm.trans hd)
  have hapostrophe : c ≠ '\x27' := hne _ (by decide)
  have hquotation : c ≠ '"' := hne _ (by decide)
  refine isPlain_iff.2 ⟨isWhiteSpace_of_isAlphanum h, ?_, hne _ (by decide), hne _ (by decide)⟩
  simp [Nesting.isQuote, hapostrophe, hquotation]

/-! ### Progressions of code points -/

/-- Every `stride`-th code point from `first` to `last`. -/
structure Progression where
  first : Nat
  last : Nat
  stride : Nat

namespace Progression

/-- The code point is one of the progression. -/
def Has (s : Progression) (n : Nat) : Prop :=
  s.first ≤ n ∧ n ≤ s.last ∧ (n - s.first) % s.stride = 0

/-- Whether two progressions are seen to have nothing in common. -/
def misses (s r : Progression) : Bool :=
  Nat.blt s.last r.first || Nat.blt r.last s.first ||
    (Nat.beq s.stride 2 || Nat.beq s.first s.last) && Nat.beq r.stride 2 &&
      Nat.beq ((s.first + r.first) % 2) 1

/-- The test that two progressions have no number in common is right. -/
theorem misses_spec {s r : Progression} (h : s.misses r = true) {n : Nat} (hs : s.Has n) :
    ¬ r.Has n := by
  rintro ⟨hfirst, hlast, hstride⟩
  obtain ⟨hfirst', hlast', hstride'⟩ := hs
  simp only [misses, Bool.or_eq_true, Bool.and_eq_true, Nat.blt_eq, Nat.beq_eq] at h
  rcases h with (h | h) | ⟨⟨h | h, hr⟩, hparity⟩
  · omega
  · omega
  · rw [h] at hstride'
    rw [hr] at hstride
    omega
  · rw [hr] at hstride
    omega

/-- The code points that a table of runs has counterparts for. -/
def ofRun (r : CaseRun) : Progression :=
  ⟨r.first, r.last, r.stride⟩

/-- The code points of the capitals of a run. -/
def capitals (r : CaseRun) : Progression :=
  ⟨(r.first + r.shift).toNat, (r.last + r.shift).toNat, r.stride⟩

/-- A single code point. -/
def single (n : Nat) : Progression :=
  ⟨n, n, 2⟩

theorem has_single (n : Nat) : (single n).Has n :=
  ⟨Nat.le_refl n, Nat.le_refl n, by simp [single]⟩

/-- Whether the progression is seen to consist of plain characters that upper case does not
change. -/
def isSettled (s : Progression) : Bool :=
  bif Nat.blt s.last 128 then Nat.ble 65 s.first && Nat.ble s.last 90
  else
    Nat.ble 128 s.first &&
      (Nat.blt s.last 55296 || Nat.blt 57343 s.first && Nat.blt s.last 1114112) &&
      whiteSpaceRanges.all (fun w ↦ s.misses ⟨w.first, w.last, 1⟩) &&
      upperRuns.all (fun r ↦ s.misses (ofRun r)) &&
      upperSequences.all (fun e ↦ s.misses (single e.1))

theorem toNat_ofNat {n : Nat} (h : n.isValidChar) : (Char.ofNat n).toNat = n := by
  rw [Char.ofNat, dif_pos h]
  rfl

/-- A number of no character stands for the null character. -/
theorem toNat_ofNat_of_ne {n : Nat} (h : Char.ofNat n ≠ '\x00') : (Char.ofNat n).toNat = n := by
  by_cases hn : n.isValidChar
  · exact toNat_ofNat hn
  · rw [Char.ofNat, dif_neg hn] at h
    exact absurd rfl h

/-- Beyond ASCII only white space is not plain. -/
theorem isPlain_of_le {c : Char} (h : 128 ≤ c.toNat) (hw : isWhiteSpace c = false) :
    isPlain c = true := by
  have hne : ∀ {d : Char}, d.toNat < 128 → c ≠ d := by
    rintro d hd rfl
    omega
  refine isPlain_iff.2 ⟨hw, ?_, hne (by decide), hne (by decide)⟩
  have hapostrophe : c ≠ '\x27' := hne (by decide)
  have hquotation : c ≠ '"' := hne (by decide)
  simp [Nesting.isQuote, hapostrophe, hquotation]

/-- A range of code points that a progression misses has no character of it. -/
theorem not_contains_of_misses {s : Progression} {w : CodeRange}
    (h : s.misses ⟨w.first, w.last, 1⟩ = true) {c : Char} (hc : s.Has c.toNat) :
    w.contains c = false := by
  refine Bool.eq_false_iff.2 fun hcontains ↦ misses_spec h hc ?_
  simp only [CodeRange.contains, Bool.and_eq_true, decide_eq_true_eq] at hcontains
  exact ⟨hcontains.1, hcontains.2, Nat.mod_one _⟩

/-- A character that is in none of the tables is its own counterpart. -/
theorem caseCounterpart_eq_self {s : Progression} {runs : List CaseRun}
    {sequences : List (Nat × List Nat)} {c : Char} (hc : s.Has c.toNat)
    (hruns : ∀ r ∈ runs, s.misses (ofRun r) = true)
    (hsequences : ∀ e ∈ sequences, s.misses (single e.1) = true) :
    caseCounterpart runs sequences c = [c] := by
  have hlookup : sequences.lookup c.toNat = none :=
    List.lookup_eq_none_iff.2 fun e he ↦ bne_iff_ne.2 fun heq ↦
      misses_spec (hsequences e he) hc (heq ▸ has_single _)
  have hfind : runs.find? (·.contains c.toNat) = none :=
    List.find?_eq_none.2 fun r hr hcontains ↦ by
      refine misses_spec (hruns r hr) hc ?_
      simp only [CaseRun.contains, Bool.and_eq_true, decide_eq_true_eq, beq_iff_eq] at hcontains
      exact ⟨hcontains.1.1, hcontains.1.2, hcontains.2⟩
  rw [caseCounterpart, hlookup, hfind]

/-- The test of a progression says of each of its characters that it is plain and its own capital.
-/
theorem isSettled_spec {s : Progression} (h : s.isSettled = true) {n : Nat} (hn : s.Has n) :
    isPlain (Char.ofNat n) = true ∧ upperChar (Char.ofNat n) = [Char.ofNat n] ∧
      65 ≤ (Char.ofNat n).toNat := by
  rw [isSettled] at h
  obtain ⟨hle, hge, -⟩ := id hn
  cases hlast : Nat.blt s.last 128
  · rw [hlast, cond_false] at h
    simp only [Bool.and_eq_true, Bool.or_eq_true, Nat.ble_eq, Nat.blt_eq, List.all_eq_true] at h
    obtain ⟨⟨⟨⟨hfirst, hvalid⟩, hwhite⟩, hruns⟩, hsequences⟩ := h
    have hto : (Char.ofNat n).toNat = n := toNat_ofNat (by
      simp only [Nat.isValidChar]
      omega)
    rw [← hto] at hn
    refine ⟨isPlain_of_le (by omega) (List.any_eq_false.2 fun w hw ↦ ?_), ?_, by omega⟩
    · rw [not_contains_of_misses (hwhite w hw) hn]
      exact Bool.false_ne_true
    · rw [upperChar, if_neg (by omega), caseCounterpart_eq_self hn hruns hsequences]
  · rw [hlast, cond_true] at h
    simp only [Bool.and_eq_true, Nat.ble_eq] at h
    have hcapitals : ∀ m < 128, 65 ≤ m → m ≤ 90 →
        isPlain (Char.ofNat m) = true ∧ upperChar (Char.ofNat m) = [Char.ofNat m] ∧
          65 ≤ (Char.ofNat m).toNat := by
      decide +kernel
    exact hcapitals n (by omega) (by omega) (by omega)

/-- None of its numbers comes before the capitals of ASCII. -/
theorem first_of_isSettled {s : Progression} (h : s.isSettled = true) : 65 ≤ s.first := by
  rw [isSettled] at h
  cases hlast : Nat.blt s.last 128
  · rw [hlast, cond_false] at h
    simp only [Bool.and_eq_true, Nat.ble_eq] at h
    omega
  · rw [hlast, cond_true] at h
    simp only [Bool.and_eq_true, Nat.ble_eq] at h
    exact h.1

/-- The counterpart of a code point of a run is at the same place among those of the run. -/
theorem has_counterpart {r : CaseRun} (hr : 0 ≤ (r.first : Int) + r.shift) {n : Nat}
    (hn : r.contains n = true) : (capitals r).Has ((n : Int) + r.shift).toNat := by
  simp only [CaseRun.contains, Bool.and_eq_true, decide_eq_true_eq, beq_iff_eq] at hn
  obtain ⟨⟨hle, hge⟩, hstride⟩ := hn
  have hdistance :
      ((n : Int) + r.shift).toNat - ((r.first : Int) + r.shift).toNat = n - r.first := by
    omega
  exact ⟨show ((r.first : Int) + r.shift).toNat ≤ _ by omega,
    show _ ≤ ((r.last : Int) + r.shift).toNat by omega, hdistance ▸ hstride⟩

/-- The counterpart of a character is in the progression of the capitals. -/
theorem has_counterpart_of_isSettled {r : CaseRun} (h : (capitals r).isSettled = true) {n : Nat}
    (hn : r.contains n = true) : (capitals r).Has ((n : Int) + r.shift).toNat := by
  have hfirst : 65 ≤ ((r.first : Int) + r.shift).toNat := first_of_isSettled h
  exact has_counterpart (by omega) hn

/-- The capital of a letter of a run. -/
theorem isSettled_counterpart {r : CaseRun} (h : (capitals r).isSettled = true) {n : Nat}
    (hn : r.contains n = true) :
    isPlain (r.counterpart n) = true ∧ upperChar (r.counterpart n) = [r.counterpart n] ∧
      65 ≤ (r.counterpart n).toNat :=
  isSettled_spec h (has_counterpart_of_isSettled h hn)

end Progression

/-- The small letters of ASCII. -/
def asciiRun : CaseRun :=
  ⟨97, 122, 1, -32⟩

/-- **Every capital in the table is its own capital**, by evaluation of the table. -/
theorem isSettled_capitals :
    (asciiRun :: upperRuns).all (fun r ↦ (Progression.capitals r).isSettled) = true := by
  decide +kernel

/-- So is every character of a sequence. -/
theorem isSettled_sequences :
    upperSequences.all (fun e ↦ !e.2.isEmpty &&
      e.2.all fun n ↦ (Progression.single n).isSettled) = true := by
  decide +kernel

/-! ### Upper case -/

/-- What upper case makes of a character, ASCII or not. -/
theorem upperChar_counterpart_cases (c : Char) :
    (∃ r ∈ asciiRun :: upperRuns, r.contains c.toNat = true ∧
        upperChar c = [r.counterpart c.toNat]) ∨
      (∃ codes, (c.toNat, codes) ∈ upperSequences ∧ upperChar c = codes.map Char.ofNat) ∨
      upperChar c = [c] := by
  by_cases hc : c.toNat < 128
  · have hascii := forall_ascii (P := fun c ↦ asciiRun.contains c.toNat = true ∧
      upperChar c = [asciiRun.counterpart c.toNat] ∨ upperChar c = [c]) (by decide +kernel) hc
    exact hascii.imp (fun h ↦ ⟨asciiRun, List.mem_cons_self, h⟩) Or.inr
  · rw [upperChar, if_neg hc]
    refine (caseCounterpart_cases ..).imp_left ?_
    rintro ⟨r, hr, h⟩
    exact ⟨r, List.mem_cons_of_mem _ hr, h⟩

/-- **Upper case leaves a character, or makes plain characters of it that it leaves.** None of these
stands before the letters. -/
theorem upperChar_cases (c : Char) : upperChar c = [c] ∨
    upperChar c ≠ [] ∧
      ∀ d ∈ upperChar c, isPlain d = true ∧ upperChar d = [d] ∧ 65 ≤ d.toNat := by
  rcases upperChar_counterpart_cases c with ⟨r, hr, hcontains, h⟩ | ⟨codes, hmem, h⟩ | h
  · rw [h]
    refine Or.inr ⟨List.cons_ne_nil _ [], List.forall_mem_singleton.2 ?_⟩
    exact Progression.isSettled_counterpart (List.all_eq_true.1 isSettled_capitals r hr) hcontains
  · have hcodes := List.all_eq_true.1 isSettled_sequences _ hmem
    simp only [Bool.and_eq_true, Bool.not_eq_true', List.isEmpty_eq_false_iff,
      List.all_eq_true] at hcodes
    rw [h]
    refine Or.inr ⟨fun hnil ↦ hcodes.1 (List.map_eq_nil_iff.1 hnil), fun d hd ↦ ?_⟩
    obtain ⟨n, hn, rfl⟩ := List.mem_map.1 hd
    exact Progression.isSettled_spec (hcodes.2 n hn) (Progression.has_single n)
  · exact Or.inl h

/-- Every character has something in upper case. -/
theorem upperChar_ne_nil (c : Char) : upperChar c ≠ [] := by
  rcases upperChar_cases c with h | h
  · rw [h]
    exact List.cons_ne_nil c []
  · exact h.1

/-- A plain character has plain capitals. -/
theorem isPlain_of_mem_upperChar {c d : Char} (hc : isPlain c = true) (hd : d ∈ upperChar c) :
    isPlain d = true := by
  rcases upperChar_cases c with h | h
  · rw [h, List.mem_singleton] at hd
    rwa [hd]
  · exact (h.2 d hd).1

/-- What is not plain is only there if it was there before. -/
theorem eq_of_mem_upperChar {c d : Char} (hd : d ∈ upperChar c) (h : isPlain d = false) :
    upperChar c = [c] ∧ d = c := by
  rcases upperChar_cases c with hc | hc
  · rw [hc, List.mem_singleton] at hd
    exact ⟨hc, hd⟩
  · rw [(hc.2 d hd).1] at h
    exact Bool.noConfusion h

/-- A sign that stands before the letters is only there if it was there before. -/
theorem eq_of_mem_upperChar_of_lt {c d : Char} (hd : d ∈ upperChar c) (h : d.toNat < 65) :
    d = c := by
  rcases upperChar_cases c with hc | hc
  · rw [hc, List.mem_singleton] at hd
    exact hd
  · exact absurd (hc.2 d hd).2.2 (Nat.not_le.2 h)

namespace Text

theorem upper_cons (c : Char) (t : Text) : upper (c :: t) = upperChar c ++ upper t :=
  List.flatMap_cons

theorem upper_append (t u : Text) : upper (t ++ u) = upper t ++ upper u :=
  List.flatMap_append

theorem upper_singleton (c : Char) : upper [c] = upperChar c :=
  List.append_nil (upperChar c)

theorem upper_eq_self {t : Text} (h : ∀ c ∈ t, upperChar c = [c]) : t.upper = t := by
  induction t with
  | nil => rfl
  | cons c t ih =>
    rw [upper_cons, h c List.mem_cons_self, ih fun d hd ↦ h d (List.mem_cons_of_mem c hd)]
    rfl

/-- **Upper case is settled.** -/
theorem upper_upper (t : Text) : t.upper.upper = t.upper := by
  induction t with
  | nil => rfl
  | cons c t ih =>
    have hchar : upper (upperChar c) = upperChar c := by
      rcases upperChar_cases c with h | h
      · rw [h, upper_singleton, h]
      · exact upper_eq_self fun d hd ↦ (h.2 d hd).2.1
    rw [upper_cons, upper_append, hchar, ih]

/-- Nothing vanishes in upper case. -/
theorem upper_eq_nil_iff {t : Text} : upper t = [] ↔ t = [] := by
  cases t with
  | nil => exact ⟨fun _ ↦ rfl, fun _ ↦ rfl⟩
  | cons c t =>
    rw [upper_cons]
    exact ⟨fun h ↦ absurd (List.append_eq_nil_iff.1 h).1 (upperChar_ne_nil c), nofun⟩

section Ends

variable {t : Text} {d : Char} (hup : upperChar d = [d])

include hup

theorem head?_upper_of_head? (h : t.head? = some d) : (upper t).head? = some d := by
  obtain ⟨u, rfl⟩ := List.head?_eq_some_iff.1 h
  rw [upper_cons, hup]
  rfl

/-- A first character of the upper case that is not plain was there before. -/
theorem head?_upper (hd : isPlain d = false) : (upper t).head? = some d ↔ t.head? = some d := by
  refine ⟨fun h ↦ ?_, head?_upper_of_head? hup⟩
  rcases t with _ | ⟨c, t⟩
  · exact h
  · obtain ⟨e, u, he⟩ := List.exists_cons_of_ne_nil (upperChar_ne_nil c)
    rw [upper_cons, he] at h
    obtain rfl := Option.some.inj h
    rw [(eq_of_mem_upperChar (he ▸ List.mem_cons_self) hd).2]
    rfl

/-- **The marks at the ends of a text stay in their places**: no other character becomes a mark, and
marks have no case. -/
theorem getLast?_upper (hd : isPlain d = false) :
    (upper t).getLast? = some d ↔ t.getLast? = some d := by
  rcases List.eq_nil_or_concat' t with rfl | ⟨t, c, rfl⟩
  · exact Iff.rfl
  obtain ⟨u, e, he⟩ := (List.eq_nil_or_concat' (upperChar c)).resolve_left (upperChar_ne_nil c)
  have hlast : (upper (t ++ [c])).getLast? = some e := by
    rw [upper_append, upper_singleton, he, ← List.append_assoc, List.getLast?_concat]
  rw [hlast, List.getLast?_concat, Option.some.injEq, Option.some.injEq]
  constructor
  · rintro rfl
    exact (eq_of_mem_upperChar (by simp [he]) hd).2.symm
  · rintro rfl
    have hlist : [] ++ [c] = u ++ [e] := hup.symm.trans he
    exact (List.cons.inj (List.append_inj' hlist rfl).2).1.symm

end Ends

/-- Ink stays ink in upper case. -/
theorem isWhiteSpace_of_mem_upperChar {c d : Char} (hc : isWhiteSpace c = false)
    (hd : d ∈ upperChar c) : isWhiteSpace d = false := by
  rcases upperChar_cases c with h | h
  · rw [h, List.mem_singleton] at hd
    rwa [hd]
  · exact (isPlain_iff.1 (h.2 d hd).1).1

theorem BeginsInk.upper {t : Text} (h : BeginsInk t) : BeginsInk t.upper := by
  obtain ⟨c, u, rfl, hc⟩ := h
  obtain ⟨d, v, hd⟩ := List.exists_cons_of_ne_nil (upperChar_ne_nil c)
  refine ⟨d, v ++ Text.upper u, ?_, isWhiteSpace_of_mem_upperChar hc (by simp [hd])⟩
  rw [upper_cons, hd]
  rfl

theorem EndsInk.upper {t : Text} (h : EndsInk t) : EndsInk t.upper := by
  obtain ⟨u, c, rfl, hc⟩ := h
  obtain ⟨v, d, hd⟩ := (List.eq_nil_or_concat' (upperChar c)).resolve_left (upperChar_ne_nil c)
  refine ⟨Text.upper u ++ v, d, ?_, isWhiteSpace_of_mem_upperChar hc (by simp [hd])⟩
  rw [upper_append, upper_singleton, hd, List.append_assoc]

end Text

end ControlLanguage
