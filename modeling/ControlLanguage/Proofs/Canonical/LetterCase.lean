import ControlLanguage.Proofs.Canonical.Settled
import ControlLanguage.Proofs.Text.Capital

/-!
# Letter case and the canonical form

A value and its upper case are recognised alike: both are quoted, a number, a name or an expression,
or neither is. So **they are written alike**, letter case apart (`upper_canonical_upper`).

For names that needs a condition, since `SS` is a name and `ß` is not: each character has to have
one capital. Then a character whose capital is a character of a name is one itself
(`isNameChar_of_upperChar`).
-/

namespace ControlLanguage

open Text

/-! ### Characters of names -/

/-- The characters that may be part of a name and are the capital of something: those of ASCII, and
two letters that are in fact the capital of nothing else. -/
def nameCapitals : List Progression :=
  [⟨0, 127, 1⟩, .single 'İ'.toNat, .single '\u212a'.toNat]

/-- Beyond ASCII only `ı` and `ſ` have such a capital. -/
theorem misses_nameCapitals : upperRuns.all (fun r ↦ Nat.beq r.first r.last &&
    (Nat.beq r.first 'ı'.toNat || Nat.beq r.first 'ſ'.toNat) ||
      nameCapitals.all (Progression.capitals r).misses) = true := by
  decide +kernel

/-- Every sequence has two characters at least, by evaluation of the table. -/
theorem length_upperSequences : upperSequences.all (fun e ↦ Nat.blt 1 e.2.length) = true := by
  decide +kernel

/-- A character of a name that upper case leaves alone is one of these. -/
theorem exists_mem_nameCapitals {d : Char} (h : isNameChar d = true) (hd : upperChar d = [d]) :
    ∃ s ∈ nameCapitals, s.Has d.toNat := by
  have hascii : ∀ {e : Char}, e.toNat < 128 → ∃ s ∈ nameCapitals, s.Has e.toNat := fun he ↦
    ⟨_, List.mem_cons_self, Nat.zero_le _, Nat.le_of_lt_succ he, Nat.mod_one _⟩
  rcases isLetter_or_lt_of_isNameChar h with hletter | hlt
  · refine forall_letter (P := fun d ↦ upperChar d = [d] → ∃ s ∈ nameCapitals, s.Has d.toNat)
      (fun n hn _ ↦ hascii ?_) (fun hi ↦ absurd hi (by decide +kernel))
        (fun hs ↦ absurd hs (by decide +kernel))
          (fun _ ↦ ⟨_, by simp [nameCapitals], Progression.has_single _⟩)
            (fun _ ↦ ⟨_, by simp [nameCapitals], Progression.has_single _⟩) hletter hd
    revert n
    decide +kernel
  · exact hascii hlt

/-- Beyond ASCII only `ı` and `ſ` are in a run and have a character of a name as capital. -/
theorem eq_of_isNameChar_counterpart {r : CaseRun} (hr : r ∈ upperRuns) {c : Char}
    (hc : r.contains c.toNat = true) (h : isNameChar (r.counterpart c.toNat) = true) :
    c = 'ı' ∨ c = 'ſ' := by
  have hsettled := List.all_eq_true.1 isSettled_capitals r (List.mem_cons_of_mem _ hr)
  obtain ⟨-, hself, hge⟩ := Progression.isSettled_counterpart hsettled hc
  obtain ⟨s, hs, hcapital⟩ := exists_mem_nameCapitals h hself
  have hto : (r.counterpart c.toNat).toNat = ((c.toNat : Int) + r.shift).toNat := by
    refine Progression.toNat_ofNat_of_ne fun hnull ↦ ?_
    rw [CaseRun.counterpart, hnull] at hge
    exact absurd hge (by decide)
  have hmisses := List.all_eq_true.1 misses_nameCapitals r hr
  rw [Bool.or_eq_true, List.all_eq_true] at hmisses
  rcases hmisses with hsingle | hmisses
  · simp only [Bool.or_eq_true, Bool.and_eq_true, Nat.beq_eq] at hsingle
    simp only [CaseRun.contains, Bool.and_eq_true, decide_eq_true_eq] at hc
    have hcode : c.toNat = r.first := by omega
    exact hsingle.2.imp (fun hi ↦ Char.toNat_inj.1 (hcode.trans hi))
      fun hs ↦ Char.toNat_inj.1 (hcode.trans hs)
  · exact absurd (hto ▸ hcapital) (Progression.misses_spec (hmisses s hs)
      (Progression.has_counterpart_of_isSettled hsettled hc))

/-- In ASCII, what becomes a character of a name was one, by evaluation of the table. -/
theorem isNameChar_of_upperChar_of_lt {c : Char} (hc : c.toNat < 128) :
    (upperChar c).any isNameChar = true →
      isNameChar c = true ∧ ((upperChar c).any isNameStart = true → isNameStart c = true) :=
  forall_ascii (P := fun c ↦ (upperChar c).any isNameChar = true →
    isNameChar c = true ∧ ((upperChar c).any isNameStart = true → isNameStart c = true))
      (by decide +kernel) hc

/-- A character whose capital is a character of a name is one, and begins a name if its capital
does. -/
theorem isNameChar_of_upperChar {c d : Char} (hd : upperChar c = [d]) (h : isNameChar d = true) :
    isNameChar c = true ∧ (isNameStart d = true → isNameStart c = true) := by
  by_cases hc : c.toNat < 128
  · have hascii := isNameChar_of_upperChar_of_lt hc
    simp only [hd, List.any_cons, List.any_nil, Bool.or_false] at hascii
    exact hascii h
  rw [upperChar, if_neg hc] at hd
  rcases caseCounterpart_cases upperRuns upperSequences c with ⟨r, hr, hcontains, hup⟩ |
    ⟨codes, hmem, hup⟩ | hup <;> rw [hup] at hd
  · obtain ⟨rfl, -⟩ := List.cons.inj hd
    rcases eq_of_isNameChar_counterpart hr hcontains h with rfl | rfl
    · exact ⟨by decide, fun _ ↦ by decide⟩
    · exact ⟨by decide, fun _ ↦ by decide⟩
  · -- a capital that is a sequence has at least two characters
    have hlength := List.all_eq_true.1 length_upperSequences _ hmem
    have hone := congrArg List.length hd
    rw [List.length_map, List.length_singleton] at hone
    rw [hone] at hlength
    exact Bool.noConfusion hlength
  · obtain ⟨rfl, -⟩ := List.cons.inj hd
    exact ⟨h, id⟩

namespace Text

/-! ### Numbers -/

theorem mem_of_isUnsignedNumber {t : Text} (h : t.isUnsignedNumber = true) {c : Char}
    (hc : c ∈ t) : isDecimalDigit c = true ∨ c = '.' ∨ c = ',' := by
  have hsplit := List.takeWhile_append_dropWhile (p := isDecimalDigit) (l := t)
  rw [← hsplit, List.mem_append] at hc
  rcases hc with hc | hc
  · exact Or.inl (List.mem_takeWhile_imp hc)
  rw [isUnsignedNumber] at h
  rcases hdrop : t.dropWhile isDecimalDigit with _ | ⟨mark, fraction⟩
  · rw [hdrop] at hc
    cases hc
  · rw [hdrop] at hc h
    simp only [Bool.and_eq_true, Bool.or_eq_true, decide_eq_true_eq, List.all_eq_true] at h
    rcases List.mem_cons.1 hc with rfl | hc
    · exact Or.inr h.1.1
    · exact Or.inl (h.1.2 c hc)

/-- A number consists of digits, marks and signs. -/
theorem mem_of_isNumber {t : Text} (h : t.isNumber = true) {c : Char} (hc : c ∈ t.trim) :
    isDecimalDigit c = true ∨ c ∈ ['.', ',', '-', '+'] := by
  rw [isNumber] at h
  have hmark : ∀ {u : Text}, u.isUnsignedNumber = true → c ∈ u →
      isDecimalDigit c = true ∨ c ∈ ['.', ',', '-', '+'] := by
    intro u hu hc
    rcases mem_of_isUnsignedNumber hu hc with hdigit | rfl | rfl
    · exact Or.inl hdigit
    · decide
    · decide
  split at h
  next rest heq =>
    rw [heq, List.mem_cons] at hc
    rcases hc with rfl | hc
    · decide
    · exact hmark h hc
  next rest heq =>
    rw [heq, List.mem_cons] at hc
    rcases hc with rfl | hc
    · decide
    · exact hmark h hc
  next => exact hmark h hc

/-- A digit or a sign of a number has no other case, and is not the capital of anything else. -/
theorem upperChar_of_isNumberChar {c d : Char} (hd : d ∈ upperChar c)
    (h : (isDecimalDigit c = true ∨ c ∈ ['.', ',', '-', '+']) ∨
      isDecimalDigit d = true ∨ d ∈ ['.', ',', '-', '+']) : upperChar c = [c] := by
  have hsigns : ∀ e ∈ ['.', ',', '-', '+'], upperChar e = [e] ∧ e.toNat < 65 :=
    List.forall_iff_forall_mem.1 (by decide)
  rcases h with (h | h) | h | h
  · exact upperChar_of_isDecimalDigit hd (Or.inl h)
  · exact (hsigns c h).1
  · exact upperChar_of_isDecimalDigit hd (Or.inr h)
  · obtain rfl := eq_of_mem_upperChar_of_lt hd (hsigns d h).2
    exact (hsigns d h).1

/-- **Numbers have no case.** -/
theorem upper_eq_self_of_isNumber {t : Text} (h : t.isNumber = true ∨ t.upper.isNumber = true)
    (ht : t.trim = t) : t.upper = t := by
  refine upper_eq_self fun c hc ↦ ?_
  obtain ⟨d, ds, hd⟩ := List.exists_cons_of_ne_nil (upperChar_ne_nil c)
  have hmem : d ∈ upperChar c := by simp [hd]
  refine upperChar_of_isNumberChar hmem (h.imp (fun h ↦ ?_) fun h ↦ ?_)
  · exact mem_of_isNumber h (by rwa [ht])
  · refine mem_of_isNumber h ?_
    rw [trim_upper, ht]
    exact List.mem_flatMap.2 ⟨c, hc, hmem⟩

theorem isNumber_trim (t : Text) : t.trim.isNumber = t.isNumber := by
  rw [isNumber, isNumber, trim_trim]

/-- **A number has no other case**, and is not the capital of anything else. -/
theorem isNumber_upper (t : Text) : t.upper.isNumber = t.isNumber := by
  rw [← isNumber_trim, trim_upper, ← isNumber_trim t]
  refine Bool.eq_iff_iff.2 ⟨fun h ↦ ?_, fun h ↦ ?_⟩
  · rwa [← upper_eq_self_of_isNumber (Or.inr h) (trim_trim t)]
  · rwa [upper_eq_self_of_isNumber (Or.inl h) (trim_trim t)]

/-! ### Names -/

/-- A text that becomes a name was one, if each of its characters has one capital. -/
theorem all_isNameChar_of_upper {t : Text} (ht : HasCapitals t)
    (h : t.upper.all isNameChar = true) : t.all isNameChar = true := by
  induction t with
  | nil => rfl
  | cons c t ih =>
    obtain ⟨⟨d, hd⟩, ht⟩ := ht.of_cons
    rw [upper_cons, hd, List.singleton_append, List.all_cons, Bool.and_eq_true] at h
    rw [List.all_cons, (isNameChar_of_upperChar hd h.1).1, ih ht h.2, Bool.true_and]

theorem isBareName_of_upper {t : Text} (ht : HasCapitals t) (h : t.upper.isBareName = true) :
    t.isBareName = true := by
  rcases t with _ | ⟨c, t⟩
  · exact h
  obtain ⟨⟨d, hd⟩, ht⟩ := ht.of_cons
  rw [upper_cons, hd, List.singleton_append] at h
  simp only [isBareName, Bool.and_eq_true, decide_eq_true_eq] at h ⊢
  obtain ⟨⟨hstart, hall⟩, hlength⟩ := h
  have hchar := isNameChar_of_upperChar hd (by simp [isNameChar, isLabelChar, hstart])
  exact ⟨⟨hchar.2 hstart, all_isNameChar_of_upper ht hall⟩, ht.length_upper ▸ hlength⟩

/-- **A text whose characters have one capital each is a name if its upper case is.** -/
theorem isName_of_upper {t : Text} (ht : t.trim = t) (hcapitals : HasCapitals t)
    (hq : t.isQuoted = false) (h : t.upper.isName = true) : t.isName = true := by
  have htrim : t.upper.trim = t.upper := (trim_upper t).trans (congrArg upper ht)
  rw [isName_iff htrim ((isQuoted_upper t).trans hq)] at h
  refine (isName_iff ht hq).2 (h.imp (isBareName_of_upper hcapitals) ?_)
  rintro ⟨name, heq, hname⟩
  rcases t with _ | ⟨c, t⟩
  · exact absurd heq nofun
  obtain ⟨⟨d, hd⟩, hrest⟩ := hcapitals.of_cons
  rw [upper_cons, hd, List.singleton_append] at heq
  obtain ⟨rfl, rfl⟩ := List.cons.inj heq
  obtain rfl := eq_of_mem_upperChar_of_lt (c := c) (d := '&') (by simp [hd]) (by decide)
  exact ⟨t, rfl, isBareName_of_upper hrest hname⟩

/-! ### The canonical form -/

/-- An empty literal has no other case. -/
theorem upper_eq_emptyLiteral_iff {t : Text} :
    t.upper = ['\x27', '\x27'] ↔ t = ['\x27', '\x27'] := by
  refine ⟨fun h ↦ ?_, fun h ↦ by rw [h]; decide⟩
  have hself : ∀ c ∈ t, upperChar c = ['\x27'] ∧ c = '\x27' := by
    intro c hc
    obtain ⟨d, ds, hd⟩ := List.exists_cons_of_ne_nil (upperChar_ne_nil c)
    have hmem : d ∈ t.upper := List.mem_flatMap.2 ⟨c, hc, by simp [hd]⟩
    obtain rfl : d = '\x27' := by simpa [h] using hmem
    obtain ⟨hup, rfl⟩ := eq_of_mem_upperChar (c := c) (d := '\x27') (by simp [hd]) (by decide)
    exact ⟨hup, rfl⟩
  have hlength : t.upper.length = t.length :=
    HasCapitals.length_upper fun c hc ↦ by rw [(hself c hc).1]; rfl
  rw [h] at hlength
  exact List.eq_replicate_iff.2 ⟨hlength.symm, fun c hc ↦ (hself c hc).2⟩

/-- Calls and operations are known by capitals that are there already. -/
theorem isExpression_upper (t : Text) : t.upper.isExpression = t.isExpression := by
  rw [isExpression, isExpression, trim_upper, upper_upper]

/-- **Whether a text is put in upper case does not depend on its case.** -/
theorem isCapitalised_of_upper {allowed : List Text} {type t : Text} (ht : t.trim = t)
    (hcapitals : HasCapitals t) (hq : t.isQuoted = false) :
    isCapitalised allowed type t.upper = isCapitalised allowed type t := by
  refine Bool.eq_iff_iff.2 ⟨fun h ↦ ?_, isCapitalised_upper allowed type ht hq⟩
  simp only [isCapitalised, Bool.or_eq_true, Bool.and_eq_true, decide_eq_true_eq, upper_upper,
    isQuoted_upper] at h ⊢
  rcases h with ((h | h) | ⟨h, h'⟩) | h
  · exact Or.inl (Or.inl (Or.inl h))
  · exact Or.inl (Or.inl (Or.inr h))
  · exact Or.inl (Or.inr ⟨isName_of_upper ht hcapitals hq h, h'⟩)
  · exact Or.inr (head?_of_upper_of_lt (by decide) h)

/-- **Values that differ in letter case are written alike**, letter case apart. -/
theorem upper_canonical_upper (allowed : List Text) (type : Text) {t : Text} (ht : HasCapitals t) :
    (canonical allowed type t.upper).upper = (canonical allowed type t).upper := by
  have hnil : (t.trim.upper = [] || t.trim.upper = ['\x27', '\x27']) =
      (t.trim = [] || t.trim = ['\x27', '\x27']) := by
    simp only [upper_eq_nil_iff, upper_eq_emptyLiteral_iff]
  rw [canonical, canonical, trim_upper]
  simp only [hnil, isExpression_upper, isNumber_upper, isQuoted_upper]
  by_cases hq : t.trim.isQuoted = true
  · simp only [hq, if_true]
    split_ifs <;> simp only [upper_upper]
  · rw [Bool.not_eq_true] at hq
    rw [isCapitalised_of_upper (trim_trim t) ht.trim hq]
    split_ifs <;> simp only [upper_upper, Part.upper_quoted]

end Text

namespace ValueRules

/-- A value is written like its upper case, letter case apart. -/
theorem upper_writtenText_upper (rules : ValueRules) {t : Text} (ht : HasCapitals t) :
    (rules.writtenText t.upper).upper = (rules.writtenText t).upper := by
  rw [writtenText, writtenText]
  split_ifs
  · rw [trim_upper, upper_upper]
  · exact upper_canonical_upper _ _ ht

end ValueRules

end ControlLanguage
