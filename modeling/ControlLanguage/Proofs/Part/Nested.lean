import ControlLanguage.Proofs.Canonical.Settled
import ControlLanguage.Proofs.Part.Fields

/-!
# Well-nested texts

In a well-nested text the quotes are closed and the parentheses match. Such texts can be joined, put
in parentheses and cut at a place where nothing is open, and what results is well-nested again.

A blank stands outside of quotes and parentheses or it does not. **A well-nested text without a
blank outside is never cut into occurrences** (`IsUnbroken`). The canonical form of an unbroken text
is unbroken (`IsUnbroken.writtenText`), and so are the parts of a qualified name.
-/

namespace ControlLanguage

open Text

namespace Part

/-- At no position of a text more parentheses were closed than opened. -/
def StaysNonneg (s : Nesting) (t : Text) : Prop :=
  ∀ u, u <+: t → 0 ≤ (s.afterText u).depth

/-- The quotes of a text are closed, and its parentheses match. -/
structure IsWellNested (t : Text) : Prop where
  staysNonneg : StaysNonneg .outside t
  afterText_eq : Nesting.outside.afterText t = .outside

/-- A well-nested text without a blank outside of quotes and parentheses. -/
structure IsUnbroken (t : Text) : Prop where
  isWellNested : IsWellNested t
  isWhole : IsWhole isBlank .outside t

/-! ### Parentheses never close too early -/

/-- Outside of parentheses the depth is zero. -/
theorem depth_outside_nonneg : 0 ≤ Nesting.outside.depth :=
  Int.le_refl 0

section Nonneg

variable {s : Nesting} {t u : Text}

theorem staysNonneg_nil : StaysNonneg s [] ↔ 0 ≤ s.depth := by
  refine ⟨fun h ↦ h [] (List.prefix_refl []), fun h u hu ↦ ?_⟩
  rw [List.prefix_nil.1 hu]
  exact h

/-- The depth stays there if it does from the next character on. -/
theorem staysNonneg_cons {c : Char} :
    StaysNonneg s (c :: t) ↔ 0 ≤ s.depth ∧ StaysNonneg (s.after c) t := by
  constructor
  · exact fun h ↦ ⟨h [] List.nil_prefix, fun u hu ↦ h (c :: u) ((List.prefix_cons_inj c).2 hu)⟩
  · rintro ⟨hs, ht⟩ u hu
    rcases List.prefix_cons_iff.1 hu with rfl | ⟨v, rfl, hv⟩
    · exact hs
    · exact ht v hv

instance StaysNonneg.decidable : (s : Nesting) → (t : Text) → Decidable (StaysNonneg s t)
  | _, [] => decidable_of_iff' _ staysNonneg_nil
  | s, c :: t =>
    haveI := StaysNonneg.decidable (s.after c) t
    decidable_of_iff' _ staysNonneg_cons

theorem StaysNonneg.depth_nonneg (h : StaysNonneg s t) : 0 ≤ s.depth :=
  h [] List.nil_prefix

/-- Whether the depth stays there is seen piece by piece. -/
theorem staysNonneg_append :
    StaysNonneg s (t ++ u) ↔ StaysNonneg s t ∧ StaysNonneg (s.afterText t) u := by
  induction t generalizing s with
  | nil =>
    rw [staysNonneg_nil]
    exact (and_iff_right_of_imp StaysNonneg.depth_nonneg).symm
  | cons c t ih =>
    rw [List.cons_append, staysNonneg_cons, staysNonneg_cons, ih, and_assoc]
    rfl

/-- A word leaves the depth alone. -/
theorem staysNonneg_of_isPlain (hs : IsQuoting s) (hdepth : 0 ≤ s.depth)
    (ht : ∀ c ∈ t, isPlain c = true) : StaysNonneg s t := by
  intro u hu
  rw [hs.afterText_of_isPlain fun c hc ↦ ht c (hu.subset hc)]
  exact hdepth

/-- Letter case has no part in the depth. -/
theorem StaysNonneg.upper (h : StaysNonneg s t) (hs : IsQuoting s) : StaysNonneg s t.upper := by
  induction t generalizing s with
  | nil => exact h
  | cons c t ih =>
    obtain ⟨hdepth, ht⟩ := staysNonneg_cons.1 h
    rw [upper_cons]
    by_cases hc : upperChar c = [c]
    · rw [hc]
      exact staysNonneg_cons.2 ⟨hdepth, ih ht (hs.after c)⟩
    · have hplain := isPlain_of_upperChar_ne hc
      have hcapitals : ∀ d ∈ upperChar c, isPlain d = true :=
        fun d hd ↦ isPlain_of_mem_upperChar hplain hd
      refine staysNonneg_append.2 ⟨staysNonneg_of_isPlain hs hdepth hcapitals, ?_⟩
      rw [hs.afterText_of_isPlain hcapitals]
      rw [hs.after_of_isPlain hplain] at ht
      exact ih ht hs

/-- Inside a literal nothing counts. -/
theorem staysNonneg_doubled {d : Int} (hd : 0 ≤ d) (b : Text) :
    StaysNonneg ⟨some '\x27', d⟩ (doubled b) := by
  induction b with
  | nil => exact staysNonneg_nil.2 hd
  | cons c b ih =>
    by_cases hc : c = '\x27'
    · rw [hc, doubled_cons_quote]
      exact staysNonneg_cons.2 ⟨hd, staysNonneg_cons.2 ⟨hd, ih⟩⟩
    · rw [doubled_cons_of_ne hc]
      refine staysNonneg_cons.2 ⟨hd, ?_⟩
      rwa [after_literal_of_ne hc]

end Nonneg

/-! ### Inside one more parenthesis -/

/-- The same with some more parentheses around it. -/
def raised (k : Int) (s : Nesting) : Nesting :=
  ⟨s.quote, s.depth + k⟩

/-- Each character moves the depth alike, wherever it starts. -/
theorem after_raised (k : Int) (s : Nesting) (c : Char) :
    (raised k s).after c = raised k (s.after c) := by
  rcases s with ⟨_ | q, d⟩
  · rw [Nesting.after, Nesting.after]
    dsimp only [raised]
    split_ifs
    · rfl
    · exact congrArg (Nesting.mk none) (Int.add_right_comm d k 1)
    · exact congrArg (Nesting.mk none) (show d + k - 1 = d - 1 + k by omega)
    · rfl
  · rw [Nesting.after, Nesting.after]
    dsimp only [raised]
    split_ifs <;> rfl

/-- And so does a text. -/
theorem afterText_raised (k : Int) (s : Nesting) (t : Text) :
    (raised k s).afterText t = raised k (s.afterText t) := by
  induction t generalizing s with
  | nil => rfl
  | cons c t ih =>
    show ((raised k s).after c).afterText t = _
    rw [after_raised, ih]
    rfl

namespace IsWellNested

variable {t u : Text}

instance decidable (t : Text) : Decidable (IsWellNested t) :=
  decidable_of_iff (StaysNonneg .outside t ∧ Nesting.outside.afterText t = .outside)
    ⟨fun h ↦ ⟨h.1, h.2⟩, fun h ↦ ⟨h.1, h.2⟩⟩

theorem nil : IsWellNested [] :=
  ⟨staysNonneg_nil.2 depth_outside_nonneg, rfl⟩

/-- Well-nested texts side by side are well-nested. -/
theorem append (ht : IsWellNested t) (hu : IsWellNested u) : IsWellNested (t ++ u) := by
  refine ⟨staysNonneg_append.2 ⟨ht.staysNonneg, ?_⟩, ?_⟩
  · rw [ht.afterText_eq]
    exact hu.staysNonneg
  · rw [Nesting.afterText_append, ht.afterText_eq, hu.afterText_eq]

/-- A well-nested text may be cut where nothing is open. -/
theorem of_append (h : IsWellNested (t ++ u)) (ht : Nesting.outside.afterText t = .outside) :
    IsWellNested t ∧ IsWellNested u := by
  obtain ⟨hnonneg, hend⟩ := h
  rw [staysNonneg_append, ht] at hnonneg
  rw [Nesting.afterText_append, ht] at hend
  exact ⟨⟨hnonneg.1, ht⟩, ⟨hnonneg.2, hend⟩⟩

theorem upper (h : IsWellNested t) : IsWellNested t.upper :=
  ⟨h.staysNonneg.upper isQuoting_outside,
    (isQuoting_outside.afterText_upper t).trans h.afterText_eq⟩

/-- White space at the ends is not missed. -/
theorem trim (h : IsWellNested t) : IsWellNested t.trim := by
  obtain ⟨w, w', hw, -, ht⟩ := exists_trim_eq t
  refine ⟨?_, (isQuoting_outside.afterText_trim t).trans h.afterText_eq⟩
  have hnonneg := h.staysNonneg
  rw [ht, staysNonneg_append, staysNonneg_append, isQuoting_outside.afterText_of_isWhite hw]
    at hnonneg
  exact hnonneg.2.1

/-- A word has nothing to nest. -/
theorem of_isPlain (h : ∀ c ∈ t, isPlain c = true) : IsWellNested t :=
  ⟨staysNonneg_of_isPlain isQuoting_outside depth_outside_nonneg h,
    isQuoting_outside.afterText_of_isPlain h⟩

/-- A literal is well-nested, whatever stands in it. -/
theorem quoted (b : Text) : IsWellNested (quoted b) := by
  refine ⟨?_, afterText_quoted 0 b⟩
  rw [quoted_eq]
  refine staysNonneg_cons.2 ⟨depth_outside_nonneg,
    staysNonneg_append.2 ⟨staysNonneg_doubled depth_outside_nonneg b, ?_⟩⟩
  rw [show Nesting.outside.after '\x27' = ⟨some '\x27', 0⟩ from rfl, afterText_doubled]
  exact staysNonneg_cons.2 ⟨Int.le_refl 0, staysNonneg_nil.2 (Int.le_refl 0)⟩

/-- Inside parentheses a well-nested text comes back to the depth it starts from. -/
theorem afterText_opened (h : IsWellNested t) :
    (opened 1).afterText t = opened 1 := by
  have hraised := afterText_raised 1 .outside t
  rw [h.afterText_eq] at hraised
  exact hraised

/-- And it does not leave the parentheses on the way. -/
theorem depth_pos (h : IsWellNested t) {v : Text} (hv : v <+: t) :
    0 < ((opened 1).afterText v).depth := by
  have hraised : ((opened 1).afterText v).depth = (Nesting.outside.afterText v).depth + 1 :=
    congrArg Nesting.depth (afterText_raised 1 .outside v)
  have := h.staysNonneg v hv
  omega

/-- **What is in parentheses is not cut.** -/
theorem isUnbroken_parenthesised (h : IsWellNested t) :
    IsUnbroken (ValueRules.parenthesised t) := by
  refine ⟨⟨staysNonneg_cons.2 ⟨depth_outside_nonneg, staysNonneg_append.2 ⟨?_, ?_⟩⟩, ?_⟩,
    isWhole_cons.2 ⟨rfl, isWhole_append.2 ⟨?_, ?_⟩⟩⟩
  · exact fun v hv ↦ Int.le_of_lt (h.depth_pos hv)
  · rw [show Nesting.outside.after '(' = opened 1 from rfl, h.afterText_opened]
    exact staysNonneg_cons.2 ⟨Int.one_nonneg, staysNonneg_nil.2 (Int.le_refl 0)⟩
  · show Nesting.afterText (opened 1) (t ++ [')']) = _
    rw [Nesting.afterText_append, h.afterText_opened]
    rfl
  · refine isWhole_iff.2 fun v c w heq ↦ ?_
    have hpos := h.depth_pos ⟨c :: w, heq.symm⟩
    rw [Bool.and_eq_false_iff]
    refine Or.inl (Bool.eq_false_iff.2 fun hfree ↦ ?_)
    rw [show Nesting.outside.after '(' = opened 1 from rfl] at hfree
    rw [Nesting.eq_outside_of_isFree hfree] at hpos
    exact absurd hpos (Int.lt_irrefl 0)
  · rw [show Nesting.outside.after '(' = opened 1 from rfl, h.afterText_opened]
    exact isWhole_cons.2 ⟨rfl, isWhole_nil⟩

end IsWellNested

/-! ### The fields of a text -/

/-- What a text passes on to both halves, where it is cut with nothing open, it passes on to its
fields. -/
theorem forall_mem_fields {P : Text → Prop}
    (hsplit : ∀ {t u}, P (t ++ u) → Nesting.outside.afterText t = .outside → P t ∧ P u)
    {p : Char → Bool} {t : Text} (h : P t) : ∀ f ∈ fields p .outside t, P f := by
  intro f hf
  induction hn : t.length using Nat.strong_induction_on generalizing t f with
  | h n ih =>
    rcases fields_cases p .outside t with hwhole | ⟨g, c, r, rfl, -, hend, hfree, -, heq⟩
    · rw [hwhole, List.mem_singleton] at hf
      exact hf ▸ h
    · obtain ⟨hg, hrest⟩ := hsplit h hend
      rw [heq, List.mem_cons] at hf
      rcases hf with rfl | hf
      · exact hg
      · have hc : Nesting.outside.afterText [c] = .outside := Nesting.after_of_isFree hfree
        exact ih r.length (by simp [← hn]; omega) (hsplit (t := [c]) hrest hc).2 f hf rfl

/-- The fields of a well-nested text are well-nested. -/
theorem IsWellNested.of_mem_fields {p : Char → Bool} {t f : Text} (h : IsWellNested t)
    (hf : f ∈ fields p .outside t) : IsWellNested f :=
  forall_mem_fields (P := IsWellNested) of_append h f hf

/-! ### Unbroken texts -/

namespace IsUnbroken

variable {t u : Text}

instance decidable (t : Text) : Decidable (IsUnbroken t) :=
  decidable_of_iff (IsWellNested t ∧ fields isBlank .outside t = [t])
    ⟨fun h ↦ ⟨h.1, h.2⟩, fun h ↦ ⟨h.1, h.2⟩⟩

theorem nil : IsUnbroken [] :=
  ⟨.nil, isWhole_nil⟩

/-- Texts without free blanks have none side by side. -/
theorem append (ht : IsUnbroken t) (hu : IsUnbroken u) : IsUnbroken (t ++ u) := by
  refine ⟨ht.isWellNested.append hu.isWellNested, isWhole_append.2 ⟨ht.isWhole, ?_⟩⟩
  rw [ht.isWellNested.afterText_eq]
  exact hu.isWhole

/-- Behind a closed piece the rest of an unbroken text is unbroken. -/
theorem of_append (h : IsUnbroken (t ++ u)) (ht : Nesting.outside.afterText t = .outside) :
    IsUnbroken t ∧ IsUnbroken u := by
  obtain ⟨hnested, hwhole⟩ := h
  obtain ⟨hleft, hright⟩ := hnested.of_append ht
  rw [isWhole_append, ht] at hwhole
  exact ⟨⟨hleft, hwhole.1⟩, ⟨hright, hwhole.2⟩⟩

theorem upper (h : IsUnbroken t) : IsUnbroken t.upper :=
  ⟨h.isWellNested.upper, h.isWhole.upper isCaseless_isBlank isQuoting_outside⟩

theorem trim (h : IsUnbroken t) : IsUnbroken t.trim :=
  ⟨h.isWellNested.trim, h.isWhole.trim isQuoting_outside⟩

/-- The blanks of a literal are not free. -/
theorem quoted (b : Text) : IsUnbroken (Text.quoted b) :=
  ⟨.quoted b, isWhole_quoted b⟩

/-- A word has no blanks. -/
theorem of_isPlain (h : ∀ c ∈ t, isPlain c = true) : IsUnbroken t := by
  refine ⟨.of_isPlain h, isWhole_iff.2 fun u c v heq ↦ ?_⟩
  rw [Bool.and_eq_false_iff]
  exact Or.inr (Shape.endsWord_of_isPlain (h c (by simp [heq]))).2.1

/-- Slashes join unbroken texts. -/
theorem append_slash (ht : IsUnbroken t) (hu : IsUnbroken u) : IsUnbroken (t ++ '/' :: u) :=
  ht.append ((of_isPlain (t := ['/']) (List.forall_mem_singleton.2 (by decide))).append hu)

/-- **The fields of an unbroken text are unbroken.** -/
theorem of_mem_fields {p : Char → Bool} (h : IsUnbroken t) {f : Text}
    (hf : f ∈ fields p .outside t) : IsUnbroken f :=
  forall_mem_fields (P := IsUnbroken) of_append h f hf

/-- The parts of an unbroken name are unbroken. -/
theorem of_mem_objectFirst {n : Int} (h : IsUnbroken t) {f : Text} (hf : f ∈ objectFirst n t) :
    IsUnbroken f :=
  forall_mem_objectFirst (P := IsUnbroken) append_slash trim (fun _ ↦ h.of_mem_fields) f hf

end IsUnbroken

end Part

namespace ValueRules

/-- **What holds of a value holds of what is written for it**, if it holds of nothing, of upper case
and of quoted texts. -/
theorem writtenText_induction (rules : ValueRules) {P : Text → Prop} {t : Text} (hnil : P [])
    (hupper : P t.trim.upper) (hquoted : P (quoted t.trim)) (h : P t.trim) :
    P (rules.writtenText t) := by
  rw [writtenText]
  split_ifs
  · exact h
  · rcases canonical_cases rules.allowed rules.type t with
      ⟨heq, -⟩ | ⟨-, ⟨heq, -⟩ | ⟨heq, -⟩ | heq⟩ <;> rw [heq]
    exacts [hnil, h, hupper, hquoted]

end ValueRules

/-- **The canonical form of an unbroken text is unbroken.** -/
theorem Part.IsUnbroken.writtenText {t : Text} (h : IsUnbroken t.trim) (rules : ValueRules) :
    IsUnbroken (rules.writtenText t) :=
  rules.writtenText_induction .nil h.upper (.quoted _) h

end ControlLanguage
