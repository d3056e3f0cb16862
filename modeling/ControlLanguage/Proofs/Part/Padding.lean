import ControlLanguage.Proofs.Part.Fields

/-!
# White space around a value

A value is trimmed in some places and not in others. It makes no difference to the parts of a value:
white space alone has no occurrences, **a single occurrence is the trimmed text**
(`trim_of_occurrences_eq_singleton`), and a qualified name has the same parts with white space
around it (`objectFirst_trim`), also where the last part takes several fields together.
-/

namespace ControlLanguage

open Text

namespace Part

theorem trim_append_isWhite (t : Text) {w : Text} (hw : IsWhite w) : (t ++ w).trim = t.trim := by
  rw [← trimStart_trimEnd, trimEnd_append_of_isWhite t hw, trimStart_trimEnd]

/-! ### Occurrences -/

/-- White space has no parts. -/
theorem occurrences_of_isWhite {t : Text} (h : IsWhite t) : occurrences t = [] := by
  refine List.filter_eq_nil_iff.2 fun o ho ↦ ?_
  obtain ⟨f, hf, rfl⟩ := List.mem_map.1 ho
  rw [trim_of_isWhite fun c hc ↦ h c (mem_of_mem_fields hf hc)]
  decide

/-- The occurrences of a text that is cut at its first free blank. -/
theorem occurrences_of_fields_eq {t f r : Text}
    (h : fields isBlank .outside t = f :: fields isBlank .outside r) :
    occurrences t = if f.trim.isEmpty then occurrences r else f.trim :: occurrences r := by
  rw [occurrences, h, List.map_cons, List.filter_cons]
  cases f.trim.isEmpty <;> rfl

/-- And only white space has none. -/
theorem isWhite_of_occurrences_eq_nil {t : Text} (h : occurrences t = []) : IsWhite t := by
  induction hn : t.length using Nat.strong_induction_on generalizing t with
  | h n ih =>
    rcases fields_cases isBlank .outside t with hwhole | ⟨f, c, r, rfl, -, -, -, hc, heq⟩
    · rw [occurrences, hwhole] at h
      refine isWhite_iff_trim_eq_nil.2 ?_
      simpa using h
    · rw [occurrences_of_fields_eq heq] at h
      split_ifs at h with hf
      have hr := ih r.length (by simp [← hn]; omega) h rfl
      refine isWhite_append.2 ⟨isWhite_iff_trim_eq_nil.2 (List.isEmpty_iff.1 hf), ?_⟩
      exact List.forall_mem_cons.2 ⟨isWhiteSpace_of_isBlank hc, hr⟩

/-- **A single occurrence is the whole text**, but for the white space around it. -/
theorem trim_of_occurrences_eq_singleton {t o : Text} (h : occurrences t = [o]) : t.trim = o := by
  induction hn : t.length using Nat.strong_induction_on generalizing t with
  | h n ih =>
    rcases fields_cases isBlank .outside t with hwhole | ⟨f, c, r, rfl, -, -, -, hc, heq⟩
    · rw [occurrences, hwhole, List.map_singleton, List.filter_singleton] at h
      cases hempty : t.trim.isEmpty <;> rw [hempty] at h
      · exact (List.cons.inj h).1
      · cases h
    · have hblank : IsWhite [c] := List.forall_mem_singleton.2 (isWhiteSpace_of_isBlank hc)
      rw [occurrences_of_fields_eq heq] at h
      split_ifs at h with hf
      · have hwhite : IsWhite (f ++ [c]) :=
          isWhite_append.2 ⟨isWhite_iff_trim_eq_nil.2 (List.isEmpty_iff.1 hf), hblank⟩
        rw [List.append_cons, trim_append_of_isWhite hwhite]
        exact ih r.length (by simp [← hn]; omega) h rfl
      · obtain ⟨rfl, hr⟩ := List.cons.inj h
        exact trim_append_isWhite f
          (isWhite_append (s := [c]).2 ⟨hblank, isWhite_of_occurrences_eq_nil hr⟩)

/-! ### Qualified names -/

section Slash

variable {w : Text} (hw : IsWhite w)

include hw

/-- No slash stands in white space. -/
theorem isWhole_slash_of_isWhite (s : Nesting) : IsWhole (· = '/') s w := by
  refine isWhole_iff.2 fun u c v heq ↦ ?_
  have hc : c ≠ '/' := by
    rintro rfl
    exact absurd (hw '/' (by simp [heq])) (by decide)
  simp [hc]

/-- White space is no qualified name. -/
theorem objectFirst_of_isWhite (n : Int) : objectFirst n w = [] := by
  rw [objectFirst, qualified, isWhole_slash_of_isWhite hw, limited_eq_self (Int.le_max_right n 1),
    List.map_singleton, trim_of_isWhite hw]
  rfl

/-- White space in front of a qualified name changes none of its parts. -/
theorem objectFirst_isWhite_append (n : Int) (t : Text) :
    objectFirst n (w ++ t) = objectFirst n t := by
  have hfields := (isWhole_slash_of_isWhite hw .outside).fields_append t
  rw [isQuoting_outside.afterText_of_isWhite hw] at hfields
  have hlimited : ∀ fs : List Text, limited n (fs.modifyHead (w ++ ·)) =
      (limited n fs).modifyHead (w ++ ·) := by
    intro fs
    rcases fs with _ | ⟨f, fs⟩
    · simp [limited]
    · rw [List.modifyHead_cons, limited, limited]
      rcases (n - 1).toNat with _ | k
      · show [['/'].intercalate ((w ++ f) :: fs)] = [w ++ ['/'].intercalate (f :: fs)]
        rw [intercalate_eq, intercalate_eq, List.append_assoc]
      · rw [List.drop_succ_cons, List.drop_succ_cons]
        rcases fs.drop k with _ | ⟨g, gs⟩ <;> rfl
  have htrim : ∀ fs : List Text, (fs.modifyHead (w ++ ·)).map Text.trim = fs.map Text.trim := by
    rintro (_ | ⟨f, fs⟩)
    · rfl
    · exact congrArg (· :: fs.map Text.trim) (trim_append_of_isWhite hw f)
  rw [objectFirst, objectFirst, qualified, qualified, hfields, hlimited, htrim]

/-- White space behind a text lengthens its last field and no other. -/
theorem exists_fields_append_isWhite (t : Text) :
    ∃ fs f, fields (· = '/') .outside t = fs ++ [f] ∧
      fields (· = '/') .outside (t ++ w) = fs ++ [f ++ w] := by
  induction hn : t.length using Nat.strong_induction_on generalizing t with
  | h n ih =>
    rcases fields_cases (· = '/') .outside t with hwhole | ⟨f, c, r, rfl, hf, hend, hfree, hc, heq⟩
    · refine ⟨[], t, hwhole, ?_⟩
      rw [hwhole.fields_append, isWhole_slash_of_isWhite hw]
      rfl
    · obtain ⟨fs, g, hr, hrw⟩ := ih r.length (by simp [← hn]; omega) r rfl
      refine ⟨f :: fs, g, by rw [heq, hr]; rfl, ?_⟩
      rw [List.append_assoc, hf.fields_append, hend, List.cons_append, fields,
        if_pos (by rw [hfree, hc]; rfl), hrw, List.modifyHead_cons, List.append_nil]
      rfl

/-- White space behind a qualified name changes none of its parts. -/
theorem objectFirst_append_isWhite (n : Int) (t : Text) :
    objectFirst n (t ++ w) = objectFirst n t := by
  obtain ⟨fs, f, hfields, hfields'⟩ := exists_fields_append_isWhite hw t
  have hjoin : ∀ (gs : List Text) (g : Text),
      ['/'].intercalate (gs ++ [g ++ w]) = ['/'].intercalate (gs ++ [g]) ++ w := by
    intro gs g
    induction gs with
    | nil => rw [List.nil_append, List.nil_append, intercalate_eq, intercalate_eq]; simp
    | cons u gs ih =>
      rw [List.cons_append, List.cons_append, intercalate_cons _ _ (List.concat_ne_nil _ _),
        intercalate_cons _ _ (List.concat_ne_nil _ _), ih]
      simp
  have hlimited : ∃ gs g, limited n (fs ++ [f]) = gs ++ [g] ∧
      limited n (fs ++ [f ++ w]) = gs ++ [g ++ w] := by
    rw [limited, limited]
    by_cases hk : (n - 1).toNat ≤ fs.length
    · refine ⟨fs.take (n - 1).toNat, ['/'].intercalate (fs.drop (n - 1).toNat ++ [f]), ?_⟩
      rw [← hjoin, List.drop_append_of_le_length hk, List.drop_append_of_le_length hk,
        List.take_append_of_le_length hk, List.take_append_of_le_length hk]
      rcases fs.drop (n - 1).toNat with _ | ⟨g, gs⟩ <;> exact ⟨rfl, rfl⟩
    · have hnil : ∀ g : Text, (fs ++ [g]).drop (n - 1).toNat = [] :=
        fun g ↦ List.drop_eq_nil_of_le (by simp; omega)
      rw [hnil, hnil]
      exact ⟨fs, f, rfl, rfl⟩
  obtain ⟨gs, g, hgs, hgs'⟩ := hlimited
  rw [objectFirst, objectFirst, qualified, qualified, hfields, hfields', hgs, hgs', List.map_append,
    List.map_append, List.map_singleton, List.map_singleton, trim_append_isWhite g hw]

end Slash

/-- White space around a qualified name is not part of it. -/
theorem objectFirst_trim (n : Int) (t : Text) : objectFirst n t.trim = objectFirst n t := by
  obtain ⟨w, w', hw, hw', ht⟩ := exists_trim_eq t
  conv_rhs => rw [ht]
  rw [objectFirst_isWhite_append hw, objectFirst_append_isWhite hw']

end Part

end ControlLanguage
