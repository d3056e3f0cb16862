import ControlLanguage.Proofs.Parameter.Comparison
import ControlLanguage.Proofs.Parameter.ReadBack
import ControlLanguage.Proofs.Statement.Single

/-!
# Leaving out a default

A parameter that was not typed is left out if its value is the default. The two are compared by
their normal forms, while a reader compares what would be written. **The two comparisons agree**
(`assemble_eq_commandName_iff`): a value that is written like its default is left out, and one that
is written differently is not.

They come apart in few places, and conditions are asked for there only. Values with the same normal
form are written alike if they are nested alike, each of their characters has one capital, and no
white space stands beside a slash (`ParameterSpec.MatchesExactly`). Values that are written alike
have the same normal form if they do not differ in quotes or in parts for which nothing is written
(`ParameterSpec.ReadsExactly`). Either way the default is a single value, since its text is compared
as it was declared. Without these conditions the comparisons differ (`comparison_disagrees`).
-/

namespace ControlLanguage

open Text

/-- Something is written for the value of any text, or nothing for an empty one. -/
theorem ValueRules.exists_typed_interpret (rules : ValueRules) (p : ParameterSpec) (t : Text) :
    ∃ r, rules.typed p (p.interpret t) = .ok r := by
  rw [typed]
  split_ifs
  · exact ⟨[], rfl⟩
  · exact rules.exists_render_interpret p t

namespace ParameterSpec

/-- The value of `t`, if its normal form is that of the default `d`, differs from it in letter case
only. -/
structure MatchesExactly (p : ParameterSpec) (t d : Text) : Prop where
  /-- The default is a single value, so that it is compared as the value that it is. -/
  isOneValue : p.IsOneValue d
  /-- The two are nested alike, and no white space stands beside a slash. -/
  nesting : (p.interpret t).upper = (p.interpret d).upper ∨
    (p.interpret t).nesting = (p.interpret d).nesting ∧
      (∀ u ∈ (p.interpret t).parts, u.HasTightSlashes) ∧
      ∀ u ∈ (p.interpret d).parts, u.HasTightSlashes
  /-- Each character has one capital, so that letter case does not matter when they are written. -/
  capitals : p.interpret t = p.interpret d ∨
    (p.interpret t).HasCapitals ∧ (p.interpret d).HasCapitals

/-- Something is written for `t`, and the same for `d`, letter case apart. -/
def IsWrittenLike (p : ParameterSpec) (t d : Text) : Prop :=
  ∃ r s, p.rules.typed p (p.interpret t) = .ok r ∧ p.rules.typed p (p.interpret d) = .ok s ∧
    r ≠ [] ∧ r.upper = s.upper

/-- The value of `t`, if it is written like the default `d`, does not differ from it in quotes or in
parts for which nothing is written. -/
structure ReadsExactly (p : ParameterSpec) (t d : Text) : Prop where
  /-- The default is a single value, so that it is compared as the value that it is. -/
  isOneValue : p.IsOneValue d
  /-- Both show in what is written for them, and they do not differ in quotes alone. -/
  legible : (p.interpret t).upper = (p.interpret d).upper ∨ p.IsLegible t ∧ p.IsLegible d ∧
    ((p.interpret t).literal = (p.interpret d).literal →
      (p.interpret t).upper = (p.interpret d).upper)

section Default

variable {p : ParameterSpec} {t d r s : Text}

theorem MatchesExactly.interpret_upper_eq (h : p.MatchesExactly t d)
    (hnormal : (p.interpret t).normal = (p.interpret d).normal) :
    (p.interpret t).upper = (p.interpret d).upper := by
  rcases h.nesting with hupper | ⟨hnesting, ht, hd⟩
  · exact hupper
  · exact ParameterValue.upper_eq_of_normal_eq ht hd hnesting hnormal

/-- **A value that matches the default is written like it.** -/
theorem MatchesExactly.upper_eq (h : p.MatchesExactly t d)
    (hupper : (p.interpret t).upper = (p.interpret d).upper)
    (hr : p.rules.render p (p.interpret t) = .ok r)
    (hs : p.rules.render p (p.interpret d) = .ok s) : r.upper = s.upper := by
  rcases h.capitals with heq | ⟨ht, hd⟩
  · rw [← heq, hr] at hs
    exact congrArg upper (Except.ok.inj hs)
  · have hrender := (p.rules.upper_render p ht).symm.trans
      ((congrArg (fun v ↦ upper <$> p.rules.render p v) hupper).trans (p.rules.upper_render p hd))
    rw [hr, hs] at hrender
    exact Except.ok.inj hrender

/-- **A value that is written like the default matches it.** -/
theorem ReadsExactly.normal_eq (h : p.ReadsExactly t d)
    (hr : p.rules.render p (p.interpret t) = .ok r)
    (hs : p.rules.render p (p.interpret d) = .ok s) (hupper : r.upper = s.upper) :
    (p.interpret t).normal = (p.interpret d).normal := by
  have heq : (p.interpret t).upper = (p.interpret d).upper := by
    rcases h.legible with heq | ⟨ht, hd, hquotes⟩
    · exact heq
    · refine hquotes ?_
      rw [← p.rules.literal_readAgain ht hr, ← p.rules.literal_readAgain hd hs,
        ← ParameterValue.literal_upper, ← p.readAgain_upper, hupper, p.readAgain_upper,
        ParameterValue.literal_upper]
  rw [← ParameterValue.normal_upper, heq, ParameterValue.normal_upper]

/-- **A value is the default if and only if it is written alike**, letter case apart. -/
theorem isDefault_interpret_iff_upper_eq (ht : (p.interpret t).isEmpty = false)
    (hmatch : p.isDefault (p.interpret t) (.text d) = true → p.MatchesExactly t d)
    (halike : p.IsWrittenLike t d → p.ReadsExactly t d)
    (hr : p.rules.typed p (p.interpret t) = .ok r) (hne : r ≠ [])
    (hs : p.rules.typed p (p.interpret d) = .ok s) :
    p.isDefault (p.interpret t) (.text d) = true ↔ r.upper = s.upper := by
  have hr' := (ValueRules.typed_of_isEmpty_eq_false ht p.rules p).symm.trans hr
  constructor
  · intro hdefault
    have h := hmatch hdefault
    have hupper := h.interpret_upper_eq ((isDefault_interpret_iff h.isOneValue ht).1 hdefault)
    have hd : (p.interpret d).isEmpty = false := by
      rw [← ParameterValue.isEmpty_upper, ← hupper, ParameterValue.isEmpty_upper, ht]
    exact h.upper_eq hupper hr' ((ValueRules.typed_of_isEmpty_eq_false hd p.rules p).symm.trans hs)
  · intro hupper
    have h := halike ⟨r, s, hr, hs, hne, hupper⟩
    have hd : (p.interpret d).isEmpty = false := by
      refine Bool.eq_false_iff.2 fun hempty ↦ ?_
      rw [ValueRules.typed, if_pos hempty] at hs
      obtain rfl : [] = s := Except.ok.inj hs
      exact hne (upper_eq_nil_iff.1 hupper)
    rw [isDefault_interpret_iff h.isOneValue ht]
    exact h.normal_eq hr' ((ValueRules.typed_of_isEmpty_eq_false hd p.rules p).symm.trans hs) hupper

end Default

end ParameterSpec

namespace Statement

/-- **A parameter that was not typed is left out if and only if it is written like its default**,
letter case apart. -/
theorem assemble_eq_commandName_iff {p : ParameterSpec} {t d : Text}
    (hkey : ElementKey.keyword? p.key = none) (hdefault : p.default = some (.text d))
    (hblank : p.rules.typed p (p.interpret t) = .ok [] → p.rules.typed p (p.interpret d) = .ok [])
    (hmatch : p.isDefault (p.interpret t) (.text d) = true → p.MatchesExactly t d)
    (halike : p.IsWrittenLike t d → p.ReadsExactly t d) (name : Text) :
    ∃ r s, assembleOne name p (p.interpret t) [p.keyword] =
        .ok (commandName name ++ p.withText r) ∧
      assembleOne name p (p.interpret d) [p.keyword] = .ok (commandName name ++ p.withText s) ∧
      (assembleOne name p (p.interpret t) [] = .ok (commandName name) ↔ r.upper = s.upper) := by
  obtain ⟨r, hr⟩ := p.rules.exists_typed_interpret p t
  obtain ⟨s, hs⟩ := p.rules.exists_typed_interpret p d
  have hpresent : p.key ∈ [p.keyword].map upper := List.mem_singleton_self p.key
  refine ⟨r, s, assembleOne_typed name hkey hr hpresent,
    assembleOne_typed name hkey hs hpresent, ?_⟩
  rw [assembleOne_nil name hkey hr]
  rcases eq_or_ne r [] with rfl | hne
  · obtain rfl : s = [] := Except.ok.inj (hs.symm.trans (hblank hr))
    simp [ParameterSpec.withText_eq_nil_iff]
  · have ht : (p.interpret t).isEmpty = false := by
      refine Bool.eq_false_iff.2 fun hempty ↦ hne ?_
      rw [ValueRules.typed, if_pos hempty] at hr
      exact (Except.ok.inj hr).symm
    have homitted : isOmitted (.ofParameters [p]) [] p (p.interpret t) =
        p.isDefault (p.interpret t) (.text d) := by
      rw [isOmitted, ht]
      simp [AssemblyRules.ofParameters, ParameterSpec.defaults, hdefault, DefaultValue.toValue,
        KeyedList.ofList, KeyedList.put, KeyedList.get?]
    rw [← ParameterSpec.isDefault_interpret_iff_upper_eq ht hmatch halike hr hne hs, homitted]
    cases p.isDefault (p.interpret t) (.text d) <;> simp [ParameterSpec.withText_eq_nil_iff, hne]

/-- A parameter with a default. -/
def defaultParameter (keyword type default : Text) (max : Int) (qualifiers : List QualifierSpec)
    (elements : List ElementSpec) : ParameterSpec :=
  ⟨keyword, type, 0, max, some (.text default), [], qualifiers, elements⟩

/-- Files, and the printer file by default. -/
def printerFiles : ParameterSpec :=
  defaultParameter "File".toList [] "*LIBL/QSYSPRT".toList 9
    [⟨[], [], none, []⟩, ⟨[], [], none, []⟩] []

/-- A file is legible if its object and its library are. -/
theorem isLegible_printerFiles {t : Text} (object library : Text)
    (hread : printerFiles.interpret t = .list [.texts [object, library]])
    (hparts : ∀ u ∈ [object, library], u.IsFilled ∧ Part.IsUnbroken u) :
    printerFiles.IsLegible t := by
  have hfilled := ParameterValue.isFilled_texts.2
    ⟨List.cons_ne_nil object [library], fun u hu ↦ (hparts u hu).1⟩
  refine ⟨?_, fun _ _ _ ↦ ?_, nofun, nofun⟩ <;> rw [hread]
  · exact .list (List.cons_ne_nil _ _) (List.forall_mem_singleton.2 hfilled)
  · exact fun u hu ↦ (hparts u hu).2

/-- A title, and none by default. -/
def title : ParameterSpec :=
  defaultParameter "Title".toList [] "*BLANK".toList 1 [] []

/-- The default in another case and in parentheses is left out. A title with white space beside a
slash is kept, since it is not the default. -/
theorem assemble_eq_commandName_iff_files :
    (ElementKey.keyword? printerFiles.key = none ∧
      printerFiles.IsOneValue "*LIBL/QSYSPRT".toList ∧
      printerFiles.isDefault (printerFiles.interpret "*LIBL/QSYSPRT".toList)
        (.text "*LIBL/QSYSPRT".toList) = true ∧
      printerFiles.IsLegible "(*libl/qsysprt)".toList ∧
      printerFiles.IsLegible "*LIBL/QSYSPRT".toList ∧
      printerFiles.rules.typed printerFiles (printerFiles.interpret "(*libl/qsysprt)".toList) =
        .ok "*LIBL/QSYSPRT".toList ∧
      ∃ r s, assembleOne "PRT".toList printerFiles
          (printerFiles.interpret "(*libl/qsysprt)".toList) ["File".toList] =
            .ok ("PRT".toList ++ printerFiles.withText r) ∧
        assembleOne "PRT".toList printerFiles
          (printerFiles.interpret "*LIBL/QSYSPRT".toList) ["File".toList] =
            .ok ("PRT".toList ++ printerFiles.withText s) ∧
        (assembleOne "PRT".toList printerFiles
          (printerFiles.interpret "(*libl/qsysprt)".toList) [] = .ok "PRT".toList ↔
            r.upper = s.upper)) ∧
    ElementKey.keyword? title.key = none ∧
      title.rules.typed title (title.interpret "'Payroll / Q1'".toList) =
        .ok "'Payroll / Q1'".toList ∧
      title.rules.typed title (title.interpret "*BLANK".toList) = .ok "*BLANK".toList ∧
      title.isDefault (title.interpret "'Payroll / Q1'".toList) (.text "*BLANK".toList) = false ∧
      ∃ r s, assembleOne "PRT".toList title (title.interpret "'Payroll / Q1'".toList)
          ["Title".toList] = .ok ("PRT".toList ++ title.withText r) ∧
        assembleOne "PRT".toList title (title.interpret "*BLANK".toList) ["Title".toList] =
          .ok ("PRT".toList ++ title.withText s) ∧
        (assembleOne "PRT".toList title (title.interpret "'Payroll / Q1'".toList) [] =
          .ok "PRT".toList ↔ r.upper = s.upper) := by
  constructor
  · have hkey : ElementKey.keyword? printerFiles.key = none := by decide +kernel
    have hone : printerFiles.IsOneValue "*LIBL/QSYSPRT".toList := by
      constructor <;> decide +kernel
    have ht : printerFiles.IsLegible "(*libl/qsysprt)".toList :=
      isLegible_printerFiles "qsysprt".toList "*libl".toList (by decide +kernel) (by decide +kernel)
    have hd : printerFiles.IsLegible "*LIBL/QSYSPRT".toList :=
      isLegible_printerFiles "QSYSPRT".toList "*LIBL".toList (by decide +kernel) (by decide +kernel)
    have hupper : (printerFiles.interpret "(*libl/qsysprt)".toList).upper =
        (printerFiles.interpret "*LIBL/QSYSPRT".toList).upper := by
      decide +kernel
    have htyped : printerFiles.rules.typed printerFiles
        (printerFiles.interpret "(*libl/qsysprt)".toList) = .ok "*LIBL/QSYSPRT".toList := by
      decide +kernel
    have hself := ParameterSpec.isDefault_interpret_self hone (by decide +kernel)
    refine ⟨hkey, hone, hself, ht, hd, htyped, assemble_eq_commandName_iff hkey rfl ?_
      (fun _ ↦ ⟨hone, Or.inl hupper, Or.inr (by decide +kernel)⟩)
      (fun _ ↦ ⟨hone, Or.inr ⟨ht, hd, fun _ ↦ hupper⟩⟩) "PRT".toList⟩
    rw [htyped]
    exact nofun
  · have hkey : ElementKey.keyword? title.key = none := by decide +kernel
    have htyped : title.rules.typed title (title.interpret "'Payroll / Q1'".toList) =
        .ok "'Payroll / Q1'".toList := by
      decide +kernel
    have hdefault : title.rules.typed title (title.interpret "*BLANK".toList) =
        .ok "*BLANK".toList := by
      decide +kernel
    have hother : title.isDefault (title.interpret "'Payroll / Q1'".toList)
        (.text "*BLANK".toList) = false := by
      decide +kernel
    refine ⟨hkey, htyped, hdefault, hother, assemble_eq_commandName_iff hkey rfl ?_ ?_ ?_
      "PRT".toList⟩
    · rw [htyped]
      exact nofun
    · exact fun h ↦ absurd h (hother ▸ Bool.false_ne_true)
    · rintro ⟨r, s, hr, hs, -, hupper⟩
      obtain rfl := Except.ok.inj (htyped.symm.trans hr)
      obtain rfl := Except.ok.inj (hdefault.symm.trans hs)
      exact absurd hupper (by decide +kernel)

/-- What is written for a value that was typed and for the default, and what becomes of the value if
it was not typed. -/
def comparison (p : ParameterSpec) (t d : Text) :
    Except NoParts Text × Except NoParts Text × Except NoParts Text :=
  (assembleOne "X".toList p (p.interpret t) [p.keyword],
    assembleOne "X".toList p (p.interpret d) [p.keyword],
    assembleOne "X".toList p (p.interpret t) [])

/-- The two comparisons differ. What is written like the default is kept if only one of the two is
typed in quotes, if a part in front of a slash is missing, and if a blank stands in a name. What is
written differently is left out if white space stands beside a slash, if a character has two
capitals, if a list is nested in another way, and if nothing at all is written for it. The key of an
element is never written. -/
theorem comparison_disagrees :
    comparison (defaultParameter "K".toList [] "'a b'".toList 1 [] []) "a b".toList
        "'a b'".toList =
      (.ok "X K('a b')".toList, .ok "X K('a b')".toList, .ok "X K('a b')".toList) ∧
    comparison (defaultParameter "K".toList [] "A".toList 1 printerFiles.qualifiers []) "/A".toList
        "A".toList =
      (.ok "X K(A)".toList, .ok "X K(A)".toList, .ok "X K(A)".toList) ∧
    comparison (defaultParameter "K".toList "NAME".toList "A B".toList 9 printerFiles.qualifiers [])
        "(a b)".toList "A B".toList =
      (.ok "X K(A B)".toList, .ok "X K(A B)".toList, .ok "X K(A B)".toList) ∧
    comparison (defaultParameter "K".toList [] "'A/B'".toList 1 [] []) "'A / B'".toList
        "'A/B'".toList =
      (.ok "X K('A / B')".toList, .ok "X K('A/B')".toList, .ok "X".toList) ∧
    comparison (defaultParameter "K".toList [] "SS".toList 1 [] []) "ß".toList "SS".toList =
      (.ok "X K('ß')".toList, .ok "X K(SS)".toList, .ok "X".toList) ∧
    comparison (defaultParameter "K".toList [] "A B".toList 9 printerFiles.qualifiers [])
        "B/A".toList "A B".toList =
      (.ok "X K(B/A)".toList, .ok "X K(A B)".toList, .ok "X".toList) ∧
    comparison (defaultParameter "K".toList [] "A".toList 1 [] []) "''".toList "A".toList =
      (.ok "X".toList, .ok "X K(A)".toList, .ok "X".toList) ∧
    comparison (defaultParameter "K_ELEM0".toList [] "A".toList 1 [] []) "B".toList "A".toList =
      (.ok "X".toList, .ok "X".toList, .ok "X".toList) := by
  refine ⟨?_, ?_, ?_, ?_, ?_, ?_, ?_, ?_⟩ <;> decide +kernel

end Statement

end ControlLanguage
