import ControlLanguage.Proofs.Parameter.LetterCase
import ControlLanguage.Proofs.Parameter.Shapes
import ControlLanguage.Proofs.Part.NormalForm
import ControlLanguage.Proofs.Part.Padding
import ControlLanguage.Proofs.Part.Qualified

/-!
# Values with the same normal form

The comparison with a default goes by normal forms, and these forget more than letter case: a list
with one item is that item, and a text with slashes is the list of its pieces. **Of two values with
the same nesting they forget nothing else**, if no white space stands beside a slash
(`ParameterValue.upper_eq_of_normal_eq`).

The default is compared as it is declared. A plain value, a name and a list with one item have the
normal form of their text (`ParameterSpec.isDefault_interpret_iff`), so that a default is found to
be one.
-/

namespace ControlLanguage

open Text

/-- A list of texts is known by its texts. -/
theorem ParameterValue.texts_injective : Function.Injective texts :=
  fun _ _ h ↦ List.map_injective_iff.2 (fun _ _ ↦ text.inj) (list.inj h)

namespace Text

/-! ### Pieces between slashes -/

/-- No white space stands at the ends of the text or beside a slash. -/
def HasTightSlashes (t : Text) : Prop :=
  ∀ piece ∈ t.cutAt '/', piece.trim = piece

instance HasTightSlashes.decidable (t : Text) : Decidable t.HasTightSlashes :=
  List.decidableBAll (fun piece : Text ↦ piece.trim = piece) (t.cutAt '/')

theorem cutAt_eq_splitOn (c : Char) (t : Text) : t.cutAt c = t.splitOn c := by
  induction t with
  | nil => rfl
  | cons d t ih =>
    rw [cutAt, ih, List.splitOn, List.splitOn, List.splitOnP_cons_eq_if_modifyHead]
    simp only [beq_iff_eq]

theorem cutAt_ne_nil (c : Char) (t : Text) : t.cutAt c ≠ [] :=
  cutAt_eq_splitOn c t ▸ List.splitOnP_ne_nil _ t

/-- The pieces of a text make up the text. -/
theorem intercalate_cutAt (c : Char) (t : Text) : [c].intercalate (t.cutAt c) = t :=
  cutAt_eq_splitOn c t ▸ List.intercalate_splitOn c

theorem HasTightSlashes.trim_eq {t : Text} (h : t.HasTightSlashes) : t.trim = t := by
  have hpiece : ∀ piece ∈ t.cutAt '/', piece = [] ∨ BeginsInk piece ∧ EndsInk piece :=
    fun piece hmem ↦ h piece hmem ▸ trim_eq_nil_or_ink piece
  by_cases hnil : t = []
  · rw [hnil]
    rfl
  obtain ⟨f, fs, hf⟩ := List.exists_cons_of_ne_nil (cutAt_ne_nil '/' t)
  have ht := intercalate_cutAt '/' t
  rw [hf, Part.intercalate_eq] at ht
  rw [hf] at hpiece
  have hslash : isWhiteSpace '/' = false := by decide
  refine trim_of_ink ?_ ?_
  · rcases hpiece f List.mem_cons_self with rfl | ⟨hbegins, -⟩
    · rcases fs with _ | ⟨g, gs⟩
      · exact absurd ht.symm hnil
      · exact ⟨'/', _, ht.symm, hslash⟩
    · exact ht ▸ hbegins.append _
  · rcases List.eq_nil_or_concat' fs with rfl | ⟨gs, g, rfl⟩
    · rw [List.flatMap_nil, List.append_nil] at ht
      subst ht
      exact ((hpiece _ List.mem_cons_self).resolve_left hnil).2
    · rw [List.flatMap_append, ← List.append_assoc, List.flatMap_singleton] at ht
      rcases hpiece g (by simp) with rfl | ⟨-, hends⟩
      · exact ⟨_, '/', ht.symm, hslash⟩
      · exact ht ▸ (hends.append ['/']).append _

/-- A text without the mark belongs to the first piece. -/
theorem cutAt_append {c : Char} {w : Text} (hw : c ∉ w) (t : Text) :
    (w ++ t).cutAt c = (t.cutAt c).modifyHead (w ++ ·) := by
  induction w with
  | nil => exact (congrFun List.modifyHead_id _).symm
  | cons d w ih =>
    obtain ⟨hd, hw⟩ := not_or.1 (mt List.mem_cons.2 hw)
    rw [List.cons_append, cutAt, if_neg (Ne.symm hd), ih hw, List.modifyHead_modifyHead]
    rfl

/-- A slash has no case, so a text is cut in the same places. -/
theorem cutAt_upper (t : Text) : t.upper.cutAt '/' = (t.cutAt '/').map upper := by
  induction t with
  | nil => rfl
  | cons c t ih =>
    rw [upper_cons, cutAt]
    split_ifs with hc
    · rw [hc, show upperChar '/' = ['/'] from by decide, List.singleton_append, cutAt, if_pos rfl,
        ih]
      rfl
    · have hslash : '/' ∉ upperChar c := fun h ↦ hc (eq_of_mem_upperChar_of_lt h (by decide)).symm
      rw [cutAt_append hslash, ih, ← upper_singleton, ← Part.map_upper_modifyHead]
      rfl

/-- The normal form of a text without white space beside its slashes. -/
theorem HasTightSlashes.normalText_eq {t : Text} (h : t.HasTightSlashes) :
    ParameterValue.normalText t =
      if t.upper.contains '/' then .texts (t.upper.cutAt '/') else .text t.upper := by
  have hmap : (t.upper.cutAt '/').map Text.trim = t.upper.cutAt '/' := by
    rw [cutAt_upper, Part.map_upper_trim, List.map_congr_left (g := id) h, List.map_id]
  rw [ParameterValue.normalText, h.trim_eq, hmap]

/-- **The normal form loses nothing but the case**, if no white space stands beside a slash. -/
theorem upper_eq_of_normalText_eq {t u : Text} (ht : t.HasTightSlashes) (hu : u.HasTightSlashes)
    (h : ParameterValue.normalText t = ParameterValue.normalText u) : t.upper = u.upper := by
  rw [ht.normalText_eq, hu.normalText_eq] at h
  split_ifs at h
  · have hpieces := ParameterValue.texts_injective h
    rw [← intercalate_cutAt '/' t.upper, hpieces, intercalate_cutAt]
  · exact absurd h nofun
  · exact absurd h nofun
  · exact ParameterValue.text.inj h

end Text

namespace ParameterValue

/-! ### Values with the same nesting -/

/-- The value without the letters of its texts. -/
def nesting (v : ParameterValue) : ParameterValue :=
  v.mapTexts fun _ ↦ []

theorem normalList_eq_iff {vs ws : List ParameterValue} (h : vs.length = ws.length) :
    normalList vs = normalList ws ↔ vs = ws := by
  refine ⟨fun heq ↦ ?_, congrArg normalList⟩
  rcases vs with _ | ⟨v, _ | ⟨v', vs⟩⟩
  · exact (List.length_eq_zero_iff.1 h.symm).symm
  · obtain ⟨w, rfl⟩ := List.length_eq_one_iff.1 h.symm
    exact congrArg (fun x ↦ [x]) heq
  · rcases ws with _ | ⟨w, _ | ⟨w', ws⟩⟩
    · exact Nat.noConfusion h
    · exact Nat.noConfusion (Nat.succ.inj h)
    · exact list.inj heq

/-- Of lists that agree in two functions of their members, a function of both agrees too. -/
theorem map_eq_of_map_eq {f g k : ParameterValue → ParameterValue} {vs ws : List ParameterValue}
    (hf : vs.map f = ws.map f) (hg : vs.map g = ws.map g)
    (h : ∀ v ∈ vs, ∀ w ∈ ws, f v = f w → g v = g w → k v = k w) : vs.map k = ws.map k := by
  induction vs generalizing ws with
  | nil => rw [List.map_eq_nil_iff.1 hf.symm]
  | cons v vs ih =>
    cases ws with
    | nil => exact absurd hf (List.cons_ne_nil _ _)
    | cons w ws =>
      obtain ⟨hfirst, hrest⟩ := List.cons.inj hf
      obtain ⟨hfirst', hrest'⟩ := List.cons.inj hg
      rw [List.map_cons, List.map_cons,
        h v List.mem_cons_self w List.mem_cons_self hfirst hfirst', ih hrest hrest' fun v hv w hw ↦
          h v (List.mem_cons_of_mem _ hv) w (List.mem_cons_of_mem _ hw)]

/-- **Of values with the same nesting the normal form forgets letter case only.** -/
theorem upper_eq_of_normal_eq {v w : ParameterValue} (hv : ∀ t ∈ v.parts, t.HasTightSlashes)
    (hw : ∀ t ∈ w.parts, t.HasTightSlashes) (hnesting : v.nesting = w.nesting)
    (h : v.normal = w.normal) : v.upper = w.upper := by
  induction v using induct generalizing w with
  | text t =>
    cases w with
    | text u =>
      exact congrArg text (upper_eq_of_normalText_eq (hv t List.mem_cons_self)
        (hw u List.mem_cons_self) h)
    | _ => cases hnesting
  | list vs ih =>
    cases w with
    | list ws =>
      rw [nesting, nesting, mapTexts_list, mapTexts_list] at hnesting
      have hnestings := list.inj hnesting
      have hlength : (vs.map normal).length = (ws.map normal).length := by
        simpa using congrArg List.length hnestings
      rw [normal, normal, normals_eq_map, normals_eq_map, normalList_eq_iff hlength] at h
      rw [upper, upper, mapTexts_list, mapTexts_list]
      refine congrArg list (map_eq_of_map_eq hnestings h fun v' hv' w' hw' hnesting h ↦ ?_)
      exact ih v' hv' (fun t ht ↦ hv t (mem_parts_list.2 ⟨v', hv', ht⟩))
        (fun t ht ↦ hw t (mem_parts_list.2 ⟨w', hw', ht⟩)) hnesting h
    | _ => cases hnesting
  | absent =>
    cases w with
    | absent => rfl
    | _ => cases hnesting
  | integer n =>
    cases w with
    | integer m => exact hnesting
    | _ => cases hnesting
  | truth b =>
    cases w with
    | truth c => exact hnesting
    | _ => cases hnesting

/-! ### One text -/

/-- A value that is one text, in any number of lists. -/
inductive IsSole : ParameterValue → Text → Prop
  | text (t : Text) : IsSole (.text t) t
  | list {v : ParameterValue} {t : Text} : IsSole v t → IsSole (.list [v]) t

/-- A value that is one text has its normal form. -/
theorem IsSole.normal_eq {v : ParameterValue} {t : Text} (h : IsSole v t) :
    v.normal = normalText t := by
  induction h with
  | text t => rfl
  | list _ ih => exact ih

theorem IsSole.texts (t : Text) : IsSole (texts [t]) t :=
  .list (.text t)

/-- White space around a text does not count in the comparison. -/
theorem normalText_trim (t : Text) : normalText t.trim = normalText t := by
  rw [normalText, normalText, trim_trim]

end ParameterValue

namespace ParameterSpec

/-- The text is a single value: a plain value, or names, or the only item of a list. -/
structure IsOneValue (p : ParameterSpec) (d : Text) : Prop where
  /-- There is one item in a list, unless it is a list of names. -/
  single : p.isElementList = true ∨ p.isQualified = false ∧ p.isMultiple = true →
    Part.occurrences d = [d.trim]
  /-- A list of elements among several is not in parentheses, which would be dropped. -/
  wrapped : p.isElementList = true → p.isMultiple = true → Part.isWrapped d.trim = false
  /-- An element is not taken for a name of several parts. -/
  name : p.isElementList = true → p.isQualified = true →
    Part.objectFirst p.qualifiers.length d.trim = [d.trim]
  /-- If the element is a name, it has one part. -/
  elementName : p.isElementList = true → ∀ e ∈ p.elements.head?, e.qualifiers ≠ [] →
    Part.objectFirst e.qualifiers.length d.trim = [d.trim]
  /-- If the element may be a list, it is not one in parentheses. -/
  elementList : p.isElementList = true → ∀ e ∈ p.elements.head?, e.qualifiers = [] →
    e.elements ≠ [] → d.trim.head? ≠ some '('

variable {p : ParameterSpec} {d : Text}

/-- What was read from a text is compared as it is. -/
theorem comparable_interpret (p : ParameterSpec) {t : Text} (h : (p.interpret t).isEmpty = false) :
    p.comparable (p.interpret t) = p.interpret t := by
  rw [comparable]
  split_ifs with hqualified hmultiple
  · obtain ⟨items, heq, hitems⟩ : ∃ items, p.interpret t = .list items ∧
        ∀ v ∈ items, v.isList = true := by
      rcases hlist : p.isElementList with _ | _
      · exact ⟨_, interpret_names hlist hqualified hmultiple t, List.forall_mem_map.2 fun _ _ ↦ rfl⟩
      · exact ⟨_, interpret_lists hlist hmultiple t, List.forall_mem_map.2 fun _ _ ↦ rfl⟩
    rw [heq] at h ⊢
    have hany : items.any ParameterValue.isList = true := by
      rcases items with _ | ⟨v, items⟩
      · exact Bool.noConfusion h
      · exact List.any_eq_true.2 ⟨v, List.mem_cons_self, hitems v List.mem_cons_self⟩
    rw [ParameterValue.qualifiedOccurrences, if_pos hany]
    refine congrArg ParameterValue.list ((List.map_congr_left fun v hv ↦ ?_).trans (List.map_id _))
    have hlist := hitems v hv
    cases v with
    | list vs => rfl
    | _ => exact Bool.noConfusion hlist
  · rw [Bool.not_eq_true] at hmultiple
    obtain ⟨items, heq⟩ : ∃ items, p.interpret t = .list items := by
      rcases hlist : p.isElementList with _ | _
      · exact ⟨_, interpret_name hlist hqualified hmultiple t⟩
      · exact ⟨_, interpret_elements hlist hmultiple t⟩
    rw [heq]
    rfl
  · rfl

namespace IsOneValue

variable (h : p.IsOneValue d)

include h

/-- A list of one element has that element for its value. -/
theorem isSole_interpretList (hlist : p.isElementList = true) :
    (ElementSpec.interpretList p.elements d).IsSole d.trim := by
  have hname := h.elementName hlist
  have hhead := h.elementList hlist
  rw [ElementSpec.interpretList, h.single (Or.inl hlist)]
  rcases he : p.elements with _ | ⟨e, elements⟩
  · exact .texts d.trim
  rw [he, List.head?_cons] at hname hhead
  refine .list ?_
  rw [ElementSpec.interpret]
  split_ifs with hqualified hnested
  · rw [hname e rfl (by simpa using hqualified)]
    exact .texts d.trim
  · rw [Bool.and_eq_true, decide_eq_true_eq] at hnested
    exact absurd hnested.2 (hhead e rfl (by simpa using hqualified) (by simpa using hnested.1))
  · exact .text d.trim

theorem isSole_interpret (hlist : p.isElementList = true) : (p.interpret d).IsSole d.trim := by
  have hsole := h.isSole_interpretList hlist
  rcases hmultiple : p.isMultiple with _ | _
  · rwa [interpret_elements hlist hmultiple]
  · have hmem : d.trim ∈ Part.occurrences d := by
      rw [h.single (Or.inl hlist)]
      exact List.mem_singleton_self _
    have hunwrapped : ElementSpec.interpretList p.elements (Part.unwrapped d.trim) =
        ElementSpec.interpretList p.elements d := by
      rw [Part.unwrapped, h.wrapped hlist hmultiple, if_neg Bool.false_ne_true, trim_trim,
        ElementSpec.interpretList, ElementSpec.interpretList, h.single (Or.inl hlist),
        ((Part.occurrences_normalForm d).1 _ hmem).2.2]
    rw [interpret_lists hlist hmultiple, h.single (Or.inl hlist), List.map_singleton, hunwrapped]
    exact .list hsole

/-- The declared text of a list of one element is compared as that element. -/
theorem normal_comparable (hlist : p.isElementList = true) :
    (p.comparable (.text d)).normal = ParameterValue.normalText d.trim := by
  rw [comparable]
  split_ifs with hqualified hmultiple
  · have hname := h.name hlist hqualified
    rw [ParameterValue.qualifiedOccurrences, h.single (Or.inl hlist), List.map_singleton,
      Part.unwrapped, h.wrapped hlist hmultiple, if_neg Bool.false_ne_true, trim_trim, hname]
    exact (ParameterValue.IsSole.list (.texts d.trim)).normal_eq
  · rw [ParameterValue.objectFirst, ← Part.objectFirst_trim, h.name hlist hqualified]
    exact (ParameterValue.IsSole.texts d.trim).normal_eq
  · exact (ParameterValue.normalText_trim d).symm

/-- **The declared text of a single value has the normal form of the value.** -/
theorem normal_eq : (p.comparable (.text d)).normal = (p.interpret d).normal := by
  rcases hlist : p.isElementList with _ | _
  · rcases hqualified : p.isQualified with _ | _
    · have htext : (p.comparable (.text d)).normal = ParameterValue.normalText d.trim := by
        rw [comparable, hqualified]
        exact (ParameterValue.normalText_trim d).symm
      rcases hmultiple : p.isMultiple with _ | _
      · rw [htext, interpret_value hlist hqualified hmultiple]
        rfl
      · rw [htext, interpret_values hlist hqualified hmultiple,
          h.single (Or.inr ⟨hqualified, hmultiple⟩)]
        rfl
    · rcases hmultiple : p.isMultiple with _ | _
      · rw [comparable, hqualified, hmultiple, interpret_name hlist hqualified hmultiple]
        rfl
      · rw [comparable, hqualified, hmultiple, interpret_names hlist hqualified hmultiple]
        rfl
  · rw [h.normal_comparable hlist, (h.isSole_interpret hlist).normal_eq]

end IsOneValue

/-- **A value is the default exactly if it has the normal form of the value of the default**, if
that is a single one. So the value of the default is the default. -/
theorem isDefault_interpret_iff (h : p.IsOneValue d) {t : Text}
    (ht : (p.interpret t).isEmpty = false) :
    p.isDefault (p.interpret t) (.text d) = true ↔
      (p.interpret t).normal = (p.interpret d).normal := by
  rw [isDefault, ParameterValue.matchesLoosely, decide_eq_true_eq, p.comparable_interpret ht,
    h.normal_eq]

/-- **The value of the default is the default**, if that is a single one. -/
theorem isDefault_interpret_self (h : p.IsOneValue d) (hd : (p.interpret d).isEmpty = false) :
    p.isDefault (p.interpret d) (.text d) = true :=
  (isDefault_interpret_iff h hd).2 rfl

end ParameterSpec

end ControlLanguage
