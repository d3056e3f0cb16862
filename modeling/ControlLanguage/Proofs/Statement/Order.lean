import ControlLanguage.Parameter.Rebuild
import ControlLanguage.Proofs.Parameter.Order
import ControlLanguage.Proofs.Statement.Rebuilding

/-!
# The order of parameters does not matter

A statement is assembled in declaration order, and what assembly asks of the values is only which
value a key has. So **values in another order are assembled to the same statement**, and so are the
parameters of a statement that is read and assembled again (`rebuild_perm`).
-/

namespace ControlLanguage

open Text

namespace Statement

/-- The text of a parameter depends on the value of its key, and on whether the key was typed. -/
theorem parameterText_congr {rules : AssemblyRules} {present present' : List Text}
    {values values' : KeyedList ParameterValue} {p : ParameterSpec}
    (hpresent : p.key ∈ present ↔ p.key ∈ present')
    (hvalues : KeyedList.get? values p.key = KeyedList.get? values' p.key) :
    parameterText rules present values p = parameterText rules present' values' p := by
  have htyped : present.contains p.key = present'.contains p.key := by
    rw [Bool.eq_iff_iff, List.contains_iff_mem, List.contains_iff_mem, hpresent]
  have homitted : isOmitted rules present p = isOmitted rules present' p := by
    funext v
    rw [isOmitted, isOmitted, htyped]
  rw [parameterText, parameterText, hvalues, homitted]

/-- **Values in another order are assembled to the same statement.** -/
theorem assemble_perm {values values' : KeyedList ParameterValue} (h : values.Perm values')
    (hkeys : (values.map (·.1.upper)).Nodup) {present present' : List Text}
    (hpresent : ∀ key, key ∈ present ↔ key ∈ present') (name : Text)
    (parameters : List ParameterSpec) (rules : AssemblyRules) (label : Option Text) :
    assemble name values parameters rules present label =
      assemble name values' parameters rules present' label := by
  have hkeys' : (values'.map (·.1.upper)).Nodup := (h.map (·.1.upper)).nodup_iff.1 hkeys
  have htyped : ∀ key, key ∈ present.map upper ↔ key ∈ present'.map upper := by
    intro key
    simp only [List.mem_map, hpresent]
  have hgrouped : ∀ key,
      KeyedList.get? (KeyedList.groupElements (KeyedList.mapKeys upper values)) key =
        KeyedList.get? (KeyedList.groupElements (KeyedList.mapKeys upper values')) key := by
    intro key
    rw [KeyedList.mapKeys_upper_of_nodup hkeys, KeyedList.mapKeys_upper_of_nodup hkeys']
    exact KeyedList.get?_groupElements_perm (h.map _) (by rwa [List.map_map]) key
  have htext : parameterText rules (present.map upper)
      (KeyedList.groupElements (KeyedList.mapKeys upper values)) =
        parameterText rules (present'.map upper)
          (KeyedList.groupElements (KeyedList.mapKeys upper values')) :=
    funext fun p ↦ parameterText_congr (htyped p.key) (hgrouped p.key)
  rw [assemble, assemble, htext]

/-! ### Statements that are read -/

/-- The values of a statement whose keywords are distinct. -/
theorem parameterValues_texts (parameters : List ParameterSpec) {name : Text}
    (hname : name.isIdentifier = true) {as : List Argument} (has : ∀ a ∈ as, a.IsReadable)
    (hkeys : (as.map (·.keyword.upper)).Nodup) :
    parameterValues parameters (ofText (name ++ Argument.texts as)).body = as.map fun a ↦
      (a.keyword.upper,
        ParameterSpec.interpretNamed parameters a.keyword.upper a.value.asRead) := by
  obtain ⟨name', hname', htrim⟩ := exists_trim_texts hname as
  rw [ofText_texts hname fun a ha ↦ (has a ha).toIsSeparate, htrim, parameterValues_eq,
    entries_texts hname' has, List.map_map,
    KeyedList.ofList_of_nodup]
  · rfl
  · rwa [List.map_map]

/-- **A statement with its parameters in another order is rebuilt to the same statement.** -/
theorem rebuild_perm (parameters : List ParameterSpec) (command : Text) {name : Text}
    (hname : name.isIdentifier = true) {as as' : List Argument} (has : ∀ a ∈ as, a.IsReadable)
    (has' : ∀ a ∈ as', a.IsReadable)
    (h : (as.map fun a ↦ (a.keyword, a.value)).Perm (as'.map fun a ↦ (a.keyword, a.value)))
    (hkeys : (as.map (·.keyword.upper)).Nodup) :
    rebuild parameters command (name ++ Argument.texts as) =
      rebuild parameters command (name ++ Argument.texts as') := by
  have hkeys' : (as'.map (·.keyword.upper)).Nodup := by
    have hperm := h.map (·.1.upper)
    rw [List.map_map, List.map_map] at hperm
    exact hperm.nodup_iff.1 hkeys
  have hvalues := h.map fun q ↦
    (q.1.upper, ParameterSpec.interpretNamed parameters q.1.upper q.2.asRead)
  rw [List.map_map, List.map_map] at hvalues
  have hupper : (as.map fun a ↦ a.keyword.upper.upper) = as.map (·.keyword.upper) :=
    List.map_congr_left fun a _ ↦ upper_upper a.keyword
  rw [rebuild, rebuild, parameterValues_texts parameters hname has hkeys,
    parameterValues_texts parameters hname has' hkeys',
    ofText_texts hname fun a ha ↦ (has a ha).toIsSeparate,
    ofText_texts hname fun a ha ↦ (has' a ha).toIsSeparate]
  refine assemble_perm hvalues ?_ (fun key ↦ (hvalues.map (·.1)).mem_iff) ..
  rw [List.map_map]
  exact hupper ▸ hkeys

/-- **The order of parameters does not matter**, neither that of the values that a statement is
assembled from, flat entries of elements included, nor that of the arguments of a statement that is
rebuilt, whatever blanks separate them. -/
theorem assemble_eq_and_rebuild_eq_of_perm :
    (∀ {name : Text} {values values' : KeyedList ParameterValue} {parameters : List ParameterSpec}
      {rules : AssemblyRules} {present present' : List Text} {label : Option Text},
      values.Perm values' → (values.map (·.1.upper)).Nodup →
      (∀ key, key ∈ present ↔ key ∈ present') →
      assemble name values parameters rules present label =
        assemble name values' parameters rules present' label) ∧
    ∀ {parameters : List ParameterSpec} {command name : Text} {as as' : List Argument},
      name.isIdentifier = true → (∀ a ∈ as, a.IsReadable) → (∀ a ∈ as', a.IsReadable) →
      (as.map fun a ↦ (a.keyword, a.value)).Perm (as'.map fun a ↦ (a.keyword, a.value)) →
      (as.map (·.keyword.upper)).Nodup →
      rebuild parameters command (name ++ Argument.texts as) =
        rebuild parameters command (name ++ Argument.texts as') :=
  ⟨fun h hkeys hpresent ↦ assemble_perm h hkeys hpresent ..,
    fun hname has has' h hkeys ↦ rebuild_perm _ _ hname has has' h hkeys⟩

/-- Flat entries of elements in reverse, and two arguments that change places. -/
theorem assemble_eq_and_rebuild_eq_log :
    let values : KeyedList ParameterValue :=
      [("one_elem1_1".toList, .text "b".toList), ("Text".toList, .text "it's".toList),
        ("ONE_ELEM0".toList, .text "*same".toList), ("ONE_ELEM1_0".toList, .text "a".toList)]
    (values.map (·.1.upper)).Nodup ∧
      assemble "LOG".toList values.reverse logParameters (.ofParameters logParameters)
        ["One".toList] none = .ok "LOG TEXT('it''s') ONE(*SAME (A B))".toList ∧
      rebuild logParameters "LOG".toList "log one(&x  (')' b)) \tText(( a))".toList =
        .ok "LOG TEXT(( a)) ONE(&X (')' B))".toList := by
  intro values
  obtain ⟨hassemble, hrebuild⟩ := assemble_eq_and_rebuild_eq_of_perm
  have hkeys : (values.map (·.1.upper)).Nodup := by decide +kernel
  have hreversed := @hassemble "LOG".toList values values.reverse logParameters
    (.ofParameters logParameters) ["One".toList] ["One".toList] none values.reverse_perm.symm hkeys
    fun _ ↦ Iff.rfl
  let one : Argument := ⟨" ".toList, "one".toList, "&x  (')' b)".toList⟩
  let text : Argument := ⟨" \t".toList, "Text".toList, "( a)".toList⟩
  have hone : one.IsReadable :=
    ⟨⟨by decide, by simp [one, isBlank], by decide⟩, rfl, by decide⟩
  have htext : text.IsReadable :=
    ⟨⟨by decide, by simp [text, isBlank], by decide⟩, rfl, by decide⟩
  have hswapped := @hrebuild logParameters "LOG".toList "log".toList [one, text] [text, one]
    (by decide) (by simp [hone, htext]) (by simp [hone, htext]) (.swap ..) (by decide +kernel)
  refine ⟨hkeys, hreversed.symm.trans ?_, hswapped.trans ?_⟩
  · decide +kernel
  · decide +kernel

end Statement

end ControlLanguage
