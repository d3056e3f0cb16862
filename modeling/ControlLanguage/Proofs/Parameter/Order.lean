import Mathlib.Data.List.Nodup
import Mathlib.Data.List.Perm.Basic
import ControlLanguage.Proofs.Parameter.Keys

/-!
# Values in another order

The values of a statement are looked up by their keys, so their order does not matter as long as the
keys are distinct. Grouping walks through the entries and adds the lists it finds at the end;
**what it makes of a key is said without that walk** (`get?_groupElements`): the elements of the
key, if there are any, and else its own entry. Both are the same in any order.
-/

namespace ControlLanguage

namespace KeyedList

section Lookup

variable {α : Type} {entries entries' : KeyedList α}

theorem get?_eq_some_iff (hkeys : (entries.map (·.1)).Nodup) {key : Text} {value : α} :
    get? entries key = some value ↔ (key, value) ∈ entries :=
  ⟨mem_of_get?, get?_of_mem hkeys⟩

/-- **The order of the entries does not matter** if their keys are distinct. -/
theorem get?_perm (h : entries.Perm entries') (hkeys : (entries.map (·.1)).Nodup) (key : Text) :
    get? entries key = get? entries' key := by
  have hkeys' : (entries'.map (·.1)).Nodup := (h.map (·.1)).nodup_iff.1 hkeys
  refine Option.ext fun value ↦ ?_
  rw [get?_eq_some_iff hkeys, get?_eq_some_iff hkeys', h.mem_iff]

theorem get?_cons (e : Text × α) (entries : KeyedList α) (key : Text) :
    get? (e :: entries) key = if key = e.1 then some e.2 else get? entries key := by
  by_cases hkey : key = e.1
  · rw [if_pos hkey, get?, List.lookup_cons, beq_iff_eq.2 hkey]
  · rw [if_neg hkey, get?, List.lookup_cons, beq_eq_false_iff_ne.2 hkey]
    rfl

theorem get?_put (entries : KeyedList α) (key : Text) (value : α) (k : Text) :
    get? (put key value entries) k = if k = key then some value else get? entries k := by
  induction entries with
  | nil => exact get?_cons (key, value) [] k
  | cons e entries ih =>
    rw [put]
    by_cases hkey : e.1 = key
    · rw [if_pos hkey, get?_cons, get?_cons, hkey]
      split_ifs <;> rfl
    · rw [if_neg hkey, get?_cons, get?_cons, ih]
      by_cases hk : k = e.1
      · rw [if_pos hk, if_pos hk, if_neg (hk ▸ hkey)]
      · rw [if_neg hk, if_neg hk]

/-- Keys that are distinct in upper case are put in upper case one by one. -/
theorem mapKeys_upper_of_nodup (h : (entries.map (·.1.upper)).Nodup) :
    mapKeys Text.upper entries = entries.map fun e ↦ (e.1.upper, e.2) := by
  refine ofList_of_nodup ?_
  rwa [List.map_map]

end Lookup

section Grouping

variable {entries entries' : KeyedList ParameterValue}

theorem get?_foldl_putElements (keywords : List Text) (grouped : KeyedList ParameterValue)
    (key : Text) : get? (keywords.foldl (ElementKey.putElements entries) grouped) key =
      if key ∈ keywords ∧ ElementKey.elements entries key ≠ [] then
        some (.list (ElementKey.elements entries key))
      else get? grouped key := by
  induction keywords generalizing grouped with
  | nil => simp
  | cons keyword keywords ih =>
    have hput : get? (ElementKey.putElements entries grouped keyword) key =
        if key = keyword ∧ ElementKey.elements entries key ≠ [] then
          some (.list (ElementKey.elements entries key))
        else get? grouped key := by
      rw [ElementKey.putElements]
      split
      next hnil =>
        rw [if_neg]
        rintro ⟨rfl, hne⟩
        exact hne hnil
      next values hvalues =>
        rw [get?_put]
        by_cases hkey : key = keyword
        · subst hkey
          rw [if_pos rfl, if_pos ⟨rfl, hvalues⟩]
        · rw [if_neg hkey, if_neg fun h ↦ hkey h.1]
    rw [List.foldl_cons, ih, hput]
    by_cases hmem : key ∈ keywords
    · by_cases hne : ElementKey.elements entries key = [] <;> simp [hmem, hne]
    · simp [hmem]

/-- **What grouping makes of a key**: its elements, if there are any, and else its own entry. -/
theorem get?_groupElements (entries : KeyedList ParameterValue) (key : Text) :
    get? (groupElements entries) key =
      if key ∈ entries.filterMap (fun e ↦ ElementKey.keyword? e.1) ∧
          ElementKey.elements entries key ≠ [] then
        some (.list (ElementKey.elements entries key))
      else get? (entries.filter fun e ↦ (ElementKey.keyword? e.1).isNone) key := by
  rw [groupElements, get?_foldl_putElements]
  simp only [List.mem_eraseDups]

/-- The value of a single keyword, if that is not the key of an element. -/
theorem get?_groupElements_singleton (keyword : Text) (v : ParameterValue) :
    get? (groupElements (mapKeys Text.upper [(keyword, v)])) keyword.upper =
      if ElementKey.keyword? keyword.upper = none then some v else none := by
  have hkeys : mapKeys Text.upper [(keyword, v)] = [(keyword.upper, v)] := rfl
  rw [hkeys]
  split_ifs with hkey
  · rw [groupElements_of_keyword? (List.forall_mem_singleton.2 hkey), get?_cons, if_pos rfl]
  · obtain ⟨base, hbase⟩ := Option.ne_none_iff_exists'.1 hkey
    rw [get?_groupElements, if_neg, List.filter_singleton, hbase]
    · rfl
    · rintro ⟨hmem, -⟩
      have heq : keyword.upper = base := by simpa [hbase] using hmem
      exact ElementKey.ne_of_keyword? hbase heq.symm

/-- Elements are looked up by their keys too. -/
theorem elements_perm (h : entries.Perm entries') (hkeys : (entries.map (·.1)).Nodup) :
    ElementKey.elements entries = ElementKey.elements entries' := by
  have hget : get? entries = get? entries' := funext (get?_perm h hkeys)
  have hvalue : ElementKey.elementValue entries = ElementKey.elementValue entries' := by
    funext keyword i
    rw [ElementKey.elementValue, ElementKey.elementValue, hget, h.length_eq]
  funext keyword
  rw [ElementKey.elements, ElementKey.elements, hvalue, h.length_eq]

/-- Entries with distinct keys are the same in some order if each key has the same value. -/
theorem perm_of_get? {α : Type} {entries entries' : KeyedList α}
    (hkeys : (entries.map (·.1)).Nodup) (hkeys' : (entries'.map (·.1)).Nodup)
    (h : ∀ key, get? entries key = get? entries' key) : entries.Perm entries' := by
  refine (List.perm_ext_iff_of_nodup hkeys.of_map hkeys'.of_map).2 fun e ↦ ?_
  obtain ⟨key, value⟩ := e
  rw [← get?_eq_some_iff hkeys, ← get?_eq_some_iff hkeys', h key]

/-- Grouping gives no key twice. -/
theorem nodup_keys_groupElements (hkeys : (entries.map (·.1)).Nodup) :
    ((groupElements entries).map (·.1)).Nodup := by
  have hfold : ∀ (keywords : List Text) {grouped : KeyedList ParameterValue},
      (grouped.map (·.1)).Nodup →
        ((keywords.foldl (ElementKey.putElements entries) grouped).map (·.1)).Nodup := by
    intro keywords
    induction keywords with
    | nil => exact id
    | cons keyword keywords ih =>
      refine fun {grouped} h ↦ ih ?_
      rw [ElementKey.putElements]
      split
      · exact h
      · exact nodup_keys_foldl [(keyword, _)] grouped h
  exact hfold _ (hkeys.sublist (List.filter_sublist.map Prod.fst))

theorem get?_groupElements_perm (h : entries.Perm entries') (hkeys : (entries.map (·.1)).Nodup)
    (key : Text) : get? (groupElements entries) key = get? (groupElements entries') key := by
  have hkept := get?_perm (h.filter fun e ↦ (ElementKey.keyword? e.1).isNone)
    (hkeys.sublist (List.filter_sublist.map Prod.fst)) key
  rw [get?_groupElements, get?_groupElements, elements_perm h hkeys, hkept]
  simp only [(h.filterMap _).mem_iff]

end Grouping

end KeyedList

end ControlLanguage
