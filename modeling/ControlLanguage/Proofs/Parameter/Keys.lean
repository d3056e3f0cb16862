import ControlLanguage.Parameter.Assembly
import ControlLanguage.Proofs.Text.UpperCase

/-!
# Keys of values

Before a statement is assembled its keys are put in upper case and flat entries of elements are
grouped. **Values that were read are left alone by both**: their keys are words in upper case, which
are settled and have no underscore.
-/

namespace ControlLanguage

open Text

namespace KeyedList

variable {α : Type}

/-- A new key goes to the end. -/
theorem put_of_not_mem {entries : KeyedList α} {key : Text} (h : key ∉ entries.map (·.1))
    (value : α) : put key value entries = entries ++ [(key, value)] := by
  induction entries with
  | nil => rfl
  | cons e entries ih =>
    rw [List.map_cons, List.mem_cons, not_or] at h
    rw [put, if_neg (Ne.symm h.1), ih h.2]
    rfl

/-- A key that is there stays in its place. -/
theorem keys_put (entries : KeyedList α) (key : Text) (value : α) :
    (put key value entries).map (·.1) =
      if key ∈ entries.map (·.1) then entries.map (·.1) else entries.map (·.1) ++ [key] := by
  by_cases h : key ∈ entries.map (·.1)
  · rw [if_pos h]
    induction entries with
    | nil => cases h
    | cons e entries ih =>
      rw [put]
      by_cases hkey : e.1 = key
      · rw [if_pos hkey]
        rfl
      · rw [if_neg hkey, List.map_cons, List.map_cons,
          ih ((List.mem_cons.1 h).resolve_left (Ne.symm hkey))]
  · rw [if_neg h, put_of_not_mem h, List.map_append]
    rfl

/-- Nothing but the new entry is put in. -/
theorem mem_of_mem_put {entries : KeyedList α} {key : Text} {value : α} {e : Text × α}
    (h : e ∈ put key value entries) : e = (key, value) ∨ e ∈ entries := by
  induction entries with
  | nil => exact Or.inl (List.mem_singleton.1 h)
  | cons e' entries ih =>
    rw [put] at h
    split_ifs at h with hkey
    · rcases List.mem_cons.1 h with rfl | h
      · exact Or.inl (by rw [hkey])
      · exact Or.inr (List.mem_cons_of_mem e' h)
    · rcases List.mem_cons.1 h with rfl | h
      · exact Or.inr List.mem_cons_self
      · exact (ih h).imp_right (List.mem_cons_of_mem e')

section Fold

variable (entries acc : List (Text × α))

/-- **No key is there twice**, however many entries are put in. -/
theorem nodup_keys_foldl (h : (acc.map (·.1)).Nodup) :
    ((entries.foldl (fun acc (k, v) ↦ put k v acc) acc).map (·.1)).Nodup := by
  induction entries generalizing acc with
  | nil => exact h
  | cons e entries ih =>
    obtain ⟨key, value⟩ := e
    refine ih _ ?_
    rw [keys_put]
    split_ifs with hmem
    · exact h
    · exact List.nodup_append.2 ⟨h, List.pairwise_singleton _ key, fun k hk k' hk' ↦ by
        rw [List.mem_singleton.1 hk']
        rintro rfl
        exact hmem hk⟩

theorem mem_of_mem_foldl {e : Text × α}
    (h : e ∈ entries.foldl (fun acc (k, v) ↦ put k v acc) acc) : e ∈ acc ∨ e ∈ entries := by
  induction entries generalizing acc with
  | nil => exact Or.inl h
  | cons e' entries ih =>
    rcases ih _ h with h | h
    · rcases mem_of_mem_put h with rfl | h
      · exact Or.inr List.mem_cons_self
      · exact Or.inl h
    · exact Or.inr (List.mem_cons_of_mem e' h)

/-- Entries with distinct keys are put in as they are. -/
theorem foldl_put_of_nodup (h : ((acc ++ entries).map (·.1)).Nodup) :
    entries.foldl (fun acc (k, v) ↦ put k v acc) acc = acc ++ entries := by
  induction entries generalizing acc with
  | nil => exact (List.append_nil acc).symm
  | cons e entries ih =>
    obtain ⟨key, value⟩ := e
    have hmem : key ∉ acc.map (·.1) := by
      rw [List.map_append, List.map_cons, List.nodup_append] at h
      exact fun hmem ↦ h.2.2 _ hmem _ List.mem_cons_self rfl
    show entries.foldl _ (put key value acc) = _
    rw [put_of_not_mem hmem, ih _ (by rwa [List.append_assoc]), List.append_assoc]
    rfl

end Fold

/-- No key is given twice. -/
theorem nodup_keys_ofList (entries : List (Text × α)) : ((ofList entries).map (·.1)).Nodup :=
  nodup_keys_foldl entries [] List.nodup_nil

theorem mem_of_mem_ofList {entries : List (Text × α)} {e : Text × α} (h : e ∈ ofList entries) :
    e ∈ entries :=
  (mem_of_mem_foldl entries [] h).resolve_left (List.not_mem_nil)

/-- So a list with distinct keys is its own map. -/
theorem ofList_of_nodup {entries : List (Text × α)} (h : (entries.map (·.1)).Nodup) :
    ofList entries = entries :=
  foldl_put_of_nodup entries [] h

theorem mem_of_get? {entries : KeyedList α} {key : Text} {value : α}
    (h : get? entries key = some value) : (key, value) ∈ entries := by
  obtain ⟨before, after, rfl, -⟩ := List.lookup_eq_some_iff.1 h
  exact List.mem_append_right _ List.mem_cons_self

/-- With distinct keys every entry is found. -/
theorem get?_of_mem {entries : KeyedList α} (hkeys : (entries.map (·.1)).Nodup) {key : Text}
    {value : α} (h : (key, value) ∈ entries) : get? entries key = some value := by
  obtain ⟨before, after, rfl⟩ := List.append_of_mem h
  refine List.lookup_eq_some_iff.2 ⟨before, after, rfl, fun e he ↦ ?_⟩
  rw [List.map_append, List.map_cons, List.nodup_append] at hkeys
  exact bne_iff_ne.2 (Ne.symm (hkeys.2.2 e.1 (List.mem_map_of_mem he) key List.mem_cons_self))

/-- Entries with distinct keys that are in upper case. -/
theorem mapKeys_upper {entries : KeyedList α} (hkeys : (entries.map (·.1)).Nodup)
    (hupper : ∀ key ∈ entries.map (·.1), key.upper = key) :
    mapKeys Text.upper entries = entries := by
  have hmap : (entries.map fun (k, v) ↦ (k.upper, v)) = entries := by
    conv_rhs => rw [← List.map_id entries]
    refine List.map_congr_left fun e he ↦ ?_
    show (e.1.upper, e.2) = e
    rw [hupper e.1 (List.mem_map_of_mem he)]
  rw [mapKeys, hmap, ofList_of_nodup hkeys]

end KeyedList

namespace ElementKey

/-- The mark begins with an underscore. -/
theorem isIndexed_cons_of_ne {c : Char} (hc : c ≠ '_') (t : Text) : isIndexed (c :: t) = false := by
  have hmark : ('_' == c) = false := beq_eq_false_iff_ne.2 (Ne.symm hc)
  simp [isIndexed, mark, List.isPrefixOf, hmark]

/-- The search for the mark passes over a character that is no underscore, up to a line feed. -/
theorem keywordFrom_cons_of_ne {c : Char} (hc : c ≠ '_') (before t : Text) :
    keywordFrom before (c :: t) = if c = '\n' then none else keywordFrom (c :: before) t := by
  rw [keywordFrom, isIndexed_cons_of_ne hc, Bool.and_false, if_neg Bool.false_ne_true]

/-- An element key has an underscore. -/
theorem keyword?_eq_none {key : Text} (h : '_' ∉ key) : keyword? key = none := by
  have hfrom : ∀ before, keywordFrom before key = none := by
    intro before
    induction key generalizing before with
    | nil => rfl
    | cons c t ih =>
      rw [List.mem_cons, not_or] at h
      rw [keywordFrom_cons_of_ne (Ne.symm h.1)]
      split_ifs
      · rfl
      · exact ih h.2 _
  exact hfrom []

/-- The keyword of an element key is the part of the key in front of the mark. -/
theorem ne_of_keyword? {key keyword : Text} (h : keyword? key = some keyword) : keyword ≠ key := by
  have hfrom : ∀ (t before : Text), keywordFrom before t = some keyword →
      keyword.length < before.length + t.length := by
    intro t
    induction t with
    | nil => exact fun _ h ↦ nomatch h
    | cons c t ih =>
      intro before h
      rw [keywordFrom] at h
      split_ifs at h
      · rw [← Option.some.inj h, List.length_reverse, List.length_cons]
        omega
      · have hlength := ih (c :: before) h
        rw [List.length_cons] at hlength ⊢
        omega
  rintro rfl
  have hlength := hfrom keyword [] h
  rw [List.length_nil] at hlength
  omega

end ElementKey

namespace KeyedList

/-- Without keys of elements there is nothing to group. -/
theorem groupElements_of_keyword? {entries : KeyedList ParameterValue}
    (h : ∀ e ∈ entries, ElementKey.keyword? e.1 = none) : groupElements entries = entries := by
  have hkeywords : (entries.filterMap fun e ↦ ElementKey.keyword? e.1) = [] :=
    List.filterMap_eq_nil_iff.2 h
  have hkept : (entries.filter fun e ↦ (ElementKey.keyword? e.1).isNone) = entries :=
    List.filter_eq_self.2 fun e he ↦ by simp [h e he]
  rw [groupElements, hkeywords, hkept]
  rfl

/-- Entries without a place in a list are left alone. -/
theorem groupElements_of_forall {entries : KeyedList ParameterValue}
    (h : ∀ key ∈ entries.map (·.1), '_' ∉ key) : groupElements entries = entries :=
  groupElements_of_keyword? fun e he ↦
    ElementKey.keyword?_eq_none (h e.1 (List.mem_map_of_mem he))

end KeyedList

/-- The rules that a parameter brings with it, if no other one has its key. -/
theorem AssemblyRules.valueRules_ofParameters {parameters : List ParameterSpec}
    (hdistinct : (parameters.map ParameterSpec.key).Nodup) {p : ParameterSpec}
    (hp : p ∈ parameters) : (ofParameters parameters).valueRules p.key =
      ⟨(p.allowedValues.map Text.upper).map Text.upper, p.type⟩ := by
  have hget : ∀ {α : Type} (f : ParameterSpec → α),
      KeyedList.get? (KeyedList.ofList (parameters.map fun p ↦ (p.key, f p))) p.key =
        some (f p) := by
    intro α f
    have hkeys : ((parameters.map fun p ↦ (p.key, f p)).map (·.1)).Nodup := by
      rwa [List.map_map]
    rw [KeyedList.ofList_of_nodup hkeys]
    exact KeyedList.get?_of_mem hkeys (List.mem_map_of_mem hp)
  rw [valueRules, ofParameters, ParameterSpec.allowedByKey, ParameterSpec.typesByKey, hget, hget]
  rfl

end ControlLanguage
