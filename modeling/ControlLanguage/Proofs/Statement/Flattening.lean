import Mathlib.Algebra.BigOperators.Group.List.Basic
import Mathlib.Data.List.Sigma
import ControlLanguage.Proofs.Parameter.Places
import ControlLanguage.Proofs.Statement.Order

/-!
# Flat entries of elements

An element list may be given as one value or as a flat entry for each of its texts. **Both are the
same to assembly**: grouping the flat entries, in whatever order they come and with other entries
among them, gives the lists back (`groupElements_flat_perm`).

Since the key of a place can be read in one way only, no flat entry is in the place of another one,
and asking for the key of a place is asking the list for its text (`get?_key`). Grouping asks for
the places in turn, so what it collects is the list; there are at least as many flat entries as
elements and as items of each, and so the bound on the search is not what ends it.

A keyword is a letter followed by letters and digits. The line feed that the test for that shape
passes over at the end of a text is excluded: the search for the mark does not go beyond a line
feed, so a keyword that ends in one has no flat keys.
-/

namespace ControlLanguage

open ElementKey

namespace ElementKey

/-- Asking a list for its members collects the list. -/
theorem collectedFrom_getElem? {α : Type} (xs : List α) (i bound : Nat) :
    collectedFrom (fun j ↦ xs[j]?) i bound = (xs.drop i).take bound := by
  induction bound generalizing i with
  | zero => rfl
  | succ bound ih =>
    rw [collectedFrom]
    by_cases hi : i < xs.length
    · rw [List.getElem?_eq_getElem hi, List.drop_eq_getElem_cons hi, List.take_succ_cons, ← ih]
    · rw [List.getElem?_eq_none (Nat.le_of_not_lt hi), List.drop_eq_nil_of_le (Nat.le_of_not_lt hi)]
      rfl

/-- A list is collected by its positions, if none is beyond the bound. -/
theorem collectedFrom_of_length_le {α : Type} {xs : List α} {bound : Nat}
    (h : xs.length ≤ bound) : collectedFrom (fun j ↦ xs[j]?) 0 bound = xs := by
  rw [collectedFrom_getElem?, List.drop_zero, List.take_of_length_le h]

end ElementKey

/-- An element of a list: a text, or a list of at least one text. -/
inductive ListElement where
  | text (t : Text)
  | list (first : Text) (rest : List Text)

namespace ListElement

/-- The text of an element that is not a list. -/
def text? : ListElement → Option Text
  | text t => some t
  | list _ _ => none

/-- The items of an element that is a list. -/
def items : ListElement → List Text
  | text _ => []
  | list first rest => first :: rest

/-- The element as a value. -/
def value : ListElement → ParameterValue
  | text t => .text t
  | list first rest => .texts (first :: rest)

/-- The texts of the `i`-th element with their places. -/
def places (i : Nat) : ListElement → List (ElementPlace × Text)
  | text t => [(.element i, t)]
  | list first rest => (first :: rest).zipIdx.map fun (t, j) ↦ (.item i j, t)

variable {e : ListElement} {i : Nat}

/-- The text in a place, if the place belongs to the `i`-th element. -/
theorem mem_places {p : ElementPlace} {t : Text} : (p, t) ∈ e.places i ↔
    p = .element i ∧ e.text? = some t ∨ ∃ j, p = .item i j ∧ e.items[j]? = some t := by
  cases e with
  | text u => simp [places, text?, items, eq_comm]
  | list first rest =>
    simp only [places, text?, items, List.mem_map, Prod.exists, List.mem_zipIdx_iff_getElem?]
    simp [and_comm, eq_comm]

theorem index_of_mem_places {p : ElementPlace} {t : Text} (h : (p, t) ∈ e.places i) :
    p.index = i := by
  rcases mem_places.1 h with ⟨rfl, -⟩ | ⟨j, rfl, -⟩
  · rfl
  · rfl

/-- No two parts of an element have one place. -/
theorem nodup_places (e : ListElement) (i : Nat) : ((e.places i).map (·.1)).Nodup := by
  cases e with
  | text t => exact List.nodup_singleton _
  | list first rest =>
    have hplaces : ((list first rest).places i).map (·.1) =
        ((first :: rest).zipIdx.map (·.2)).map (.item i ·) := by
      rw [places, List.map_map, List.map_map]
      rfl
    rw [hplaces]
    exact (List.nodup_zipIdx_map_snd _).map fun j k h ↦ (ElementPlace.item.inj h).2

theorem one_le_length_places (e : ListElement) (i : Nat) : 1 ≤ (e.places i).length := by
  cases e with
  | text t => exact Nat.le_refl 1
  | list first rest =>
    rw [places, List.length_map, List.length_zipIdx]
    exact Nat.succ_pos _

/-- A list inside the list has no more items than places. -/
theorem length_items_le (e : ListElement) (i : Nat) : e.items.length ≤ (e.places i).length := by
  cases e with
  | text t => exact Nat.zero_le _
  | list first rest => rw [places, List.length_map, List.length_zipIdx, items]

end ListElement

/-- A keyword with the elements of its list. -/
structure ElementList where
  keyword : Text
  elements : List ListElement
  ne_nil : elements ≠ []
  isIdentifier : keyword.isIdentifier = true
  lineFeed_not_mem : '\n' ∉ keyword
  upper_eq : keyword.upper = keyword

namespace ElementList

/-- The list as a value. -/
def value (l : ElementList) : ParameterValue :=
  .list (l.elements.map ListElement.value)

/-- The list as an entry of its keyword. -/
def entry (l : ElementList) : Text × ParameterValue :=
  (l.keyword, l.value)

/-- The texts of the list with their places. -/
def places (l : ElementList) : List (ElementPlace × Text) :=
  l.elements.zipIdx.flatMap fun (e, i) ↦ e.places i

/-- The flat entry of a text of the list. -/
def flatEntry (l : ElementList) (q : ElementPlace × Text) : Text × ParameterValue :=
  (q.1.key l.keyword, .text q.2)

/-- The flat entries of the list. -/
def flatEntries (l : ElementList) : KeyedList ParameterValue :=
  l.places.map l.flatEntry

/-- The text in a place. -/
def at? (l : ElementList) : ElementPlace → Option Text
  | .element i => l.elements[i]?.bind ListElement.text?
  | .item i j => (l.elements[i]?.elim [] ListElement.items)[j]?

variable (l : ElementList)

theorem keyword_ne_nil : l.keyword ≠ [] := by
  intro h
  have hidentifier := l.isIdentifier
  rw [h] at hidentifier
  exact absurd hidentifier (by decide)

theorem underscore_not_mem : '_' ∉ l.keyword :=
  l.upper_eq ▸ Text.not_mem_upper_of_isIdentifier l.isIdentifier

/-- **The key of a place says which keyword it belongs to.** -/
theorem keyword?_key (p : ElementPlace) : keyword? (p.key l.keyword) = some l.keyword :=
  ElementKey.keyword?_key l.keyword_ne_nil l.underscore_not_mem l.lineFeed_not_mem p

variable {l}

/-- **And no two places share a key.** -/
theorem key_inj {l' : ElementList} {p q : ElementPlace} (h : p.key l.keyword = q.key l'.keyword) :
    l.keyword = l'.keyword ∧ p = q :=
  ElementKey.key_inj l.keyword_ne_nil l.underscore_not_mem l.lineFeed_not_mem l'.keyword_ne_nil
    l'.underscore_not_mem l'.lineFeed_not_mem h

/-! ### Places -/

/-- **A list has a text in a place and nothing else there.** -/
theorem mem_places {p : ElementPlace} {t : Text} : (p, t) ∈ l.places ↔ l.at? p = some t := by
  have hmem : (p, t) ∈ l.places ↔ ∃ (e : ListElement) (i : Nat),
      l.elements[i]? = some e ∧ (p, t) ∈ e.places i := by
    simp only [places, List.mem_flatMap, Prod.exists, List.mem_zipIdx_iff_getElem?]
  simp only [hmem, ListElement.mem_places]
  cases p with
  | element i =>
    rw [at?, Option.bind_eq_some_iff]
    simp
  | item i j =>
    rw [at?]
    cases h : l.elements[i]? with
    | none => simp [h]
    | some e => simp [h]

theorem nodup_places (l : ElementList) : (l.places.map (·.1)).Nodup := by
  have hindexes : l.elements.zipIdx.Pairwise fun x y ↦ x.2 ≠ y.2 :=
    List.pairwise_map.1 (List.nodup_zipIdx_map_snd l.elements)
  rw [places, List.map_flatMap, List.nodup_flatMap]
  refine ⟨fun x _ ↦ x.1.nodup_places x.2, hindexes.imp fun {x y} hne p hp hp' ↦ hne ?_⟩
  obtain ⟨q, hq, rfl⟩ := List.mem_map.1 hp
  obtain ⟨q', hq', heq⟩ := List.mem_map.1 hp'
  rw [← ListElement.index_of_mem_places hq, ← ListElement.index_of_mem_places hq', heq]

/-- There is a text in some place. -/
theorem exists_at? (l : ElementList) : ∃ p t, l.at? p = some t := by
  obtain ⟨e, es, hes⟩ := List.exists_cons_of_ne_nil l.ne_nil
  cases e with
  | text t => exact ⟨.element 0, t, by simp [at?, hes, ListElement.text?]⟩
  | list first rest => exact ⟨.item 0 0, first, by simp [at?, hes, ListElement.items]⟩

/-! ### Flat entries -/

/-- So the keys of a list are distinct. -/
theorem nodup_flatEntries (l : ElementList) : (l.flatEntries.map (·.1)).Nodup := by
  have hkeys : l.flatEntries.map (·.1) = (l.places.map (·.1)).map (·.key l.keyword) := by
    rw [flatEntries, List.map_map, List.map_map]
    rfl
  rw [hkeys]
  exact l.nodup_places.map fun p q h ↦ (key_inj h).2

theorem keyword?_of_mem {e : Text × ParameterValue} (h : e ∈ l.flatEntries) :
    keyword? e.1 = some l.keyword := by
  obtain ⟨q, -, rfl⟩ := List.mem_map.1 h
  exact l.keyword?_key q.1

/-- A list has no more elements than entries. -/
theorem length_elements_le (l : ElementList) : l.elements.length ≤ l.flatEntries.length := by
  have hlength : (l.elements.zipIdx.map fun x ↦ (x.1.places x.2).length).length ≤
      (l.elements.zipIdx.map fun x ↦ (x.1.places x.2).length).sum := by
    refine List.length_le_sum_of_one_le _ fun n hn ↦ ?_
    obtain ⟨x, -, rfl⟩ := List.mem_map.1 hn
    exact x.1.one_le_length_places x.2
  rw [List.length_map, List.length_zipIdx] at hlength
  rwa [flatEntries, List.length_map, places, List.length_flatMap]

theorem length_items_le {i : Nat} {e : ListElement} (h : l.elements[i]? = some e) :
    e.items.length ≤ l.flatEntries.length := by
  have hsub : (e.places i).Sublist l.places :=
    List.sublist_flatten_of_mem
      (List.mem_map.2 ⟨(e, i), List.mem_zipIdx_iff_getElem?.2 h, rfl⟩)
  rw [flatEntries, List.length_map]
  exact (e.length_items_le i).trans hsub.length_le

end ElementList

/-- Values with some element lists among them. -/
structure ElementValues where
  plain : KeyedList ParameterValue
  lists : List ElementList
  nodup_plain : (plain.map (·.1)).Nodup
  nodup_keywords : (lists.map (·.keyword)).Nodup
  upper_eq : ∀ key ∈ plain.map (·.1), key.upper = key
  keyword?_eq_none : ∀ key ∈ plain.map (·.1), keyword? key = none
  not_mem_keywords : ∀ key ∈ plain.map (·.1), key ∉ lists.map (·.keyword)

namespace ElementValues

/-- The values with each list under its keyword. -/
def entries (a : ElementValues) : KeyedList ParameterValue :=
  a.plain ++ a.lists.map ElementList.entry

/-- The values with each list as flat entries. -/
def flatEntries (a : ElementValues) : KeyedList ParameterValue :=
  a.plain ++ a.lists.flatMap ElementList.flatEntries

variable {a : ElementValues}

/-- The keys in a statement are those of the values and of the lists. -/
theorem keys_entries (a : ElementValues) :
    a.entries.map (·.1) = a.plain.map (·.1) ++ a.lists.map (·.keyword) := by
  rw [entries, List.map_append, List.map_map]
  rfl

/-- They are distinct. -/
theorem nodup_entries (a : ElementValues) : (a.entries.map (·.1)).Nodup := by
  rw [keys_entries]
  exact List.nodup_append'.2 ⟨a.nodup_plain, a.nodup_keywords, fun _ ↦ a.not_mem_keywords _⟩

/-- Each list is that of its keyword. -/
theorem eq_of_keyword_eq {l l' : ElementList} (hl : l ∈ a.lists) (hl' : l' ∈ a.lists)
    (h : l.keyword = l'.keyword) : l = l' :=
  List.inj_on_of_nodup_map a.nodup_keywords hl hl' h

/-- An entry is a plain one or that of a place in a list. -/
theorem mem_flatEntries {e : Text × ParameterValue} : e ∈ a.flatEntries ↔
    e ∈ a.plain ∨ ∃ l ∈ a.lists, ∃ p t, l.at? p = some t ∧ e = (p.key l.keyword, .text t) := by
  simp only [flatEntries, List.mem_append, List.mem_flatMap, ElementList.flatEntries, List.mem_map,
    Prod.exists, ElementList.mem_places, ElementList.flatEntry, eq_comm]

/-- **No two flat entries have the same key.** -/
theorem nodup_flatEntries (a : ElementValues) : (a.flatEntries.map (·.1)).Nodup := by
  have hkey : ∀ l : ElementList, ∀ key ∈ l.flatEntries.map (·.1), keyword? key = some l.keyword :=
    fun l ↦ List.forall_mem_map.2 fun _ ↦ ElementList.keyword?_of_mem
  have hdistinct : a.lists.Pairwise fun l l' ↦ l.keyword ≠ l'.keyword :=
    List.pairwise_map.1 a.nodup_keywords
  have hlists : ((a.lists.flatMap ElementList.flatEntries).map (·.1)).Nodup := by
    rw [List.map_flatMap]
    refine List.nodup_flatMap.2 ⟨fun l _ ↦ l.nodup_flatEntries, ?_⟩
    refine hdistinct.imp fun {l l'} hne key h h' ↦ hne ?_
    exact Option.some.inj ((hkey l key h).symm.trans (hkey l' key h'))
  rw [flatEntries, List.map_append]
  refine List.nodup_append'.2 ⟨a.nodup_plain, hlists, fun key hplain hflat ↦ ?_⟩
  rw [List.map_flatMap] at hflat
  obtain ⟨l, -, h⟩ := List.mem_flatMap.1 hflat
  exact Option.some_ne_none _ ((hkey l key h).symm.trans (a.keyword?_eq_none key hplain))

/-! ### Grouping -/

section Grouping

variable {flat : KeyedList ParameterValue} (hflat : flat.Perm a.flatEntries) {l : ElementList}
  (hl : l ∈ a.lists)

include hflat

theorem nodup_flat : (flat.map (·.1)).Nodup :=
  (hflat.map (·.1)).nodup_iff.2 a.nodup_flatEntries

include hl

/-- **Asking for the key of a place is asking the list for its text.** -/
theorem get?_key (p : ElementPlace) :
    KeyedList.get? flat (p.key l.keyword) = (l.at? p).map .text := by
  refine Option.ext fun v ↦ ?_
  rw [KeyedList.get?_eq_some_iff (nodup_flat hflat), hflat.mem_iff, mem_flatEntries,
    Option.map_eq_some_iff]
  constructor
  · rintro (hplain | ⟨l', hl', p', t, ht, heq⟩)
    · have hnone := a.keyword?_eq_none _ (List.mem_map_of_mem hplain)
      exact absurd ((l.keyword?_key p).symm.trans hnone) (Option.some_ne_none _)
    · obtain ⟨hkey, rfl⟩ := Prod.mk.inj heq
      obtain ⟨hkeyword, rfl⟩ := ElementList.key_inj hkey
      obtain rfl := a.eq_of_keyword_eq hl hl' hkeyword
      exact ⟨t, ht, rfl⟩
  · rintro ⟨t, ht, rfl⟩
    exact Or.inr ⟨l, hl, p, t, ht, rfl⟩

theorem length_flatEntries_le : l.flatEntries.length ≤ flat.length := by
  have hsub : l.flatEntries.Sublist (a.lists.flatMap ElementList.flatEntries) :=
    List.sublist_flatten_of_mem (List.mem_map_of_mem hl)
  rw [hflat.length_eq, flatEntries, List.length_append]
  exact hsub.length_le.trans (Nat.le_add_left _ _)

/-- **The entries of a keyword give back the element at each position.** -/
theorem elementValue_eq (i : Nat) :
    elementValue flat l.keyword i = (l.elements[i]?).map ListElement.value := by
  have helement : KeyedList.get? flat (element l.keyword i) =
      ((l.elements[i]?).bind ListElement.text?).map .text := get?_key hflat hl (.element i)
  have hitems : (fun j ↦ KeyedList.get? flat (item l.keyword i j)) =
      fun j ↦ (((l.elements[i]?).elim [] ListElement.items).map ParameterValue.text)[j]? := by
    funext j
    rw [List.getElem?_map]
    exact get?_key hflat hl (.item i j)
  have hlength : (((l.elements[i]?).elim [] ListElement.items).map ParameterValue.text).length ≤
      flat.length := by
    rw [List.length_map]
    cases h : l.elements[i]? with
    | none => exact Nat.zero_le _
    | some e => exact (ElementList.length_items_le h).trans (length_flatEntries_le hflat hl)
  rw [elementValue, helement, hitems, collectedFrom_of_length_le hlength]
  cases l.elements[i]? with
  | none => rfl
  | some e => cases e <;> rfl

/-- **The elements that are found are those of the list.** -/
theorem elements_eq : elements flat l.keyword = l.elements.map ListElement.value := by
  have hask : elementValue flat l.keyword = fun i ↦ (l.elements.map ListElement.value)[i]? := by
    funext i
    rw [List.getElem?_map, elementValue_eq hflat hl]
  have hlength : (l.elements.map ListElement.value).length ≤ flat.length := by
    rw [List.length_map]
    exact l.length_elements_le.trans (length_flatEntries_le hflat hl)
  rw [elements, hask, collectedFrom_of_length_le hlength]

omit hl

/-- The keywords that grouping finds are those of the lists. -/
theorem mem_keywords {key : Text} :
    key ∈ flat.filterMap (fun e ↦ keyword? e.1) ↔ key ∈ a.lists.map (·.keyword) := by
  simp only [List.mem_filterMap, hflat.mem_iff, mem_flatEntries, List.mem_map]
  constructor
  · rintro ⟨e, hplain | ⟨l, hl, p, t, ht, rfl⟩, hkey⟩
    · have hnone := a.keyword?_eq_none _ (List.mem_map_of_mem hplain)
      exact absurd (hkey.symm.trans hnone) (Option.some_ne_none _)
    · exact ⟨l, hl, Option.some.inj ((l.keyword?_key p).symm.trans hkey)⟩
  · rintro ⟨l, hl, rfl⟩
    obtain ⟨p, t, ht⟩ := l.exists_at?
    exact ⟨_, Or.inr ⟨l, hl, p, t, ht, rfl⟩, l.keyword?_key p⟩

/-- The entries that are kept as they are. -/
theorem filter_perm : (flat.filter fun e ↦ (keyword? e.1).isNone).Perm a.plain := by
  have hplain : (a.plain.filter fun e ↦ (keyword? e.1).isNone) = a.plain :=
    List.filter_eq_self.2 fun e he ↦ by
      rw [a.keyword?_eq_none e.1 (List.mem_map_of_mem he)]
      rfl
  have hlists : ((a.lists.flatMap ElementList.flatEntries).filter
      fun e ↦ (keyword? e.1).isNone) = [] :=
    List.filter_eq_nil_iff.2 fun e he ↦ by
      obtain ⟨l, -, h⟩ := List.mem_flatMap.1 he
      simp [ElementList.keyword?_of_mem h]
  have hfilter := hflat.filter fun e ↦ (keyword? e.1).isNone
  rwa [flatEntries, List.filter_append, hplain, hlists, List.append_nil] at hfilter

/-- What grouping the flat entries makes of a key. -/
theorem get?_groupElements_flat (key : Text) :
    KeyedList.get? (KeyedList.groupElements flat) key = KeyedList.get? a.entries key := by
  have hkept : KeyedList.get? (flat.filter fun e ↦ (keyword? e.1).isNone) key =
      KeyedList.get? a.plain key :=
    (KeyedList.get?_perm (filter_perm hflat).symm a.nodup_plain key).symm
  rw [KeyedList.get?_groupElements, hkept]
  simp only [mem_keywords hflat]
  by_cases hkey : key ∈ a.lists.map (·.keyword)
  · obtain ⟨l, hl, rfl⟩ := List.mem_map.1 hkey
    have hne : elements flat l.keyword ≠ [] := by
      rw [elements_eq hflat hl]
      simpa using l.ne_nil
    have hentry : (l.keyword, l.value) ∈ a.entries :=
      List.mem_append_right _ (List.mem_map_of_mem hl)
    rw [if_pos ⟨hkey, hne⟩, elements_eq hflat hl,
      KeyedList.get?_of_mem a.nodup_entries hentry]
    rfl
  · have hnone : KeyedList.get? (a.lists.map ElementList.entry) key = none :=
      List.lookup_eq_none_iff.2 fun e he ↦ by
        obtain ⟨l, hl, rfl⟩ := List.mem_map.1 he
        exact bne_iff_ne.2 fun h ↦ hkey (h ▸ List.mem_map_of_mem hl)
    have happend : KeyedList.get? a.entries key =
        (KeyedList.get? a.plain key).or (KeyedList.get? (a.lists.map ElementList.entry) key) :=
      List.lookup_append
    rw [if_neg fun h ↦ hkey h.1, happend, hnone, Option.or_none]

/-- **Grouping the flat entries gives the lists back**, and leaves the other values as they are. -/
theorem groupElements_flat_perm : (KeyedList.groupElements flat).Perm a.entries :=
  KeyedList.perm_of_get? (KeyedList.nodup_keys_groupElements (nodup_flat hflat)) a.nodup_entries
    (get?_groupElements_flat hflat)

/-- The keys of a list are capitals already. -/
theorem mapKeys_upper_flat : KeyedList.mapKeys Text.upper flat = flat := by
  refine KeyedList.mapKeys_upper (nodup_flat hflat) fun key hkey ↦ ?_
  obtain ⟨e, he, rfl⟩ := List.mem_map.1 hkey
  rcases mem_flatEntries.1 (hflat.mem_iff.1 he) with hplain | ⟨l, -, p, t, -, rfl⟩
  · exact a.upper_eq e.1 (List.mem_map_of_mem hplain)
  · exact upper_key l.upper_eq p

end Grouping

/-- The entries of the lists themselves are neither put in upper case nor grouped. -/
theorem groupElements_mapKeys_given {given : KeyedList ParameterValue}
    (hgiven : given.Perm a.entries) :
    KeyedList.groupElements (KeyedList.mapKeys Text.upper given) = given := by
  have hkeys : ∀ key ∈ given.map (·.1), key.upper = key ∧ keyword? key = none := by
    intro key hkey
    rw [(hgiven.map (·.1)).mem_iff, keys_entries] at hkey
    rcases List.mem_append.1 hkey with hplain | hlist
    · exact ⟨a.upper_eq key hplain, a.keyword?_eq_none key hplain⟩
    · obtain ⟨l, -, rfl⟩ := List.mem_map.1 hlist
      exact ⟨l.upper_eq, ElementKey.keyword?_eq_none l.underscore_not_mem⟩
  rw [KeyedList.mapKeys_upper ((hgiven.map (·.1)).nodup_iff.2 a.nodup_entries)
    fun key hkey ↦ (hkeys key hkey).1]
  exact KeyedList.groupElements_of_keyword? fun e he ↦ (hkeys e.1 (List.mem_map_of_mem he)).2

end ElementValues

namespace Statement

/-- **Flat entries are assembled like the lists they are made from.** -/
theorem assemble_flat {a : ElementValues} {flat given : KeyedList ParameterValue}
    (hflat : flat.Perm a.flatEntries) (hgiven : given.Perm a.entries) (name : Text)
    (parameters : List ParameterSpec) (rules : AssemblyRules) (present : List Text)
    (label : Option Text) :
    assemble name flat parameters rules present label =
      assemble name given parameters rules present label := by
  have htext : parameterText rules (present.map Text.upper) (KeyedList.groupElements flat) =
      parameterText rules (present.map Text.upper) given := by
    funext p
    refine parameterText_congr Iff.rfl ?_
    rw [ElementValues.get?_groupElements_flat hflat,
      KeyedList.get?_perm hgiven ((hgiven.map (·.1)).nodup_iff.2 a.nodup_entries)]
  rw [assemble, assemble, ElementValues.mapKeys_upper_flat hflat,
    ElementValues.groupElements_mapKeys_given hgiven, htext]

/-- **Flat entries and element lists are equivalent.** In any order, and with other entries among
them, flat entries have distinct keys; grouping makes of them the other entries and a list for each
keyword; and the statement that is assembled from them is the one that is assembled from the
lists. -/
theorem groupElements_perm_and_assemble_eq (a : ElementValues) {flat : KeyedList ParameterValue}
    (h : flat.Perm a.flatEntries) :
    (flat.map (·.1)).Nodup ∧ (KeyedList.groupElements flat).Perm a.entries ∧
      ∀ {given : KeyedList ParameterValue}, given.Perm a.entries →
        ∀ (name : Text) (parameters : List ParameterSpec) (rules : AssemblyRules)
          (present : List Text) (label : Option Text),
          assemble name flat parameters rules present label =
            assemble name given parameters rules present label :=
  ⟨ElementValues.nodup_flat h, ElementValues.groupElements_flat_perm h,
    fun hgiven ↦ assemble_flat h hgiven⟩

/-- Two lists, of which one keyword is the beginning of the other, and a text. -/
theorem groupElements_perm_and_assemble_eq_log :
    let flat : KeyedList ParameterValue :=
      [("ONE_ELEM1_1".toList, .text "b".toList), ("ONE1_ELEM0".toList, .text "c".toList),
        ("TEXT".toList, .text "it's".toList), ("ONE_ELEM0".toList, .text "*same".toList),
        ("ONE_ELEM1_0".toList, .text "a".toList)]
    let given : KeyedList ParameterValue :=
      [("TEXT".toList, .text "it's".toList),
        ("ONE".toList, .list [.text "*same".toList, .texts ["a".toList, "b".toList]]),
        ("ONE1".toList, .texts ["c".toList])]
    (KeyedList.groupElements flat).Perm given ∧
      assemble "LOG".toList flat logParameters (.ofParameters logParameters) [] none =
        .ok "LOG TEXT('it''s') ONE(*SAME (A B))".toList := by
  intro flat given
  let one : ElementList :=
    { keyword := "ONE".toList
      elements := [.text "*same".toList, .list "a".toList ["b".toList]]
      ne_nil := List.cons_ne_nil _ _
      isIdentifier := by decide
      lineFeed_not_mem := by decide
      upper_eq := by decide }
  let one1 : ElementList :=
    { keyword := "ONE1".toList
      elements := [.text "c".toList]
      ne_nil := List.cons_ne_nil _ _
      isIdentifier := by decide
      lineFeed_not_mem := by decide
      upper_eq := by decide }
  let a : ElementValues :=
    { plain := [("TEXT".toList, .text "it's".toList)]
      lists := [one, one1]
      nodup_plain := by decide
      nodup_keywords := by decide
      upper_eq := by decide
      keyword?_eq_none := by decide
      not_mem_keywords := by decide }
  have hflat : flat.Perm a.flatEntries := by decide +kernel
  have hgiven : given = a.entries := by decide +kernel
  obtain ⟨-, hgroup, hassemble⟩ := groupElements_perm_and_assemble_eq a hflat
  rw [hgiven]
  refine ⟨hgroup, (hassemble (.refl a.entries) ..).trans ?_⟩
  decide +kernel

end Statement

end ControlLanguage
