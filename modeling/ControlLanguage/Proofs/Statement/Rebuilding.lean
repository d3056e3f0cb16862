import Mathlib.Data.List.Nodup
import ControlLanguage.Proofs.Parameter.Keys
import ControlLanguage.Proofs.Parameter.Settling
import ControlLanguage.Proofs.Statement.Assembled

/-!
# Statements settle when they are rebuilt

A statement is read against the descriptions of its parameters and assembled again. The first time
its parameters are put in declaration order and its values in canonical form; **reading and
assembling the result gives the result** (`exists_assemble`).

What assembly does is said per parameter, as `Spells`: either the parameter is left out, or its
value is rendered as a text. The statement that is read for the second time has another value for
each parameter, but every parameter is spelled as before.
-/

namespace ControlLanguage

open Text Shape Token

/-! ### Keys that are words -/

/-- Distinct keys in upper case that are not keys of elements. -/
structure KeyedList.HasWordKeys {α : Type} (values : KeyedList α) : Prop where
  nodup : (values.map (·.1)).Nodup
  upper_eq : ∀ key ∈ values.map (·.1), key.upper = key
  not_mem : ∀ key ∈ values.map (·.1), '_' ∉ key

namespace Statement

theorem parameterValues_eq (parameters : List ParameterSpec) (t : Text) :
    parameterValues parameters t = .ofList ((entries t).map fun q ↦
      (q.1.upper, ParameterSpec.interpretNamed parameters q.1.upper q.2)) := by
  rw [parameterValues, entries, List.map_map, Command.ofText, Command.ofTokens, List.map_map]
  rfl

/-- A value that was read comes from an entry. -/
theorem exists_entry {parameters : List ParameterSpec} {t : Text} {e : Text × ParameterValue}
    (h : e ∈ parameterValues parameters t) :
    ∃ q ∈ entries t, e = (q.1.upper, ParameterSpec.interpretNamed parameters q.1.upper q.2) := by
  rw [parameterValues_eq] at h
  obtain ⟨q, hq, rfl⟩ := List.mem_map.1 (KeyedList.mem_of_mem_ofList h)
  exact ⟨q, hq, rfl⟩

theorem hasWordKeys_parameterValues (parameters : List ParameterSpec) {t : Text}
    (h : ∀ q ∈ entries t, q.1.isIdentifier = true) :
    (parameterValues parameters t).HasWordKeys := by
  have hkey : ∀ key ∈ (parameterValues parameters t).map (·.1),
      ∃ q ∈ entries t, key = q.1.upper := by
    intro key hkey
    obtain ⟨e, he, rfl⟩ := List.mem_map.1 hkey
    obtain ⟨q, hq, rfl⟩ := exists_entry he
    exact ⟨q, hq, rfl⟩
  refine ⟨?_, fun key hmem ↦ ?_, fun key hmem ↦ ?_⟩
  · rw [parameterValues_eq]
    exact KeyedList.nodup_keys_ofList _
  · obtain ⟨q, -, rfl⟩ := hkey key hmem
    exact upper_upper q.1
  · obtain ⟨q, hq, rfl⟩ := hkey key hmem
    exact not_mem_upper_of_isIdentifier (h q hq)

end Statement

theorem ParameterSpec.interpretNamed_key {parameters : List ParameterSpec}
    (hdistinct : (parameters.map key).Nodup) {p : ParameterSpec} (hp : p ∈ parameters) (t : Text) :
    interpretNamed parameters p.key t = p.interpret t := by
  have hself : decide (p.key = p.key.upper) = true :=
    decide_eq_true (upper_upper p.keyword).symm
  obtain ⟨p', hp'⟩ := Option.isSome_iff_exists.1
    (List.find?_isSome.2 ⟨p, hp, hself⟩ :
      (parameters.find? (·.key = p.key.upper)).isSome = true)
  have hfound : decide (p'.key = p.key.upper) = true :=
    List.find?_some (p := fun q : ParameterSpec ↦ q.key = p.key.upper) hp'
  have hkey : p'.key = p.key := (of_decide_eq_true hfound).trans (upper_upper p.keyword)
  obtain rfl := List.inj_on_of_nodup_map hdistinct (List.mem_of_find?_eq_some hp') hp hkey
  rw [interpretNamed, show find? parameters p'.key = some p' from hp']

/-! ### What assembly says -/

namespace Statement

/-- How a parameter is spelled: with this text as its value, or not at all. -/
def Spells (rules : AssemblyRules) (values : KeyedList ParameterValue) (p : ParameterSpec) :
    Option Text → Prop
  | none => ∀ v ∈ KeyedList.get? values p.key, v.isEmpty = true
  | some u => u ≠ [] ∧ ∃ v ∈ KeyedList.get? values p.key, v.isEmpty = false ∧
      (rules.valueRules p.key).render p v = .ok u

section Assembly

variable {rules : AssemblyRules} {values : KeyedList ParameterValue}

theorem parameterText_eq {p : ParameterSpec} {o : Option Text} (h : Spells rules values p o) :
    parameterText rules (values.map (·.1)) values p =
      .ok (o.elim [] fun u ↦ ' ' :: p.keyword ++ ValueRules.parenthesised u) := by
  rw [parameterText]
  rcases o with _ | u
  · rcases hget : KeyedList.get? values p.key with _ | v
    · rfl
    · have hempty : v.isEmpty = true := h v hget
      simp [isOmitted, hempty]
  · obtain ⟨hne, v, hget, hempty, hrender⟩ := h
    have hpresent : (values.map (·.1)).contains p.key = true :=
      List.contains_iff_mem.2 (List.mem_map_of_mem (KeyedList.mem_of_get? hget))
    have homitted : isOmitted rules (values.map (·.1)) p v = false := by
      rw [isOmitted, hempty, hpresent]
      rfl
    rw [show KeyedList.get? values p.key = some v from hget]
    simp [homitted, hrender, hne]

variable {parameters : List ParameterSpec} {Y : ParameterSpec → Option Text}

/-- The keywords and the values of the parameters that are spelled. -/
def spellings (parameters : List ParameterSpec) (Y : ParameterSpec → Option Text) :
    List (Text × Text) :=
  parameters.filterMap fun p ↦ (Y p).map fun u ↦ (p.keyword, u)

theorem spellings_cons (p : ParameterSpec) (parameters : List ParameterSpec) :
    spellings (p :: parameters) Y = (Y p).elim (spellings parameters Y) fun u ↦
      (p.keyword, u) :: spellings parameters Y := by
  rw [spellings, List.filterMap_cons]
  cases Y p <;> rfl

theorem mem_spellings {q : Text × Text} :
    q ∈ spellings parameters Y ↔ ∃ p ∈ parameters, Y p = some q.2 ∧ p.keyword = q.1 := by
  simp only [spellings, List.mem_filterMap, Option.map_eq_some_iff]
  constructor
  · rintro ⟨p, hp, u, hu, rfl⟩
    exact ⟨p, hp, hu, rfl⟩
  · rintro ⟨p, hp, hu, hkeyword⟩
    exact ⟨p, hp, q.2, hu, by rw [hkeyword]⟩

/-- What is said of parameters comes in declaration order. -/
theorem map_fst_filterMap {α : Type} (f : ParameterSpec → Text) (g : ParameterSpec → Text → α) :
    (parameters.filterMap fun p ↦ (Y p).map fun u ↦ (f p, g p u)).map (·.1) =
      (parameters.filter fun p ↦ (Y p).isSome).map f := by
  induction parameters with
  | nil => rfl
  | cons p parameters ih =>
    rw [List.filterMap_cons, List.filter_cons]
    cases Y p with
    | none => exact ih
    | some u => exact congrArg (f p :: ·) ih

/-- **Assembly puts the parameters together** in declaration order. -/
theorem assemble_of_parameterText {grouped : KeyedList ParameterValue}
    (hgrouped : KeyedList.groupElements (KeyedList.mapKeys Text.upper values) = grouped)
    {present : List Text} (h : ∀ p ∈ parameters,
      parameterText rules (present.map Text.upper) grouped p =
        .ok ((Y p).elim [] fun u ↦ ' ' :: p.keyword ++ ValueRules.parenthesised u))
    (name : Text) (label : Option Text) :
    assemble name values parameters rules present label =
      .ok (head label name ++ spelled (spellings parameters Y)) := by
  have htexts : ∃ texts, parameters.mapM (parameterText rules (present.map Text.upper) grouped) =
      .ok texts ∧ texts.flatten = spelled (spellings parameters Y) := by
    induction parameters with
    | nil => exact ⟨[], rfl, rfl⟩
    | cons p parameters ih =>
      obtain ⟨texts, htexts, hflatten⟩ := ih fun p' hp' ↦ h p' (List.mem_cons_of_mem p hp')
      refine ⟨(Y p).elim [] (fun u ↦ ' ' :: p.keyword ++ ValueRules.parenthesised u) :: texts,
        ?_, ?_⟩
      · rw [List.mapM_cons, h p List.mem_cons_self, htexts]
        rfl
      · rw [List.flatten_cons, hflatten, spellings_cons]
        cases Y p with
        | none => rfl
        | some u => exact (spelled_cons (p.keyword, u) _).symm
  obtain ⟨texts, htexts, hflatten⟩ := htexts
  rw [assemble, hgrouped, htexts, ← hflatten]
  rfl

/-- All keywords of a statement that is read count as typed. -/
theorem assemble_eq (name : Text) (hvalues : values.HasWordKeys)
    (h : ∀ p ∈ parameters, Spells rules values p (Y p)) :
    assemble name values parameters rules (values.map (·.1)) none =
      .ok (commandName name ++ spelled (spellings parameters Y)) := by
  have hpresent : (values.map (·.1)).map Text.upper = values.map (·.1) := by
    rw [List.map_congr_left (g := id) hvalues.upper_eq, List.map_id]
  have hgrouped : KeyedList.groupElements (KeyedList.mapKeys Text.upper values) = values := by
    rw [KeyedList.mapKeys_upper hvalues.nodup hvalues.upper_eq,
      KeyedList.groupElements_of_forall hvalues.not_mem]
  refine assemble_of_parameterText hgrouped (fun p hp ↦ ?_) name none
  rw [hpresent]
  exact parameterText_eq (h p hp)

end Assembly

/-! ### Statements that are read -/

/-- A statement that can be read and assembled. -/
structure IsRebuildable (s : Text) : Prop where
  isBlank_of_isWhiteSpace : ∀ c ∈ s, isWhiteSpace c = true → isBlank c = true
  strict : ∃ ts, tokenizeStrict (ofText s).body = .ok ts
  isClosed : ∀ c ∈ captures s, c.isClosed = true
  isQuote_eq_false : ∀ t ∈ tokenize (ofText s).body, t.kind ≠ .literal →
    ∀ c ∈ t.text, Nesting.isQuote c = false
  ne_empty : ∀ t ∈ tokenize (ofText s).body, t.text ≠ ['\x27', '\x27']

theorem mem_tokens_of_mem_captures {ts : List Token} {c : Command.Capture}
    (hc : c ∈ Command.captures ts) : ∀ t ∈ c.tokens, t ∈ ts := by
  obtain ⟨before, k, o, after, rfl, -⟩ := Command.captured_of_mem hc
  intro t ht
  simp [ht]

/-- **The values of a statement are tidy**, and its keywords are words. -/
theorem IsRebuildable.tidy_of_mem_entries {s : Text} (h : IsRebuildable s) {q : Text × Text}
    (hq : q ∈ entries s) : q.1.isIdentifier = true ∧ Part.Tidy true .opening 0 q.2 := by
  obtain ⟨c, hc, rfl⟩ := List.mem_map.1 hq
  obtain ⟨ts, hts⟩ := h.strict
  obtain ⟨name, q, rest, hreads⟩ := exists_reads_of_mem hc
  obtain ⟨r, after, hkeyword, hvalue, hafter, hsub, hparen, -⟩ := hreads.exists_chain hc
  obtain ⟨hbalanced, -⟩ := hparen (h.isClosed c hc)
  have hr : r ≠ .literal false := hafter.shape_ne_literal (hreads.of_tokenizeStrict hts).2
  have htidy : ∀ t ∈ c.tokens.map unplaced, t.IsTidy := by
    intro t ht
    obtain ⟨u, hu, rfl⟩ := List.mem_map.1 ht
    have hmem := mem_tokens_of_mem_captures hc u hu
    refine ⟨h.isQuote_eq_false u hmem, h.ne_empty u hmem, fun d hd hw ↦ ?_⟩
    have hd' : d ∈ texts (c.tokens.map unplaced) := List.mem_flatMap.2 ⟨_, ht, hd⟩
    rcases mem_of_mem_texts_following (hsub d (List.mem_append_right _ hd')) with hrest | rfl
    · exact h.isBlank_of_isWhiteSpace d
        (mem_of_mem_body (hreads.eq_append ▸ List.mem_append_right name hrest)) hw
    · decide
  have htexts := hvalue.tidy hr hbalanced htidy
  rw [texts_unplaced] at htexts
  exact ⟨hkeyword.isIdentifier, Part.tidy_text_ofTokens htexts⟩

/-! ### Rebuilding -/

/-- Whether a parameter has a value that is not empty. -/
def isGiven (values : KeyedList ParameterValue) (p : ParameterSpec) : Bool :=
  (KeyedList.get? values p.key).any (!·.isEmpty)

/-- A parameter that is read from tidy entries is spelled, and its new value is spelled alike. -/
theorem exists_spells (rules : AssemblyRules) {parameters : List ParameterSpec}
    (hdistinct : (parameters.map ParameterSpec.key).Nodup) {t : Text}
    (ht : ∀ q ∈ entries t, Part.Tidy true .opening 0 q.2) {p : ParameterSpec} (hp : p ∈ parameters)
    (hplain : p.IsUnqualified) :
    ∃ o : Option Text, Spells rules (parameterValues parameters t) p o ∧
      o.isSome = isGiven (parameterValues parameters t) p ∧
      ∀ u ∈ o, Part.IsValue u ∧ (p.interpret u).isEmpty = false ∧
        (rules.valueRules p.key).render p (p.interpret u) = .ok u := by
  rcases hget : KeyedList.get? (parameterValues parameters t) p.key with _ | v
  · refine ⟨none, ?_, ?_, nofun⟩
    · rw [Spells, hget]
      exact nofun
    · rw [isGiven, hget]
      rfl
  cases hempty : v.isEmpty with
  | true =>
    refine ⟨none, ?_, ?_, nofun⟩
    · rw [Spells, hget]
      rintro w hw
      rwa [← Option.some.inj hw]
    · rw [isGiven, hget, Option.any_some, hempty]
      rfl
  | false =>
    obtain ⟨q, hq, heq⟩ := exists_entry (KeyedList.mem_of_get? hget)
    obtain ⟨hkey, hv⟩ := Prod.mk.inj heq
    rw [← hkey, ParameterSpec.interpretNamed_key hdistinct hp] at hv
    subst hv
    obtain ⟨u, hu, hsettles⟩ := (rules.valueRules p.key).exists_render (ht q hq) hempty hplain
    refine ⟨some u, ⟨hu.ne_nil, _, hget, hempty, hsettles.first⟩, ?_, ?_⟩
    · rw [isGiven, hget, Option.any_some, hempty]
      rfl
    · rintro w hw
      obtain rfl := Option.some.inj hw
      exact ⟨hu, hsettles.isEmpty_eq.trans hempty, hsettles.again⟩

section Stable

variable {parameters : List ParameterSpec} (hdistinct : (parameters.map ParameterSpec.key).Nodup)
  {Y : ParameterSpec → Option Text} {t : Text} (ht : entries t = spellings parameters Y)

include hdistinct ht

/-- The values of a statement that spells its parameters, each once. -/
theorem parameterValues_of_entries : parameterValues parameters t =
    parameters.filterMap fun p ↦ (Y p).map fun u ↦ (p.key, p.interpret u) := by
  have hread : (entries t).map (fun q ↦
      (q.1.upper, ParameterSpec.interpretNamed parameters q.1.upper q.2)) =
        parameters.filterMap fun p ↦ (Y p).map fun u ↦ (p.key, p.interpret u) := by
    rw [ht, spellings, List.map_filterMap]
    refine List.filterMap_congr fun p hp ↦ ?_
    rw [Option.map_map]
    refine congrArg (fun f ↦ (Y p).map f) (funext fun u ↦ ?_)
    exact congrArg (Prod.mk p.key) (ParameterSpec.interpretNamed_key hdistinct hp u)
  rw [parameterValues_eq, hread, KeyedList.ofList_of_nodup]
  rw [map_fst_filterMap]
  exact hdistinct.sublist (List.filter_sublist.map ParameterSpec.key)

/-- **Every parameter is spelled as before.** -/
theorem spells_of_entries {rules : AssemblyRules} {p : ParameterSpec} (hp : p ∈ parameters)
    (hY : ∀ u ∈ Y p, Part.IsValue u ∧ (p.interpret u).isEmpty = false ∧
      (rules.valueRules p.key).render p (p.interpret u) = .ok u) :
    Spells rules (parameterValues parameters t) p (Y p) := by
  have hvalues := parameterValues_of_entries hdistinct ht
  have hnodup : ((parameterValues parameters t).map (·.1)).Nodup := by
    rw [parameterValues_eq]
    exact KeyedList.nodup_keys_ofList _
  rcases hu : Y p with _ | u
  · -- no other parameter has the key
    rintro v hv
    have hmem := KeyedList.mem_of_get? hv
    rw [hvalues] at hmem
    obtain ⟨p', hp', hq⟩ := List.mem_filterMap.1 hmem
    obtain ⟨u', hu', heq⟩ := Option.map_eq_some_iff.1 hq
    obtain rfl := List.inj_on_of_nodup_map hdistinct hp' hp (Prod.mk.inj heq).1
    rw [hu] at hu'
    exact absurd hu' nofun
  · obtain ⟨hvalue, hempty, hrender⟩ := hY u hu
    refine ⟨hvalue.ne_nil, p.interpret u, KeyedList.get?_of_mem hnodup ?_, hempty, hrender⟩
    rw [hvalues]
    exact List.mem_filterMap.2 ⟨p, hp, by rw [hu]; rfl⟩

end Stable

/-- **A statement that was assembled from the values of another one settles.** It has exactly the
declared parameters whose values are not empty, and reading and assembling it gives it again. -/
theorem assemble_settles {parameters : List ParameterSpec}
    (hkeyword : ∀ p ∈ parameters, p.keyword.isIdentifier = true)
    (hdistinct : (parameters.map ParameterSpec.key).Nodup)
    (hplain : ∀ p ∈ parameters, p.IsUnqualified) {name : Text} (hname : name.isIdentifier = true)
    {s : Text} (hs : IsRebuildable s) :
    ∃ t, assemble name (parameterValues parameters s) parameters (.ofParameters parameters)
        ((parameterValues parameters s).map (·.1)) none = .ok t ∧
      (captures t).map (·.keyword) =
        (parameters.filter (isGiven (parameterValues parameters s))).map (·.keyword) ∧
      (parameterValues parameters t).map (·.1) =
        (parameters.filter (isGiven (parameterValues parameters s))).map ParameterSpec.key ∧
      assemble name (parameterValues parameters t) parameters (.ofParameters parameters)
        ((parameterValues parameters t).map (·.1)) none = .ok t := by
  have hspells := fun p hp ↦ exists_spells (.ofParameters parameters) hdistinct
    (fun q hq ↦ (hs.tidy_of_mem_entries hq).2) hp (hplain p hp)
  choose! Y hY hsome hvalue using hspells
  have hgiven : (parameters.filter fun p ↦ (Y p).isSome) =
      parameters.filter (isGiven (parameterValues parameters s)) :=
    List.filter_congr hsome
  have hqs : ∀ q ∈ spellings parameters Y, q.1.isIdentifier = true ∧ Part.IsValue q.2 := by
    rintro q hq
    obtain ⟨p, hp, hu, hkey⟩ := mem_spellings.1 hq
    exact ⟨hkey ▸ hkeyword p hp, (hvalue p hp q.2 hu).1⟩
  have hentries := entries_assembled hname hqs
  refine ⟨commandName name ++ spelled (spellings parameters Y), ?_, ?_, ?_, ?_⟩
  · exact assemble_eq name
      (hasWordKeys_parameterValues parameters fun q hq ↦ (hs.tidy_of_mem_entries hq).1) hY
  · have hkeywords := congrArg (fun qs : List (Text × Text) ↦ qs.map (·.1)) hentries
    rw [entries, List.map_map] at hkeywords
    exact hkeywords.trans (by rw [spellings, map_fst_filterMap, hgiven])
  · rw [parameterValues_of_entries hdistinct hentries, map_fst_filterMap, hgiven]
  · refine assemble_eq name (hasWordKeys_parameterValues parameters fun q hq ↦ ?_) fun p hp ↦ ?_
    · rw [hentries] at hq
      exact (hqs q hq).1
    · exact spells_of_entries hdistinct hentries hp (hvalue p hp)

/-- Two elements, the second of them a list of two. -/
def logElements : List ElementSpec :=
  [⟨"*NAME".toList, [], none, ["*SAME".toList], [], []⟩,
    ⟨[], [], none, [], [], [⟨"*CHAR".toList, [], none, [], [], []⟩,
      ⟨"*CHAR".toList, [], none, [], [], []⟩]⟩]

/-- A single value, several values, a list of elements and several of these. -/
def logParameters : List ParameterSpec :=
  [⟨"TEXT".toList, "*CHAR".toList, 0, 1, none, [], [], []⟩,
    ⟨"Lib".toList, "*NAME".toList, 0, 9, none, [], [], []⟩,
    ⟨"ONE".toList, "*CHAR".toList, 0, 1, none, [], [], logElements⟩,
    ⟨"ALL".toList, "*CHAR".toList, 0, 9, none, [], [], logElements⟩]

/-- All four kinds of values, behind a label and in another order than that of the parameters. -/
theorem assemble_settles_log :
    ∃ t, assemble "LOG".toList
        (parameterValues logParameters
          "l: log all((a (b 'it''s')) *same) lib(q y) text(&x 1)".toList)
        logParameters (.ofParameters logParameters)
        ((parameterValues logParameters
          "l: log all((a (b 'it''s')) *same) lib(q y) text(&x 1)".toList).map (·.1)) none = .ok t ∧
      (captures t).map (·.keyword) = ["TEXT".toList, "Lib".toList, "ALL".toList] ∧
      assemble "LOG".toList (parameterValues logParameters t) logParameters
        (.ofParameters logParameters) ((parameterValues logParameters t).map (·.1)) none =
          .ok t := by
  have hquotes : ∀ t ∈ tokenize
      (ofText "l: log all((a (b 'it''s')) *same) lib(q y) text(&x 1)".toList).body,
      t.kind ≠ .literal → t.text.all (fun c ↦ Nesting.isQuote c = false) = true := by
    decide +kernel
  have hs : IsRebuildable "l: log all((a (b 'it''s')) *same) lib(q y) text(&x 1)".toList :=
    ⟨List.all_iff_forall_prop.1 (by decide +kernel), ⟨_, rfl⟩, by decide +kernel,
      fun t ht hkind ↦ List.all_iff_forall_prop.1 (hquotes t ht hkind), by decide +kernel⟩
  have helements : ∀ e ∈ logElements, e.IsUnqualified := by
    simp [logElements, ElementSpec.IsUnqualified]
  have hplain : ∀ p ∈ logParameters, p.IsUnqualified := by
    simp only [logParameters, List.forall_mem_cons]
    exact ⟨⟨rfl, nofun⟩, ⟨rfl, nofun⟩, ⟨rfl, helements⟩, ⟨rfl, helements⟩, nofun⟩
  have hkeyword : ∀ p ∈ logParameters, p.keyword.isIdentifier = true := by decide +kernel
  have hname : Text.isIdentifier "LOG".toList = true := by decide +kernel
  obtain ⟨t, hfirst, hkeywords, -, hagain⟩ :=
    assemble_settles hkeyword (by decide +kernel) hplain hname hs
  refine ⟨t, hfirst, ?_, hagain⟩
  rw [hkeywords]
  decide +kernel

end Statement

end ControlLanguage
