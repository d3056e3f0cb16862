import ControlLanguage.Proofs.Parameter.Order
import ControlLanguage.Proofs.Canonical.LetterCase
import ControlLanguage.Proofs.Part.Qualified
import ControlLanguage.Proofs.Statement.Rebuilding

/-!
# Values stay in their parentheses

Whatever text is typed for a parameter, it should neither add, hide nor truncate another one. A
value that is quoted does not, and neither does a name, a variable or a number: **these are read as
they stand** (`isNamePart_canonical`). But special values, expressions and quoted texts are copied
into the statement, on the strength of their first and last characters or of a part of them
(`Text.isCopied`), and it is up to whoever typed them to close what they open.

So a statement is read back as the parameters that were put into it, provided that each value that
was copied is closed (`exists_assemble_enclosed`). Without that condition it is not, and a run of
blanks in a copied value is read as one blank (`readBack_unclosed_and_blanks`).
-/

namespace ControlLanguage

open Text Shape Token ControlLanguage.Part

/-! ### Values that are not copied -/

theorem isPlain_of_isDecimalDigit {c : Char} (h : isDecimalDigit c = true) :
    isPlain c = true ∧ c ≠ '/' := by
  have hslash : c ≠ '/' := by
    rintro rfl
    exact absurd h (by decide)
  refine ⟨?_, hslash⟩
  rw [isDecimalDigit, Bool.or_eq_true] at h
  rcases h with h | h
  · exact isPlain_of_isAlphanum (by simp [Char.isAlphanum, h])
  rw [Bool.and_eq_true, decide_eq_true_eq, List.any_eq_true] at h
  obtain ⟨hlt, r, hr, hmem⟩ := h
  refine Progression.isPlain_of_le hlt (Bool.eq_false_iff.2 fun hwhite ↦ ?_)
  obtain ⟨w, hw, hmem'⟩ := List.any_eq_true.1 hwhite
  -- the ranges of digits and those of white space have nothing in common
  have hdisjoint : ∀ r ∈ decimalDigitRanges, ∀ w ∈ whiteSpaceRanges,
      r.last < w.first ∨ w.last < r.first := by decide +kernel
  simp only [CodeRange.contains, Bool.and_eq_true, decide_eq_true_eq] at hmem hmem'
  have := hdisjoint r hr w hw
  omega

namespace Text

/-- A number is a word without slashes. -/
theorem isNamePart_of_isNumber {t : Text} (h : t.isNumber = true) : IsNamePart t.trim := by
  refine Or.inr ⟨fun hnil ↦ ?_, fun c hc ↦ ?_⟩
  · rw [isNumber, hnil] at h
    exact absurd h (by decide)
  · have hsigns : ∀ c ∈ ['.', ',', '-', '+'], isPlain c = true ∧ c ≠ '/' :=
      List.forall_iff_forall_mem.1 (by decide)
    exact (mem_of_isNumber h hc).elim isPlain_of_isDecimalDigit (hsigns c)

/-- Whether a value is put in parentheses as it was typed, letter case apart: a special value, an
expression or a quoted text. -/
def isCopied (t : Text) : Bool :=
  t.trim.head? = some '*' || t.trim.isExpression || t.trim.isQuoted

/-- **A value that is not copied becomes a word or a literal.** -/
theorem isNamePart_canonical {type t : Text} (htype : isNameType type = false)
    (ht : t.isCopied = false) (hne : canonical [] type t ≠ []) :
    IsNamePart (canonical [] type t) := by
  simp only [isCopied, Bool.or_eq_false_iff, decide_eq_false_iff_not] at ht
  obtain ⟨⟨hstar, hexpression⟩, hquoted⟩ := ht
  rw [canonical] at hne ⊢
  by_cases hnil : t.trim = [] ∨ t.trim = ['\x27', '\x27']
  · rw [if_pos (by simpa using hnil)] at hne
    exact absurd rfl hne
  rw [if_neg (by simpa using hnil), hexpression, hquoted]
  by_cases hcap : isCapitalised [] type t.trim = true
  · rw [if_pos hcap]
    have hname : t.trim.isName = true := by
      simpa [isCapitalised, htype, hstar, hquoted] using hcap
    have hupper : t.trim.upper.trim = t.trim.upper := by rw [trim_upper, trim_trim]
    have hpart := isNamePart_of_isName (isName_upper (trim_trim t) hquoted hname)
      (by rwa [hupper, isQuoted_upper])
    rwa [hupper] at hpart
  · rw [if_neg hcap]
    by_cases hnumber : t.trim.isNumber = true
    · have hpart := isNamePart_of_isNumber hnumber
      rw [trim_trim] at hpart
      simpa [hnumber] using hpart
    · have hpart : IsNamePart (quoted t.trim) := Or.inl ⟨t.trim, fun h ↦ hnil (Or.inl h), rfl⟩
      simpa [hnumber] using hpart

theorem ink_canonical {allowed : List Text} {type t : Text} (hne : canonical allowed type t ≠ []) :
    BeginsInk (canonical allowed type t) ∧ EndsInk (canonical allowed type t) := by
  rcases canonical_cases allowed type t with ⟨hnil, -⟩ | ⟨htrim, ⟨heq, -⟩ | ⟨heq, -⟩ | heq⟩
  · exact absurd hnil hne
  all_goals
    rw [heq]
    obtain ⟨hbegins, hends⟩ := (trim_eq_nil_or_ink t).resolve_left htrim
  · exact ⟨hbegins, hends⟩
  · exact ⟨hbegins.upper, hends.upper⟩
  · exact ⟨beginsInk_quoted _, endsInk_quoted _⟩

end Text

/-- A word or a literal is a span. -/
theorem Part.IsNamePart.isSpan {t : Text} (h : IsNamePart t) : t.IsSpan := by
  have hjoined := isSpan_joined (List.forall_mem_singleton.2 h) (List.cons_ne_nil t []) nofun
  rwa [show ValueRules.qualified.joined [t] = t from List.append_nil t] at hjoined

/-! ### Parameters with a single value -/

namespace ParameterSpec

/-- A parameter with a single value that is neither a name by its type nor a command, and that no
values are listed for. -/
structure IsSingle (p : ParameterSpec) : Prop where
  isIdentifier : p.keyword.isIdentifier = true
  isMultiple : p.isMultiple = false
  qualifiers : p.qualifiers = []
  elements : p.elements = []
  allowedValues : p.allowedValues = []
  isNameType : isNameType p.type = false
  isCommandType : isCommandType p.type = false

theorem IsSingle.render_text {p : ParameterSpec} (h : p.IsSingle) (t : Text) :
    (⟨[], p.type⟩ : ValueRules).render p (.text t) = .ok (canonical [] p.type t) := by
  rw [ValueRules.render_value (isElementList_eq_false h.elements)
    (isQualified_eq_false h.qualifiers) h.isMultiple]
  simp [ValueRules.writtenText, h.isCommandType]

end ParameterSpec

namespace Statement

/-- What stands in the parentheses of a parameter with a single value that was given as a text. A
parameter that is left out has nothing. -/
def enclosed? (rules : AssemblyRules) (present : List Text) (p : ParameterSpec) (t : Text) :
    Option Text :=
  if isOmitted rules present p (.text t) || (canonical [] p.type t).isEmpty then none
  else some (canonical [] p.type t)

theorem enclosed?_eq_some_iff {rules : AssemblyRules} {present : List Text} {p : ParameterSpec}
    {t u : Text} : enclosed? rules present p t = some u ↔
      isOmitted rules present p (.text t) = false ∧ u ≠ [] ∧ canonical [] p.type t = u := by
  rw [enclosed?]
  split_ifs with h
  · rw [Bool.or_eq_true, List.isEmpty_iff] at h
    refine ⟨nofun, ?_⟩
    rintro ⟨homitted, hne, rfl⟩
    exact absurd h (by simp [homitted, hne])
  · simp only [Bool.or_eq_true, not_or, List.isEmpty_iff, Bool.not_eq_true] at h
    rw [Option.some.injEq]
    refine ⟨?_, fun hu ↦ hu.2.2⟩
    rintro rfl
    exact ⟨h.1, h.2, rfl⟩

section Assembly

variable {parameters : List ParameterSpec}
  (hdistinct : (parameters.map ParameterSpec.key).Nodup) (hsingle : ∀ p ∈ parameters, p.IsSingle)

include hdistinct hsingle

theorem parameterText_single {p : ParameterSpec} (hp : p ∈ parameters)
    {values : KeyedList ParameterValue} {t : Text}
    (hget : KeyedList.get? values p.key = some (.text t)) (present : List Text) :
    parameterText (.ofParameters parameters) present values p =
      .ok ((enclosed? (.ofParameters parameters) present p t).elim [] fun u ↦
        ' ' :: p.keyword ++ ValueRules.parenthesised u) := by
  have hrender := (hsingle p hp).render_text t
  rw [parameterText, hget, AssemblyRules.valueRules_ofParameters hdistinct hp,
    (hsingle p hp).allowedValues, enclosed?]
  cases homitted : isOmitted (.ofParameters parameters) present p (.text t) with
  | true => simp [homitted]
  | false => by_cases hnil : canonical [] p.type t = [] <;> simp [homitted, hrender, hnil]

/-- The statement that is assembled from texts. -/
theorem assemble_texts (name : Text) (typed : ParameterSpec → Text) (present : List Text)
    (label : Option Text) :
    assemble name (parameters.map fun p ↦ (p.keyword, .text (typed p))) parameters
      (.ofParameters parameters) present label =
        .ok (head label name ++ spelled (spellings parameters fun p ↦
          enclosed? (.ofParameters parameters) (present.map upper) p (typed p))) := by
  have hkeys : ((parameters.map fun p ↦ (p.keyword, ParameterValue.text (typed p))).map
      (·.1.upper)).Nodup := by
    rwa [List.map_map]
  have hgrouped : KeyedList.groupElements (KeyedList.mapKeys upper
      (parameters.map fun p ↦ (p.keyword, ParameterValue.text (typed p)))) =
        parameters.map fun p ↦ (p.key, .text (typed p)) := by
    rw [KeyedList.mapKeys_upper_of_nodup hkeys, List.map_map]
    refine KeyedList.groupElements_of_forall fun key hkey ↦ ?_
    rw [List.map_map] at hkey
    obtain ⟨p, hp, rfl⟩ := List.mem_map.1 hkey
    exact not_mem_upper_of_isIdentifier (hsingle p hp).isIdentifier
  refine assemble_of_parameterText hgrouped (fun p hp ↦ ?_) name label
  refine parameterText_single hdistinct hsingle hp (KeyedList.get?_of_mem ?_ ?_) _
  · rwa [List.map_map]
  · exact List.mem_map_of_mem hp

end Assembly

/-- **A statement is read back as the parameters that were put into it**, in declaration order and
each with its own value, if every value that was copied is closed. -/
theorem exists_assemble_enclosed {name : Text} (hname : name.isIdentifier = true)
    {parameters : List ParameterSpec} (hdistinct : (parameters.map ParameterSpec.key).Nodup)
    (hsingle : ∀ p ∈ parameters, p.IsSingle) (typed : ParameterSpec → Text) (present : List Text)
    (hclosed : ∀ p ∈ parameters, (typed p).isCopied = true →
      ∀ u ∈ enclosed? (.ofParameters parameters) (present.map upper) p (typed p), u.IsClosed) :
    ∃ t, assemble name (parameters.map fun p ↦ (p.keyword, .text (typed p))) parameters
        (.ofParameters parameters) present none = .ok t ∧
      (∃ ts, tokenizeStrict t = .ok ts) ∧ (Command.ofText t).name = commandName name ∧
      (Command.ofText t).parameters.map (fun q ↦ (q.keyword, q.value.text)) =
        parameters.filterMap fun p ↦
          (enclosed? (.ofParameters parameters) (present.map upper) p (typed p)).map fun u ↦
            (p.keyword, u.collapsed) := by
  set Y : ParameterSpec → Option Text := fun p ↦
    enclosed? (.ofParameters parameters) (present.map upper) p (typed p)
  have hqs : ∀ q ∈ spellings parameters Y,
      (q.1.isIdentifier = true ∧ IsClosed q.2) ∧ q.2.asRead = q.2.collapsed := by
    intro q hq
    obtain ⟨p, hp, hu, hkeyword⟩ := mem_spellings.1 hq
    obtain ⟨-, hne, heq⟩ := enclosed?_eq_some_iff.1 hu
    obtain ⟨hbegins, hends⟩ := ink_canonical (heq ▸ hne)
    refine ⟨⟨hkeyword ▸ (hsingle p hp).isIdentifier, ?_⟩,
      asRead_eq_collapsed (heq ▸ hbegins) (heq ▸ hends)⟩
    by_cases hcopied : (typed p).isCopied = true
    · exact hclosed p hp hcopied q.2 hu
    · rw [← heq] at hne ⊢
      exact (isNamePart_canonical (hsingle p hp).isNameType (by simpa using hcopied)
        hne).isSpan.isClosed
  obtain ⟨hstrict, hcommand, hread⟩ :=
    tokenizeStrict_assembled_of_isClosed hname fun q hq ↦ (hqs q hq).1
  refine ⟨commandName name ++ spelled (spellings parameters Y),
    assemble_texts hdistinct hsingle name typed present none, hstrict, hcommand, ?_⟩
  calc (Command.ofText (commandName name ++ spelled (spellings parameters Y))).parameters.map
        (fun q ↦ (q.keyword, q.value.text))
      = (spellings parameters Y).map fun q ↦ (q.1, q.2.asRead) := hread
    _ = (spellings parameters Y).map fun q ↦ (q.1, q.2.collapsed) :=
      List.map_congr_left fun q hq ↦ congrArg (Prod.mk q.1) (hqs q hq).2
    _ = parameters.filterMap fun p ↦ (Y p).map fun u ↦ (p.keyword, u.collapsed) := by
      rw [spellings, List.map_filterMap]
      exact List.filterMap_congr fun p _ ↦ Option.map_map ..

/-- Parameters with a single value. -/
def noteParameters : List ParameterSpec :=
  [⟨"TEXT".toList, "*CHAR".toList, 0, 1, none, [], [], []⟩,
    ⟨"Len".toList, "*DEC".toList, 0, 1, none, [], [], []⟩,
    ⟨"SCOPE".toList, "*CHAR".toList, 0, 1, some (.text "*all".toList), [], [], []⟩,
    ⟨"WHEN".toList, "*CHAR".toList, 0, 1, none, [], [], []⟩]

/-- A text that would break out is put in quotes; an expression and special values are copied. -/
theorem exists_assemble_enclosed_note :
    let typed : ParameterSpec → Text := fun p ↦
      (List.lookup p.keyword [("TEXT".toList, "it's) X(".toList),
        ("Len".toList, "(&a  + 1)".toList), ("SCOPE".toList, " *all".toList),
        ("WHEN".toList, "*same".toList)]).getD []
    (∀ p ∈ noteParameters, (typed p).isCopied = true →
      ∀ u ∈ enclosed? (.ofParameters noteParameters) [] p (typed p), u.IsClosed) ∧
    ∃ t, assemble "note".toList (noteParameters.map fun p ↦ (p.keyword, .text (typed p)))
        noteParameters (.ofParameters noteParameters) [] none = .ok t ∧
      (∃ ts, tokenizeStrict t = .ok ts) ∧ (Command.ofText t).name = "note".toList ∧
      (Command.ofText t).parameters.map (fun q ↦ (q.keyword, q.value.text)) =
        [("TEXT".toList, "'it''s) X('".toList), ("Len".toList, "(&a + 1)".toList),
          ("WHEN".toList, "*SAME".toList)] := by
  intro typed
  have hsingle : ∀ p ∈ noteParameters, p.IsSingle := by
    simp only [noteParameters, List.forall_mem_cons]
    exact ⟨⟨by decide, rfl, rfl, rfl, rfl, by decide, by decide⟩,
      ⟨by decide, rfl, rfl, rfl, rfl, by decide, by decide⟩,
      ⟨by decide, rfl, rfl, rfl, rfl, by decide, by decide⟩,
      ⟨by decide, rfl, rfl, rfl, rfl, by decide, by decide⟩, nofun⟩
  have hclosed : ∀ p ∈ noteParameters, (typed p).isCopied = true →
      ∀ u ∈ enclosed? (.ofParameters noteParameters) [] p (typed p), u.IsClosed := by
    have hvalues : noteParameters.map (fun p ↦ ((typed p).isCopied,
        enclosed? (.ofParameters noteParameters) [] p (typed p))) =
          [(false, some "'it''s) X('".toList), (true, some "(&a  + 1)".toList), (true, none),
            (true, some "*SAME".toList)] := by
      decide +kernel
    intro p hp hcopied u hu
    have hmem := List.mem_map_of_mem hp (f := fun p ↦ ((typed p).isCopied,
      enclosed? (.ofParameters noteParameters) [] p (typed p)))
    rw [hvalues, hcopied, hu] at hmem
    simp only [List.mem_cons, Prod.mk.injEq, Bool.true_eq_false, reduceCtorEq, Option.some.injEq,
      false_and, true_and, false_or, List.not_mem_nil, or_false] at hmem
    rcases hmem with rfl | rfl
    · exact ⟨rfl, by decide⟩
    · exact ⟨rfl, by decide⟩
  have hread : (noteParameters.filterMap fun p ↦
      (enclosed? (.ofParameters noteParameters) [] p (typed p)).map fun u ↦
        (p.keyword, u.collapsed)) =
      [("TEXT".toList, "'it''s) X('".toList), ("Len".toList, "(&a + 1)".toList),
        ("WHEN".toList, "*SAME".toList)] := by
    decide +kernel
  have henclosed := @exists_assemble_enclosed "note".toList (by decide) noteParameters
    (by decide +kernel) hsingle typed [] hclosed
  rw [List.map_nil, hread] at henclosed
  exact ⟨hclosed, henclosed⟩

/-- A special value that is not closed adds a parameter and is cut short, and a run of blanks in an
expression is read as one. -/
theorem readBack_unclosed_and_blanks :
    let p : ParameterSpec := ⟨"K".toList, "*CHAR".toList, 0, 1, none, [], [], []⟩
    let readBack : Text → Except NoParts (List (Text × Text)) := fun t ↦
      (fun s ↦ (Command.ofText s).parameters.map fun q ↦ (q.keyword, q.value.text)) <$>
        assemble "X".toList [(p.keyword, .text t)] [p] (.ofParameters [p]) [] none
    p.IsSingle ∧
      enclosed? (.ofParameters [p]) [] p "*X) L(Y".toList = some "*X) L(Y".toList ∧
      readBack "*X) L(Y".toList = .ok [("K".toList, "*X".toList), ("L".toList, "Y".toList)] ∧
      enclosed? (.ofParameters [p]) [] p "(A  B)".toList = some "(A  B)".toList ∧
      readBack "(A  B)".toList = .ok [("K".toList, "(A B)".toList)] := by
  refine ⟨⟨by decide, rfl, rfl, rfl, rfl, by decide, by decide⟩, ?_, ?_, ?_, ?_⟩ <;> decide +kernel

/-- Keywords are looked up in upper case, so of two that differ in letter case only both are written
with the last value. -/
example :
    let p : ParameterSpec := ⟨"a".toList, "*CHAR".toList, 0, 1, none, [], [], []⟩
    let q : ParameterSpec := ⟨"A".toList, "*CHAR".toList, 0, 1, none, [], [], []⟩
    assemble "X".toList [(p.keyword, .text "1".toList), (q.keyword, .text "2".toList)] [p, q]
      (.ofParameters [p, q]) [] none = .ok "X a(2) A(2)".toList := by
  decide +kernel

end Statement

end ControlLanguage
