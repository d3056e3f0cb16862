import ControlLanguage.Proofs.Canonical.LetterCase

/-!
# The texts of a value

A value consists of texts in lists. `ParameterValue.mapTexts` changes the texts and keeps everything
else, and `ParameterValue.parts` lists them.

What a text is written as forgets its letter case, and whether it was typed in quotes.
`ParameterValue.literal` forgets both: there each text stands in quotes and in upper case. **Writing
a text keeps its literal** (`ValueRules.asLiteral_writtenText`).

At the end stand the three ways in which one element of a list is written.
-/

namespace ControlLanguage

open Text

namespace ParameterValue

/-- Induction on a value: what holds of a list may be shown from what holds of its members. -/
@[elab_as_elim]
theorem induct {P : ParameterValue → Prop} (absent : P .absent) (text : ∀ t, P (.text t))
    (integer : ∀ n, P (.integer n)) (truth : ∀ b, P (.truth b))
    (list : ∀ items, (∀ v ∈ items, P v) → P (.list items)) : (v : ParameterValue) → P v
  | .absent => absent
  | .text t => text t
  | .integer n => integer n
  | .truth b => truth b
  | .list items => list items fun v _ ↦ induct absent text integer truth list v

mutual

/-- The same value with other texts. -/
def mapTexts (f : Text → Text) : ParameterValue → ParameterValue
  | .text t => .text (f t)
  | .list items => .list (mapAllTexts f items)
  | .absent => .absent
  | .integer n => .integer n
  | .truth b => .truth b

/-- The same values with other texts. -/
def mapAllTexts (f : Text → Text) : List ParameterValue → List ParameterValue
  | [] => []
  | v :: vs => mapTexts f v :: mapAllTexts f vs

end

mutual

/-- The texts of a value, from left to right. -/
def parts : ParameterValue → List Text
  | .text t => [t]
  | .list items => allParts items
  | _ => []

/-- The texts of several values. -/
def allParts : List ParameterValue → List Text
  | [] => []
  | v :: vs => parts v ++ allParts vs

end

/-- The value with its texts in upper case. -/
abbrev upper (v : ParameterValue) : ParameterValue :=
  v.mapTexts Text.upper

/-- In a list each member is changed by itself. -/
theorem mapAllTexts_eq_map (f : Text → Text) (vs : List ParameterValue) :
    mapAllTexts f vs = vs.map (mapTexts f) := by
  induction vs with
  | nil => rfl
  | cons v vs ih => rw [mapAllTexts, ih, List.map_cons]

theorem mapTexts_text (f : Text → Text) (t : Text) : (text t).mapTexts f = .text (f t) :=
  rfl

@[simp]
theorem mapTexts_list (f : Text → Text) (vs : List ParameterValue) :
    (list vs).mapTexts f = .list (vs.map (mapTexts f)) := by
  rw [mapTexts, mapAllTexts_eq_map]

@[simp]
theorem mapTexts_texts (f : Text → Text) (ts : List Text) :
    (texts ts).mapTexts f = texts (ts.map f) := by
  rw [texts, texts, mapTexts_list, List.map_map, List.map_map]
  rfl

/-- Two changes in turn are one change. -/
theorem mapTexts_mapTexts (f g : Text → Text) (v : ParameterValue) :
    (v.mapTexts f).mapTexts g = v.mapTexts (g ∘ f) := by
  induction v using induct with
  | list items ih =>
    rw [mapTexts_list, mapTexts_list, mapTexts_list, List.map_map]
    exact congrArg list (List.map_congr_left ih)
  | _ => rfl

/-- The texts of a list are those of its members. -/
theorem mem_parts_list {t : Text} {vs : List ParameterValue} :
    t ∈ (list vs).parts ↔ ∃ v ∈ vs, t ∈ v.parts := by
  rw [parts]
  induction vs with
  | nil => simp [allParts]
  | cons v vs ih => simp [allParts, ih]

/-- A change of texts makes no lists. -/
theorem isList_mapTexts (f : Text → Text) (v : ParameterValue) :
    (v.mapTexts f).isList = v.isList := by
  cases v <;> rfl

end ParameterValue

/-! ### Texts in quotes -/

/-- The text in quotes, unless it has them already. -/
def Text.asLiteral (t : Text) : Text :=
  if t.isQuoted then t else quoted t

/-- Quotes have no letter case. -/
theorem Text.upper_asLiteral (t : Text) : t.asLiteral.upper = t.upper.asLiteral := by
  rw [asLiteral, asLiteral, isQuoted_upper]
  split_ifs
  · rfl
  · exact Part.upper_quoted t

theorem Text.upper_asLiteral_upper (t : Text) : t.upper.asLiteral.upper = t.asLiteral.upper := by
  rw [upper_asLiteral, upper_asLiteral, upper_upper]

/-- A text and what is written for it have the same literal, letter case apart. -/
theorem ValueRules.asLiteral_writtenText (rules : ValueRules) {t : Text} (ht : t.trim = t)
    (hne : t ≠ []) (hempty : t ≠ ['\x27', '\x27']) :
    (rules.writtenText t).asLiteral.upper = t.asLiteral.upper := by
  by_cases hq : t.isQuoted = true
  · have hself : rules.writtenText t = t := by
      rw [writtenText]
      split_ifs
      · exact ht
      · exact canonical_of_isQuoted _ _ ht hq hempty
    rw [hself]
  rcases rules.writtenText_cases ht hne hempty with h | h | h
  · rw [h]
  · rw [h, upper_asLiteral_upper]
  · rw [h, asLiteral, if_pos (isQuoted_quoted t), asLiteral, if_neg hq]

/-- The value with each text in quotes and in upper case. -/
def ParameterValue.literal (v : ParameterValue) : ParameterValue :=
  v.mapTexts fun t ↦ t.asLiteral.upper

/-- Lists have the same literal if their members do. -/
theorem ParameterValue.literal_list_congr {vs ws : List ParameterValue}
    (h : vs.map literal = ws.map literal) : (list vs).literal = (list ws).literal := by
  rw [literal, literal, mapTexts_list, mapTexts_list]
  exact congrArg list h

/-- Values that agree, letter case apart, do so in quotes as well. -/
theorem ParameterValue.literal_upper (v : ParameterValue) : v.upper.literal = v.literal := by
  rw [literal, upper, mapTexts_mapTexts]
  exact congrArg (mapTexts · v) (funext upper_asLiteral_upper)

/-! ### How an element is written -/

namespace ValueRules

variable (rules : ValueRules) {spec : Option ElementSpec}

/-- An element is written as a qualified name, -/
theorem element_of_isQualified {v : ParameterValue} (h : isQualifiedElement spec v = true) :
    rules.element spec v = rules.qualified (spec.elim [] (·.qualifiers)) v := by
  cases v <;> rw [element, if_pos h] <;> exact nofun

/-- as a single value, -/
theorem element_of_isList_eq_false {v : ParameterValue} (h : isQualifiedElement spec v = false)
    (hv : v.isList = false) : rules.element spec v = .ok ((rules.forElement spec).written v) := by
  cases v with
  | list items => exact Bool.noConfusion hv
  | _ =>
    rw [element, h, if_neg Bool.false_ne_true]
    exact nofun

/-- or as a list in parentheses. -/
theorem element_of_list {items : List ParameterValue}
    (h : isQualifiedElement spec (.list items) = false) :
    rules.element spec (.list items) = (fun parts ↦ parenthesised (joinElements parts)) <$>
      rules.elementTexts (spec.elim [] (·.elements)) items := by
  rw [element, h, if_neg Bool.false_ne_true]
  rfl

/-- What is written for each of several values is written for all. -/
theorem mapM_map_eq_ok {α : Type} {write : ParameterValue → Except NoParts Text}
    {read : α → ParameterValue} {f : α → Text} {items : List α}
    (h : ∀ a ∈ items, write (read a) = .ok (f a)) :
    (items.map read).mapM write = .ok (items.map f) := by
  induction items with
  | nil => rfl
  | cons a items ih =>
    obtain ⟨ha, hitems⟩ := List.forall_mem_cons.1 h
    rw [List.map_cons, List.mapM_cons, ha, ih hitems]
    rfl

end ValueRules

end ControlLanguage
