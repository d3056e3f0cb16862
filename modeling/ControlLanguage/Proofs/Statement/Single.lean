import ControlLanguage.Proofs.Parameter.Order
import ControlLanguage.Proofs.Statement.Qualified

/-!
# Statements with one parameter

What becomes of a value is seen from the statement that is assembled from it alone. A parameter that
was typed is written if anything is written for its value (`assemble_singleton`), unless its keyword
reads like the key of an element: the value is then looked up under another keyword, and nothing is
written at all (`assemble_singleton_of_isElementKey`).
-/

namespace ControlLanguage

open Text

/-- What stands between the parentheses of a parameter that was typed. That is nothing for an empty
value. -/
def ValueRules.typed (rules : ValueRules) (p : ParameterSpec) (v : ParameterValue) :
    Except NoParts Text :=
  if v.isEmpty then .ok [] else rules.render p v

theorem ValueRules.typed_of_isEmpty_eq_false {v : ParameterValue} (h : v.isEmpty = false)
    (rules : ValueRules) (p : ParameterSpec) : rules.typed p v = rules.render p v :=
  if_neg (Bool.eq_false_iff.1 h)

/-- A parameter with what stands between its parentheses. If that is nothing, it is left out. -/
def ParameterSpec.withText (p : ParameterSpec) (r : Text) : Text :=
  if r.isEmpty then [] else ' ' :: p.keyword ++ ValueRules.parenthesised r

theorem ParameterSpec.withText_of_ne_nil (p : ParameterSpec) {r : Text} (h : r ≠ []) :
    p.withText r = ' ' :: p.keyword ++ ValueRules.parenthesised r :=
  if_neg (mt List.isEmpty_iff.1 h)

theorem ParameterSpec.withText_eq_nil_iff {p : ParameterSpec} {r : Text} :
    p.withText r = [] ↔ r = [] := by
  rw [withText]
  split_ifs with h
  · exact iff_of_true rfl (List.isEmpty_iff.1 h)
  · exact iff_of_false (List.cons_ne_nil _ _) (mt List.isEmpty_iff.2 h)

/-- **The parameter shows what stands between its parentheses.** -/
theorem ParameterSpec.withText_injective (p : ParameterSpec) : Function.Injective p.withText := by
  intro r s h
  by_cases hr : r = []
  · rw [hr, withText_eq_nil_iff.2 rfl] at h
    rw [hr, withText_eq_nil_iff.1 h.symm]
  · have hs : s ≠ [] := by
      rintro rfl
      exact hr (withText_eq_nil_iff.1 (h.trans (withText_eq_nil_iff.2 rfl)))
    rw [p.withText_of_ne_nil hr, p.withText_of_ne_nil hs, ValueRules.parenthesised,
      ValueRules.parenthesised] at h
    exact List.append_cancel_right (List.cons.inj (List.append_cancel_left h)).2

namespace Statement

section Present

variable (rules : AssemblyRules) (name : Text) {p : ParameterSpec} {present : List Text}
  (hpresent : p.key ∈ present.map upper) (label : Option Text)

/-- A typed parameter is written with its value. -/
theorem parameterText_of_present {values : KeyedList ParameterValue} {v : ParameterValue}
    (hget : KeyedList.get? values p.key = some v) (hpresent : p.key ∈ present) :
    parameterText rules present values p = p.withText <$> (rules.valueRules p.key).typed p v := by
  have homitted : isOmitted rules present p v = v.isEmpty := by
    rw [isOmitted, List.contains_iff_mem.2 hpresent]
    simp
  rw [parameterText, hget]
  dsimp only
  rw [homitted, ValueRules.typed]
  split_ifs <;> rfl

theorem assemble_singleton_eq (v : ParameterValue) (present : List Text) :
    assemble name [(p.keyword, v)] [p] rules present label = (head label name ++ ·) <$>
      parameterText rules (present.map upper)
        (KeyedList.groupElements (KeyedList.mapKeys upper [(p.keyword, v)])) p := by
  rw [assemble, List.mapM_cons]
  cases parameterText rules (present.map upper)
    (KeyedList.groupElements (KeyedList.mapKeys upper [(p.keyword, v)])) p with
  | error e => rfl
  | ok r => exact congrArg (fun u ↦ Except.ok (head label name ++ u)) (List.append_nil r)

include hpresent in
/-- **The statement with one typed parameter.** -/
theorem assemble_singleton (hkey : ElementKey.keyword? p.key = none) (v : ParameterValue) :
    assemble name [(p.keyword, v)] [p] rules present label =
      (fun r ↦ head label name ++ p.withText r) <$> (rules.valueRules p.key).typed p v := by
  have hget := (KeyedList.get?_groupElements_singleton p.keyword v).trans (if_pos hkey)
  rw [assemble_singleton_eq, parameterText_of_present rules hget hpresent, ← comp_map]
  rfl

include hpresent in
/-- **The statement shows what stands between the parentheses.** -/
theorem typed_eq_of_assemble_singleton_eq (hkey : ElementKey.keyword? p.key = none)
    {v w : ParameterValue} (h : assemble name [(p.keyword, v)] [p] rules present label =
      assemble name [(p.keyword, w)] [p] rules present label) :
    (rules.valueRules p.key).typed p v = (rules.valueRules p.key).typed p w := by
  rw [assemble_singleton rules name hpresent label hkey,
    assemble_singleton rules name hpresent label hkey] at h
  rcases hv : (rules.valueRules p.key).typed p v with e | r <;>
    rcases hw : (rules.valueRules p.key).typed p w with e' | s <;> rw [hv, hw] at h
  · exact congrArg Except.error (Except.error.inj h)
  · cases h
  · cases h
  · exact congrArg Except.ok
      (p.withText_injective (List.append_cancel_left (Except.ok.inj h)))

/-- Nothing is written for a keyword that reads like the key of an element. -/
theorem assemble_singleton_of_isElementKey (hkey : ElementKey.keyword? p.key ≠ none)
    (v : ParameterValue) (present : List Text) :
    assemble name [(p.keyword, v)] [p] rules present label = .ok (head label name) := by
  have hget := (KeyedList.get?_groupElements_singleton p.keyword v).trans (if_neg hkey)
  rw [assemble_singleton_eq, parameterText, ParameterSpec.key, hget]
  exact congrArg Except.ok (List.append_nil _)

end Present

/-- The statement that is assembled from one value. -/
def assembleOne (name : Text) (p : ParameterSpec) (v : ParameterValue) (present : List Text) :
    Except NoParts Text :=
  assemble name [(p.keyword, v)] [p] (.ofParameters [p]) present none

section AssembleOne

variable {p : ParameterSpec} {v : ParameterValue} {r : Text} (name : Text) {present : List Text}

/-- A parameter that was typed is written with its value. -/
theorem assembleOne_typed (hkey : ElementKey.keyword? p.key = none) (hr : p.rules.typed p v = .ok r)
    (hpresent : p.key ∈ present.map upper) :
    assembleOne name p v present = .ok (commandName name ++ p.withText r) := by
  have htyped : ((AssemblyRules.ofParameters [p]).valueRules p.key).typed p v = .ok r := hr
  rw [assembleOne, assemble_singleton _ _ hpresent _ hkey, htyped]
  rfl

/-- A typed parameter is written, unless its keyword reads like the key of an element. -/
theorem assembleOne_of_present (hr : p.rules.render p v = .ok r) (hne : r ≠ [])
    (hempty : v.isEmpty = false) (hpresent : p.key ∈ present.map upper) :
    assembleOne name p v present = .ok (commandName name ++
      if ElementKey.keyword? p.key = none then ' ' :: p.keyword ++ ValueRules.parenthesised r
      else []) := by
  split_ifs with hkey
  · rw [assembleOne_typed name hkey ((ValueRules.typed_of_isEmpty_eq_false hempty _ p).trans hr)
      hpresent, p.withText_of_ne_nil hne]
  · rw [assembleOne, assemble_singleton_of_isElementKey _ _ _ hkey, List.append_nil]
    rfl

/-- A parameter that was not typed is left out if its value is the default. -/
theorem assembleOne_nil (hkey : ElementKey.keyword? p.key = none) (hr : p.rules.typed p v = .ok r) :
    assembleOne name p v [] = .ok (commandName name ++
      if isOmitted (.ofParameters [p]) [] p v then [] else p.withText r) := by
  have hget : KeyedList.get? (KeyedList.groupElements (KeyedList.mapKeys upper [(p.keyword, v)]))
      p.key = some v :=
    (KeyedList.get?_groupElements_singleton p.keyword v).trans (if_pos hkey)
  have htext : parameterText (.ofParameters [p]) []
      (KeyedList.groupElements (KeyedList.mapKeys upper [(p.keyword, v)])) p =
        .ok (if isOmitted (.ofParameters [p]) [] p v then [] else p.withText r) := by
    rw [parameterText, hget]
    dsimp only
    split_ifs with homitted
    · rfl
    · have hempty : v.isEmpty = false := by
        rw [isOmitted, Bool.or_eq_true, not_or] at homitted
        exact Bool.eq_false_iff.2 homitted.1
      have hrender : ((AssemblyRules.ofParameters [p]).valueRules p.key).render p v = .ok r :=
        (ValueRules.typed_of_isEmpty_eq_false hempty _ p).symm.trans hr
      exact congrArg (p.withText <$> ·) hrender
  rw [assembleOne, assemble_singleton_eq, List.map_nil, htext]
  rfl

end AssembleOne

end Statement

end ControlLanguage
