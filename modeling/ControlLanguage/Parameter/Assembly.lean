import ControlLanguage.Parameter.Default
import ControlLanguage.Parameter.ElementKey
import ControlLanguage.Parameter.Rendering

/-!
# Assembling a statement

A statement is assembled from the values of its parameters **in declaration order**, whatever the
order of the values. A parameter is left out when its value is empty, or when its value is the
default and the keyword was not typed; a typed parameter is kept even then.
-/

namespace ControlLanguage

namespace DefaultValue

/-- The default as a parameter value. -/
def toValue : DefaultValue → ParameterValue
  | .text t => .text t
  | .list ts => .texts ts
  | .table rows => .list (rows.map .texts)

end DefaultValue

/-- What assembly knows about each keyword. -/
structure AssemblyRules where
  defaults : KeyedList ParameterValue
  allowed : KeyedList (List Text)
  types : KeyedList Text

namespace ParameterSpec

/-- The declared defaults by keyword. -/
def defaults (parameters : List ParameterSpec) : KeyedList ParameterValue :=
  .ofList (parameters.filterMap fun p ↦ p.default.map fun d ↦ (p.key, d.toValue))

/-- The allowed values by keyword, in upper case. -/
def allowedByKey (parameters : List ParameterSpec) : KeyedList (List Text) :=
  .ofList (parameters.map fun p ↦ (p.key, p.allowedValues.map Text.upper))

/-- The declared types by keyword. -/
def typesByKey (parameters : List ParameterSpec) : KeyedList Text :=
  .ofList (parameters.map fun p ↦ (p.key, p.type))

end ParameterSpec

namespace AssemblyRules

/-- The rules that the descriptions of the parameters give. -/
def ofParameters (parameters : List ParameterSpec) : AssemblyRules where
  defaults := ParameterSpec.defaults parameters
  allowed := ParameterSpec.allowedByKey parameters
  types := ParameterSpec.typesByKey parameters

/-- The rules for writing the value of a keyword. -/
def valueRules (rules : AssemblyRules) (key : Text) : ValueRules where
  allowed := ((KeyedList.get? rules.allowed key).getD []).map Text.upper
  type := (KeyedList.get? rules.types key).getD []

end AssemblyRules

namespace Statement

/-- The library that every command is looked up in, as it may qualify a command name. -/
def libraryList : Text :=
  "*LIBL/".toList

/-- A command name without the library list in front. -/
def commandName (name : Text) : Text :=
  let name := name.trim
  if libraryList.isPrefixOf name.upper then name.drop libraryList.length else name

/-- The label, if any, and the command name. -/
def head (label : Option Text) (name : Text) : Text :=
  match label.map Text.trim with
  | none | some [] => commandName name
  | some label => label.upper ++ ':' :: ' ' :: commandName name

/-- Whether a parameter is left out: its value is empty, or it is the default and was not
typed. -/
def isOmitted (rules : AssemblyRules) (present : List Text) (p : ParameterSpec)
    (v : ParameterValue) : Bool :=
  v.isEmpty ||
    !present.contains p.key && (KeyedList.get? rules.defaults p.key).any (p.isDefault v)

/-- The text of one parameter, with a blank in front, or nothing. -/
def parameterText (rules : AssemblyRules) (present : List Text)
    (values : KeyedList ParameterValue) (p : ParameterSpec) : Except NoParts Text :=
  match KeyedList.get? values p.key with
  | none => .ok []
  | some v =>
    if isOmitted rules present p v then .ok []
    else (fun t ↦ if t.isEmpty then [] else ' ' :: p.keyword ++ ValueRules.parenthesised t) <$>
      (rules.valueRules p.key).render p v

/-- The statement of a command with the given values. `present` lists the keywords that were
typed. -/
def assemble (name : Text) (values : KeyedList ParameterValue) (parameters : List ParameterSpec)
    (rules : AssemblyRules) (present : List Text) (label : Option Text) : Except NoParts Text := do
  let grouped := KeyedList.groupElements (KeyedList.mapKeys Text.upper values)
  let texts ← parameters.mapM (parameterText rules (present.map Text.upper) grouped)
  .ok (head label name ++ texts.flatten)

end Statement

end ControlLanguage
