import ControlLanguage.Canonical.Value
import ControlLanguage.Parameter.Value
import ControlLanguage.Part.Split

/-!
# From parameter values to source text

What stands between the parentheses of a parameter is put together from the canonical forms of the
parts of its value. A value may be given in parsed form or, at every level, as text, which is then
taken apart as the parser would. **An element that is left out is written `*N` if another follows
and is dropped otherwise**; an empty part of a qualified name leaves no slash.

Where a list of parts is due, an integer, a truth value or an absent value has no parts, and that
is the only error.
-/

namespace ControlLanguage

/-- A value without parts stands where parts are due. -/
inductive NoParts where
  | integer
  | truth
  | absent
  deriving DecidableEq, Repr

namespace NoParts

/-- The text of the error. -/
def message : NoParts → String
  | .integer => "'int' object is not iterable"
  | .truth => "'bool' object is not iterable"
  | .absent => "'NoneType' object is not iterable"

end NoParts

/-- What the canonical form of a value depends on. -/
structure ValueRules where
  /-- The values that are written in upper case. -/
  allowed : List Text
  type : Text

namespace ValueRules

/-- The rules for a part of a value, which adds its special values and may have a type of its
own. -/
def forPart (rules : ValueRules) (type : Text) (specialValues : List Text) : ValueRules :=
  ⟨rules.allowed ++ specialValues.map Text.upper, if type.isEmpty then rules.type else type⟩

/-- The rules for a part of a qualified name. -/
def forQualifier (rules : ValueRules) : Option QualifierSpec → ValueRules
  | some q => rules.forPart q.type q.specialValues
  | none => rules

/-- The rules for an element. -/
def forElement (rules : ValueRules) : Option ElementSpec → ValueRules
  | some e => rules.forPart e.type e.specialValues
  | none => rules

/-- A single value as text. A command is written as typed. -/
def writtenText (rules : ValueRules) (t : Text) : Text :=
  if isCommandType rules.type then t.trim else Text.canonical rules.allowed rules.type t

mutual

/-- A value whose parts, if any, are all written alike. -/
def written (rules : ValueRules) : ParameterValue → Text
  | .list items => Text.joinBlank (writtenAll rules items)
  | .absent => rules.writtenText []
  | .text t => rules.writtenText t
  | .integer n => rules.writtenText (ParameterValue.integer n).plainText
  | .truth b => rules.writtenText (ParameterValue.truth b).plainText

/-- Several values, each written by the same rules. -/
def writtenAll (rules : ValueRules) : List ParameterValue → List Text
  | [] => []
  | v :: vs => rules.written v :: writtenAll rules vs

end

/-- The values that are not empty, separated by blanks. -/
def writtenOccurrences (rules : ValueRules) (items : List ParameterValue) : Text :=
  Text.joinBlank ((items.filter (!·.isEmpty)).map rules.written)

/-- The parts of a qualified name, object first, without the empty ones. -/
def qualifierTexts (rules : ValueRules) : List QualifierSpec → List ParameterValue → List Text
  | _, [] => []
  | qualifiers, v :: vs =>
    let rest := qualifierTexts rules qualifiers.tail vs
    if v.isEmpty then rest else (rules.forQualifier qualifiers.head?).written v :: rest

/-- A qualified name: its parts from right to left, separated by slashes. -/
def qualified (rules : ValueRules) (qualifiers : List QualifierSpec) :
    ParameterValue → Except NoParts Text
  | .text t =>
    .ok (joined (qualifierTexts rules qualifiers
      ((Part.objectFirst qualifiers.length t).map .text)))
  | .list items => .ok (joined (qualifierTexts rules qualifiers items))
  | .integer _ => .error .integer
  | .truth _ => .error .truth
  | .absent => .error .absent
where
  /-- The texts in reverse, separated by slashes. -/
  joined (parts : List Text) : Text :=
    ['/'].intercalate parts.reverse

/-- Puts a text in parentheses. -/
def parenthesised (t : Text) : Text :=
  '(' :: t ++ [')']

/-- Joins the texts of elements: trailing empty ones are dropped, and others have a placeholder. -/
def joinElements (parts : List Text) : Text :=
  Text.joinBlank ((Part.dropEmptyEnd parts).map fun t ↦ if t.isEmpty then ['*', 'N'] else t)

/-- Whether an element is written as a qualified name: its description has qualifiers, and it is
not a text in parentheses. -/
def isQualifiedElement (element : Option ElementSpec) : ParameterValue → Bool
  | .text t => element.any (!·.qualifiers.isEmpty) && !Part.isWrapped t
  | _ => element.any (!·.qualifiers.isEmpty)

mutual

/-- One element of a list. -/
def element (rules : ValueRules) (spec : Option ElementSpec) (v : ParameterValue) :
    Except NoParts Text :=
  if isQualifiedElement spec v then rules.qualified (spec.elim [] (·.qualifiers)) v
  else
    match v with
    | .list items => do
      let parts ← elementTexts rules (spec.elim [] (·.elements)) items
      .ok (parenthesised (joinElements parts))
    | v => .ok ((rules.forElement spec).written v)

/-- The elements of a list by position. -/
def elementTexts (rules : ValueRules) (elements : List ElementSpec) :
    List ParameterValue → Except NoParts (List Text)
  | [] => .ok []
  | v :: vs => do
    let first ← element rules elements.head? v
    let rest ← elementTexts rules elements.tail vs
    .ok (first :: rest)

end

/-- A list of elements. -/
def elementList (rules : ValueRules) (elements : List ElementSpec) :
    ParameterValue → Except NoParts Text
  | .text t => joinElements <$> rules.elementTexts elements ((Part.occurrences t).map .text)
  | .list items => joinElements <$> rules.elementTexts elements items
  | .integer _ => .error .integer
  | .truth _ => .error .truth
  | .absent => .error .absent

/-- One occurrence of an element list, in parentheses. Text that has them already is left
alone. -/
def elementOccurrence (rules : ValueRules) (elements : List ElementSpec) :
    ParameterValue → Except NoParts Text
  | .text t =>
    if Part.isWrapped t then .ok t.trim
    else parenthesised <$> rules.elementList elements (.text t.trim)
  | v => parenthesised <$> rules.elementList elements v

/-- The value of a parameter without qualifiers and elements. -/
def plain (rules : ValueRules) (isMultiple : Bool) : ParameterValue → Text
  | .list [v] => if isMultiple then rules.writtenOccurrences [v] else rules.written v
  | .list items => rules.writtenOccurrences items
  | .text t =>
    if isMultiple then rules.writtenOccurrences ((Part.occurrences t).map .text)
    else rules.written (.text t)
  | v => rules.written v

/-- The value of a parameter by its description. -/
def render (rules : ValueRules) (p : ParameterSpec) (v : ParameterValue) : Except NoParts Text :=
  if p.isElementList then
    match p.isMultiple, v with
    | true, .list items => Text.joinBlank <$> items.mapM (rules.elementOccurrence p.elements)
    | _, v => rules.elementList p.elements v
  else if p.isQualified then
    match p.isMultiple, v with
    | true, .list items =>
      if items.any ParameterValue.isList then
        (fun texts ↦ Text.joinBlank (texts.filter (!·.isEmpty))) <$>
          items.mapM (rules.qualified p.qualifiers)
      else rules.qualified p.qualifiers v
    | _, v => rules.qualified p.qualifiers v
  else .ok (rules.plain p.isMultiple v)

end ValueRules

end ControlLanguage
