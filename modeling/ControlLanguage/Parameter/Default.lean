import ControlLanguage.Metadata.Basic
import ControlLanguage.Parameter.Value
import ControlLanguage.Part.Split

/-!
# Comparing values with defaults

A value is compared with a declared default by **normal forms**: case and surrounding white space
do not count, a text with slashes is the list of its pieces, and a list with one item is that
item. The value of a qualified parameter is put object first on both sides before it is compared.
-/

namespace ControlLanguage

namespace ParameterValue

/-- The normal form of a text. -/
def normalText (t : Text) : ParameterValue :=
  let t := t.trim.upper
  if t.contains '/' then texts ((t.cutAt '/').map Text.trim) else .text t

/-- A list of normal forms, in normal form itself. -/
def normalList : List ParameterValue → ParameterValue
  | [v] => v
  | vs => .list vs

mutual

/-- The normal form of a value. -/
def normal : ParameterValue → ParameterValue
  | .absent => .absent
  | .text t => normalText t
  | .integer n => .text (integer n).plainText
  | .truth b => .text (truth b).plainText.upper
  | .list items => normalList (normals items)

/-- The normal forms of several values. -/
def normals : List ParameterValue → List ParameterValue
  | [] => []
  | v :: vs => v.normal :: normals vs

end

/-- Whether two values have the same normal form. -/
def matchesLoosely (v w : ParameterValue) : Bool :=
  v.normal = w.normal

/-- A qualified name given as text, taken apart with its object first; other values as they
are. -/
def objectFirst (n : Int) : ParameterValue → ParameterValue
  | .text t => texts (Part.objectFirst n t)
  | v => v

/-- The occurrences of a qualified name, each with its object first. A list without lists in it is
the parts of a single occurrence. -/
def qualifiedOccurrences (n : Int) : ParameterValue → ParameterValue
  | .text t =>
    .list ((Part.occurrences t).map fun o ↦ texts (Part.objectFirst n (Part.unwrapped o)))
  | .list items =>
    if items.any isList then .list (items.map (objectFirst n)) else .list [.list items]
  | v => v

end ParameterValue

namespace ParameterSpec

/-- A value as it is compared with the default of a parameter. -/
def comparable (p : ParameterSpec) (v : ParameterValue) : ParameterValue :=
  if p.isQualified then
    if p.isMultiple then v.qualifiedOccurrences p.qualifiers.length
    else v.objectFirst p.qualifiers.length
  else v

/-- Whether a value is the default of a parameter. -/
def isDefault (p : ParameterSpec) (v default : ParameterValue) : Bool :=
  (p.comparable v).matchesLoosely (p.comparable default)

end ParameterSpec

end ControlLanguage
