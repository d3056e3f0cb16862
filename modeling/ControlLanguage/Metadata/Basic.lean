import ControlLanguage.Text.LetterCase

/-!
# Descriptions of commands

A command is described by its parameters in declaration order, and a parameter by the shape of its
value: how often it may occur, whether it is a qualified name, and which elements it has. Every
operation that depends on a description receives it as an argument; **there is no registry**.

Qualifiers are listed object first: the first one describes the rightmost part of a qualified
name.
-/

namespace ControlLanguage

/-- One part of a qualified name. -/
structure QualifierSpec where
  type : Text
  prompt : Text
  default : Option Text
  specialValues : List Text

/-- One element of a list value, which may itself be a qualified name or a list. -/
structure ElementSpec where
  type : Text
  prompt : Text
  default : Option Text
  specialValues : List Text
  qualifiers : List QualifierSpec
  elements : List ElementSpec

/-- The declared default of a parameter. -/
inductive DefaultValue where
  | text (value : Text)
  | list (values : List Text)
  | table (rows : List (List Text))

/-- One keyword parameter. -/
structure ParameterSpec where
  keyword : Text
  type : Text
  min : Int
  /-- The greatest number of occurrences. -/
  max : Int
  default : Option DefaultValue
  allowedValues : List Text
  qualifiers : List QualifierSpec
  elements : List ElementSpec

/-- A command and its parameters in declaration order. -/
structure CommandSpec where
  command : Text
  parameters : List ParameterSpec

namespace ParameterSpec

/-- Whether the parameter may occur more than once. -/
def isMultiple (p : ParameterSpec) : Bool :=
  1 < p.max

/-- Whether the value is a qualified name. -/
def isQualified (p : ParameterSpec) : Bool :=
  !p.qualifiers.isEmpty

/-- Whether the value is a list of elements. -/
def isElementList (p : ParameterSpec) : Bool :=
  !p.elements.isEmpty

/-- The keyword as it is compared and looked up. -/
def key (p : ParameterSpec) : Text :=
  p.keyword.upper

/-- The first parameter with a keyword, in any case. -/
def find? (parameters : List ParameterSpec) (keyword : Text) : Option ParameterSpec :=
  parameters.find? (·.key = keyword.upper)

end ParameterSpec

/-- A declared type without the asterisks in front, in upper case. -/
def typeName (type : Text) : Text :=
  type.upper.dropWhile (· = '*')

/-- Whether values of a type are always names. -/
def isNameType (type : Text) : Bool :=
  ["NAME".toList, "SNAME".toList, "CNAME".toList].contains (typeName type)

/-- Whether values of a type are commands. -/
def isCommandType (type : Text) : Bool :=
  typeName type = "CMD".toList

end ControlLanguage
