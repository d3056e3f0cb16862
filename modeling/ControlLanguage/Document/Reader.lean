import ControlLanguage.Document.Basic
import ControlLanguage.Document.IntegerText
import ControlLanguage.Document.Problem

/-!
# Reading documents

A reader turns a document into a value or into a list of problems. Readers are combined so that
**the problems of all parts add up**: a record is read field by field, and no field hides the
problems of another.

A field has two spellings, its key and its alternative key. Where a document gives both, the key
counts, and the other is an unknown key.
-/

namespace ControlLanguage

/-- A value, or what is wrong with the document that was to give it. -/
abbrev Checked (α : Type) := Except (List Located) α

namespace Checked

variable {α β : Type}

/-- A single problem at the place itself. -/
def problem (p : Problem) : Checked α :=
  .error [⟨[], p⟩]

/-- Moves the problems below a step of the path. -/
def under (step : Text) (x : Checked α) : Checked α :=
  x.mapError (·.map (Located.under step))

/-- Applies a function to a value; the problems of both sides add up. -/
def apply (f : Checked (α → β)) (x : Checked α) : Checked β :=
  match f, x with
  | .ok f, .ok x => .ok (f x)
  | .error e, .ok _ => .error e
  | .ok _, .error e => .error e
  | .error e, .error e' => .error (e ++ e')

/-- Reads the items of a list from position `i` on, each below its position. -/
def items (read : α → Checked β) (i : Nat) : List α → Checked (List β)
  | [] => .ok []
  | x :: xs =>
    apply (apply (.ok List.cons) (under (toString i).toList (read x))) (items read (i + 1) xs)

end Checked

/-- The fields of a document by key. -/
abbrev Fields := List (Text × Document)

/-- The two spellings of a field. -/
structure FieldKey where
  key : Text
  other : Text

namespace FieldKey

/-- A field with a single spelling. -/
def plain (key : String) : FieldKey :=
  ⟨key.toList, key.toList⟩

/-- A field whose words are joined by hyphens or else by underscores. -/
def hyphened (key : String) : FieldKey :=
  ⟨key.toList, key.toList.map fun c ↦ if c = '-' then '_' else c⟩

/-- The spelling and the value of a field in a document. -/
def find? (k : FieldKey) (fields : Fields) : Option (Text × Document) :=
  match fields.lookup k.key with
  | some d => some (k.key, d)
  | none => (fields.lookup k.other).map fun d ↦ (k.other, d)

/-- Reads a field that may be absent. -/
def read {α : Type} (k : FieldKey) (fields : Fields) (default : α) (reader : Document → Checked α) :
    Checked α :=
  match k.find? fields with
  | some (key, d) => (reader d).under key
  | none => .ok default

/-- Reads a field that has to be present. -/
def require {α : Type} (k : FieldKey) (fields : Fields) (reader : Document → Checked α) :
    Checked α :=
  match k.find? fields with
  | some (key, d) => (reader d).under key
  | none => (Checked.problem .missing).under k.key

end FieldKey

namespace Document

/-- The keys of a map that are not text, as a path names them. -/
def keyName : Document → Text
  | null => "None".toList
  | truth b => if b then ['1'] else ['0']
  | integer n => (toString n).toList
  | text t => t
  | _ => []

/-- The problems of the keys of a map: those that are no text, and those of no field. -/
def keyProblems (keys : List FieldKey) (fields : Fields) :
    List (Document × Document) → List Located
  | [] => []
  | (text k, _) :: entries =>
    let rest := keyProblems keys fields entries
    if keys.any fun f ↦ (f.find? fields).any (·.1 = k) then rest
    else ⟨[k], .unknownKey⟩ :: rest
  | (k, _) :: entries => ⟨[k.keyName], .keyNotText⟩ :: keyProblems keys fields entries

/-- The entries of a map whose keys are text. -/
def textFields (entries : List (Document × Document)) : Fields :=
  entries.filterMap fun (k, v) ↦
    match k with
    | text t => some (t, v)
    | _ => none

/-- Reads a record: `keys` are its fields, and `reader` reads their values. -/
def record {α : Type} (model : String) (keys : List FieldKey) (reader : Fields → Checked α) :
    Document → Checked α
  | map entries =>
    let fields := textFields entries
    match keyProblems keys fields entries with
    | [] => reader fields
    | problems => Checked.apply (.error problems) (reader fields)
  | _ => Checked.problem (.notRecord model)

/-- Reads a text. -/
def readText : Document → Checked Text
  | text t => .ok t
  | _ => Checked.problem .notText

/-- Reads a text or nothing. -/
def readTextOrNull : Document → Checked (Option Text)
  | null => .ok none
  | d => some <$> d.readText

/-- The greatest length of an integer given as text. -/
def longestInteger : Nat :=
  4300

/-- Reads an integer, which may also be given as a truth value, as text or as a whole
floating-point number that fits a 64-bit integer. -/
def readInteger : Document → Checked Int
  | integer n => .ok n
  | truth b => .ok (if b then 1 else 0)
  | text t =>
    match IntegerText.ofText? t with
    | some x => if x.length ≤ longestInteger then .ok x.value else Checked.problem .outOfRange
    | none => Checked.problem .notIntegerText
  | floating (.whole n) =>
    if -9223372036854775808 ≤ n && n ≤ 9223372036854775807 then .ok n
    else Checked.problem .outOfRange
  | floating .fractional => Checked.problem .fractional
  | floating .notFinite => Checked.problem .notFinite
  | _ => Checked.problem .notInteger

/-- Reads an integer that is not below a bound. -/
def readNatural (bound : Nat) (d : Document) : Checked { n : Nat // bound ≤ n } := do
  let n ← d.readInteger
  if h : (bound : Int) ≤ n then .ok ⟨n.toNat, by omega⟩ else Checked.problem (.below bound)

/-- Reads a fixed sequence. -/
def readSequence {α : Type} (reader : Document → Checked α) : Document → Checked (List α)
  | list items => Checked.items reader 0 items
  | _ => Checked.problem .notSequence

/-- Reads a list. -/
def readList {α : Type} (reader : Document → Checked α) : Document → Checked (List α)
  | list items => Checked.items reader 0 items
  | _ => Checked.problem .notList

end Document

end ControlLanguage
