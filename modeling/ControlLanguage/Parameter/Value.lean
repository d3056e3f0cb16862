import ControlLanguage.Text.WhiteSpace

/-!
# Values of parameters

A parameter value is a text, or a list of parts or occurrences that are values themselves. Values
that come from elsewhere may also be absent, an integer or a truth value; these are written as
their text.

A qualified name is a list with its object first. Maps from keywords to values keep the order of
their entries: **a later entry for the same keyword replaces the value and keeps the place**.
-/

namespace ControlLanguage

/-- The value of a parameter. -/
inductive ParameterValue where
  | absent
  | text (t : Text)
  | integer (n : Int)
  | truth (b : Bool)
  | list (items : List ParameterValue)
  deriving Inhabited

namespace ParameterValue

mutual

/-- Equality of values is decidable. -/
def decideEq : (v w : ParameterValue) → Decidable (v = w)
  | .absent, .absent => isTrue rfl
  | .text t, .text u => decidable_of_iff (t = u) (by simp)
  | .integer m, .integer n => decidable_of_iff (m = n) (by simp)
  | .truth a, .truth b => decidable_of_iff (a = b) (by simp)
  | .list vs, .list ws =>
    match decideListEq vs ws with
    | isTrue h => isTrue (by rw [h])
    | isFalse h => isFalse (by simpa using h)
  | .absent, .text _ | .absent, .integer _ | .absent, .truth _ | .absent, .list _
  | .text _, .absent | .text _, .integer _ | .text _, .truth _ | .text _, .list _
  | .integer _, .absent | .integer _, .text _ | .integer _, .truth _ | .integer _, .list _
  | .truth _, .absent | .truth _, .text _ | .truth _, .integer _ | .truth _, .list _
  | .list _, .absent | .list _, .text _ | .list _, .integer _ | .list _, .truth _ =>
    isFalse (by simp)

/-- Equality of lists of values is decidable. -/
def decideListEq : (vs ws : List ParameterValue) → Decidable (vs = ws)
  | [], [] => isTrue rfl
  | [], _ :: _ => isFalse (by simp)
  | _ :: _, [] => isFalse (by simp)
  | v :: vs, w :: ws =>
    match decideEq v w, decideListEq vs ws with
    | isTrue h, isTrue h' => isTrue (by rw [h, h'])
    | isFalse h, _ => isFalse (by simp [h])
    | _, isFalse h => isFalse (by simp [h])

end

instance : DecidableEq ParameterValue :=
  decideEq

/-- A list of texts as a value. -/
def texts (ts : List Text) : ParameterValue :=
  .list (ts.map .text)

/-- Whether a value is a list. -/
def isList : ParameterValue → Bool
  | .list _ => true
  | _ => false

/-- The text of a truth value. -/
def truthText (b : Bool) : Text :=
  if b then "True".toList else "False".toList

/-- The text of a value that is not a list; lists have none. -/
def plainText : ParameterValue → Text
  | .absent => []
  | .text t => t
  | .integer n => (toString n).toList
  | .truth b => truthText b
  | .list _ => []

mutual

/-- Whether a value holds nothing but white space. -/
def isEmpty : ParameterValue → Bool
  | .absent => true
  | .text t => t.trim.isEmpty
  | .integer _ => false
  | .truth _ => false
  | .list items => allEmpty items

/-- Whether all of several values hold nothing but white space. -/
def allEmpty : List ParameterValue → Bool
  | [] => true
  | v :: vs => v.isEmpty && allEmpty vs

end

end ParameterValue

/-- Entries with distinct keys, in the order in which the keys were first given. -/
abbrev KeyedList (α : Type) := List (Text × α)

namespace KeyedList

variable {α : Type}

/-- The value of a key. -/
def get? (entries : KeyedList α) (key : Text) : Option α :=
  List.lookup key entries

/-- Gives a key a value: in its place if it has one already, else at the end. -/
def put (key : Text) (value : α) : KeyedList α → KeyedList α
  | [] => [(key, value)]
  | (k, v) :: entries => if k = key then (k, value) :: entries else (k, v) :: put key value entries

/-- The entries of a list in which a later entry replaces the value of an earlier one. -/
def ofList (entries : List (Text × α)) : KeyedList α :=
  entries.foldl (fun acc (k, v) ↦ put k v acc) []

/-- The same values under new keys. -/
def mapKeys (f : Text → Text) (entries : KeyedList α) : KeyedList α :=
  ofList (entries.map fun (k, v) ↦ (f k, v))

end KeyedList

end ControlLanguage
