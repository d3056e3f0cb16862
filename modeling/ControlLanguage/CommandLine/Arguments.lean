import ControlLanguage.Text.Basic
import ControlLanguage.Text.Digit

/-!
# Arguments of the command line

The command line names one of two commands, with options before and after it:

```
[-v] format FILE [--layout LAYOUT]
[-v] build DEFINITION STATEMENT
```

An option may be shortened as long as it stays unambiguous, its value may be attached with an equals
sign, and single-letter options may be written together. Since these take no value, an equals sign
after the first of them does not count: `-v=h` means `-vh`.

**An unknown argument makes the command line invalid only at its end**: a request for help that
follows is still granted. An option that is known but malformed makes it invalid at once, and an
ambiguous one before anything else is read.
-/

namespace ControlLanguage

namespace CommandLine

/-- The options of the program and of its commands. -/
inductive Flag where
  | help
  | verbose
  | layout
  deriving DecidableEq, Repr

/-- The options that are known somewhere, by their spellings. -/
abbrev Flags := List (Text × Flag)

/-- The options before the command. -/
def programFlags : Flags :=
  [("-h", .help), ("--help", .help), ("-v", .verbose), ("--verbose", .verbose)].map fun (s, f) ↦
    (s.toList, f)

/-- The options of the command that formats. -/
def formatFlags : Flags :=
  [("-h", .help), ("--help", .help), ("--layout", .layout)].map fun (s, f) ↦ (s.toList, f)

/-- The options of the command that rebuilds a statement. -/
def buildFlags : Flags :=
  [("-h", .help), ("--help", .help)].map fun (s, f) ↦ (s.toList, f)

/-! ### Single arguments -/

/-- What an argument is. -/
inductive Argument where
  | plain (t : Text)
  /-- Two hyphens, after which all arguments are plain. -/
  | separator
  /-- An option, perhaps with text attached to it. -/
  | flag (f : Flag) (attached : Option Text)
  /-- Several single-letter options. -/
  | cluster (fs : List Flag)
  /-- An option that is not known. -/
  | unknown
  /-- An option that is known but written wrongly. -/
  | malformed
  /-- A shortened option that may be several. -/
  | ambiguous
  deriving DecidableEq, Repr

/-- The text before the first equals sign and the text after it. -/
def splitAtEquals (t : Text) : Text × Option Text :=
  match t.dropWhile (· ≠ '=') with
  | _ :: after => (t.takeWhile (· ≠ '='), some after)
  | [] => (t, none)

/-- Whether an argument is a negative number. -/
def isNegativeNumber : Text → Bool
  | '-' :: t =>
    let whole := t.takeWhile isDecimalDigit
    match t.dropWhile isDecimalDigit with
    | [] => !whole.isEmpty
    | '.' :: fraction => !fraction.isEmpty && fraction.all isDecimalDigit
    | _ => false
  | _ => false

/-- The options that single letters after a hyphen stand for. -/
def cluster? (flags : Flags) (letters : Text) : Option (List Flag) :=
  letters.mapM fun c ↦ flags.lookup ['-', c]

/-- An argument of single letters after a hyphen, the first of which is an option. -/
def clusterArgument (flags : Flags) (letters : Text) : Argument :=
  match cluster? flags letters with
  | some fs => .cluster fs
  | none => .malformed

/-- An option with text attached to its full name by an equals sign. What is attached to a single
letter is more letters. -/
def attachedArgument (flags : Flags) (name : Text) (f : Flag) (attached : Text) : Argument :=
  if name.length = 2 && !attached.isEmpty then clusterArgument flags (name.tail ++ attached)
  else .flag f (some attached)

/-- An argument that begins with two hyphens and is not an option as it stands. -/
def longArgument (flags : Flags) (t : Text) : Argument :=
  let (name, attached) := splitAtEquals t
  match flags.filter (name.isPrefixOf ·.1) with
  | [(_, f)] => .flag f attached
  | [] => if t.contains ' ' then .plain t else .unknown
  | _ => .ambiguous

/-- An argument that begins with one hyphen and is not an option as it stands. -/
def shortArgument (flags : Flags) (t : Text) : Argument :=
  match flags.lookup (t.take 2) with
  | some _ => clusterArgument flags t.tail
  | none => if isNegativeNumber t || t.contains ' ' then .plain t else .unknown

/-- What an argument is, before any separator. -/
def argument (flags : Flags) (t : Text) : Argument :=
  if t = ['-', '-'] then .separator
  else if t.head? ≠ some '-' || t = ['-'] then .plain t
  else
    match flags.lookup t with
    | some f => .flag f none
    | none =>
      match splitAtEquals t with
      | (name, some attached) =>
        match flags.lookup name with
        | some f => attachedArgument flags name f attached
        | none => if t[1]? = some '-' then longArgument flags t else shortArgument flags t
      | _ => if t[1]? = some '-' then longArgument flags t else shortArgument flags t

/-- What the arguments are. -/
def arguments (flags : Flags) : List Text → List Argument
  | [] => []
  | t :: ts =>
    match argument flags t with
    | .separator => .separator :: ts.map .plain
    | a => a :: arguments flags ts

/-! ### The command line -/

/-- What the command line asks for. -/
inductive Request where
  | usage
  | invalid
  | format (file : Text) (layout : Option Text)
  /-- Two hyphens are never a statement: the statement is then missing. -/
  | build (definition : Text) (statement : Option Text)
  deriving DecidableEq, Repr

/-- The arguments of a command read so far. -/
structure Collected where
  values : List Text
  layout : Option Text
  /-- Whether something was not understood. -/
  hasExtra : Bool

/-- Reads the arguments of a command with `count` values. `follows` tells that the argument before
was one of the values. Without an answer usage was asked for; an error makes the command line
invalid at once. -/
def collect (count : Nat) (follows : Bool) (c : Collected) :
    List Argument → Except Unit (Option Collected)
  | [] => if c.values.length = count then .ok (some c) else .error ()
  | .plain t :: rest =>
    if c.values.length < count then collect count true { c with values := c.values ++ [t] } rest
    else collect count false { c with hasExtra := true } rest
  | .separator :: rest =>
    let isUsed := follows || c.values.length < count && !rest.isEmpty
    collect count false { c with hasExtra := c.hasExtra || !isUsed } rest
  | .unknown :: rest => collect count false { c with hasExtra := true } rest
  | .flag .help none :: _ => .ok none
  | .flag .verbose none :: rest => collect count false c rest
  | .flag .layout (some t) :: rest => collect count false { c with layout := some t } rest
  | .flag .layout none :: .plain t :: rest =>
    collect count false { c with layout := some t } rest
  | .cluster fs :: rest => if fs.contains .help then .ok none else collect count false c rest
  | _ :: _ => .error ()

/-- The request of a command, whose values `make` takes; `hasExtra` tells that something before the
command was not understood. -/
def commandRequest (flags : Flags) (count : Nat) (hasExtra : Bool)
    (make : List Text → Option Text → Request) (ts : List Text) : Request :=
  let args := arguments flags ts
  if args.contains .ambiguous then .invalid
  else
    match collect count false ⟨[], none, hasExtra⟩ args with
    | .error () => .invalid
    | .ok none => .usage
    | .ok (some c) => if c.hasExtra then .invalid else make c.values c.layout

/-- The request to format a file. -/
def formatRequest (values : List Text) (layout : Option Text) : Request :=
  match values with
  | [file] => .format file layout
  | _ => .invalid

/-- The request to rebuild a statement. -/
def buildRequest (values : List Text) (_ : Option Text) : Request :=
  match values with
  | [definition, statement] =>
    .build definition (if statement = ['-', '-'] then none else some statement)
  | _ => .invalid

/-- Reads a command line up to the command and hands the rest to the command. Without a command
usage is shown. -/
def requestFrom (hasExtra : Bool) : List Text → Request
  | [] => if hasExtra then .invalid else .usage
  | t :: ts =>
    match argument programFlags t with
    | .plain name =>
      if name = "format".toList then commandRequest formatFlags 1 hasExtra formatRequest ts
      else if name = "build".toList then commandRequest buildFlags 2 hasExtra buildRequest ts
      else .invalid
    | .flag .verbose none => requestFrom hasExtra ts
    | .flag .help none => .usage
    | .cluster fs => if fs.contains .help then .usage else requestFrom hasExtra ts
    | .unknown => requestFrom true ts
    | _ => .invalid

/-- What a command line asks for. -/
def request (ts : List Text) : Request :=
  if (arguments programFlags ts).contains .ambiguous then .invalid else requestFrom false ts

end CommandLine

end ControlLanguage
