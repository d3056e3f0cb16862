import ControlLanguage.CommandLine.Arguments
import ControlLanguage.CommandLine.Path
import ControlLanguage.Format.Source
import ControlLanguage.Layout.Load
import ControlLanguage.Metadata.Load
import ControlLanguage.Parameter.Rebuild
import ControlLanguage.Text.Line

/-!
# Running the commands

What a run prints is a function of the command line, of the standard input and of what stands at the
paths that the command line names. **A run prints either lines or one error**: everything that can
fail is checked before the first line is printed, the layout before the source file and the
description of a command before the statement.

Two errors have no message: a source file whose name is too long, and a missing statement.
-/

namespace ControlLanguage

namespace CommandLine

/-- What the program depends on besides its arguments. -/
structure Environment where
  /-- The absolute path of the current directory. -/
  directory : Text
  input : Text
  content : Path → FileContent

/-- What a run ends in. -/
inductive Outcome where
  | usage
  | invalid
  | printed (lines : List Text)
  | failed (message : Option Text)

/-- The name of the layout file that is used without being asked for. -/
def layoutFileName : Text :=
  ".clformat.yaml".toList

/-- What stands at the layout file of the current directory. -/
def defaultLayout (env : Environment) : FileContent :=
  env.content (.ofText layoutFileName)

/-- Loads a layout; the error is its message. -/
def loadLayout (path : Path) (content : FileContent) : Except (Option Text) Layout :=
  (Layout.load content).mapError (some <| Layout.loadMessage path.text path.shown ·)

/-- The layout that is asked for, or that of the current directory, or the standard layout. -/
def chosenLayout (env : Environment) : Option Text → Except (Option Text) Layout
  | none =>
    match defaultLayout env with
    | .missing => .ok .standard
    | .beyondFile => .ok .standard
    | content => loadLayout (.below env.directory layoutFileName) content
  | some [] => loadLayout (.below env.directory layoutFileName) (defaultLayout env)
  | some t => loadLayout (.ofText t) (env.content (.ofText t))

/-- The text of the source file; a hyphen means the standard input. -/
def sourceText (env : Environment) (file : Text) : Except (Option Text) Text :=
  if file = ['-'] then .ok env.input
  else
    let path := Path.ofText file
    match env.content path with
    | .text t => .ok t
    | .directory => .error (some ("cannot read '".toList ++ path.text ++ "': ".toList ++
        LoadError.systemError 21 "Is a directory" path.shown))
    | .nameTooLong => .error none
    | _ => .error (some ("file '".toList ++ path.text ++ "' does not exist.".toList))

/-- The formatted lines of a source file. -/
def formattedFile (env : Environment) (file : Text) (layout : Option Text) :
    Except (Option Text) (List Text) := do
  let l ← chosenLayout env layout
  let t ← sourceText env file
  .ok (Source.format l t.lines)

/-- A statement rebuilt from the description of its command. -/
def rebuiltStatement (env : Environment) (definition : Text) (statement : Option Text) :
    Except (Option Text) Text := do
  let path := Path.ofText definition
  let c ← (CommandSpec.load (env.content path)).mapError
    (some <| CommandSpec.loadMessage path.text path.shown ·)
  match statement with
  | some t => (Statement.rebuild c.parameters c.command t).mapError (some ·.message.toList)
  | none => .error none

/-- The outcome of printing lines. -/
def outcome : Except (Option Text) (List Text) → Outcome
  | .ok lines => .printed lines
  | .error message => .failed message

/-- The outcome of a request. -/
def answer (env : Environment) : Request → Outcome
  | .usage => .usage
  | .invalid => .invalid
  | .format file layout => outcome (formattedFile env file layout)
  | .build definition statement =>
    outcome ((fun t ↦ [t]) <$> rebuiltStatement env definition statement)

/-- Runs the program. -/
def run (env : Environment) (args : List Text) : Outcome :=
  answer env (request args)

end CommandLine

end ControlLanguage
