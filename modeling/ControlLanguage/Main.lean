import ControlLanguage.CommandLine.Run

/-!
# The program

Reads what the command line names, runs the command and prints the outcome. All decisions are made
by `ControlLanguage.CommandLine.run`; **this module only moves text** between it and the system.
-/

namespace ControlLanguage

namespace CommandLine

/-- The text that explains the command line. -/
def usageText : String :=
  "usage: clformat [-h] [-v] COMMAND ...\n\n" ++
  "commands:\n" ++
  "  format FILE [--layout LAYOUT]   format a source file into fixed columns\n" ++
  "  build DEFINITION STATEMENT      rebuild a statement from its command definition\n\n" ++
  "options:\n" ++
  "  -h, --help     show this help message and exit\n" ++
  "  -v, --verbose  print diagnostics, of which there are none"

/-- The paths that a request reads. -/
def pathsOf : Request → List Path
  | .format file layout => (file :: layoutFileName :: layout.toList).map Path.ofText
  | .build definition _ => [.ofText definition]
  | _ => []

/-- What stands at a path. A directory can be opened, so its error does not name the path. -/
def readContent (p : Path) : IO FileContent := do
  try
    return .text (← IO.FS.readFile (String.ofList p.text)).toList
  catch
    | .noFileOrDirectory .. => return .missing
    | .inappropriateType (some _) .. => return .beyondFile
    | .invalidArgument .. => return .nameTooLong
    | _ => return .directory

/-- Whether a request reads the standard input. -/
def readsInput : Request → Bool
  | .format file _ => file = ['-']
  | _ => false

/-- All of the standard input. -/
partial def readAll (input : IO.FS.Stream) (taken : String) : IO String := do
  let line ← input.getLine
  if line.isEmpty then return taken else readAll input (taken ++ line)

end CommandLine

end ControlLanguage

open ControlLanguage in
/-- Runs the program on its arguments. -/
def main (args : List String) : IO UInt32 := do
  let args := args.map String.toList
  let request := CommandLine.request args
  let contents ← (CommandLine.pathsOf request).mapM fun p ↦ do
    return (p, ← CommandLine.readContent p)
  let input ← if CommandLine.readsInput request then CommandLine.readAll (← IO.getStdin) ""
    else pure ""
  let directory ← IO.currentDir
  let env : CommandLine.Environment :=
    { directory := directory.toString.toList
      input := input.toList
      content := fun p ↦ (contents.lookup p).getD .missing }
  match CommandLine.answer env request with
  | .usage => IO.println CommandLine.usageText; return 0
  | .invalid => IO.eprintln "usage: clformat [-h] [-v] COMMAND ..."; return 2
  | .printed lines =>
    for line in lines do IO.println (String.ofList line)
    return 0
  | .failed message =>
    for t in message do IO.eprintln ("Error: " ++ String.ofList t)
    return 1
