import ControlLanguage.Document.File
import ControlLanguage.Metadata.Reader

/-!
# Loading descriptions of commands

Unlike a layout file, the file of a description cannot be empty.
-/

namespace ControlLanguage

namespace CommandSpec

/-- The description in a file. -/
def load (content : FileContent) : Except LoadError CommandSpec := do
  match ← content.document? with
  | .map entries => (ofDocument (.map entries)).mapError .invalid
  | _ => .error .notMap

/-- The text of an error, where `path` is the path and `shown` the path in quotes. -/
def loadMessage (path shown : Text) (e : LoadError) : Text :=
  match e with
  | .notYaml => "Invalid YAML in command definition '".toList ++ path ++ ['\x27']
  | .notMap => path ++ ": command definition must be a YAML mapping".toList
  | .invalid problems =>
    "Invalid command definition '".toList ++ path ++ "': ".toList ++
      LoadError.countText problems.length "CommandDef"
  | e =>
    "Cannot read command definition '".toList ++ path ++ "': ".toList ++
      (e.systemText? shown).getD []

end CommandSpec

end ControlLanguage
