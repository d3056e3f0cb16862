import ControlLanguage.Document.File
import ControlLanguage.Layout.Reader

/-!
# Loading layouts

A layout file that is empty gives the standard layout.
-/

namespace ControlLanguage

namespace Layout

/-- The layout in a file. -/
def load (content : FileContent) : Except LoadError Layout := do
  match ← content.document? with
  | .null => .ok standard
  | .map entries => (ofDocument (.map entries)).mapError .invalid
  | _ => .error .notMap

/-- The text of an error, where `path` is the path and `shown` the path in quotes. -/
def loadMessage (path shown : Text) (e : LoadError) : Text :=
  match e with
  | .missing => "Layout config file not found: ".toList ++ path
  | .notYaml => "Invalid YAML in layout config '".toList ++ path ++ ['\x27']
  | .notMap => path ++ ": layout config must be a YAML mapping".toList
  | .invalid problems =>
    "Invalid layout config '".toList ++ path ++ "': ".toList ++
      LoadError.countText problems.length "LayoutConfig"
  | e =>
    "Cannot read layout config '".toList ++ path ++ "': ".toList ++ (e.systemText? shown).getD []

end Layout

end ControlLanguage
