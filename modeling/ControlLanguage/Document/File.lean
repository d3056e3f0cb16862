import ControlLanguage.Document.Reader
import ControlLanguage.Yaml.Document

/-!
# Documents in files

A layout or a description of a command is read from a file. Of the file system **only what stands at
a path matters**, so loading is a function of it: the text of a file, or the reason why there is
none.
-/

namespace ControlLanguage

/-- What stands at a path. -/
inductive FileContent where
  | text (t : Text)
  | missing
  | directory
  /-- Part of the path is a file. -/
  | beyondFile
  | nameTooLong

/-- Why a document cannot be loaded. -/
inductive LoadError where
  | missing
  | directory
  | beyondFile
  | nameTooLong
  | notYaml
  | notMap
  | invalid (problems : List Located)

namespace LoadError

/-- The number and the text of a system error at a path. -/
def systemError (number : Nat) (reason : String) (shownPath : Text) : Text :=
  "[Errno ".toList ++ (toString number).toList ++ "] ".toList ++ reason.toList ++
    ": ".toList ++ shownPath

/-- The text of the system error, if the file could not be read; `shownPath` is the path in
quotes. -/
def systemText? (e : LoadError) (shownPath : Text) : Option Text :=
  match e with
  | missing => some (systemError 2 "No such file or directory" shownPath)
  | directory => some (systemError 21 "Is a directory" shownPath)
  | beyondFile => some (systemError 20 "Not a directory" shownPath)
  | nameTooLong => some (systemError 36 "File name too long" shownPath)
  | _ => none

/-- How many problems a document has. -/
def countText (n : Nat) (model : String) : Text :=
  (toString n).toList ++
    (if n = 1 then " validation error for " else " validation errors for ").toList ++ model.toList

end LoadError

namespace FileContent

/-- The document in a file. -/
def document? : FileContent → Except LoadError Document
  | text t =>
    match Document.ofYaml? t with
    | some d => .ok d
    | none => .error .notYaml
  | missing => .error .missing
  | directory => .error .directory
  | beyondFile => .error .beyondFile
  | nameTooLong => .error .nameTooLong

end FileContent

end ControlLanguage
