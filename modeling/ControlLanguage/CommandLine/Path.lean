import ControlLanguage.Document.File
import ControlLanguage.Text.Basic

/-!
# Paths

A path is shown in messages in a plain form: without empty parts and without parts that mean the
directory itself. Where a message quotes it, quotes and control characters in it are escaped.
-/

namespace ControlLanguage

/-- A path in plain form. -/
structure Path where
  /-- The slashes in front of an absolute path. -/
  root : Text
  parts : List Text
  deriving DecidableEq, Repr

namespace Path

/-- The path that a text names. -/
def ofText (t : Text) : Path where
  root :=
    match (t.takeWhile (· = '/')).length with
    | 0 => []
    | 2 => ['/', '/']
    | _ => ['/']
  parts := (t.cutAt '/').filter fun part ↦ !part.isEmpty && part ≠ ['.']

/-- The text of a path. -/
def text (p : Path) : Text :=
  if p.root.isEmpty && p.parts.isEmpty then ['.'] else p.root ++ ['/'].intercalate p.parts

/-- A path below a directory. -/
def below (directory : Text) (name : Text) : Path :=
  ofText (directory ++ '/' :: name)

/-- A character below 256 by the two digits of its code. -/
def escapedCode (c : Char) : Text :=
  '\\' :: 'x' :: [Nat.digitChar (c.toNat / 16), Nat.digitChar (c.toNat % 16)]

/-- A character as it is written inside quotes. -/
def escapedChar (quote c : Char) : Text :=
  if c = quote || c = '\\' then ['\\', c]
  else if c = '\n' then ['\\', 'n']
  else if c = '\r' then ['\\', 'r']
  else if c = '\t' then ['\\', 't']
  else if c.toNat < 32 || 127 ≤ c.toNat && c.toNat ≤ 160 then escapedCode c
  else [c]

/-- The text of a path in quotes. -/
def shown (p : Path) : Text :=
  let quote := if p.text.contains '\x27' && !p.text.contains '"' then '"' else '\x27'
  quote :: p.text.flatMap (escapedChar quote) ++ [quote]

/-- The size of a text in a file name. -/
def byteSize (t : Text) : Nat :=
  (String.ofList t).utf8ByteSize

/-- What stands at a name where there is nothing: names have at most 255 bytes. -/
def contentAtUnused (name : Text) : FileContent :=
  if byteSize name ≤ 255 then .missing else .nameTooLong

/-- What stands at a path if the current directory has the given entries, which are files with
their text or else empty directories. Names are looked up from the left, in paths of at most 4095
bytes. -/
def contentIn (entries : List (Text × Option Text)) (p : Path) : FileContent :=
  if 4095 < byteSize p.text then .nameTooLong
  else
    match p.root, p.parts with
    | _, [] => .directory
    | [], name :: rest =>
      match entries.lookup name, rest with
      | some (some t), [] => .text t
      | some (some _), _ => .beyondFile
      | some none, [] => .directory
      | some none, next :: _ => contentAtUnused next
      | none, _ =>
        if name = ['.', '.'] && rest.isEmpty then .directory else contentAtUnused name
    | _, name :: _ => contentAtUnused name

end Path

end ControlLanguage
