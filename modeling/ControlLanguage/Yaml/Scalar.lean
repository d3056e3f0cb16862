import ControlLanguage.Yaml.Cursor
import ControlLanguage.Yaml.Plain

/-!
# Reading scalars

A scalar may run over several lines. **One line end inside it reads as a blank, and each further
one as a line feed**; blanks next to the line ends do not count.

A plain scalar ends before a comment, before a colon with a gap after it, and, outside of brackets,
at a line that is not indented enough. Inside brackets it also ends at the characters that structure
a list or a map. In double quotes a backslash begins an escape.
-/

namespace ControlLanguage

namespace Yaml

/-- The line ends from here on and the text they read as, where `first` is the line end before.
Blanks between them are passed over if `isBlank` holds of them. There is no answer where a document
begins or ends. -/
def Cursor.foldedBreaks (isBlank : Char → Bool) (breaks : Text) :
    (fuel : Nat) → Cursor → Option (Text × Cursor)
  | 0, c => some (breaks.reverse, c)
  | fuel + 1, c =>
    if c.hasDocumentMark then none
    else
      let c := c.skipWhile isBlank
      match c.lineBreak? with
      | some (b, c) => foldedBreaks isBlank (b :: breaks) fuel c
      | none => some (breaks.reverse, c)

/-- The text that a line end and the line ends after it read as. -/
def foldedText (first : Char) (breaks : Text) : Text :=
  (if first ≠ '\n' then [first] else if breaks.isEmpty then [' '] else []) ++ breaks

/-! ### Quoted scalars -/

/-- The characters that a backslash and another character stand for. -/
def escapes : List (Char × Char) :=
  [('0', '\x00'), ('a', '\x07'), ('b', '\x08'), ('t', '\t'), ('\t', '\t'), ('n', '\n'),
    ('v', '\x0b'), ('f', '\x0c'), ('r', '\r'), ('e', '\x1b'), (' ', ' '), ('"', '"'),
    ('\\', '\\'), ('/', '/'), ('N', '\u0085'), ('_', '\u00a0'), ('L', '\u2028'), ('P', '\u2029')]

/-- How many hexadecimal digits follow a backslash and a letter. -/
def escapeLengths : List (Char × Nat) :=
  [('x', 2), ('u', 4), ('U', 8)]

/-- A hexadecimal digit. -/
def isHexadecimal (c : Char) : Bool :=
  c.isDigit || 'a' ≤ c.toLower && c.toLower ≤ 'f'

/-- The text of an escape, which begins after the backslash, and the place after it. -/
def escape? (c : Cursor) : Option (Text × Cursor) :=
  match c.peek 0 with
  | none => none
  | some a =>
    match escapes.lookup a, escapeLengths.lookup a with
    | some b, _ => some ([b], c.next)
    | none, some n =>
      let digits := c.next.rest.take n
      if digits.length = n && digits.all isHexadecimal && (Plain.inBase 16 digits).isValidChar then
        some ([Char.ofNat (Plain.inBase 16 digits)], c.next.skip n)
      else none
    | none, none =>
      match c.lineBreak? with
      | some (_, c) => c.foldedBreaks (fun a ↦ a = ' ' || a = '\t') [] (c.rest.length + 1)
      | none => none

/-- The text of the blanks and line ends inside a quoted scalar. -/
def quotedSpace? (c : Cursor) : Option (Text × Cursor) :=
  let blank (a : Char) := a = ' ' || a = '\t'
  let after := c.skipWhile blank
  match after.lineBreak? with
  | none => some (c.run blank, after)
  | some (b, c) =>
    (c.foldedBreaks blank [] (c.rest.length + 1)).map fun (breaks, c) ↦ (foldedText b breaks, c)

/-- The rest of a quoted scalar after its opening quote; `taken` is what was read of it, last
character first. -/
def quoted? (quote : Char) (taken : Text) : (fuel : Nat) → Cursor → Option (Text × Cursor)
  | 0, _ => none
  | fuel + 1, c =>
    match c.peek 0 with
    | none => none
    | some a =>
      if a = quote then
        if quote = '\x27' && c.peek 1 = some quote then
          quoted? quote (quote :: taken) fuel (c.skip 2)
        else some (taken.reverse, c.next)
      else if quote = '"' && a = '\\' then
        (escape? c.next).bind fun (t, c) ↦ quoted? quote (t.reverse ++ taken) fuel c
      else if isGap (some a) then
        (quotedSpace? c).bind fun (t, c) ↦ quoted? quote (t.reverse ++ taken) fuel c
      else quoted? quote (a :: taken) fuel c.next

/-! ### Plain scalars -/

/-- A character that structures lists and maps in brackets. -/
def isFlowMark (c : Char) : Bool :=
  c = ',' || c = '[' || c = ']' || c = '\x7b' || c = '\x7d'

/-- Whether a plain scalar, in brackets or not, ends before the next character. -/
def endsPlain (inFlow : Bool) : Text → Bool
  | [] => true
  | a :: rest =>
    isGap (some a) ||
      a = ':' && (isGap rest.head? || inFlow && rest.head?.any isFlowMark) ||
      inFlow && (isFlowMark a || a = '?')

/-- The characters of a plain scalar up to a gap or its end. -/
def plainWord (inFlow : Bool) : Text → Text
  | [] => []
  | a :: rest => if endsPlain inFlow (a :: rest) then [] else a :: plainWord inFlow rest

/-- What stands between two words of a plain scalar: its text, whether there was a line end, and the
place after it. The text is empty where the scalar has to end. -/
def plainSpace (c : Cursor) : Text × Bool × Cursor :=
  let after := c.skipWhile (· = ' ')
  match after.lineBreak? with
  | none => (c.run (· = ' '), false, after)
  | some (b, c) =>
    match c.foldedBreaks (· = ' ') [] (c.rest.length + 1) with
    | some (breaks, c) => (foldedText b breaks, true, c)
    | none => ([], true, c)

/-- The rest of a plain scalar after the text `taken` and the space `space`: all of its text,
whether the place after it is at the start of a line, and that place. Outside of brackets its lines
have to be indented by `indent` columns. Space at the end does not count. -/
def plain (inFlow : Bool) (indent : Int) (taken space : Text) (newLine : Bool) :
    (fuel : Nat) → Cursor → Text × Bool × Cursor
  | 0, c => (taken, newLine, c)
  | fuel + 1, c =>
    let word := plainWord inFlow c.rest
    if c.peek 0 = some '#' || word.isEmpty then (taken, newLine, c)
    else
      let taken := taken ++ space ++ word
      let (space, newLine, c) := plainSpace (c.skip word.length)
      if space.isEmpty || c.peek 0 = some '#' || !inFlow && (c.column : Int) < indent then
        (taken, newLine, c)
      else plain inFlow indent taken space newLine fuel c

end Yaml

end ControlLanguage
