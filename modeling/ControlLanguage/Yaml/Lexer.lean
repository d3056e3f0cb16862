import ControlLanguage.Yaml.Scalar
import ControlLanguage.Yaml.Token

/-!
# From document text to tokens

Outside of brackets indentation decides what belongs together: a line that is indented more than
its block may begin a block inside it, and one that is indented less ends the block. **Whether a
token is a key is known only at the colon after it**, so a place where a key may stand is remembered
and the tokens for the key, and for the map that it begins, are put in there afterwards. A key has
to be on one line with its colon and not more than 1024 characters before it.

Block scalars, tags and directives are not part of the documents read here.
-/

namespace ControlLanguage

namespace Yaml

/-- A place where a key may have begun. -/
structure KeyPlace where
  /-- How many tokens come before it. -/
  position : Nat
  /-- Whether there has to be a key, since the line could not be read otherwise. -/
  isRequired : Bool
  index : Nat
  line : Nat
  column : Nat

/-- What is known of a text up to a place. -/
structure LexerState where
  cursor : Cursor
  /-- How many brackets are open. -/
  flowLevel : Nat
  /-- The column of the current block, or -1 outside of all blocks. -/
  indent : Int
  /-- The columns of the blocks around it. -/
  outerIndents : List Int
  /-- Whether a key may stand here. -/
  allowsKey : Bool
  /-- For each level of brackets the last place where a key may have begun. -/
  keyPlaces : List (Nat × KeyPlace)
  tokens : List Token

namespace LexerState

/-- The state at the start of a text; a byte order mark does not count. -/
def start (t : Text) : LexerState where
  cursor := if t.head? = some '\ufeff' then (Cursor.start t).next else .start t
  flowLevel := 0
  indent := -1
  outerIndents := []
  allowsKey := true
  keyPlaces := []
  tokens := []

/-- Adds a token. -/
def emit (s : LexerState) (t : Token) : LexerState :=
  { s with tokens := s.tokens ++ [t] }

/-- Moves on by some characters. -/
def skip (s : LexerState) (n : Nat) : LexerState :=
  { s with cursor := s.cursor.skip n }

/-- Whether all brackets are closed. -/
def inBlock (s : LexerState) : Bool :=
  s.flowLevel = 0

/-! ### Places of keys -/

/-- Forgets the places that are too far away for a key; one where a key is required is an error. -/
def dropStale (s : LexerState) : Option LexerState :=
  let isStale (k : KeyPlace) : Bool :=
    k.line ≠ s.cursor.line || 1024 < s.cursor.index - k.index
  if s.keyPlaces.any fun (_, k) ↦ isStale k && k.isRequired then none
  else some { s with keyPlaces := s.keyPlaces.filter fun (_, k) ↦ !isStale k }

/-- Forgets the place at the current level; one where a key is required is an error. -/
def dropPlace (s : LexerState) : Option LexerState :=
  if (s.keyPlaces.lookup s.flowLevel).any (·.isRequired) then none
  else some { s with keyPlaces := s.keyPlaces.filter (·.1 ≠ s.flowLevel) }

/-- Remembers this place, if a key may stand here. -/
def savePlace (s : LexerState) : Option LexerState :=
  if s.allowsKey then
    s.dropPlace.map fun s ↦
      let place : KeyPlace :=
        ⟨s.tokens.length, s.inBlock && s.indent = s.cursor.column, s.cursor.index, s.cursor.line,
          s.cursor.column⟩
      { s with keyPlaces := (s.flowLevel, place) :: s.keyPlaces }
  else some s

/-! ### Blocks -/

/-- The blocks that are left at a column, and how many end there. -/
def unwound (column : Int) : (indent : Int) → (outer : List Int) → Int × List Int × Nat
  | indent, [] => (indent, [], 0)
  | indent, i :: outer =>
    if column < indent then
      let (indent, outer, n) := unwound column i outer
      (indent, outer, n + 1)
    else (indent, i :: outer, 0)

/-- Ends the blocks that are indented more than a column. -/
def unwind (s : LexerState) (column : Int) : LexerState :=
  if s.inBlock then
    let (indent, outer, n) := unwound column s.indent s.outerIndents
    { s with
      indent := indent
      outerIndents := outer
      tokens := s.tokens ++ List.replicate n .blockEnd }
  else s

/-- Begins a block at a column, with its token at a position, unless that block is begun already. -/
def beginBlock (s : LexerState) (column position : Nat) (t : Token) : LexerState :=
  if s.indent < column then
    { s with
      indent := column
      outerIndents := s.indent :: s.outerIndents
      tokens := s.tokens.insertIdx position t }
  else s

/-! ### Tokens -/

/-- Moves on to the next token, past blanks, comments and line ends. -/
def toToken (s : LexerState) : (fuel : Nat) → LexerState
  | 0 => s
  | fuel + 1 =>
    let c := s.cursor.skipWhile (· = ' ')
    let c := if c.peek 0 = some '#' then c.skipWhile (!isBreak ·) else c
    match c.lineBreak? with
    | some (_, c) => toToken { s with cursor := c, allowsKey := s.allowsKey || s.inBlock } fuel
    | none => { s with cursor := c }

/-- The end of the text. -/
def atEnd (s : LexerState) : Option LexerState :=
  (s.unwind (-1)).dropPlace

/-- The mark of the start or the end of a document. -/
def documentMark (s : LexerState) (t : Token) : Option LexerState :=
  (s.unwind (-1)).dropPlace.map fun s ↦ { (s.skip 3).emit t with allowsKey := false }

/-- An opening bracket. -/
def flowStart (s : LexerState) (t : Token) : Option LexerState :=
  s.savePlace.map fun s ↦
    { (s.skip 1).emit t with flowLevel := s.flowLevel + 1, allowsKey := true }

/-- A closing bracket. -/
def flowEnd (s : LexerState) (t : Token) : Option LexerState :=
  if s.inBlock then none
  else s.dropPlace.map fun s ↦
    { (s.skip 1).emit t with flowLevel := s.flowLevel - 1, allowsKey := false }

/-- A comma inside brackets. -/
def flowEntry (s : LexerState) : Option LexerState :=
  s.dropPlace.map fun s ↦ { (s.skip 1).emit .flowEntry with allowsKey := true }

/-- A hyphen before an entry. -/
def blockEntry (s : LexerState) : Option LexerState :=
  if s.inBlock && !s.allowsKey then none
  else
    let s := if s.inBlock then s.beginBlock s.cursor.column s.tokens.length .blockListStart else s
    s.dropPlace.map fun s ↦ { (s.skip 1).emit .blockEntry with allowsKey := true }

/-- A question mark before a key. -/
def explicitKey (s : LexerState) : Option LexerState :=
  if s.inBlock && !s.allowsKey then none
  else
    let s := if s.inBlock then s.beginBlock s.cursor.column s.tokens.length .blockMapStart else s
    s.dropPlace.map fun s ↦ { (s.skip 1).emit .key with allowsKey := s.inBlock }

/-- A colon. If a place is remembered the token there is the key; otherwise the key was marked as
such. -/
def value (s : LexerState) : Option LexerState :=
  match s.keyPlaces.lookup s.flowLevel with
  | some k =>
    let s := { s with
      keyPlaces := s.keyPlaces.filter (·.1 ≠ s.flowLevel)
      tokens := s.tokens.insertIdx k.position .key
      allowsKey := false }
    let s := if s.inBlock then s.beginBlock k.column k.position .blockMapStart else s
    some ((s.skip 1).emit .value)
  | none =>
    if s.inBlock && !s.allowsKey then none
    else
      let s := if s.inBlock then s.beginBlock s.cursor.column s.tokens.length .blockMapStart else s
      s.dropPlace.map fun s ↦ { (s.skip 1).emit .value with allowsKey := s.inBlock }

/-- A character of the name of an anchor. -/
def isAnchorChar (c : Char) : Bool :=
  c.isAlphanum || c = '-' || c = '_'

/-- Whether the name of an anchor may end before a character. -/
def endsAnchor : Option Char → Bool
  | none => true
  | some c => isGap (some c) || "?:,]\x7d%@\x60".toList.contains c

/-- A name after an ampersand or an asterisk. -/
def anchor (s : LexerState) (t : Text → Token) : Option LexerState := do
  let s ← s.savePlace
  let name := s.cursor.next.run isAnchorChar
  let s := s.skip (name.length + 1)
  if name.isEmpty || !endsAnchor (s.cursor.peek 0) then none
  else some { s.emit (t name) with allowsKey := false }

/-- A scalar in quotes. -/
def quotedScalar (s : LexerState) (quote : Char) : Option LexerState := do
  let s ← s.savePlace
  let (text, cursor) ← quoted? quote [] (s.cursor.rest.length + 1) s.cursor.next
  some { s.emit (.scalar text true) with cursor := cursor, allowsKey := false }

/-- A scalar without quotes. -/
def plainScalar (s : LexerState) : Option LexerState :=
  s.savePlace.map fun s ↦
    let (text, newLine, cursor) :=
      plain (!s.inBlock) (s.indent + 1) [] [] false (s.cursor.rest.length + 1) s.cursor
    { s.emit (.scalar text false) with cursor := cursor, allowsKey := newLine }

/-- Whether a plain scalar may begin with a character that is followed by another one. -/
def beginsPlain (s : LexerState) (a : Char) : Bool :=
  !("-?:,[]\x7b\x7d#&*!|>'\"%@\x60".toList.contains a || isGap (some a)) ||
    !isGap (s.cursor.peek 1) && (a = '-' || s.inBlock && (a = '?' || a = ':'))

/-- Reads the token that begins with a character. -/
def tokenAt (s : LexerState) (a : Char) : Option LexerState :=
  let gapAfter := isGap (s.cursor.peek 1)
  if s.cursor.column = 0 && a = '%' then none
  else if s.cursor.column = 0 && s.cursor.hasMark '-' then s.documentMark .documentStart
  else if s.cursor.column = 0 && s.cursor.hasMark '.' then s.documentMark .documentEnd
  else if a = '[' then s.flowStart .flowListStart
  else if a = '\x7b' then s.flowStart .flowMapStart
  else if a = ']' then s.flowEnd .flowListEnd
  else if a = '\x7d' then s.flowEnd .flowMapEnd
  else if a = ',' then s.flowEntry
  else if a = '-' && gapAfter then s.blockEntry
  else if a = '?' && (!s.inBlock || gapAfter) then s.explicitKey
  else if a = ':' && (!s.inBlock || gapAfter) then s.value
  else if a = '*' then s.anchor .reference
  else if a = '&' then s.anchor .anchor
  else if a = '\x27' || a = '"' then s.quotedScalar a
  else if s.beginsPlain a then s.plainScalar
  else none

/-- The tokens of the rest of a text. Each token takes at least one character, so the length of the
text bounds their number. -/
def allTokens : (fuel : Nat) → LexerState → Option (List Token)
  | 0, _ => none
  | fuel + 1, s => do
    let s := s.toToken (s.cursor.rest.length + 1)
    let s ← s.dropStale
    let s := s.unwind s.cursor.column
    match s.cursor.peek 0 with
    | none => s.atEnd.map (·.tokens)
    | some a => allTokens fuel (← s.tokenAt a)

end LexerState

/-- A character that may stand in a document text. -/
def isPrintable (c : Char) : Bool :=
  c = '\t' || c = '\n' || c = '\r' || c = '\u0085' ||
    32 ≤ c.toNat && c.toNat ≤ 126 || 160 ≤ c.toNat && c.toNat ≠ 65534 && c.toNat ≠ 65535

/-- The tokens of a document text, if it has the form of one. -/
def tokens? (t : Text) : Option (List Token) :=
  if t.all isPrintable then LexerState.allTokens (t.length + 1) (.start t) else none

end Yaml

end ControlLanguage
