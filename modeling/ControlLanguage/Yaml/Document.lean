import ControlLanguage.Yaml.Lexer
import ControlLanguage.Yaml.Plain

/-!
# From tokens to a document

A node is a scalar, a list, a map or a reference to an anchored node. Lists and maps have two forms,
by indentation and in brackets, and **a node that is left out is nothing**.

Where a map gives a key twice the last value counts. Keys have to be simple values.
-/

namespace ControlLanguage

namespace Yaml

/-- The nodes with an anchor so far. -/
abbrev Anchors := List (Text × Node)

/-- What is left to read, and the anchored nodes. -/
structure Rest where
  tokens : List Token
  anchors : Anchors

/-- An entry of a map. -/
abbrev Entry := Node × Node

namespace Node

/-- Nothing. -/
def null : Node :=
  .document .null

/-- The meaning of a node as a value. -/
def value? : Node → Option Document
  | document d => some d
  | mergeKey => none
  | valueKey => none

end Node

/-! ### Maps -/

/-- The number that a simple value counts as when keys are compared. -/
def keyNumber? : Document → Option Int
  | .truth b => some (if b then 1 else 0)
  | .integer n => some n
  | .floating (.whole n) => some n
  | _ => none

/-- Whether two simple values are the same key. -/
def isSameKey : Document → Document → Bool
  | .null, .null => true
  | .text t, .text u => t = u
  | d, e => (keyNumber? d).isSome && keyNumber? d = keyNumber? e

/-- Whether a document may be a key. -/
def isSimple : Document → Bool
  | .list _ => false
  | .map _ => false
  | _ => true

/-- Gives a key a value: in its place if it has one already, else at the end. -/
def putEntry (k v : Document) : List (Document × Document) → List (Document × Document)
  | [] => [(k, v)]
  | (k', v') :: entries =>
    if isSameKey k' k then (k', v) :: entries else (k', v') :: putEntry k v entries

/-- The entries of a map. -/
def entriesOf : Document → Option (List (Document × Document))
  | .map entries => some entries
  | _ => none

/-- The entries that a value merges into a map. -/
def mergedEntries : Node → Option (List (Document × Document))
  | .document (.list items) => (items.reverse.mapM entriesOf).map List.flatten
  | .document d => entriesOf d
  | _ => none

/-- The entries that others merge into a map. -/
def inherited : List Entry → Option (List (Document × Document))
  | [] => some []
  | (.mergeKey, v) :: entries => do some ((← mergedEntries v) ++ (← inherited entries))
  | _ :: entries => inherited entries

/-- The entries that a map has itself. -/
def own : List Entry → Option (List (Document × Document))
  | [] => some []
  | (.mergeKey, _) :: entries => own entries
  | (.valueKey, v) :: entries => do some ((.text ['='], ← v.value?) :: (← own entries))
  | (.document k, v) :: entries => do
    if isSimple k then some ((k, ← v.value?) :: (← own entries)) else none

/-- The map with the given entries. -/
def mapOf (entries : List Entry) : Option Node := do
  let all := (← inherited entries) ++ (← own entries)
  some (.document (.map (all.foldl (fun acc (k, v) ↦ putEntry k v acc) [])))

/-- The list with the given items. -/
def listOf (items : List Node) : Option Node :=
  (items.mapM Node.value?).map fun ds ↦ .document (.list ds)

/-! ### Nodes -/

/-- The node of a scalar. -/
def scalarNode (t : Text) (quoted : Bool) : Node :=
  if quoted then .document (.text t) else Plain.meaning t

/-- What kind of node may stand somewhere. -/
inductive Place where
  /-- Inside brackets. -/
  | flow
  /-- In a block. -/
  | block
  /-- Beside a key, where a list may be indented like the key. -/
  | beside
  deriving DecidableEq, Repr

/-- Whether an entry of a block list is empty. -/
def isEmptyEntry : List Token → Bool
  | .blockEntry :: _ | .blockEnd :: _ => true
  | _ => false

/-- Whether a key or a value is empty, or an entry of a list that is indented like its key. -/
def isEmptyBeside : List Token → Bool
  | .key :: _ | .value :: _ | .blockEnd :: _ => true
  | _ => false

/-- Whether an item, a key or a value inside brackets is empty. -/
def isEmptyFlow : List Token → Bool
  | .value :: _ | .flowEntry :: _ | .flowListEnd :: _ | .flowMapEnd :: _ => true
  | _ => false

/-- Whether the content of a node begins here. -/
def hasContent (place : Place) : List Token → Bool
  | .scalar _ _ :: _ | .flowListStart :: _ | .flowMapStart :: _ => true
  | .blockListStart :: _ | .blockMapStart :: _ => place ≠ .flow
  | .blockEntry :: _ => place = .beside
  | _ => false

/-- Passes over the comma before an item that is not the first one. -/
def separated (close : Token) (isFirst : Bool) : List Token → Option (List Token)
  | [] => none
  | t :: tokens =>
    if isFirst || t = close then some (t :: tokens)
    else if t = .flowEntry then some tokens
    else none

mutual

/-- Reads a node. -/
def node (place : Place) : (fuel : Nat) → Rest → Option (Node × Rest)
  | 0, _ => none
  | fuel + 1, r =>
    match r.tokens with
    | .reference name :: tokens =>
      (r.anchors.lookup name).map fun n ↦ (n, { r with tokens := tokens })
    | .anchor name :: tokens =>
      if (r.anchors.lookup name).isSome then none
      else
        let read :=
          if hasContent place tokens then content place fuel { r with tokens }
          else some (.null, { r with tokens })
        read.map fun (n, r) ↦ (n, { r with anchors := (name, n) :: r.anchors })
    | _ => content place fuel r

/-- Reads a node without anchor. -/
def content (place : Place) : (fuel : Nat) → Rest → Option (Node × Rest)
  | 0, _ => none
  | fuel + 1, r =>
    match r.tokens, place with
    | .scalar t quoted :: tokens, _ => some (scalarNode t quoted, { r with tokens })
    | .flowListStart :: tokens, _ => do
      let (items, r) ← flowItems true fuel { r with tokens }
      some (← listOf items, r)
    | .flowMapStart :: tokens, _ => do
      let (entries, r) ← flowEntries true fuel { r with tokens }
      some (← mapOf entries, r)
    | .blockEntry :: _, .beside => do
      let (items, r) ← sameIndentItems fuel r
      some (← listOf items, r)
    | .blockListStart :: tokens, .block | .blockListStart :: tokens, .beside => do
      let (items, r) ← blockItems fuel { r with tokens }
      some (← listOf items, r)
    | .blockMapStart :: tokens, .block | .blockMapStart :: tokens, .beside => do
      let (entries, r) ← blockEntries fuel { r with tokens }
      some (← mapOf entries, r)
    | _, _ => none

/-- Reads a node, or nothing if none stands here. -/
def nodeOrNull (isEmpty : List Token → Bool) (place : Place) :
    (fuel : Nat) → Rest → Option (Node × Rest)
  | 0, _ => none
  | fuel + 1, r => if isEmpty r.tokens then some (.null, r) else node place fuel r

/-- Reads the items of a block list. -/
def blockItems : (fuel : Nat) → Rest → Option (List Node × Rest)
  | 0, _ => none
  | fuel + 1, r =>
    match r.tokens with
    | .blockEntry :: tokens => do
      let (item, r) ← nodeOrNull isEmptyEntry .block fuel { r with tokens }
      let (items, r) ← blockItems fuel r
      some (item :: items, r)
    | .blockEnd :: tokens => some ([], { r with tokens })
    | _ => none

/-- Reads the items of a list that is indented like its key. -/
def sameIndentItems : (fuel : Nat) → Rest → Option (List Node × Rest)
  | 0, _ => none
  | fuel + 1, r =>
    match r.tokens with
    | .blockEntry :: tokens => do
      let (item, r) ←
        nodeOrNull (fun ts ↦ isEmptyEntry ts || isEmptyBeside ts) .block fuel { r with tokens }
      let (items, r) ← sameIndentItems fuel r
      some (item :: items, r)
    | _ => some ([], r)

/-- Reads the entries of a block map. -/
def blockEntries : (fuel : Nat) → Rest → Option (List Entry × Rest)
  | 0, _ => none
  | fuel + 1, r =>
    match r.tokens with
    | .key :: tokens => do
      let (k, r) ← nodeOrNull isEmptyBeside .beside fuel { r with tokens }
      let (v, r) ← valueOf isEmptyBeside .beside fuel r
      let (entries, r) ← blockEntries fuel r
      some ((k, v) :: entries, r)
    | .blockEnd :: tokens => some ([], { r with tokens })
    | _ => none

/-- Reads the value of a key, which may be left out together with its colon. -/
def valueOf (isEmpty : List Token → Bool) (place : Place) :
    (fuel : Nat) → Rest → Option (Node × Rest)
  | 0, _ => none
  | fuel + 1, r =>
    match r.tokens with
    | .value :: tokens => nodeOrNull isEmpty place fuel { r with tokens }
    | _ => some (.null, r)

/-- Reads the items of a list in brackets; a key makes an item a map with one entry. -/
def flowItems (isFirst : Bool) : (fuel : Nat) → Rest → Option (List Node × Rest)
  | 0, _ => none
  | fuel + 1, r => do
    let tokens ← separated .flowListEnd isFirst r.tokens
    match tokens with
    | .flowListEnd :: tokens => some ([], { r with tokens })
    | .key :: tokens =>
      let (entry, r) ← flowPair fuel { r with tokens }
      let item ← mapOf [entry]
      let (items, r) ← flowItems false fuel r
      some (item :: items, r)
    | tokens =>
      let (item, r) ← node .flow fuel { r with tokens }
      let (items, r) ← flowItems false fuel r
      some (item :: items, r)

/-- Reads the entries of a map in brackets; an item without a key mark is a key without value. -/
def flowEntries (isFirst : Bool) : (fuel : Nat) → Rest → Option (List Entry × Rest)
  | 0, _ => none
  | fuel + 1, r => do
    let tokens ← separated .flowMapEnd isFirst r.tokens
    match tokens with
    | .flowMapEnd :: tokens => some ([], { r with tokens })
    | .key :: tokens =>
      let (entry, r) ← flowPair fuel { r with tokens }
      let (entries, r) ← flowEntries false fuel r
      some (entry :: entries, r)
    | tokens =>
      let (k, r) ← node .flow fuel { r with tokens }
      let (entries, r) ← flowEntries false fuel r
      some ((k, .null) :: entries, r)

/-- Reads a key and its value inside brackets. -/
def flowPair : (fuel : Nat) → Rest → Option (Entry × Rest)
  | 0, _ => none
  | fuel + 1, r => do
    let (k, r) ← nodeOrNull isEmptyFlow .flow fuel r
    let (v, r) ← valueOf isEmptyFlow .flow fuel r
    some ((k, v), r)

end

/-- Reads the only document of a list of tokens; it may be left out. -/
def onlyDocument (tokens : List Token) : Option Document := do
  let fuel := 6 * tokens.length + 6
  let read (tokens : List Token) : Option (Node × Rest) := node .block fuel ⟨tokens, []⟩
  let (n, r) ←
    match tokens with
    | [] => some (.null, ⟨[], []⟩)
    | .documentStart :: rest =>
      match rest with
      | [] | .documentStart :: _ | .documentEnd :: _ => some (.null, ⟨rest, []⟩)
      | rest => read rest
    | tokens => read tokens
  if (r.tokens.dropWhile (· = .documentEnd)).isEmpty then n.value? else none

end Yaml

namespace Document

/-- The document that a text spells, if it has the form of exactly one. -/
def ofYaml? (t : Text) : Option Document := do
  Yaml.onlyDocument (← Yaml.tokens? t)

end Document

end ControlLanguage
