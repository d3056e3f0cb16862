import ControlLanguage.Parameter.Value
import ControlLanguage.Text.Digit

/-!
# Flat keys of elements

An element list may be given as separate entries, one per element: the key of element `2` of
`LOG` is `LOG_ELEM2`, and where that element is a list itself, its items have the keys
`LOG_ELEM2_0`, `LOG_ELEM2_1` and so on. Grouping puts such entries together again.

**The key alone decides whether an entry belongs to a list; the list is then read by asking for
the indexes in turn** and ends where one is missing. An entry whose index is never asked for, such
as one with a leading zero, is dropped. Every index that is found has an entry of its own, so the
number of entries bounds the search.
-/

namespace ControlLanguage

namespace ElementKey

/-- Between a keyword and an index. -/
def mark : Text :=
  "_ELEM".toList

/-- Drops a run of at least one decimal digit at the start. -/
def afterDigits (t : Text) : Option Text :=
  if t.head?.any isDecimalDigit then some (t.dropWhile isDecimalDigit) else none

/-- Whether a text is empty or one line feed. -/
def isEnd (t : Text) : Bool :=
  t = [] || t = ['\n']

/-- Whether a text consists of the mark, an index and perhaps a second index. -/
def isIndexed (t : Text) : Bool :=
  mark.isPrefixOf t &&
    match afterDigits (t.drop mark.length) with
    | none => false
    | some rest =>
      isEnd rest ||
        match rest with
        | '_' :: rest => (afterDigits rest).any isEnd
        | _ => false

/-- The keyword before the first mark that begins an index, where `before` is the part of the
key in front, last character first. -/
def keywordFrom (before : Text) : Text → Option Text
  | [] => none
  | c :: t =>
    if !before.isEmpty && isIndexed (c :: t) then some before.reverse
    else if c = '\n' then none
    else keywordFrom (c :: before) t

/-- The keyword of an element key; other keys have none. -/
def keyword? (key : Text) : Option Text :=
  keywordFrom [] key

/-- The key of an element. -/
def element (keyword : Text) (i : Nat) : Text :=
  keyword ++ mark ++ (toString i).toList

/-- The key of an item of an element that is a list. -/
def item (keyword : Text) (i j : Nat) : Text :=
  element keyword i ++ '_' :: (toString j).toList

/-- The answers for the indexes from `i` on, up to the first index that has none; at most
`bound` indexes are asked for. -/
def collectedFrom {α : Type} (ask : Nat → Option α) (i : Nat) : (bound : Nat) → List α
  | 0 => []
  | bound + 1 =>
    match ask i with
    | some value => value :: collectedFrom ask (i + 1) bound
    | none => []

/-- The value of an element: under its own key, or else a list of the items under theirs. -/
def elementValue (entries : KeyedList ParameterValue) (keyword : Text) (i : Nat) :
    Option ParameterValue :=
  match KeyedList.get? entries (element keyword i) with
  | some value => some value
  | none =>
    match collectedFrom (fun j ↦ KeyedList.get? entries (item keyword i j)) 0 entries.length with
    | [] => none
    | items => some (.list items)

/-- The elements of a keyword in the order of their indexes. -/
def elements (entries : KeyedList ParameterValue) (keyword : Text) : List ParameterValue :=
  collectedFrom (elementValue entries keyword) 0 entries.length

/-- Puts the elements of a keyword in place of its flat entries. -/
def putElements (entries grouped : KeyedList ParameterValue) (keyword : Text) :
    KeyedList ParameterValue :=
  match elements entries keyword with
  | [] => grouped
  | values => KeyedList.put keyword (.list values) grouped

end ElementKey

namespace KeyedList

/-- The entries with other keys, followed by a list for each keyword that has elements. -/
def groupElements (entries : KeyedList ParameterValue) : KeyedList ParameterValue :=
  let keywords := (entries.filterMap fun (key, _) ↦ ElementKey.keyword? key).eraseDups
  keywords.foldl (ElementKey.putElements entries)
    (entries.filter fun (key, _) ↦ (ElementKey.keyword? key).isNone)

end KeyedList

end ControlLanguage
