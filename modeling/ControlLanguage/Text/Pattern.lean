import ControlLanguage.Text.Basic

/-!
# Patterns

Regular patterns over characters, matched by **taking the pattern apart along the text**: what a
text has to look like after its first character is a pattern again.

The smart constructors drop alternatives that can no longer match, so the patterns that arise while
matching stay small.
-/

namespace ControlLanguage

/-- A regular pattern. -/
inductive Pattern where
  | never
  | empty
  | char (p : Char → Bool)
  | seq (first second : Pattern)
  | alt (first second : Pattern)
  | star (p : Pattern)

namespace Pattern

/-- Whether the pattern matches the empty text. -/
def isNullable : Pattern → Bool
  | never => false
  | empty => true
  | char _ => false
  | seq a b => a.isNullable && b.isNullable
  | alt a b => a.isNullable || b.isNullable
  | star _ => true

/-- One pattern after another, unless the first one cannot match. -/
def followedBy : Pattern → Pattern → Pattern
  | never, _ => never
  | empty, b => b
  | a, b => seq a b

/-- Either pattern, without one that cannot match. -/
def either : Pattern → Pattern → Pattern
  | never, b => b
  | a, never => a
  | a, b => alt a b

/-- What has to follow a character. -/
def after (c : Char) : Pattern → Pattern
  | never => never
  | empty => never
  | char p => if p c then empty else never
  | seq a b =>
    let longer := (a.after c).followedBy b
    if a.isNullable then longer.either (b.after c) else longer
  | alt a b => (a.after c).either (b.after c)
  | star a => (a.after c).followedBy (star a)

/-- Whether the pattern matches all of a text. -/
def isMatch (p : Pattern) (t : Text) : Bool :=
  (t.foldl (fun p c ↦ p.after c) p).isNullable

/-- Exactly one text. -/
def text (t : String) : Pattern :=
  t.toList.foldr (fun c p ↦ followedBy (char (· = c)) p) empty

/-- One of several characters. -/
def oneOf (cs : String) : Pattern :=
  char fun c ↦ cs.toList.contains c

/-- The pattern at least once. -/
def plus (p : Pattern) : Pattern :=
  seq p (star p)

/-- The pattern or nothing. -/
def opt (p : Pattern) : Pattern :=
  alt p empty

/-- Several patterns in a row. -/
def all (ps : List Pattern) : Pattern :=
  ps.foldr seq empty

/-- One of several patterns. -/
def any (ps : List Pattern) : Pattern :=
  ps.foldr alt never

end Pattern

end ControlLanguage
