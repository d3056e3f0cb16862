import ControlLanguage.Format.Statement
import ControlLanguage.Statement.Continuation

/-!
# Formatted source

A source file is formatted statement by statement. Its lines are joined first, so the lines that a
statement had before do not matter; **comments are kept as they are**, each on a line of its own.
-/

namespace ControlLanguage

namespace Source

/-- The lines of a statement or a comment of a source file. -/
def formatEntry (l : Layout) (entry : Text) : List Text :=
  if Statement.isComment entry then [entry] else (Statement.format l entry).lines

/-- The lines of a source file, formatted. -/
def format (l : Layout) (lines : List Text) : List Text :=
  (Statement.joinLines lines).flatMap (formatEntry l)

end Source

end ControlLanguage
