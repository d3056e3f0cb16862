import ControlLanguage.Format.Statement
import ControlLanguage.Proofs.Format.Wrapping
import ControlLanguage.Proofs.Text.Ink

/-!
# What the lines hold besides white space

A command comes to its lines by many routes: the head line, a label on a line of its own, segments
that are glued together, and the steps of the wrap loop. White space comes and goes on each of them.
`Text.ink` is what is left of a text without it, and **none of the routes loses, adds or moves
ink**: each operation on segments and on pages gets one equation for its ink.

The text of a value is written by another function than its segments, so the two have to agree for
every tree. They do up to white space, when the commands inside the value are put in the case of the
layout first (`Value.inCase`); the proof is a mutual induction over values and commands.
-/

namespace ControlLanguage

open Text

/-! ### Values and commands in the case of a layout -/

mutual

/-- The value with the names and keywords of the commands in it in the case of a layout. -/
def Value.inCase (l : Layout) : Value → Value
  | .scalar t => .scalar t
  | .expression tokens => .expression tokens
  | .array items => .array (Value.allInCase l items)
  | .function name args => .function name (Value.allInCase l args)
  | .command c => .command (c.inCase l)
  | .unknown => .unknown

/-- Several values with their commands in the case of a layout. -/
def Value.allInCase (l : Layout) : List Value → List Value
  | [] => []
  | v :: vs => v.inCase l :: Value.allInCase l vs

/-- The command with its name and keywords, and those in its values, in the case of a layout. -/
def Command.inCase (l : Layout) : Command → Command
  | ⟨name, parameters⟩ => ⟨l.applyCase name, Parameter.allInCase l parameters⟩

/-- The parameter with its keyword, and what is in its value, in the case of a layout. -/
def Parameter.inCase (l : Layout) : Parameter → Parameter
  | ⟨keyword, value⟩ => ⟨l.applyCase keyword, value.inCase l⟩

/-- Several parameters in the case of a layout. -/
def Parameter.allInCase (l : Layout) : List Parameter → List Parameter
  | [] => []
  | q :: qs => q.inCase l :: Parameter.allInCase l qs

end

namespace Parameter

/-- What a parameter holds: its keyword and its value in parentheses. -/
def content (l : Layout) (q : Parameter) : Text :=
  l.applyCase q.keyword ++ '(' :: (q.value.inCase l).text ++ [')']

end Parameter

namespace Command

/-- What a command holds: its name and its parameters in order. -/
def content (l : Layout) (c : Command) : Text :=
  l.applyCase c.name ++ c.parameters.flatMap (Parameter.content l)

end Command

namespace Layout

/-- What is written of a label, which is nothing if it is empty. -/
def labelText (l : Layout) (label : Text) : Text :=
  if label.isEmpty then [] else l.applyCase label ++ [':']

end Layout

/-! ### Segments -/

namespace Segments

/-- The ink of all pieces. -/
def ink (s : Segments) : Text :=
  s.toList.flatMap Text.ink

/-- The ink of segments is that of the first one and of the others. -/
theorem ink_eq (s : Segments) : s.ink = Text.ink s.first ++ s.rest.flatMap Text.ink :=
  rfl

theorem ink_single (t : Text) : (single t).ink = Text.ink t := by
  rw [ink_eq]
  exact List.append_nil _

/-- Ink in front of segments comes first. -/
theorem ink_prepend (t : Text) (s : Segments) : (s.prepend t).ink = Text.ink t ++ s.ink := by
  rw [ink_eq, ink_eq, prepend, Text.ink_append, List.append_assoc]

/-- Ink behind segments comes last. -/
theorem ink_append (s : Segments) (t : Text) : (s.append t).ink = s.ink ++ Text.ink t := by
  -- the text goes to the last piece, which is the first one if there are no others
  obtain ⟨first, rest⟩ := s
  rcases List.eq_nil_or_concat' rest with rfl | ⟨us, u, rfl⟩
  · simp [append, ink_eq]
  · simp [append, ink_eq]

/-- Segments side by side are set apart by a blank, which has no ink. -/
theorem ink_beside (s t : Segments) : (beside [' '] s t).ink = s.ink ++ t.ink := by
  have hleft := ink_append s ([' '] ++ t.first)
  rw [Text.ink_append, Text.ink_blank, List.nil_append, ink_eq] at hleft
  rw [beside, ink_eq, List.flatMap_append, ← List.append_assoc, hleft, List.append_assoc, ← ink_eq]

/-- Any number of segments are set side by side without further ink. -/
theorem ink_foldl_beside (ss : List Segments) (s : Segments) :
    (ss.foldl (beside [' ']) s).ink = s.ink ++ ss.flatMap ink := by
  induction ss generalizing s with
  | nil => exact (List.append_nil _).symm
  | cons t ss ih => rw [List.foldl_cons, ih, ink_beside, List.flatMap_cons, List.append_assoc]

/-- A list adds its parentheses. -/
theorem ink_list (ss : List Segments) :
    (list ss).ink = ['('] ++ ss.flatMap ink ++ [')'] := by
  have hopen : Text.ink ['('] = ['('] := rfl
  have hclose : Text.ink [')'] = [')'] := rfl
  cases ss with
  | nil => rfl
  | cons s ss =>
    rw [list, ink_append, ink_foldl_beside, ink_prepend, List.flatMap_cons, hopen, hclose,
      List.append_assoc ['(']]

/-- Segments with one piece each are their first pieces. -/
theorem flatMap_ink_of_single {ss : List Segments} (h : ss.all (·.rest.isEmpty) = true) :
    ss.flatMap ink = (ss.map (·.first)).flatMap Text.ink := by
  induction ss with
  | nil => rfl
  | cons s ss ih =>
    simp only [List.all_cons, Bool.and_eq_true, List.isEmpty_iff] at h
    rw [List.flatMap_cons, List.map_cons, List.flatMap_cons, ih h.2, ink_eq, h.1,
      List.flatMap_nil, List.append_nil]

/-- **A call holds the same on one line and on several.** -/
theorem ink_call (l : Layout) (indent : Nat) (name : Text) (args : List Segments) :
    (call l indent name args).ink = Text.ink name ++ ['('] ++ args.flatMap ink ++ [')'] := by
  have hopen : Text.ink ['('] = ['('] := rfl
  have hclose : Text.ink [')'] = [')'] := rfl
  rw [call]
  split_ifs with h
  · -- on one line only the first pieces are written, so it matters that there are no others
    have hsingle := (Bool.and_eq_true_iff.1 h).1
    rw [ink_single, inlineCall, ink_enclosed, ink_joinBlank, flatMap_ink_of_single hsingle]
  · have hargs : (args.flatMap toList).flatMap Text.ink = args.flatMap ink := List.flatMap_assoc
    rw [brokenCall, ink_append, ink_eq, Text.ink_append, hargs, hopen, hclose]

mutual

/-- The segments of a value hold its text. -/
theorem ink_ofValue (l : Layout) (indent : Nat) :
    (v : Value) → (ofValue l indent v).ink = Text.ink (v.inCase l).text
  | .scalar t => ink_single t
  | .expression tokens => ink_single (Token.spelling tokens)
  | .array items => by
    have htext := ink_enclosed [] (joinBlank (Value.texts (Value.allInCase l items)))
    rw [ink_joinBlank] at htext
    rw [ofValue, ink_list, flatMap_ink_ofValues l (indent + 1) items]
    exact htext.symm
  | .function name args => by
    rw [ofValue, ink_call, flatMap_ink_ofValues l _ args, Value.inCase, Value.text, ink_enclosed,
      ink_joinBlank]
  | .command c => by
    rw [ofValue, ink_single, ink_ofCommand l c, Value.inCase, Value.text]
  | .unknown => rfl

/-- The ink of several values, in mutual recursion with that of one. -/
theorem flatMap_ink_ofValues (l : Layout) (indent : Nat) :
    (vs : List Value) → (ofValues l indent vs).flatMap ink =
      (Value.texts (Value.allInCase l vs)).flatMap Text.ink
  | [] => rfl
  | v :: vs => by
    rw [ofValues, List.flatMap_cons, ink_ofValue l indent v, flatMap_ink_ofValues l indent vs]
    rfl

/-- The text of a command inside a value is the text of that command. -/
theorem ink_ofCommand (l : Layout) :
    (c : Command) → Text.ink (ofCommand l c) = Text.ink (c.inCase l).text
  | ⟨name, parameters⟩ => by
    rw [ofCommand, ink_joinBlank, List.flatMap_cons, flatMap_ink_ofParameters l parameters,
      Command.inCase, Command.text, ink_joinBlank, List.flatMap_cons]

/-- The ink of a parameter of a command inside a value. -/
theorem ink_ofParameter (l : Layout) :
    (q : Parameter) → Text.ink (ofParameter l q) = Text.ink (q.inCase l).text
  | ⟨keyword, value⟩ => by
    have hvalue : (ofValue l 0 value).toList.flatMap Text.ink = Text.ink (value.inCase l).text :=
      ink_ofValue l 0 value
    rw [ofParameter, Parameter.inCase, Parameter.text, ink_enclosed, ink_enclosed, ink_joinBlank,
      hvalue]

theorem flatMap_ink_ofParameters (l : Layout) :
    (qs : List Parameter) → (ofParameters l qs).flatMap Text.ink =
      (Parameter.texts (Parameter.allInCase l qs)).flatMap Text.ink
  | [] => rfl
  | q :: qs => by
    rw [ofParameters, List.flatMap_cons, ink_ofParameter l q, flatMap_ink_ofParameters l qs]
    rfl

end

end Segments

/-! ### Pages -/

namespace Page

/-- The ink of a page, without the markers of its closed lines. -/
def ink (p : Page) : Text :=
  Text.ink (p.closed.flatMap List.dropLast ++ p.current)

/-- Every closed line ends in the marker. -/
def IsMarked (l : Layout) (p : Page) : Prop :=
  ∀ line ∈ p.closed, ∃ t, line = t ++ [l.marker.char]

variable {l : Layout} {atoms : List Text}

theorem ink_start (t : Text) : (start t).ink = Text.ink t :=
  rfl

theorem ink_append (p : Page) (t : Text) : (p.append t).ink = p.ink ++ Text.ink t := by
  rw [ink, append, ← List.append_assoc, Text.ink_append, ink]

/-- Closing a line costs white space only, and adds the marker. -/
theorem ink_breakLine (l : Layout) (joined : Bool) (p : Page) :
    (p.breakLine l joined).ink = p.ink := by
  simp only [ink, breakLine, List.flatMap_append, List.flatMap_singleton, List.dropLast_concat,
    Text.ink_append, ink_blanks, ink_trimEnd, List.append_nil]

/-- A line that is broken is marked. -/
theorem isMarked_breakLine {p : Page} (h : p.IsMarked l) (joined : Bool) :
    (p.breakLine l joined).IsMarked l := by
  intro line hline
  rcases List.mem_append.1 hline with hline | hline
  · exact h line hline
  · exact ⟨_, List.mem_singleton.1 hline⟩

/-- **A step moves ink from the text to the page.** -/
theorem Step.ink {p p' : Page} {t t' : Text} {e : Option (Nat × Bool)}
    (h : Step l atoms p t e p' t') : p'.ink ++ Text.ink t' = p.ink ++ Text.ink t := by
  -- a step leaves out blanks at most
  rcases h.divides with ⟨-, rfl, rfl⟩ | ⟨x, n, joined, -, rfl, rfl, -⟩
  · rw [ink_append, Text.ink_nil, List.append_nil]
  · rw [ink_breakLine, ink_append, Text.ink_append x, Text.ink_append, ink_blanks,
      List.nil_append, List.append_assoc]

/-- A step that breaks the line marks it. -/
theorem Step.isMarked {p p' : Page} {t t' : Text} {e : Option (Nat × Bool)}
    (hstep : Step l atoms p t e p' t') (h : p.IsMarked l) : p'.IsMarked l := by
  rcases hstep.divides with ⟨-, rfl, -⟩ | ⟨x, n, joined, -, -, rfl, -⟩
  · exact h
  · exact isMarked_breakLine (show (p.append x).IsMarked l from h) joined

/-- The wrap loop puts all ink of a piece on the page, also when it gives up. -/
theorem ink_wrap (limit : Nat) (p : Page) (t : Text) :
    (wrap l atoms limit p t).ink = p.ink ++ Text.ink t := by
  induction limit generalizing p t with
  | zero =>
    by_cases ht : t = []
    · rw [ht, wrap_nil, Text.ink_nil, List.append_nil]
    · rw [wrap_zero ht]
      exact ink_append p t
  | succ limit ih =>
    by_cases ht : t = []
    · rw [ht, wrap_nil, Text.ink_nil, List.append_nil]
    · obtain ⟨e, p', t', hstep, heq⟩ := exists_step ht limit p
      rw [heq, ih, hstep.ink]

/-- Wrapping marks each line that it leaves. -/
theorem isMarked_wrap (limit : Nat) {p : Page} (h : p.IsMarked l) (t : Text) :
    (wrap l atoms limit p t).IsMarked l := by
  induction limit generalizing p t with
  | zero =>
    by_cases ht : t = []
    · rwa [ht, wrap_nil]
    · rw [wrap_zero ht]
      exact h
  | succ limit ih =>
    by_cases ht : t = []
    · rwa [ht, wrap_nil]
    · obtain ⟨e, p', t', hstep, heq⟩ := exists_step ht limit p
      rw [heq]
      exact ih (hstep.isMarked h) t'

/-- Behind each segment but the last the line is broken. -/
theorem wrapSegments_cons (p : Page) (t u : Text) (us : List Text) :
    wrapSegments l atoms p t (u :: us) =
      wrapSegments l atoms ((wrap l atoms stepLimit p t).breakLine l false) u us :=
  rfl

/-- Wrapped segments are on the page with all their ink. -/
theorem ink_wrapSegments (p : Page) (t : Text) (us : List Text) :
    (wrapSegments l atoms p t us).ink = p.ink ++ (Text.ink t ++ us.flatMap Text.ink) := by
  induction us generalizing p t with
  | nil =>
    rw [List.flatMap_nil, List.append_nil]
    exact ink_wrap stepLimit p t
  | cons u us ih =>
    rw [wrapSegments_cons, ih, ink_breakLine, ink_wrap, List.flatMap_cons, List.append_assoc]

/-- And the lines between them are marked. -/
theorem isMarked_wrapSegments {p : Page} (h : p.IsMarked l) (t : Text) (us : List Text) :
    (wrapSegments l atoms p t us).IsMarked l := by
  induction us generalizing p t with
  | nil => exact isMarked_wrap stepLimit h t
  | cons u us ih =>
    rw [wrapSegments_cons]
    exact ih (isMarked_breakLine (isMarked_wrap stepLimit h t) false) u

/-- What separates parameters has no ink. -/
theorem ink_separator (p : Page) : Text.ink p.separator = [] := by
  rw [separator]
  split_ifs
  · rfl
  · exact ink_blank

/-- A parameter is added with all its ink. -/
theorem ink_addParameter (p : Page) (q : Parameter) :
    (p.addParameter l atoms q).ink = p.ink ++ Text.ink (q.content l) := by
  have hsegments : (p.parameterSegments l q).ink = Text.ink (q.content l) := by
    have hopen : Text.ink ['('] = ['('] := rfl
    have hclose : Text.ink [')'] = [')'] := rfl
    rw [parameterSegments, Segments.ink_append, Segments.ink_prepend, Segments.ink_ofValue,
      Parameter.content, ink_enclosed, Text.ink_append, hopen, hclose]
  rw [addParameter, ink_wrapSegments, Text.ink_append, ink_separator, List.nil_append, ← hsegments,
    Segments.ink_eq]

/-- Each parameter leaves the lines above marked. -/
theorem isMarked_foldl_addParameter {p : Page} (h : p.IsMarked l) (qs : List Parameter) :
    (qs.foldl (addParameter l atoms) p).IsMarked l := by
  induction qs generalizing p with
  | nil => exact h
  | cons q qs ih => exact ih (isMarked_wrapSegments h _ _)

/-- Parameters are added one behind the other. -/
theorem ink_foldl_addParameter (p : Page) (qs : List Parameter) :
    (qs.foldl (addParameter l atoms) p).ink =
      p.ink ++ Text.ink (qs.flatMap (Parameter.content l)) := by
  induction qs generalizing p with
  | nil => exact (List.append_nil _).symm
  | cons q qs ih =>
    rw [List.foldl_cons, ih, ink_addParameter, List.flatMap_cons, Text.ink_append,
      List.append_assoc]

/-! ### The head -/

/-- The page begins with the label and the name. -/
theorem ink_headed (l : Layout) (label name : Text) :
    (headed l label name).ink = Text.ink (l.labelText label ++ l.applyCase name) := by
  by_cases hlabel : label.isEmpty = true
  · simp only [headed, Layout.labelText, if_pos hlabel, ink_start, Text.ink_append, ink_blanks,
      Text.ink_nil]
  · by_cases hlead :
        l.commandColumn - 1 ≤ (blanks (l.labelColumn - 1) ++ l.applyCase label ++ [':']).length
    · simp only [headed, Layout.labelText, if_neg hlabel, if_pos hlead, ink, breakLine, start,
        List.nil_append, List.flatMap_singleton, List.dropLast_concat, Text.ink_append, ink_blanks,
        ink_trimEnd, List.append_nil]
    · simp only [headed, Layout.labelText, if_neg hlabel, if_neg hlead, ink_start, Text.ink_append,
        ink_padEnd, ink_blanks, List.nil_append]

/-- If the label is on a line of its own, that line is marked. -/
theorem isMarked_headed (l : Layout) (label name : Text) : (headed l label name).IsMarked l := by
  have hstart : ∀ t, (start t).IsMarked l := fun t line hline ↦ absurd hline List.not_mem_nil
  simp only [headed]
  split_ifs
  · exact hstart _
  · exact isMarked_breakLine (hstart _) false
  · exact hstart _

/-- Going to the column of the parameters writes no ink. -/
theorem ink_toParameters (l : Layout) (p : Page) : (p.toParameters l).ink = p.ink := by
  rw [toParameters]
  split_ifs
  · rw [ink, Text.ink_append, ink_padEnd, ← Text.ink_append, ink]
  · rw [ink_append, ink_blank, List.append_nil]

theorem isMarked_toParameters {p : Page} (h : p.IsMarked l) : (p.toParameters l).IsMarked l := by
  rw [toParameters]
  split_ifs
  · exact h
  · exact h

end Page

namespace Command

variable {l : Layout} {atoms : List Text}

/-- **The page has the ink of the label and the command**, in their order. -/
theorem ink_page (label : Text) (c : Command) :
    (c.page l atoms label).ink = Text.ink (l.labelText label ++ c.content l) := by
  rw [page, Page.ink_foldl_addParameter, content, ← List.append_assoc,
    Text.ink_append _ (List.flatMap _ _)]
  split_ifs
  · rw [Page.ink_headed]
  · rw [Page.ink_toParameters, Page.ink_headed]

/-- All lines of the page but the last are marked. -/
theorem isMarked_page (label : Text) (c : Command) : (c.page l atoms label).IsMarked l := by
  rw [page]
  split_ifs
  · exact Page.isMarked_foldl_addParameter (Page.isMarked_headed l label c.name) _
  · exact Page.isMarked_foldl_addParameter
      (Page.isMarked_toParameters (Page.isMarked_headed l label c.name)) _

/-- **Formatting loses nothing and invents nothing**, for any command, label and layout: every line
but the last ends in the marker, and without the markers and white space the lines hold the label,
the command name and the parameters in order. -/
theorem exists_lines_format (l : Layout) (label : Option Text) (c : Command) :
    ∃ closed last, (c.format l label).lines = closed ++ [last] ∧
      (∀ line ∈ closed, ∃ t, line = t ++ [l.marker.char]) ∧
      Text.ink (closed.flatMap List.dropLast ++ last) =
        Text.ink (l.labelText (label.getD []) ++ c.content l) := by
  refine ⟨_, _, rfl, isMarked_page (label.getD []) c, ?_⟩
  rw [← ink_page, Page.ink, Text.ink_append, Text.ink_append, ink_trimEnd]

end Command

end ControlLanguage
