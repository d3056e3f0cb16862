import ControlLanguage.Proofs.Format.Ink
import ControlLanguage.Proofs.Format.Wholeness
import ControlLanguage.Proofs.Text.LowerCase

/-!
# The first lines

What stands on the first lines of a statement before its parameters is fixed by the layout: the
label at its column, the command name at its own, and the gap in front of the first parameter. A
label that reaches the command column needs a line of its own, so **there are one or two lines with
a heading** (`Layout.headings`), and the page on which the parameters are put is known exactly
(`headed_eq`, `toParameters_eq`).

A parameter of a statement that was read is a single piece of text for the wrap loop, and this piece
ends with a closing parenthesis. So between two parameters the line always ends in ink.
-/

namespace ControlLanguage

open Text Token

namespace Layout

/-- The label at its column, and its colon. -/
def lead (l : Layout) (label : Text) : Text :=
  blanks (l.labelColumn - 1) ++ l.applyCase label ++ [':']

/-- The label leaves no room in front of the command column. -/
def NeedsLine (l : Layout) (label : Text) : Prop :=
  label ≠ [] ∧ l.commandColumn - 1 ≤ (l.lead label).length

instance (l : Layout) (label : Text) : Decidable (l.NeedsLine label) :=
  inferInstanceAs (Decidable (_ ∧ _))

/-- What stands in front of the command name on its line. -/
def indent (l : Layout) (label : Text) : Text :=
  if label = [] ∨ l.NeedsLine label then blanks (l.commandColumn - 1)
  else (l.lead label).padEnd (l.commandColumn - 1)

/-- The command name and what stands in front of it. -/
def heading (l : Layout) (label name : Text) : Text :=
  l.indent label ++ l.applyCase name

/-- The headings of the first lines. -/
def headings (l : Layout) (label name : Text) : List Text :=
  (if l.NeedsLine label then [l.lead label] else []) ++ [l.heading label name]

/-- The width of the gap between a heading and the first parameter. -/
def gap (l : Layout) (heading : Text) : Nat :=
  if heading.length < l.parameterColumn - 1 then l.parameterColumn - 1 - heading.length else 1

/-- **The command name starts at the command column.** -/
theorem length_indent (l : Layout) (label : Text) :
    (l.indent label).length = l.commandColumn - 1 := by
  rw [indent]
  split_ifs with h
  · exact List.length_replicate
  · obtain ⟨hlabel, hline⟩ := not_or.1 h
    have hlead : (l.lead label).length < l.commandColumn - 1 :=
      Nat.lt_of_not_le fun hle ↦ hline ⟨hlabel, hle⟩
    simp only [padEnd, List.length_append, blanks, List.length_replicate]
    omega

theorem endsInk_lead (l : Layout) (label : Text) : EndsInk (l.lead label) :=
  ⟨_, ':', rfl, by decide⟩

theorem endsInk_heading (l : Layout) (label : Text) {name : Text} (h : EndsInk name) :
    EndsInk (l.heading label name) :=
  (l.keywordCase.endsInk_apply h).append _

theorem gap_pos (l : Layout) (heading : Text) : 0 < l.gap heading := by
  rw [gap]
  split_ifs
  · omega
  · exact Nat.one_pos

/-- A line that is closed behind a label. -/
def labelLine (l : Layout) (label : Text) : Text :=
  l.lead label ++ [' ', l.marker.char]

end Layout

namespace Page

variable {l : Layout} {atoms : List Text}

/-- A closed line is the current one without the white space at its end, and the marker. -/
theorem closed_breakLine (l : Layout) (joined : Bool) (p : Page) :
    (p.breakLine l joined).closed =
      p.closed ++ [p.current.trimEnd ++ (blanks (if joined then 0 else 1) ++ [l.marker.char])] := by
  rw [breakLine, ← List.append_assoc p.current.trimEnd]

/-- The lines of a page that ends in ink. -/
theorem lines_of_endsInk {p : Page} (h : EndsInk p.current) :
    p.lines = p.closed ++ [p.current] := by
  rw [lines, trimEnd_of_endsInk h]

/-- **The page with the headings on it.** -/
theorem headed_eq (l : Layout) (label name : Text) : headed l label name =
    ⟨if l.NeedsLine label then [l.labelLine label] else [], l.heading label name, 0⟩ := by
  by_cases hlabel : label = []
  · have hline : ¬ l.NeedsLine label := fun h ↦ h.1 hlabel
    rw [if_neg hline, Layout.heading, Layout.indent, if_pos (Or.inl hlabel), headed,
      if_pos (List.isEmpty_iff.2 hlabel)]
    rfl
  -- the label is compared with the command column just as `NeedsLine` does
  have hempty : ¬ label.isEmpty = true := mt List.isEmpty_iff.1 hlabel
  by_cases hline : l.NeedsLine label
  · have hlead : (l.lead label).trimEnd = l.lead label := trimEnd_of_endsInk (l.endsInk_lead label)
    have hclosed : ((start (l.lead label)).breakLine l false).closed = [l.labelLine label] := by
      rw [closed_breakLine]
      show [(l.lead label).trimEnd ++ _] = _
      rw [hlead]
      rfl
    rw [if_pos hline, Layout.heading, Layout.indent, if_pos (Or.inr hline), ← hclosed]
    simp only [headed, if_neg hempty]
    exact if_pos hline.2
  · have hcolumn : ¬ l.commandColumn - 1 ≤ (l.lead label).length := fun h ↦ hline ⟨hlabel, h⟩
    rw [if_neg hline, Layout.heading, Layout.indent, if_neg (not_or.2 ⟨hlabel, hline⟩)]
    simp only [headed, if_neg hempty]
    exact if_neg hcolumn

/-- The first parameter comes behind the gap. -/
theorem toParameters_eq (l : Layout) (p : Page) :
    p.toParameters l = p.append (blanks (l.gap p.current)) := by
  rw [toParameters, Layout.gap]
  split_ifs
  · rw [padEnd]
    rfl
  · rfl

/-- A page whose line ends in ink has one blank in front of the next parameter. -/
theorem separator_of_endsInk {p : Page} (h : EndsInk p.current) : p.separator = [' '] := by
  obtain ⟨u, c, hcurrent, hc⟩ := h
  have hne : c ≠ ' ' := by
    rintro rfl
    exact absurd hc (by decide)
  rw [separator, hcurrent]
  simp [hne]

/-- Behind the gap there is no blank to add. -/
theorem separator_append_blanks (p : Page) {n : Nat} (hn : 0 < n) :
    (p.append (blanks n)).separator = [] := by
  obtain ⟨n, rfl⟩ := Nat.exists_eq_succ_of_ne_zero hn.ne'
  have hlast : (p.current ++ blanks (n + 1)).getLast? = some ' ' := by
    rw [blanks, List.replicate_succ', ← List.append_assoc, List.getLast?_concat]
  rw [separator, append, hlast]
  simp

end Page

/-! ### Parameters that were read -/

namespace Command

/-- There is no command in a value that was read. -/
theorem inCase_ofTokens (l : Layout) (ts : List Token) :
    (Value.ofTokens ts).inCase l = Value.ofTokens ts := by
  rcases ts with _ | ⟨t, _ | ⟨u, ts⟩⟩
  · rfl
  · rw [Value.ofTokens]
    split_ifs <;> rfl
  · rfl

theorem Capture.content_toParameter (l : Layout) (c : Capture) : c.toParameter.content l =
    l.applyCase c.keyword ++ '(' :: (Value.ofTokens c.tokens).text ++ [')'] := by
  rw [Parameter.content, Capture.toParameter, inCase_ofTokens]

/-- **A parameter that was read is one piece for the wrap loop.** -/
theorem Capture.addParameter_eq (l : Layout) (atoms : List Text) (p : Page) (c : Capture) :
    p.addParameter l atoms c.toParameter =
      Page.wrap l atoms Page.stepLimit p (p.separator ++ c.toParameter.content l) := by
  have hsegments : p.parameterSegments l c.toParameter = .single (c.toParameter.content l) := by
    rw [Page.parameterSegments, c.content_toParameter, Capture.toParameter, Value.segments_ofTokens]
    simp [Segments.single, Segments.prepend, Segments.append]
  rw [Page.addParameter, hsegments]
  rfl

end Command

theorem Parameter.endsInk_content (l : Layout) (q : Parameter) : EndsInk (q.content l) :=
  ⟨_, ')', rfl, by decide⟩

namespace Statement

theorem parameters_toCommand (s : Text) :
    (toCommand s).parameters = (captures s).map Command.Capture.toParameter :=
  rfl

/-- The name in the case of a layout ends in ink. -/
theorem IsNamed.endsInk_heading {s : Text} (h : IsNamed s) (l : Layout) (label : Text) :
    EndsInk (l.heading label (nameIn s)) :=
  l.endsInk_heading label h.ink_nameIn.2

end Statement

end ControlLanguage
