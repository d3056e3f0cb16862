import ControlLanguage.Proofs.Statement.Joining

/-!
# Groups of source lines

Source text is a sequence of groups: a comment, a blank line, or the lines of a statement, all of
which end in a marker but the last one. Joining looks at one line after another and at the text
collected so far; **what it makes of a group is said here from the lines of the group alone**
(`LineGroup.entries`). The marker of each line is its own, and white space behind it does not
matter.

A complete group leaves nothing pending, so the groups do not influence each other nor the lines
behind them (`joinedAfter_lines_append`). The statement `spliced` begins with the blanks of its
first line, which joining drops at once; this makes no difference to the trimmed text
(`trim_splicedBehind_append`).
-/

namespace ControlLanguage

open Text

namespace Marker

/-- White space in front of a text stays in front of what is kept, if it stays at all. -/
theorem exists_kept_white_append (m : Marker) {w : Text} (hw : IsWhite w) (t : Text) :
    ∃ w', IsWhite w' ∧ m.kept (w ++ t) = w' ++ m.kept t := by
  cases m with
  | plus => exact ⟨w, hw, rfl⟩
  | minus =>
    by_cases ht : IsWhite t
    · refine ⟨[], isWhite_nil, ?_⟩
      rw [kept, kept, trimEnd_of_isWhite (isWhite_append.2 ⟨hw, ht⟩),
        trimEnd_of_isWhite ht, List.append_nil]
    · exact ⟨w, hw, trimEnd_append w ht⟩

end Marker

namespace Statement

/-- A line that ends in a marker, white space behind it apart. -/
structure MarkedLine where
  text : Text
  marker : Marker
  goesOn : GoesOn marker text.trimEnd

/-- The text in front of the marker. -/
def MarkedLine.body (line : MarkedLine) : Text :=
  line.text.trimEnd.dropLast

/-- The text of a statement whose lines continue a text that was followed by a marker: the marker
is removed and the next line put in its place, again and again. White space in front of a marker is
that at the end of all the text so far, not of its line alone. -/
def splicedBehind (text : Text) (m : Marker) : List MarkedLine → Text → Text
  | [], last => m.kept text ++ m.resumed last
  | line :: marked, last =>
    splicedBehind (m.kept text ++ m.resumed line.body) line.marker marked last

/-- The text of the marked lines of a statement and its last line. -/
def spliced : List MarkedLine → Text → Text
  | [], last => last
  | line :: marked, last => splicedBehind line.body line.marker marked last

/-- The first line of a statement. -/
def firstLine : List MarkedLine → Text → Text
  | [], last => last
  | line :: _, _ => line.text

/-- Lines that belong together. -/
inductive LineGroup where
  | comment (line : Text) (h : isComment line.trim = true)
  | blank (line : Text) (h : IsWhite line)
  /-- The last line of a statement ends in ink that is not a marker, and its first line does not
  begin a comment. -/
  | statement (marked : List MarkedLine) (last : Text) (hlast : IsFinal last.trimEnd)
      (hfirst : isComment (firstLine marked last).trim = false)

namespace LineGroup

/-- The lines of a group. -/
def lines : LineGroup → List Text
  | comment line _ => [line]
  | blank line _ => [line]
  | statement marked last _ _ => marked.map (·.text) ++ [last]

/-- What a group stands for. -/
def entries : LineGroup → List Text
  | comment line _ => [line.trim]
  | blank _ _ => []
  | statement marked last _ _ => [(spliced marked last).trim]

end LineGroup

/-! ### One line -/

theorem MarkedLine.trimEnd_text (line : MarkedLine) :
    line.text.trimEnd = line.body ++ [line.marker.char] := by
  obtain ⟨t, ht⟩ := line.goesOn
  rw [MarkedLine.body, ht, List.dropLast_concat]

/-- What ends a line is white space. -/
theorem exists_dropLineEnd_append (line : Text) :
    ∃ w, IsWhite w ∧ line = (line.dropEndWhile fun c ↦ c = '\r' || c = '\n') ++ w := by
  refine ⟨line.rtakeWhile fun c ↦ c = '\r' || c = '\n', fun c hc ↦ ?_, ?_⟩
  · have hend : c = '\r' ∨ c = '\n' := by simpa using List.mem_rtakeWhile_imp hc
    rcases hend with rfl | rfl <;> decide
  · rw [dropEndWhile, List.rtakeWhile, ← List.reverse_append, List.takeWhile_append_dropWhile,
      List.reverse_reverse]

theorem trimEnd_dropLineEnd (line : Text) :
    trimEnd (line.dropEndWhile fun c ↦ c = '\r' || c = '\n') = line.trimEnd := by
  obtain ⟨w, hw, hline⟩ := exists_dropLineEnd_append line
  conv_rhs => rw [hline, trimEnd_append_of_isWhite _ hw]

theorem trim_dropLineEnd (line : Text) :
    trim (line.dropEndWhile fun c ↦ c = '\r' || c = '\n') = line.trim := by
  rw [← trimStart_trimEnd, trimEnd_dropLineEnd, trimStart_trimEnd]

/-- Where nothing is pending, the white space around a line does not matter. -/
theorem afterLine_none (line : Text) : afterLine none line =
    if line.trim.isEmpty then ([], none)
    else if isComment line.trim then ([line.trim], none)
    else settled line.trim := by
  rw [afterLine, trim_dropLineEnd]

section Settled

variable {m : Marker} {t u : Text}

/-- White space behind the text does not decide whether it goes on. -/
theorem pending?_trimEnd (h : EndsInk t.trimEnd) : pending? t.trimEnd = pending? t := by
  rw [pending?, pending?, trimEnd_of_endsInk h]

theorem settled_of_trimEnd_eq (h : t.trimEnd = u ++ [m.char]) :
    settled t = ([], some ⟨m.kept u, m⟩) := by
  have hend : EndsInk t.trimEnd := h ▸ m.endsInk_char u
  rw [settled, ← pending?_trimEnd hend, h, pending?_concat_char]

theorem settled_of_isFinal_trimEnd (h : IsFinal t.trimEnd) : settled t = ([t.trim], none) := by
  rw [settled, ← pending?_trimEnd h.endsInk, pending?_of_isFinal h]

/-- A line that is not blank is added up to its last ink. -/
theorem trimEnd_append_resumed (m : Marker) (t : Text) {line : Text} (h : EndsInk line.trimEnd) :
    (t ++ m.resumed line).trimEnd = t ++ m.resumed line.trimEnd := by
  have hline : ¬ IsWhite line := fun hwhite ↦ h.ne_nil (trimEnd_of_isWhite hwhite)
  cases m with
  | plus =>
    have hink := (isWhite_or_beginsInk_trimStart line).resolve_left hline
    rw [Marker.resumed, Marker.resumed, trimEnd_append t hink.not_isWhite, trimStart_trimEnd]
    rfl
  | minus => exact trimEnd_append t hline

theorem trimEnd_extended (m : Marker) (t : Text) {line : Text} (h : EndsInk line.trimEnd) :
    (Pending.extended ⟨t, m⟩ line).trimEnd = t ++ m.resumed line.trimEnd := by
  cases m with
  | plus => exact trimEnd_append_resumed .plus t h
  | minus => exact trimEnd_of_endsInk (h.append t)

end Settled

/-- **A marked line is added to the pending text and its own marker is removed.** -/
theorem afterLine_some_marked (m : Marker) (t : Text) (line : MarkedLine) :
    afterLine (some ⟨t, m⟩) line.text =
      ([], some ⟨line.marker.kept (t ++ m.resumed line.body), line.marker⟩) := by
  have hend : EndsInk (trimEnd (line.text.dropEndWhile fun c ↦ c = '\r' || c = '\n')) := by
    rw [trimEnd_dropLineEnd, line.trimEnd_text]
    exact line.marker.endsInk_char _
  have hresumed : m.resumed (line.body ++ [line.marker.char]) =
      m.resumed line.body ++ [line.marker.char] := by
    cases m with
    | plus =>
      refine trimStart_append_of_beginsInk _ ⟨line.marker.char, [], rfl, ?_⟩
      cases line.marker <;> decide
    | minus => rfl
  refine settled_of_trimEnd_eq ?_
  rw [trimEnd_extended m t hend, trimEnd_dropLineEnd, line.trimEnd_text, hresumed,
    List.append_assoc]

/-- The last line completes the statement. -/
theorem afterLine_some_last (m : Marker) (t : Text) {last : Text} (h : IsFinal last.trimEnd) :
    afterLine (some ⟨t, m⟩) last = ([(t ++ m.resumed last).trim], none) := by
  have hend : EndsInk (trimEnd (last.dropEndWhile fun c ↦ c = '\r' || c = '\n')) :=
    trimEnd_dropLineEnd last ▸ h.endsInk
  have hresumed : IsFinal (m.resumed last.trimEnd) := by
    cases m with
    | plus => exact h.trimStart
    | minus => exact h
  have hextended := trimEnd_extended m t hend
  rw [trimEnd_dropLineEnd] at hextended
  have hfinal := settled_of_isFinal_trimEnd (hextended ▸ hresumed.append t)
  rw [← trimStart_trimEnd, hextended, ← trimEnd_append_resumed m t h.endsInk, trimStart_trimEnd]
    at hfinal
  exact hfinal

/-! ### The lines of a group -/

/-- **The lines of a statement, from the first marker on.** -/
theorem joinedAfter_some_marked (m : Marker) (t : Text) (marked : List MarkedLine) {last : Text}
    (hlast : IsFinal last.trimEnd) (rest : List Text) :
    joinedAfter (some ⟨m.kept t, m⟩) (marked.map (·.text) ++ last :: rest) =
      trim (splicedBehind t m marked last) :: joinedAfter none rest := by
  induction marked generalizing m t with
  | nil =>
    rw [List.map_nil, List.nil_append, joinedAfter_cons, afterLine_some_last m _ hlast]
    rfl
  | cons line marked ih =>
    rw [List.map_cons, List.cons_append, joinedAfter_cons, afterLine_some_marked]
    exact ih line.marker (m.kept t ++ m.resumed line.body)

/-- White space in front of a statement does not change its trimmed text, whatever the markers. -/
theorem trim_splicedBehind_append {w : Text} (hw : IsWhite w) (t : Text) (m : Marker)
    (marked : List MarkedLine) (last : Text) :
    trim (splicedBehind (w ++ t) m marked last) = trim (splicedBehind t m marked last) := by
  obtain ⟨w', hw', hkept⟩ := m.exists_kept_white_append hw t
  induction marked generalizing w w' t m with
  | nil =>
    rw [splicedBehind, splicedBehind, hkept, List.append_assoc, trim_append_of_isWhite hw']
  | cons line marked ih =>
    obtain ⟨w'', hw'', hkept'⟩ := line.marker.exists_kept_white_append hw'
      (m.kept t ++ m.resumed line.body)
    rw [splicedBehind, splicedBehind, hkept, List.append_assoc]
    exact ih hw' _ _ w'' hw'' hkept'

/-- A statement on one line is final. -/
theorem joinedAfter_last {last : Text} (hlast : IsFinal last.trimEnd)
    (hcomment : isComment last.trim = false) (rest : List Text) :
    joinedAfter none (last :: rest) = last.trim :: joinedAfter none rest := by
  have htrim : IsFinal last.trim := trimStart_trimEnd last ▸ hlast.trimStart
  have hempty : last.trim.isEmpty = false := by simpa using htrim.endsInk.ne_nil
  rw [joinedAfter_cons, afterLine_none, hempty, hcomment]
  show (settled last.trim).1 ++ joinedAfter (settled last.trim).2 rest = _
  rw [settled_of_isFinal htrim, trim_trim]
  rfl

/-- A first line with a marker begins a statement, without the white space in front. -/
theorem afterLine_none_marked (line : MarkedLine) (hcomment : isComment line.text.trim = false) :
    afterLine none line.text =
      ([], some ⟨line.marker.kept (trimStart line.body), line.marker⟩) := by
  have htrim : line.text.trim = trimStart line.body ++ [line.marker.char] := by
    rw [← trimStart_trimEnd, line.trimEnd_text]
    refine trimStart_append_of_beginsInk _ ⟨line.marker.char, [], rfl, ?_⟩
    cases line.marker <;> decide
  have hempty : line.text.trim.isEmpty = false := by simp [htrim]
  rw [afterLine_none, hempty, hcomment]
  show settled line.text.trim = _
  rw [htrim, settled_concat_char]

/-- **A group is joined to its entries**, whatever lines are behind it. -/
theorem joinedAfter_lines_append (g : LineGroup) (rest : List Text) :
    joinedAfter none (g.lines ++ rest) = g.entries ++ joinedAfter none rest := by
  cases g with
  | comment line h =>
    have hempty : line.trim.isEmpty = false := by
      refine Bool.eq_false_iff.2 fun hnil ↦ ?_
      rw [List.isEmpty_iff.1 hnil] at h
      exact absurd h (by decide)
    rw [LineGroup.lines, List.singleton_append, joinedAfter_cons, afterLine_none, hempty, h]
    rfl
  | blank line h =>
    rw [LineGroup.lines, List.singleton_append, joinedAfter_cons, afterLine_none, trim_of_isWhite h]
    rfl
  | statement marked last hlast hfirst =>
    cases marked with
    | nil => exact joinedAfter_last hlast hfirst rest
    | cons line marked =>
      obtain ⟨w, hw, hbody⟩ := exists_append_trimStart line.body
      rw [LineGroup.lines, List.append_assoc, List.singleton_append, List.map_cons,
        List.cons_append, joinedAfter_cons, afterLine_none_marked line hfirst]
      show joinedAfter _ _ = trim (splicedBehind line.body line.marker marked last) :: _
      rw [hbody, trim_splicedBehind_append hw, ← hbody]
      exact joinedAfter_some_marked line.marker _ marked hlast rest

theorem joinLines_lines_append (groups : List LineGroup) (rest : List Text) :
    joinLines (groups.flatMap LineGroup.lines ++ rest) =
      groups.flatMap LineGroup.entries ++ joinLines rest := by
  induction groups with
  | nil => rfl
  | cons g groups ih =>
    rw [List.flatMap_cons, List.flatMap_cons, List.append_assoc, List.append_assoc, ← ih]
    exact joinedAfter_lines_append g _

/-- **Joining is done group by group.** The lines of complete groups are joined to what each group
stands for, and lines behind them are joined as if they stood alone. -/
theorem joinLines_groups (groups : List LineGroup) :
    joinLines (groups.flatMap LineGroup.lines) = groups.flatMap LineGroup.entries ∧
      ∀ rest : List Text, joinLines (groups.flatMap LineGroup.lines ++ rest) =
        joinLines (groups.flatMap LineGroup.lines) ++ joinLines rest := by
  have hall : joinLines (groups.flatMap LineGroup.lines) = groups.flatMap LineGroup.entries := by
    simpa [joinLines, joinedAfter] using joinLines_lines_append groups []
  refine ⟨hall, fun rest ↦ ?_⟩
  rw [hall, joinLines_lines_append]

/-- A plus sign in front of the marker stays, a line with nothing but a minus sign drops the blanks
that the marker before it kept, and the sign of a comment within a statement is text. -/
example : ∃ groups : List LineGroup,
    groups.flatMap LineGroup.lines =
      ["  A ++ \r", "  B + ", "-", "  /* C- ", "   D)", "", " /* E +"].map String.toList ∧
    groups.flatMap LineGroup.entries = ["A +B  /* C   D)".toList, "/* E +".toList] := by
  refine ⟨[.statement
    [⟨"  A ++ \r".toList, .plus, "  A +".toList, by decide +kernel⟩,
      ⟨"  B + ".toList, .plus, "  B ".toList, by decide +kernel⟩,
      ⟨"-".toList, .minus, [], by decide +kernel⟩,
      ⟨"  /* C- ".toList, .minus, "  /* C".toList, by decide +kernel⟩]
    "   D)".toList ⟨"   D".toList, ')', by decide +kernel⟩ (by decide +kernel),
    .blank [] isWhite_nil, .comment " /* E +".toList (by decide +kernel)], rfl, ?_⟩
  decide +kernel

end Statement

end ControlLanguage
