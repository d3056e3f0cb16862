import ControlLanguage.Proofs.Text.Trim
import ControlLanguage.Statement.Continuation

/-!
# Joining the lines of one statement

A statement whose lines all end in a marker but the last one is read back as **the concatenation of
what its lines speak**: a line without its marker and without the blanks that the marker costs. A
plus sign costs those at the start of the next line, a minus sign those before itself. Nothing is
taken from the next statement and nothing is left to it, so the lines of several statements are
joined one statement after the other.

The condition is on the whole text and not on the lines: the text must not begin a comment, and it
must not itself end in a marker.
-/

namespace ControlLanguage

open Text

namespace Marker

/-- What is kept of the text before the marker. -/
def kept : Marker → Text → Text
  | plus, t => t
  | minus, t => t.trimEnd

/-- What is kept of the line behind the marker. -/
def resumed : Marker → Text → Text
  | plus, line => line.trimStart
  | minus, line => line

variable (m : Marker)

theorem endsInk_char (t : Text) : EndsInk (t ++ [m.char]) :=
  ⟨t, m.char, rfl, by cases m <;> decide⟩

/-- What a marker keeps of a line it keeps. -/
theorem kept_kept (t : Text) : m.kept (m.kept t) = m.kept t := by
  cases m with
  | plus => rfl
  | minus =>
    rcases isWhite_or_endsInk_trimEnd t with h | h
    · rw [kept, kept, trimEnd_of_isWhite h]
      rfl
    · exact trimEnd_of_endsInk h

/-- Behind a text that is kept, every text is kept as it is by itself. -/
theorem kept_append {t : Text} (ht : m.kept t = t) (u : Text) :
    m.kept (t ++ u) = t ++ m.kept u := by
  cases m with
  | plus => rfl
  | minus =>
    by_cases hu : IsWhite u
    · rw [kept, kept, trimEnd_append_of_isWhite t hu, trimEnd_of_isWhite hu, List.append_nil]
      exact ht
    · exact trimEnd_append t hu

/-- The markers differ only in the white space at the seam. -/
theorem trimStart_resumed (line : Text) : (m.resumed line).trimStart = line.trimStart := by
  cases m with
  | plus => exact List.dropWhile_idempotent _ line
  | minus => rfl

theorem trim_resumed (line : Text) : (m.resumed line).trim = line.trim := by
  rw [trim, trimStart_resumed, trim]

theorem endsInk_resumed {line : Text} (h : EndsInk line) : EndsInk (m.resumed line) := by
  cases m with
  | plus => exact h.trimStart
  | minus => exact h

/-- The white space at the start of a line, and what is kept of it. -/
theorem exists_append_resumed (line : Text) : ∃ w, IsWhite w ∧ line = w ++ m.resumed line := by
  cases m with
  | plus => exact exists_append_trimStart line
  | minus => exact ⟨[], isWhite_nil, rfl⟩

end Marker

namespace Statement

variable {m : Marker}

/-- A line that goes on after a marker. -/
def GoesOn (m : Marker) (line : Text) : Prop :=
  ∃ body, line = body ++ [m.char]

/-- What a line that goes on adds to its statement. -/
def spoken (m : Marker) (line : Text) : Text :=
  m.kept (m.resumed line).dropLast

/-- The text ends in ink that is not a marker. -/
def IsFinal (t : Text) : Prop :=
  ∃ u c, t = u ++ [c] ∧ isWhiteSpace c = false ∧ c ≠ '+' ∧ c ≠ '-'

theorem IsFinal.endsInk {t : Text} (h : IsFinal t) : EndsInk t := by
  obtain ⟨u, c, rfl, hc, -⟩ := h
  exact ⟨u, c, rfl, hc⟩

/-- What stands in front of a final line does not matter. -/
theorem IsFinal.append {t : Text} (u : Text) (h : IsFinal t) : IsFinal (u ++ t) := by
  obtain ⟨v, c, rfl, hc⟩ := h
  exact ⟨u ++ v, c, by rw [List.append_assoc], hc⟩

/-- The end of a text is that of its last part. -/
theorem IsFinal.of_append {s t : Text} (h : IsFinal (s ++ t)) (ht : t ≠ []) : IsFinal t := by
  obtain ⟨u, c, hu, hc⟩ := h
  obtain ⟨v, d, rfl⟩ := (List.eq_nil_or_concat' t).resolve_left ht
  rw [← List.append_assoc] at hu
  obtain rfl : d = c := by simpa using (List.append_inj' hu rfl).2
  exact ⟨v, d, rfl, hc⟩

theorem IsFinal.trimStart {t : Text} (h : IsFinal t) : IsFinal t.trimStart := by
  obtain ⟨u, c, rfl, hc, hmarker⟩ := h
  exact ⟨Text.trimStart u, c, trimStart_append_of_beginsInk u ⟨c, [], rfl, hc⟩, hc, hmarker⟩

/-- A line that is final without its indentation is final with it. -/
theorem IsFinal.of_resumed {line : Text} (h : IsFinal (m.resumed line)) : IsFinal line := by
  obtain ⟨w, -, hline⟩ := m.exists_append_resumed line
  rw [hline]
  exact h.append w

theorem GoesOn.endsInk {line : Text} (h : GoesOn m line) : EndsInk line := by
  obtain ⟨body, rfl⟩ := h
  exact m.endsInk_char body

/-- The marker is the last character, also of a line of blanks. -/
theorem GoesOn.trimStart_eq {line : Text} (h : GoesOn m line) :
    line.trimStart = trimStart line.dropLast ++ [m.char] := by
  obtain ⟨body, rfl⟩ := h
  rw [trimStart_append_of_beginsInk body ⟨m.char, [], rfl, by cases m <;> decide⟩,
    List.dropLast_concat]

theorem GoesOn.resumed_eq {line : Text} (h : GoesOn m line) :
    m.resumed line = (m.resumed line).dropLast ++ [m.char] := by
  cases m with
  | plus =>
    show line.trimStart = line.trimStart.dropLast ++ _
    rw [h.trimStart_eq, List.dropLast_concat]
  | minus =>
    obtain ⟨body, rfl⟩ := h
    rw [Marker.resumed, List.dropLast_concat]

/-- The text of a first line is what it says, without its indentation. -/
theorem GoesOn.kept_trimStart {line : Text} (h : GoesOn m line) :
    m.kept (trimStart line.dropLast) = (spoken m line).trimStart := by
  cases m with
  | plus =>
    show _ = trimStart (List.dropLast line.trimStart)
    rw [h.trimStart_eq, List.dropLast_concat]
    exact (List.dropWhile_idempotent _ line.dropLast).symm
  | minus => exact (trimStart_trimEnd line.dropLast).symm

/-! ### One line -/

/-- A comment is known by its beginning. -/
theorem isComment_append {t : Text} (h : isComment t = true) (u : Text) :
    isComment (t ++ u) = true := by
  rw [isComment, List.isPrefixOf_iff_prefix] at h ⊢
  exact h.trans (List.prefix_append t u)

/-- The marker is not part of the sign of a comment. -/
theorem isComment_concat_char (m : Marker) (t : Text) :
    isComment (t ++ [m.char]) = isComment t := by
  cases m <;> rcases t with _ | ⟨c, _ | ⟨d, t⟩⟩ <;> simp [isComment, List.isPrefixOf, Marker.char]

/-- A marker leaves the sign of a comment. -/
theorem isComment_kept (m : Marker) {t : Text} (h : isComment t = true) :
    isComment (m.kept t) = true := by
  obtain ⟨u, rfl⟩ := List.isPrefixOf_iff_prefix.1 h
  have hkept : m.kept ['/', '*'] = ['/', '*'] := by cases m <;> decide
  rw [m.kept_append hkept]
  exact isComment_append rfl _

/-- A text with a marker at its end waits for more. -/
theorem pending?_concat_char (m : Marker) (t : Text) :
    pending? (t ++ [m.char]) = some ⟨m.kept t, m⟩ := by
  rw [pending?, trimEnd_of_endsInk (m.endsInk_char t)]
  cases m <;> simp [Marker.char, Marker.kept]

/-- Any other text waits for nothing. -/
theorem pending?_of_isFinal {t : Text} (h : IsFinal t) : pending? t = none := by
  obtain ⟨u, c, rfl, hc, hplus, hminus⟩ := h
  have htrim : trimEnd (u ++ [c]) = u ++ [c] := trimEnd_of_endsInk ⟨u, c, rfl, hc⟩
  simp [pending?, htrim, hplus, hminus]

theorem settled_concat_char (m : Marker) (t : Text) :
    settled (t ++ [m.char]) = ([], some ⟨m.kept t, m⟩) := by
  rw [settled, pending?_concat_char]

theorem settled_of_isFinal {t : Text} (h : IsFinal t) : settled t = ([t.trim], none) := by
  rw [settled, pending?_of_isFinal h]

/-- The end of the line is not part of a line that ends in ink. -/
theorem dropLineEnd_of_endsInk {line : Text} (h : EndsInk line) :
    (line.dropEndWhile fun c ↦ c = '\r' || c = '\n') = line := by
  obtain ⟨u, c, rfl, hc⟩ := h
  have hne : ¬ (c = '\r' ∨ c = '\n') := by
    rintro (rfl | rfl) <;> exact absurd hc (by decide)
  exact List.rdropWhile_concat_neg _ _ _ (by simpa using hne)

/-- A line that ends in ink is added from where it is resumed. -/
theorem extended_of_endsInk {line : Text} (h : EndsInk line) (t : Text) :
    Pending.extended ⟨t, m⟩ line = t ++ m.resumed line := by
  cases m with
  | plus => rfl
  | minus => exact congrArg (t ++ ·) (trimEnd_of_endsInk h)

/-- **A line that goes on begins an entry.** -/
theorem afterLine_none_of_goesOn {line : Text} (h : GoesOn m line)
    (hcomment : isComment (spoken m line).trimStart = false) :
    afterLine none line = ([], some ⟨(spoken m line).trimStart, m⟩) := by
  have htrim : line.trim = trimStart line.dropLast ++ [m.char] := by
    rw [trim, h.trimStart_eq, trimEnd_of_endsInk (m.endsInk_char _)]
  have hempty : (trimStart line.dropLast ++ [m.char]).isEmpty = false := by simp
  have hline : isComment (trimStart line.dropLast) = false := by
    by_contra hline
    rw [← h.kept_trimStart, isComment_kept m (Bool.not_eq_false _ ▸ hline)] at hcomment
    exact Bool.noConfusion hcomment
  rw [afterLine, dropLineEnd_of_endsInk h.endsInk]
  simp only [htrim, hempty, isComment_concat_char, hline, Bool.false_eq_true, if_false]
  rw [settled_concat_char, h.kept_trimStart]

/-- Or the entry goes on with what the line says. -/
theorem afterLine_some_of_goesOn {line t : Text} (ht : m.kept t = t) (h : GoesOn m line) :
    afterLine (some ⟨t, m⟩) line = ([], some ⟨t ++ spoken m line, m⟩) := by
  rw [afterLine, dropLineEnd_of_endsInk h.endsInk]
  show settled (Pending.extended ⟨t, m⟩ line) = _
  rw [extended_of_endsInk h.endsInk, h.resumed_eq, ← List.append_assoc, settled_concat_char,
    m.kept_append ht, spoken]

/-- A final line is an entry. -/
theorem afterLine_none_of_isFinal {line : Text} (h : IsFinal line)
    (hcomment : isComment line.trimStart = false) : afterLine none line = ([line.trim], none) := by
  have htrim : line.trim = line.trimStart := trimEnd_of_endsInk h.trimStart.endsInk
  have hempty : line.trimStart.isEmpty = false := by simpa using h.trimStart.endsInk.ne_nil
  rw [afterLine, dropLineEnd_of_endsInk h.endsInk]
  simp only [htrim, hempty, hcomment, Bool.false_eq_true, if_false]
  rw [settled_of_isFinal h.trimStart, ← htrim, trim_trim]

/-- **A final line ends the entry that was waiting for it.** -/
theorem afterLine_some_of_isFinal {line : Text} (t : Text) (hend : EndsInk line)
    (h : IsFinal (t ++ m.resumed line)) :
    afterLine (some ⟨t, m⟩) line = ([(t ++ m.resumed line).trim], none) := by
  rw [afterLine, dropLineEnd_of_endsInk hend]
  show settled (Pending.extended ⟨t, m⟩ line) = _
  rw [extended_of_endsInk hend, settled_of_isFinal h]

/-! ### All lines -/

theorem joinedAfter_cons (before : Option Pending) (line : Text) (lines : List Text) :
    joinedAfter before (line :: lines) =
      (afterLine before line).1 ++ joinedAfter (afterLine before line).2 lines :=
  rfl

/-- The lines of an entry are joined, whatever comes next. The induction is on the lines that go on,
with the text joined so far. -/
theorem joinedAfter_some {closed : List Text} {last : Text} (rest : List Text)
    (hclosed : ∀ line ∈ closed, GoesOn m line) (hend : EndsInk last) {t : Text}
    (ht : m.kept t = t)
    (hfinal : IsFinal (t ++ (closed.flatMap (spoken m) ++ m.resumed last))) :
    joinedAfter (some ⟨t, m⟩) (closed ++ last :: rest) =
      (t ++ (closed.flatMap (spoken m) ++ m.resumed last)).trim :: joinedAfter none rest := by
  induction closed generalizing t with
  | nil =>
    rw [List.nil_append, joinedAfter_cons, afterLine_some_of_isFinal t hend hfinal]
    rfl
  | cons line closed ih =>
    have hline : GoesOn m line := hclosed line List.mem_cons_self
    have hassoc : t ++ ((line :: closed).flatMap (spoken m) ++ m.resumed last) =
        (t ++ spoken m line) ++ (closed.flatMap (spoken m) ++ m.resumed last) := by
      simp only [List.flatMap_cons, List.append_assoc]
    have hkept : m.kept (t ++ spoken m line) = t ++ spoken m line := by
      rw [m.kept_append ht, spoken, m.kept_kept]
    rw [hassoc] at hfinal ⊢
    rw [List.cons_append, joinedAfter_cons, afterLine_some_of_goesOn ht hline]
    exact ih (fun line h ↦ hclosed line (List.mem_cons_of_mem _ h)) hkept hfinal

/-- **The lines of one statement are joined to what they speak**, and nothing carries over to the
lines behind them. -/
theorem joinedAfter_none {closed : List Text} {last : Text} (rest : List Text)
    (hclosed : ∀ line ∈ closed, GoesOn m line) (hend : EndsInk last)
    (hfinal : IsFinal (closed.flatMap (spoken m) ++ m.resumed last))
    (hcomment : isComment (trimStart (closed.flatMap (spoken m) ++ m.resumed last)) = false) :
    joinedAfter none (closed ++ last :: rest) =
      trim (closed.flatMap (spoken m) ++ m.resumed last) :: joinedAfter none rest := by
  cases closed with
  | nil =>
    have hstart : isComment last.trimStart = false := m.trimStart_resumed last ▸ hcomment
    have hjoined := afterLine_none_of_isFinal (IsFinal.of_resumed hfinal) hstart
    rw [List.nil_append, joinedAfter_cons, hjoined]
    exact congrArg (· :: joinedAfter none rest) (m.trim_resumed last).symm
  | cons line closed =>
    have hline : GoesOn m line := hclosed line List.mem_cons_self
    have hassoc : (line :: closed).flatMap (spoken m) ++ m.resumed last =
        spoken m line ++ (closed.flatMap (spoken m) ++ m.resumed last) := by
      rw [List.flatMap_cons, List.append_assoc]
    have hsaid : EndsInk (closed.flatMap (spoken m) ++ m.resumed last) :=
      (m.endsInk_resumed hend).append _
    rw [hassoc] at hfinal hcomment ⊢
    have hfirst : isComment (spoken m line).trimStart = false := by
      by_contra h
      have hink : ¬ IsWhite (spoken m line) := by
        intro hwhite
        rw [trimStart_of_isWhite hwhite] at h
        exact h rfl
      rw [trimStart_append hink, isComment_append (Bool.not_eq_false _ ▸ h)] at hcomment
      exact Bool.noConfusion hcomment
    have hkept : m.kept (spoken m line).trimStart = (spoken m line).trimStart := by
      rw [← hline.kept_trimStart, m.kept_kept]
    rw [List.cons_append, joinedAfter_cons, afterLine_none_of_goesOn hline hfirst,
      ← trim_trimStart_append]
    exact joinedAfter_some rest (fun line h ↦ hclosed line (List.mem_cons_of_mem _ h)) hend hkept
      ((hfinal.of_append hsaid.ne_nil).append _)

/-- A comment is an entry of its own. -/
theorem joinedAfter_comment {line : Text} (rest : List Text) (h : isComment line = true)
    (htrim : line.trim = line) :
    joinedAfter none (line :: rest) = line :: joinedAfter none rest := by
  have hne : line ≠ [] := by
    rintro rfl
    exact absurd h (by decide)
  have hend : EndsInk line := by
    rcases trim_eq_nil_or_ink line with h' | ⟨-, h'⟩
    · exact absurd (htrim.symm.trans h') hne
    · exact htrim ▸ h'
  have hempty : line.isEmpty = false := by simpa using hne
  rw [joinedAfter_cons, afterLine, dropLineEnd_of_endsInk hend]
  simp only [htrim, hempty, h, Bool.false_eq_true, if_false, if_true]
  rfl

/-! ### Entries -/

/-- No entry has white space around it. -/
theorem trim_eq_of_mem_settled {t entry : Text} (h : entry ∈ (settled t).1) :
    entry.trim = entry := by
  rw [settled] at h
  cases hp : pending? t with
  | some p => simp [hp] at h
  | none =>
    obtain rfl : entry = t.trim := by simpa [hp] using h
    exact trim_trim t

theorem trim_eq_of_mem_afterLine {before : Option Pending} {line entry : Text}
    (h : entry ∈ (afterLine before line).1) : entry.trim = entry := by
  cases before with
  | some p => exact trim_eq_of_mem_settled h
  | none =>
    simp only [afterLine] at h
    split_ifs at h
    · simp at h
    · rw [List.mem_singleton.1 h, trim_trim]
    · exact trim_eq_of_mem_settled h

theorem trim_eq_of_mem_joinedAfter {before : Option Pending} {lines : List Text} {entry : Text}
    (h : entry ∈ joinedAfter before lines) : entry.trim = entry := by
  induction lines generalizing before with
  | nil =>
    cases before with
    | none => simp [joinedAfter] at h
    | some p =>
      simp only [joinedAfter, Option.elim, leftOver] at h
      split_ifs at h
      · simp at h
      · rw [List.mem_singleton.1 h, trim_trim]
  | cons line lines ih =>
    rw [joinedAfter_cons] at h
    rcases List.mem_append.1 h with h | h
    · exact trim_eq_of_mem_afterLine h
    · exact ih h

/-- No entry has white space around it. -/
theorem trim_eq_of_mem_joinLines {lines : List Text} {entry : Text} (h : entry ∈ joinLines lines) :
    entry.trim = entry :=
  trim_eq_of_mem_joinedAfter h

end Statement

end ControlLanguage
