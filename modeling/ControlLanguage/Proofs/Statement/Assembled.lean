import ControlLanguage.Parameter.Assembly
import ControlLanguage.Parameter.Interpretation
import ControlLanguage.Proofs.Format.ReadBack
import ControlLanguage.Proofs.Statement.Arguments

/-!
# Reading what was assembled

An assembled statement is a command name with parameters behind it, each of them a blank, a keyword
and a value in parentheses. **If the values are closed the statement is read back as these keywords
and these values** (`entries_texts`), as is any statement whose parts are separated by blanks; its
name is not taken for a label. Spans are read back as they stand (`entries_assembled_of_isSpan`).
-/

namespace ControlLanguage

open Text Shape Token ValueRules

namespace Command

/-- A keyword and the source text of its value. -/
def Capture.entry (c : Capture) : Text × Text :=
  (c.keyword, c.toParameter.value.text)

/-- The keywords of a command with the source texts of their values. -/
def entries (t : Text) : List (Text × Text) :=
  (captures (tokenize t)).map Capture.entry

theorem Capture.entry_unplaced (c : Capture) : c.unplaced.entry = c.entry := by
  obtain ⟨keyword, ts, isClosed⟩ := c
  rcases ts with _ | ⟨t, _ | ⟨u, ts⟩⟩
  · rfl
  · show (keyword, (Value.ofTokens [t.unplaced]).text) = (keyword, (Value.ofTokens [t]).text)
    rw [Value.ofTokens, Value.ofTokens, show t.unplaced.isScalar = t.isScalar from rfl]
    split_ifs <;> rfl
  · show (keyword, Token.spelling _) = (keyword, Token.spelling (t :: u :: ts))
    exact congrArg _ (spelling_congr (alike_unplaced (t :: u :: ts)).2)

end Command

namespace Statement

/-- The keywords of a statement with the source texts of their values. -/
def entries (t : Text) : List (Text × Text) :=
  (captures t).map Command.Capture.entry

/-- Keywords with their values in parentheses, as they stand behind a command name. -/
def spelled (qs : List (Text × Text)) : Text :=
  qs.flatMap fun q ↦ ' ' :: q.1 ++ parenthesised q.2

theorem spelled_cons (q : Text × Text) (qs : List (Text × Text)) :
    spelled (q :: qs) = (' ' :: q.1 ++ parenthesised q.2) ++ spelled qs :=
  List.flatMap_cons

theorem texts_map_ofEntry (qs : List (Text × Text)) :
    Argument.texts (qs.map Argument.ofEntry) = spelled qs :=
  List.flatMap_map ..

theorem isSeparate_ofEntry {q : Text × Text} (hkeyword : q.1.isIdentifier = true) :
    (Argument.ofEntry q).IsSeparate :=
  ⟨List.cons_ne_nil _ _, List.forall_mem_singleton.2 rfl, hkeyword⟩

theorem isReadable_ofEntry {q : Text × Text} (hkeyword : q.1.isIdentifier = true)
    (hvalue : IsClosed q.2) : (Argument.ofEntry q).IsReadable :=
  ⟨isSeparate_ofEntry hkeyword, hvalue⟩

theorem forall_isReadable_ofEntry {qs : List (Text × Text)}
    (hqs : ∀ q ∈ qs, q.1.isIdentifier = true ∧ IsClosed q.2) :
    ∀ a ∈ qs.map Argument.ofEntry, a.IsReadable :=
  List.forall_mem_map.2 fun q hq ↦ isReadable_ofEntry (hqs q hq).1 (hqs q hq).2

/-- Spans are read as they stand. -/
theorem map_asRead {qs : List (Text × Text)} (hqs : ∀ q ∈ qs, IsSpan q.2) :
    (qs.map fun q ↦ (q.1, q.2.asRead)) = qs :=
  (List.map_congr_left (g := id) fun q hq ↦ congrArg (Prod.mk q.1) (hqs q hq).asRead_eq).trans
    (List.map_id qs)

/-- **The parameters are read back**, behind any lexeme that a blank ends, and the reader goes on
behind them. -/
theorem capturesFrom_spelled_append {qs : List (Text × Text)}
    (hqs : ∀ q ∈ qs, q.1.isIdentifier = true ∧ IsSpan q.2) (w : Text) {r : Shape}
    (hr : r.Stops (spelled qs ++ w)) :
    ∃ r', (r' = r ∨ r' = .closing) ∧
      (Command.capturesFrom (.between none) (following r (spelled qs ++ w))).map
        Command.Capture.entry = qs ++
          (Command.capturesFrom (.between none) (following r' w)).map Command.Capture.entry := by
  have hreadable := forall_isReadable_ofEntry fun q hq ↦ ⟨(hqs q hq).1, (hqs q hq).2.isClosed⟩
  have hentries : ((qs.map Argument.ofEntry).map Argument.toCapture).map Command.Capture.entry =
      qs := by
    rw [List.map_map, List.map_map]
    exact map_asRead fun q hq ↦ (hqs q hq).2
  rw [← texts_map_ofEntry] at hr ⊢
  refine ⟨r.afterText (Argument.texts (qs.map Argument.ofEntry)), ?_, ?_⟩
  · rw [Argument.afterText_texts hreadable hr]
    exact ite_eq_or_eq _ _ _
  · rw [Argument.capturesFrom_texts hreadable hr, List.map_append, hentries]

theorem spelled_eq_nil_or (qs : List (Text × Text)) :
    spelled qs = [] ∨ ∃ u, spelled qs = ' ' :: u := by
  rcases qs with _ | ⟨q, qs⟩
  · exact Or.inl rfl
  · exact Or.inr ⟨_, spelled_cons q qs⟩

end Statement

namespace Command.Reads

variable {t name rest : Text} {q : Shape}

/-- The entries of a text are those of the tokens behind its command name. -/
theorem entries_eq (h : Reads t name q rest) :
    entries t = (capturesFrom (.between none) (following q rest)).map Capture.entry := by
  rw [← h.captures_eq, List.map_map]
  exact List.map_congr_left fun c _ ↦ c.entry_unplaced.symm

/-- **The arguments behind a command name are read as its parameters.** -/
theorem entries_of_texts {as : List Argument} (h : Reads t name q (Argument.texts as))
    (has : ∀ a ∈ as, a.IsReadable) : entries t = as.map fun a ↦ (a.keyword, a.value.asRead) := by
  have hcaptures := Argument.capturesFrom_texts (w := []) has
    (by rw [List.append_nil]; exact h.stops)
  rw [List.append_nil, show following _ [] = [] from rfl,
    show capturesFrom (.between none) [] = [] from rfl, List.append_nil] at hcaptures
  rw [h.entries_eq, hcaptures, List.map_map]
  rfl

/-- Spans are read as they stand. -/
theorem entries_of_spelled {qs : List (Text × Text)} (h : Reads t name q (Statement.spelled qs))
    (hqs : ∀ p ∈ qs, p.1.isIdentifier = true ∧ IsSpan p.2) : entries t = qs := by
  rw [← Statement.texts_map_ofEntry] at h
  rw [h.entries_of_texts (Statement.forall_isReadable_ofEntry fun p hp ↦
    ⟨(hqs p hp).1, (hqs p hp).2.isClosed⟩), List.map_map]
  exact Statement.map_asRead fun p hp ↦ (hqs p hp).2

end Command.Reads

namespace Statement

/-! ### The command name in front -/

section Name

variable {name : Text} (hname : name.isIdentifier = true)

include hname

/-- A word is not qualified, so only white space is taken from it. -/
theorem commandName_of_isIdentifier : commandName name = name.trim := by
  obtain ⟨c, u, htrim, hc, hu⟩ := trim_of_isIdentifier hname
  rw [commandName, if_neg]
  intro hprefix
  obtain ⟨v, hv⟩ := List.isPrefixOf_iff_prefix.1 hprefix
  obtain ⟨d, w, hd⟩ := List.exists_cons_of_ne_nil (upperChar_ne_nil c)
  rw [htrim, upper_cons, hd] at hv
  have hstar : '*' = d := (List.cons.inj hv).1
  exact ((wordChar_spec (hu c List.mem_cons_self)).2.2.2 d (by simp [hd])).2 hstar.symm

section Arguments

variable {as : List Argument} (has : ∀ a ∈ as, a.IsSeparate)

include has

/-- Blanks and a keyword stand behind the name, so it is no label. -/
theorem ofText_texts :
    ofText (name ++ Argument.texts as) = ⟨none, (name ++ Argument.texts as).trim⟩ := by
  obtain ⟨c, u, w, rfl, hc, hu, hw⟩ := exists_word hname
  have hwhite : IsWhite w := by
    rcases hw with rfl | rfl
    · exact isWhite_nil
    · exact fun d hd ↦ by rw [List.mem_singleton.1 hd]; decide
  have hlabel : label? (c :: u ++ w ++ Argument.texts as) = none := by
    refine Option.eq_none_iff_forall_ne_some.2 fun x hx ↦ ?_
    have hbegins : BeginsInk (c :: u ++ w ++ Argument.texts as) :=
      ⟨c, _, rfl, isWhiteSpace_of_isLetter hc⟩
    obtain ⟨-, -, hcolon⟩ := (label?_eq_some_iff hbegins).1 hx
    rw [List.append_assoc,
      List.dropWhile_append_of_pos fun d hd ↦ (wordChar_spec (hu d hd)).2.1] at hcolon
    rcases as with _ | ⟨a, as⟩
    · rcases hw with rfl | rfl <;> cases hcolon
    · have ha := has a List.mem_cons_self
      obtain ⟨d, v, w', hkeyword, hd, -⟩ := exists_word ha.isIdentifier
      -- the label ends before the blanks, and a letter stands behind them
      have hblanks : IsWhite (w ++ a.blanks) :=
        isWhite_append.2 ⟨hwhite, fun b hb ↦ isWhiteSpace_of_isBlank (ha.isBlank b hb)⟩
      have htext : w ++ Argument.texts (a :: as) = (w ++ a.blanks) ++ d :: (v ++ w' ++
          ValueRules.parenthesised a.value ++ Argument.texts as) := by
        rw [Argument.texts_cons, Argument.text, hkeyword]
        simp
      obtain ⟨b, bs, hb⟩ := List.exists_cons_of_ne_nil
        (List.append_ne_nil_of_right_ne_nil w ha.blanks_ne_nil)
      have hstop : ¬ isLabelChar b = true := fun hlabel ↦ by
        simpa [isWhiteSpace_of_isLabelChar hlabel] using hblanks b (hb ▸ List.mem_cons_self)
      rw [htext, hb, List.cons_append, List.dropWhile_cons_of_neg hstop,
        ← List.cons_append, ← hb, trimStart_append_of_isWhite hblanks,
        trimStart_of_beginsInk ⟨d, _, rfl, isWhiteSpace_of_isLetter hd⟩] at hcolon
      obtain ⟨rfl, -⟩ := List.cons.inj hcolon
      exact absurd hd (by decide)
  rw [ofText, hlabel]

/-- The command name is read by itself. -/
theorem reads_texts : Command.Reads (name ++ Argument.texts as) name .name (Argument.texts as) := by
  have hends := endsWord_of_mem_isIdentifier hname
  obtain ⟨c, u, w, rfl, hc, -, -⟩ := exists_word hname
  have hbegun : begun false c = .name :=
    forall_letter (P := fun c ↦ isLetter c = true → begun false c = .name) (by decide +kernel)
      (by decide +kernel) (by decide +kernel) (by decide +kernel) (by decide +kernel) hc hc
  refine ⟨rfl, ⟨c, u ++ w, rfl, isBlank_eq_false_of_ink (isWhiteSpace_of_isLetter hc), ?_⟩, ?_⟩
  · rw [hbegun]
    exact run?_self (Or.inr rfl) fun d hd ↦ hends d (List.mem_cons_of_mem c hd)
  · rcases as with _ | ⟨a, as⟩
    · exact stops_nil _
    · have ha := has a List.mem_cons_self
      obtain ⟨b, bs, hb⟩ := List.exists_cons_of_ne_nil ha.blanks_ne_nil
      have hblank : isBlank b = true := ha.isBlank b (hb ▸ List.mem_cons_self)
      rw [Argument.texts_cons, Argument.text, hb]
      exact stops_cons.2 (by simp [extended, endsWord, hblank])

omit has in
/-- The white space around a statement is that of its name, if it has no arguments. -/
theorem exists_trim_texts (as : List Argument) : ∃ name', name'.isIdentifier = true ∧
    (name ++ Argument.texts as).trim = name' ++ Argument.texts as := by
  by_cases hnil : as = []
  · obtain ⟨c, u, htrim, hc, hu⟩ := trim_of_isIdentifier hname
    refine ⟨c :: u, isIdentifier_of_isWordChar hc hu, ?_⟩
    rw [hnil, show Argument.texts [] = [] from rfl, List.append_nil, List.append_nil, htrim]
  · obtain ⟨c, u, w, rfl, hc, -, -⟩ := exists_word hname
    exact ⟨_, hname, trim_of_ink ⟨c, _, rfl, isWhiteSpace_of_isLetter hc⟩
      ((Argument.endsInk_texts hnil).append _)⟩

end Arguments

/-- **A statement is read as its keywords and its values.** -/
theorem entries_texts {as : List Argument} (has : ∀ a ∈ as, a.IsReadable) :
    entries (name ++ Argument.texts as) = as.map fun a ↦ (a.keyword, a.value.asRead) := by
  have hseparate := fun a ha ↦ (has a ha).toIsSeparate
  obtain ⟨name', hname', htrim⟩ := exists_trim_texts hname as
  rw [entries, captures, ofText_texts hname hseparate, htrim]
  exact (reads_texts hname' hseparate).entries_of_texts has

variable {qs : List (Text × Text)}

theorem isIdentifier_commandName : (commandName name).isIdentifier = true := by
  obtain ⟨c, u, htrim, hc, hu⟩ := trim_of_isIdentifier hname
  rw [commandName_of_isIdentifier hname, htrim]
  exact isIdentifier_of_isWordChar hc hu

section Closed

variable (hqs : ∀ q ∈ qs, q.1.isIdentifier = true ∧ IsClosed q.2)

include hqs

/-- **An assembled statement is read back**, if its values are closed. -/
theorem entries_assembled_of_isClosed :
    entries (commandName name ++ spelled qs) = qs.map fun q ↦ (q.1, q.2.asRead) := by
  rw [← texts_map_ofEntry, entries_texts (isIdentifier_commandName hname)
    (forall_isReadable_ofEntry hqs), List.map_map]
  rfl

/-- And it is read strictly, as a command of its name. -/
theorem tokenizeStrict_assembled_of_isClosed :
    (∃ ts, tokenizeStrict (commandName name ++ spelled qs) = .ok ts) ∧
      (Command.ofText (commandName name ++ spelled qs)).name = commandName name ∧
      (Command.ofText (commandName name ++ spelled qs)).parameters.map
        (fun q ↦ (q.keyword, q.value.text)) = qs.map fun q ↦ (q.1, q.2.asRead) := by
  have hreadable := forall_isReadable_ofEntry hqs
  rw [← texts_map_ofEntry]
  have hreads := reads_texts (isIdentifier_commandName hname)
    fun a ha ↦ (hreadable a ha).toIsSeparate
  have hend : Shape.name.afterText (Argument.texts (qs.map Argument.ofEntry)) ≠ .literal false := by
    rw [Argument.afterText_texts hreadable (w := []) (by rw [List.append_nil]; exact hreads.stops)]
    split_ifs <;> decide
  refine ⟨⟨_, hreads.tokenizeStrict_eq hend⟩, hreads.name_eq, ?_⟩
  have hentries := hreads.entries_of_texts hreadable
  rw [Command.entries, List.map_map] at hentries
  rw [Command.ofText, Command.ofTokens, List.map_map]
  exact hentries

end Closed

/-- Spans are read back as they stand. -/
theorem entries_assembled_of_isSpan (hqs : ∀ q ∈ qs, q.1.isIdentifier = true ∧ IsSpan q.2) :
    entries (commandName name ++ spelled qs) = qs := by
  rw [entries_assembled_of_isClosed hname fun q hq ↦ ⟨(hqs q hq).1, (hqs q hq).2.isClosed⟩]
  exact map_asRead fun q hq ↦ (hqs q hq).2

end Name

/-- Tidy values are. -/
theorem entries_assembled {name : Text} (hname : name.isIdentifier = true)
    {qs : List (Text × Text)} (hqs : ∀ q ∈ qs, q.1.isIdentifier = true ∧ Part.IsValue q.2) :
    entries (commandName name ++ spelled qs) = qs :=
  entries_assembled_of_isSpan hname fun q hq ↦ ⟨(hqs q hq).1, (hqs q hq).2.isSpan⟩

end Statement

end ControlLanguage
