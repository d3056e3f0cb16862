import Mathlib.Data.Bool.AllAny
import ControlLanguage.Proofs.Command.Reading
import ControlLanguage.Proofs.Format.Alike
import ControlLanguage.Proofs.Format.Head
import ControlLanguage.Proofs.Format.Ink
import ControlLanguage.Proofs.Statement.Label

/-!
# Formatting is undone by reading back

The lines of a formatted statement join to one statement, and that statement has the label, the
command name and the parameters of the original, its words in the case of the layout and its values
thinned. The statement has to be `Statement.IsReadable`; among other things its values must be
closed by parentheses of their own, for the formatter writes a closing parenthesis in any case. And
joining has to undo the breaks that were made in it (`Layout.Mends`), as it does with the plus sign.

**It must not be a comment either**, and that is decided by its text without the blanks around it,
since nothing else of it is written.
-/

namespace ControlLanguage

open Shape Token Text

namespace Statement

/-- The command that a statement spells. -/
def toCommand (s : Text) : Command :=
  Command.ofText (ofText s).body

/-- The command name of a statement. -/
def nameIn (s : Text) : Text :=
  (Command.ofText (ofText s).body).name

/-- The parameters of a statement, with their tokens. -/
def captures (s : Text) : List Command.Capture :=
  Command.captures (tokenize (ofText s).body)

/-- A statement that can be formatted and read back. -/
structure IsReadable (s : Text) : Prop where
  isBlank_of_isWhiteSpace : ∀ c ∈ s, isWhiteSpace c = true → isBlank c = true
  strict : ∃ ts, tokenizeStrict (ofText s).body = .ok ts
  nameIn_ne_nil : nameIn s ≠ []
  isClosed : ∀ c ∈ captures s, c.isClosed = true
  label_isAscii : ∀ label ∈ (ofText s).label, label.IsAscii
  nameIn_isAscii : (nameIn s).IsAscii
  keyword_isAscii : ∀ c ∈ captures s, c.keyword.IsAscii
  /-- A command name alone would be taken for a line that goes on. -/
  not_marker : captures s = [] →
    (nameIn s).getLast? ≠ some '+' ∧ (nameIn s).getLast? ≠ some '-'

/-- A statement is another one in the case of a layout, and perhaps without some blanks. -/
structure Rewritten (l : Layout) (s s' : Text) : Prop where
  label : (ofText s').label = (ofText s).label.map l.applyCase
  nameIn : nameIn s' = l.applyCase (nameIn s)
  captures : List.Forall₂ (Command.Capture.Rewritten l) (captures s) (captures s')

/-! ### The parts of a statement -/

theorem trim_body (s : Text) : (ofText s).body.trim = (ofText s).body := by
  rw [ofText]
  cases label? s <;> exact trim_trim _

theorem ofText_of_label_eq_none {s : Text} (h : (ofText s).label = none) :
    label? s = none ∧ (ofText s).body = s.trim := by
  rcases hread : label? s with _ | ⟨label, rest⟩
  · exact ⟨rfl, by rw [ofText, hread]⟩
  · simp [ofText, hread] at h

/-- What is separated as a label has the form of one. -/
theorem isLabel_of_mem {s label : Text} (h : label ∈ (ofText s).label) : IsLabel label := by
  rw [ofText] at h
  rcases hread : label? s with _ | ⟨label', rest⟩
  · simp [hread] at h
  · obtain rfl : label' = label := by simpa [hread] using h
    exact isLabel_of_label? hread

theorem mem_of_mem_label?_rest {s label rest : Text} (h : label? s = some (label, rest)) {c : Char}
    (hc : c ∈ rest) : c ∈ s := by
  rcases isWhite_or_beginsInk_trimStart s with hwhite | hink
  · rw [label?, trimStart_of_isWhite hwhite] at h
    simp at h
  · obtain ⟨-, -, hdrop⟩ := (label?_eq_some_iff hink).1 ((label?_trimStart s).trans h)
    have hcolon : c ∈ trimStart (s.trimStart.dropWhile isLabelChar) := by
      rw [hdrop]
      exact List.mem_cons_of_mem _ hc
    have hstart := (List.dropWhile_suffix isWhiteSpace).subset hcolon
    exact (List.dropWhile_suffix isWhiteSpace).subset
      ((List.dropWhile_suffix isLabelChar).subset hstart)

theorem mem_of_mem_body {s : Text} {c : Char} (hc : c ∈ (ofText s).body) : c ∈ s := by
  rw [ofText] at hc
  rcases h : label? s with _ | ⟨label, rest⟩
  · rw [h] at hc
    exact mem_of_mem_trim hc
  · rw [h] at hc
    exact mem_of_mem_label?_rest h (mem_of_mem_trim hc)

/-- No capture without a command name. -/
theorem exists_reads_of_mem {s : Text} {c : Command.Capture} (hc : c ∈ captures s) :
    ∃ name q rest, Command.Reads (ofText s).body name q rest := by
  rcases hbody : (ofText s).body with _ | ⟨d, u⟩
  · rw [captures, hbody] at hc
    cases hc
  · have hink : BeginsInk (ofText s).body := by
      rcases trim_eq_nil_or_ink (ofText s).body with hnil | hink
      · rw [trim_body, hbody] at hnil
        exact absurd hnil (List.cons_ne_nil d u)
      · exact trim_body s ▸ hink.1
    obtain ⟨e, v, htext, he⟩ := hink
    obtain ⟨rfl, rfl⟩ := List.cons.inj (hbody.symm.trans htext)
    exact Command.exists_reads (isBlank_eq_false_of_ink he) u

/-- A statement with a command name, and without white space other than blanks. -/
structure IsNamed (s : Text) : Prop where
  isBlank_of_isWhiteSpace : ∀ c ∈ s, isWhiteSpace c = true → isBlank c = true
  nameIn_ne_nil : nameIn s ≠ []

namespace IsNamed

variable {s : Text} (h : IsNamed s)

include h

theorem ink_body : BeginsInk (ofText s).body ∧ EndsInk (ofText s).body := by
  rcases trim_eq_nil_or_ink (ofText s).body with hnil | hink
  · rw [trim_body] at hnil
    refine absurd ?_ h.nameIn_ne_nil
    rw [nameIn, hnil]
    rfl
  · rwa [trim_body] at hink

theorem white_of_mem_body : ∀ c ∈ (ofText s).body, isWhiteSpace c = true → isBlank c = true :=
  fun c hc ↦ h.isBlank_of_isWhiteSpace c (mem_of_mem_body hc)

/-- The command begins with its name. -/
theorem exists_reads : ∃ q rest, Command.Reads (ofText s).body (nameIn s) q rest := by
  obtain ⟨c, u, hbody, hc⟩ := h.ink_body.1
  obtain ⟨name, q, rest, hreads⟩ := Command.exists_reads (isBlank_eq_false_of_ink hc) u
  rw [← hbody] at hreads
  have hname : nameIn s = name := hreads.name_eq
  rw [hname]
  exact ⟨q, rest, hreads⟩

/-- The command name begins and ends in ink. A literal that is left open runs to the end of the
statement, which is ink. -/
theorem ink_nameIn : BeginsInk (nameIn s) ∧ EndsInk (nameIn s) := by
  obtain ⟨q, rest, hreads⟩ := h.exists_reads
  have hwhite : ∀ c ∈ nameIn s, isBlank c = false → isWhiteSpace c = false := by
    intro c hc hb
    refine Bool.eq_false_iff.2 fun hw ↦ ?_
    rw [h.white_of_mem_body c (by rw [hreads.eq_append]; exact List.mem_append_left _ hc) hw] at hb
    exact Bool.noConfusion hb
  obtain ⟨c, u, hname, hc, hu⟩ := hreads.run
  refine ⟨⟨c, u, hname, hwhite c (hname ▸ List.mem_cons_self) hc⟩, ?_⟩
  by_cases hq : q = .literal false
  · obtain rfl : rest = [] := by
      rcases rest with _ | ⟨d, rest⟩
      · rfl
      · have hstop := stops_cons.1 hreads.stops
        rw [hq] at hstop
        simp [extended] at hstop
    have hend := h.ink_body.2
    rwa [hreads.eq_append, List.append_nil] at hend
  · rcases List.eq_nil_or_concat' u with rfl | ⟨v, d, rfl⟩
    · exact ⟨[], c, hname, hwhite c (hname ▸ List.mem_cons_self) hc⟩
    · exact ⟨c :: v, d, hname, hwhite d (by simp [hname])
        (not_isBlank_of_run? hu hq hreads.ne_blank)⟩

end IsNamed

namespace IsReadable

variable {s : Text} (h : IsReadable s)

include h

theorem isNamed : IsNamed s :=
  ⟨h.isBlank_of_isWhiteSpace, h.nameIn_ne_nil⟩

/-- The command begins with its name. -/
theorem exists_reads : ∃ q rest, Command.Reads (ofText s).body (nameIn s) q rest ∧
    q ≠ .literal false := by
  obtain ⟨ts, hts⟩ := h.strict
  obtain ⟨q, rest, hreads⟩ := h.isNamed.exists_reads
  exact ⟨q, rest, hreads, (hreads.of_tokenizeStrict hts).1⟩

theorem white_of_mem_body : ∀ c ∈ (ofText s).body, isWhiteSpace c = true → isBlank c = true :=
  h.isNamed.white_of_mem_body

/-- The captures can be written and read back. -/
theorem isReadable_of_mem {c : Command.Capture} (hc : c ∈ captures s) : c.unplaced.IsReadable := by
  obtain ⟨q, rest, hreads, -⟩ := h.exists_reads
  exact hreads.isReadable h.white_of_mem_body hc (h.isClosed c hc) (h.keyword_isAscii c hc)

/-- A command name that could begin a label holds no white space. -/
theorem isWhiteSpace_of_isNameStart (hstart : ∃ c ∈ (nameIn s).head?, isNameStart c = true) :
    ∀ c ∈ nameIn s, isWhiteSpace c = false := by
  obtain ⟨q, rest, hreads, -⟩ := h.exists_reads
  obtain ⟨c, u, hname, hc, hu⟩ := hreads.run
  obtain ⟨d, hd, hdstart⟩ := hstart
  rw [hname] at hd
  obtain rfl := Option.some.inj hd
  have hascii : c.toNat < 128 := h.nameIn_isAscii c (hname ▸ List.mem_cons_self)
  have hbegun : begun false c = .name :=
    forall_ascii (P := fun c ↦ isNameStart c = true → begun false c = .name) (by decide +kernel)
      hascii hdstart
  rw [hbegun] at hu
  intro d hd
  refine Bool.eq_false_iff.2 fun hw ↦ ?_
  have hb : isBlank d = true := h.white_of_mem_body d
    (by rw [hreads.eq_append]; exact List.mem_append_left _ hd) hw
  rw [hname] at hd
  rcases List.mem_cons.1 hd with rfl | hd
  · rw [hb] at hc
    exact Bool.noConfusion hc
  · obtain ⟨v, v', rfl⟩ := List.append_of_mem hd
    obtain ⟨r, hv, hr⟩ := run?_append.1 hu
    obtain ⟨longer, hext, -⟩ := run?_cons.1 hr
    obtain rfl := run?_name hv
    rcases extended_eq_some_of_isBlank hb hext with hshape | hshape <;> simp at hshape

/-- The case of a layout leaves the command name between ink. -/
theorem ink_applyCase (l : Layout) : BeginsInk (l.applyCase (nameIn s)) ∧
    EndsInk (l.applyCase (nameIn s)) := by
  obtain ⟨⟨c, u, hb, hc⟩, ⟨v, d, he, hd⟩⟩ := h.isNamed.ink_nameIn
  have hascii := h.nameIn_isAscii
  rw [Layout.applyCase, l.keywordCase.apply_of_isAscii hascii]
  constructor
  · refine ⟨l.keywordCase.char c, u.map l.keywordCase.char, by rw [hb]; rfl, ?_⟩
    rwa [l.keywordCase.isWhiteSpace_char (hascii c (by simp [hb]))]
  · refine ⟨v.map l.keywordCase.char, l.keywordCase.char d, by rw [he]; simp, ?_⟩
    rwa [l.keywordCase.isWhiteSpace_char (hascii d (by simp [he]))]

/-- A label can be written and read back. -/
theorem isLabel {label : Text} (hlabel : label ∈ (ofText s).label) :
    IsLabel label ∧ label.IsAscii :=
  ⟨isLabel_of_mem hlabel, h.label_isAscii label hlabel⟩

/-- Only a missing label is empty. -/
theorem label_eq_none (hlabel : (ofText s).label.getD [] = []) : (ofText s).label = none := by
  rcases hcases : (ofText s).label with _ | label
  · rfl
  · obtain ⟨⟨⟨c, hc, -⟩, -⟩, -⟩ := h.isLabel (show label ∈ (ofText s).label from hcases)
    rw [hcases] at hlabel
    rw [show label = [] from hlabel] at hc
    simp at hc

/-- A label that is written is one. -/
theorem isLabel_applyCase (l : Layout) (hlabel : (ofText s).label.getD [] ≠ []) :
    IsLabel (l.applyCase ((ofText s).label.getD [])) := by
  rcases hcases : (ofText s).label with _ | label
  · exact absurd (by rw [hcases]; rfl) hlabel
  · obtain ⟨hword, hascii⟩ := h.isLabel (show label ∈ (ofText s).label from hcases)
    exact hword.apply l.keywordCase hascii

/-- The formatted name begins a command, whatever parameters stand behind it. -/
theorem exists_reads_applyCase (l : Layout) : ∃ q, q.extended ' ' = none ∧
    ∀ w, (w = [] ∨ ∃ u, w = ' ' :: u) → Command.Reads (l.applyCase (nameIn s) ++ w)
      (l.applyCase (nameIn s)) q w := by
  obtain ⟨q, rest, hreads, hq⟩ := h.exists_reads
  have hstop : q.extended ' ' = none := by
    by_contra hne
    obtain ⟨longer, hlonger⟩ := Option.ne_none_iff_exists'.1 hne
    rcases extended_eq_some_of_isBlank (by decide) hlonger with hb | hb
    · exact hreads.ne_blank hb
    · exact hq hb
  refine ⟨q, hstop, fun w hw ↦ ⟨rfl, ?_, ?_⟩⟩
  · obtain ⟨c, u, hname, hc, hu⟩ := hreads.run
    have hascii := h.nameIn_isAscii
    rw [hname, isAscii_cons] at hascii
    refine ⟨l.keywordCase.char c, l.keywordCase.apply u, ?_, ?_, ?_⟩
    · rw [hname, Layout.applyCase, l.keywordCase.apply_of_isAscii (isAscii_cons.2 hascii),
        l.keywordCase.apply_of_isAscii hascii.2, List.map_cons]
    · rwa [l.keywordCase.isBlank_char hascii.1]
    · rwa [l.keywordCase.begun_char hascii.1, l.keywordCase.run?_apply hascii.2]
  · rcases hw with rfl | ⟨u, rfl⟩
    · exact stops_nil q
    · exact stops_cons.2 hstop

end IsReadable

/-! ### What the formatted statement says -/

section

variable {s : Text} (h : IsReadable s) {l : Layout} {lead w : Text}
  (hlead : Page.IsLead l ((ofText s).label.getD []) lead)
  (hw : Command.SaysParameters l ((captures s).map Command.Capture.unplaced) w)

include h hw

/-- The command that is said has ink at both ends, and its last character is no marker. -/
theorem isFinal_said : IsFinal (l.applyCase (nameIn s) ++ w) := by
  by_cases hcs : captures s = []
  · obtain ⟨-, v, c, he, hc⟩ := h.isNamed.ink_nameIn
    have hascii : c.toNat < 128 := h.nameIn_isAscii c (by simp [he])
    obtain ⟨hplus, hminus⟩ := h.not_marker hcs
    rw [he, List.getLast?_concat] at hplus hminus
    rw [hw.eq_nil (by rw [hcs]; rfl), List.append_nil, Layout.applyCase,
      l.keywordCase.apply_of_isAscii h.nameIn_isAscii, he]
    refine ⟨v.map l.keywordCase.char, l.keywordCase.char c, by simp, ?_, ?_, ?_⟩
    · rwa [l.keywordCase.isWhiteSpace_char hascii]
    · rw [ne_eq, l.keywordCase.char_eq_iff hascii (by decide)]
      simpa using hplus
    · rw [ne_eq, l.keywordCase.char_eq_iff hascii (by decide)]
      simpa using hminus
  · exact (hw.isFinal (by simpa using hcs)).append _

include hlead

/-- **It has the label of the original, if there is one, and the rest is its command.** -/
theorem ofText_said : ofText (lead ++ (l.applyCase (nameIn s) ++ w)) =
    ⟨(ofText s).label.map l.applyCase, l.applyCase (nameIn s) ++ w⟩ := by
  have hbegin : BeginsInk (l.applyCase (nameIn s) ++ w) := (h.ink_applyCase l).1.append w
  have hend : EndsInk (l.applyCase (nameIn s) ++ w) := (isFinal_said h hw).endsInk
  rcases hlead with ⟨hempty, rfl⟩ | ⟨hne, n, rfl⟩
  · obtain ⟨q, rest, hreads, -⟩ := h.exists_reads
    have hnone := h.label_eq_none hempty
    obtain ⟨hlabel, hbody⟩ := ofText_of_label_eq_none hnone
    have hname : label? (nameIn s ++ rest) = none := by
      rw [← hreads.eq_append, hbody]
      exact label?_trim_eq_none hlabel
    have hread : label? (l.applyCase (nameIn s) ++ w) = none :=
      label?_eq_none_of_apply l.keywordCase h.nameIn_isAscii h.isNamed.ink_nameIn.1
        (h.ink_applyCase l).1 h.isWhiteSpace_of_isNameStart hw.eq_nil_or hname
    rw [List.nil_append, ofText, hread, hnone]
    simp only [trim_of_ink hbegin hend, Option.map_none]
  · rw [List.append_assoc]
    refine (ofText_labelled (h.isLabel_applyCase l hne) (n + 1) hbegin hend).trans ?_
    rcases hcases : (ofText s).label with _ | label
    · exact absurd (by rw [hcases]; rfl) hne
    · rfl

/-- **It is the original, rewritten.** -/
theorem rewritten_said : Rewritten l s (lead ++ (l.applyCase (nameIn s) ++ w)) := by
  have htext := ofText_said h hlead hw
  obtain ⟨q, hq, hreads⟩ := h.exists_reads_applyCase l
  have hread := hreads w (hw.eq_nil_or.imp_right fun ⟨u, hu, _⟩ ↦ ⟨u, hu⟩)
  obtain ⟨ds, hds, hcaptures⟩ := hw.reads
  refine ⟨by rw [htext], ?_, ?_⟩
  · rw [nameIn, htext]
    exact hread.name_eq
  · have hsaid : (captures (lead ++ (l.applyCase (nameIn s) ++ w))).map
        Command.Capture.unplaced = ds := by
      rw [captures, htext, hread.captures_eq]
      exact hcaptures q hq
    rw [← hsaid, List.forall₂_map_left_iff, List.forall₂_map_right_iff] at hds
    exact hds.imp fun c d hcd ↦ hcd.of_unplaced

/-- It is not a comment, if the original is none. -/
theorem isComment_said (hcomment : isComment s.trim = false) :
    isComment (lead ++ (l.applyCase (nameIn s) ++ w)) = false := by
  by_contra hsaid
  obtain ⟨t, ht⟩ := List.isPrefixOf_iff_prefix.1 (Bool.not_eq_false _ ▸ hsaid)
  rcases hlead with ⟨hempty, rfl⟩ | ⟨hne, n, rfl⟩
  · -- without a label the comment would begin with the name, hence so would the original
    obtain ⟨q, rest, hreads, -⟩ := h.exists_reads
    obtain ⟨c, u, hname, -⟩ := hreads.run
    have hascii := h.nameIn_isAscii
    rw [List.nil_append, Layout.applyCase, l.keywordCase.apply_of_isAscii hascii, hname] at ht
    rw [hname] at hascii
    have hc : c = '/' := (l.keywordCase.char_eq_iff (hascii c (by simp)) (by decide)).1
      (List.cons.inj ht).1.symm
    have hrest : '*' :: t = u.map l.keywordCase.char ++ w := (List.cons.inj ht).2
    rcases u with _ | ⟨d, u⟩
    · rcases hw.eq_nil_or with rfl | ⟨u, rfl, -⟩ <;> simp at hrest
    · have hd : d = '*' := (l.keywordCase.char_eq_iff (hascii d (by simp)) (by decide)).1
        (List.cons.inj hrest).1.symm
      rw [← (ofText_of_label_eq_none (h.label_eq_none hempty)).2, hreads.eq_append, hname, hc,
        hd] at hcomment
      exact Bool.noConfusion hcomment
  · obtain ⟨⟨c, hc, hstart⟩, -⟩ := h.isLabel_applyCase l hne
    rcases hcases : l.applyCase ((ofText s).label.getD []) with _ | ⟨d, u⟩
    · rw [hcases] at hc
      simp at hc
    · rw [hcases] at hc ht
      obtain rfl := Option.some.inj hc
      rw [← (List.cons.inj ht).1] at hstart
      exact absurd hstart (by decide)

end

/-! ### The formatted statement -/

/-- The layout writes the captures of a statement as it writes them without their columns. -/
theorem alike_captures (l : Layout) (s : Text) :
    List.Forall₂ (Command.Capture.Alike l) (captures s)
      ((captures s).map Command.Capture.unplaced) := by
  rw [List.forall₂_map_right_iff]
  exact List.forall₂_same.2 fun c _ ↦ ⟨rfl, (alike_unplaced c.tokens).1⟩

/-- Formatting does not depend on the columns of the tokens. -/
theorem format_eq_of_captures (l : Layout) (s : Text) :
    format l s = Command.format l (ofText s).label
      ⟨nameIn s, ((captures s).map Command.Capture.unplaced).map
        Command.Capture.toParameter⟩ :=
  Command.format_congr rfl rfl rfl (alike_captures l s)

/-- The atoms of a statement that was read have no blanks at the ends. -/
theorem IsReadable.isUnpadded_of_mem {s : Text} (h : IsReadable s) (l : Layout) {a : Text}
    (ha : a ∈ Command.atoms l.keywordCase ⟨nameIn s,
      ((captures s).map Command.Capture.unplaced).map Command.Capture.toParameter⟩) :
    a.IsUnpadded := by
  obtain ⟨c, hc, ha⟩ := Atom.exists_of_mem_ofParameters (Command.mem_atoms.1 ha)
  obtain ⟨d, hd, rfl⟩ := List.mem_map.1 hc
  have hread := h.isReadable_of_mem hd
  rcases ha with rfl | ha
  · obtain ⟨e, u, htext, he, -⟩ := hread.exists_letter l
    refine Atom.isUnpadded_opened ?_
    rw [show l.keywordCase.apply _ = e :: u from htext]
    rintro hblank
    obtain rfl := Option.some.inj hblank
    exact absurd he (by decide)
  · obtain ⟨q, hchain, hq⟩ := hread.chain
    exact Atom.isUnpadded_of_mem_ofValue _ (hchain.isComplete hq) ha

/-- Its literals are atoms. -/
theorem IsReadable.mem_atoms_of_literal {s : Text} (h : IsReadable s) (l : Layout)
    {c : Command.Capture} (hc : c ∈ (captures s).map Command.Capture.unplaced) {t : Token}
    (ht : t ∈ c.tokens) (hkind : t.kind = .literal) :
    t.text ∈ Command.atoms l.keywordCase ⟨nameIn s,
      ((captures s).map Command.Capture.unplaced).map Command.Capture.toParameter⟩ := by
  obtain ⟨d, hd, rfl⟩ := List.mem_map.1 hc
  obtain ⟨q, hchain, hq⟩ := (h.isReadable_of_mem hd).chain
  have hcomplete := hchain.isComplete hq t ht
  exact Command.mem_atoms.2 (Atom.mem_ofParameters hc
    (Or.inr (Atom.mem_ofValue_of_literal _ ht hkind hcomplete)))

/-- The lines of a page are joined to what it says without the blanks in front. -/
theorem joinedAfter_lines {l : Layout} {p : Page} {k : Nat} {t : Text} (rest : List Text)
    (hmarked : p.IsMarked l) (hend : EndsInk p.current)
    (hspoken : p.spoken l.marker = blanks k ++ t) (hbegin : BeginsInk t) (hfinal : IsFinal t)
    (hcomment : isComment t = false) :
    joinedAfter none (p.lines ++ rest) = t :: joinedAfter none rest := by
  have hstart : trimStart (p.spoken l.marker) = t := by
    rw [hspoken, trimStart_append_of_isWhite (isWhite_blanks k), trimStart_of_beginsInk hbegin]
  have htrim : trim (p.spoken l.marker) = t := by
    rw [hspoken, trim_append_of_isWhite (isWhite_blanks k), trim_of_ink hbegin hfinal.endsInk]
  have hfinal' : IsFinal (p.spoken l.marker) := hspoken ▸ hfinal.append (blanks k)
  have hjoined := joinedAfter_none rest hmarked hend hfinal' (hstart.symm ▸ hcomment)
  rw [Page.lines, trimEnd_of_endsInk hend, List.append_assoc, List.singleton_append, hjoined]
  exact congrArg (· :: joinedAfter none rest) htrim

/-- **The lines of a formatted statement join to one statement**, the original rewritten, if each
break is undone, and nothing carries over to the lines behind them. -/
theorem exists_joinedAfter_format_of_mends {l : Layout} {s : Text} (h : IsReadable s)
    (hcomment : isComment s.trim = false)
    (hmends : ∀ q ∈ (toCommand s).pieces l ((ofText s).label.getD []),
      ∀ b ∈ q.breaks l ((toCommand s).atoms l.keywordCase), l.Mends b.joined) :
    ∃ s', Rewritten l s s' ∧ isComment s' = false ∧ ∀ rest,
      joinedAfter none ((format l s).lines ++ rest) = s' :: joinedAfter none rest := by
  have hreadable : ∀ c ∈ (captures s).map Command.Capture.unplaced, c.IsReadable := by
    intro c hc
    obtain ⟨d, hd, rfl⟩ := List.mem_map.1 hc
    exact h.isReadable_of_mem hd
  have hlabel := fun hne ↦ (h.isLabel_applyCase l hne).beginsInk
  have halike := alike_captures l s
  have hcommand : toCommand s = ⟨nameIn s, (captures s).map Command.Capture.toParameter⟩ := rfl
  rw [hcommand, Command.pieces_congr _ _ halike, Command.atoms_congr _ (nameIn s) halike] at hmends
  obtain ⟨k, lead, w, hlead, hw, hspoken, hend⟩ :=
    Command.exists_spoken_page (fun a ↦ h.isUnpadded_of_mem l) hlabel (h.ink_applyCase l).1
      (h.ink_applyCase l).2 hreadable (fun c hc t ht ↦ h.mem_atoms_of_literal l hc ht) hmends
  have hcomment' := isComment_said h hlead hw hcomment
  refine ⟨_, rewritten_said h hlead hw, hcomment', fun rest ↦ ?_⟩
  rw [format_eq_of_captures]
  exact joinedAfter_lines rest (Command.isMarked_page _ _) hend hspoken
    (hlead.append_beginsInk hlabel ((h.ink_applyCase l).1.append w))
    ((isFinal_said h hw).append lead) hcomment'

/-- If each break is undone, so is formatting. -/
theorem exists_joinLines_format_of_mends {l : Layout} {s : Text} (h : IsReadable s)
    (hcomment : isComment s.trim = false)
    (hmends : ∀ q ∈ (toCommand s).pieces l ((ofText s).label.getD []),
      ∀ b ∈ q.breaks l ((toCommand s).atoms l.keywordCase), l.Mends b.joined) :
    ∃ s', joinLines (format l s).lines = [s'] ∧ Rewritten l s s' := by
  obtain ⟨s', hs', -, hjoined⟩ := exists_joinedAfter_format_of_mends h hcomment hmends
  refine ⟨s', ?_, hs'⟩
  have hlines := hjoined []
  rwa [List.append_nil] at hlines

/-! ### At the plus sign -/

theorem exists_joinedAfter_format {l : Layout} (hl : l.marker = .plus) {s : Text}
    (h : IsReadable s) (hcomment : isComment s.trim = false) :
    ∃ s', Rewritten l s s' ∧ isComment s' = false ∧ ∀ rest,
      joinedAfter none ((format l s).lines ++ rest) = s' :: joinedAfter none rest :=
  exists_joinedAfter_format_of_mends h hcomment fun _ _ b _ ↦ Layout.mends_of_plus hl b.joined

/-- **Formatting is undone by reading back.** -/
theorem exists_joinLines_format {l : Layout} (hl : l.marker = .plus) {s : Text} (h : IsReadable s)
    (hcomment : isComment s.trim = false) :
    ∃ s', joinLines (format l s).lines = [s'] ∧ Rewritten l s s' :=
  exists_joinLines_format_of_mends h hcomment fun _ _ b _ ↦ Layout.mends_of_plus hl b.joined

/-- A label, a command name in small letters, blanks in a value and a literal. -/
theorem exists_joinLines_format_copy :
    IsReadable "COPY: cpyf FROMFILE( A ) TOFILE('B C')".toList ∧
      isComment (trim "COPY: cpyf FROMFILE( A ) TOFILE('B C')".toList) = false ∧
      ∃ s', joinLines (format .standard "COPY: cpyf FROMFILE( A ) TOFILE('B C')".toList).lines =
          [s'] ∧ Rewritten .standard "COPY: cpyf FROMFILE( A ) TOFILE('B C')".toList s' := by
  have hreadable : IsReadable "COPY: cpyf FROMFILE( A ) TOFILE('B C')".toList :=
    ⟨List.all_iff_forall_prop.1 (by decide), ⟨_, rfl⟩, by decide, by decide, by decide, by decide,
      by decide, by decide⟩
  exact ⟨hreadable, rfl, exists_joinLines_format rfl hreadable rfl⟩

/-- **Only without the blanks around it can a comment be told from a statement.** Behind a blank the
sign of a comment is read as a command name, and written at the start of a line it is a comment. -/
theorem not_forall_exists_joinLines_format :
    ¬ ∀ (l : Layout) (s : Text), l.marker = .plus → IsReadable s → isComment s = false →
      ∃ s', joinLines (format l s).lines = [s'] ∧ Rewritten l s s' := by
  intro hall
  have hlines : joinLines (format { rightMargin := 40, continuationColumn := 5 }
      " /* K(AAAAAAAAAAAAAA BBBBBBBBBBBBBBBBBBB CCCCC)".toList).lines =
      ["/* +".toList, "K(AAAAAAAAAAAAAA BBBBBBBBBBBBBBBBBBB CCCCC)".toList] := by decide +kernel
  have hreadable : IsReadable " /* K(AAAAAAAAAAAAAA BBBBBBBBBBBBBBBBBBB CCCCC)".toList :=
    ⟨List.all_iff_forall_prop.1 (by decide), ⟨_, rfl⟩, by decide, by decide, by decide, by decide,
      by decide, by decide⟩
  obtain ⟨s', hs', -⟩ := hall { rightMargin := 40, continuationColumn := 5 } _ rfl hreadable rfl
  rw [hlines] at hs'
  exact List.cons_ne_nil _ _ (List.cons.inj hs').2

end Statement

end ControlLanguage
