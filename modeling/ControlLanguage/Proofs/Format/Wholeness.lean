import ControlLanguage.Proofs.Command.Reading
import ControlLanguage.Proofs.Format.Breaking
import ControlLanguage.Proofs.Format.ReadBack
import ControlLanguage.Proofs.Text.LowerCase

/-!
# Atoms stay whole

A command is formatted piece by piece (`Command.pieces`). **No break in any piece comes between the
characters of an atom**, wherever in the piece the atom occurs. For a statement that was read this
means that the texts of its parameters which are *solid* are found whole on some line: the keywords
with their opening parentheses, the literals, and the numbers.

Two tokens of a statement are not covered, and both for the same reason: they are not written. What
stands between two parameters is passed over, and white space at the ends of a value is dropped, so
a number that begins with a space of typography does not come through as it was.
-/

namespace ControlLanguage

open Text Token

/-! ### The solid texts of a parameter that was read -/

namespace Command

/-- The texts of a parameter that no line may split. -/
inductive Capture.Solid (l : Layout) (c : Capture) : Text → Prop where
  /-- Its keyword with the opening parenthesis. -/
  | keyword : Solid l c (Atom.opened (l.applyCase c.keyword))
  /-- A literal. -/
  | literal {t : Token} : t ∈ c.tokens → t.kind = .literal → Solid l c t.text
  /-- A number without white space around it. -/
  | number {t : Token} : t ∈ c.tokens → t.kind = .value → t.text.isNumber = true →
      t.text.trim = t.text → Solid l c t.text
  /-- A keyword inside the value, with its opening parenthesis. -/
  | inner {t o : Token} {before after : List Token} : c.tokens = before ++ t :: o :: after →
      t.kind = .keyword → o.kind = .opening → Solid l c (Atom.opened t.text)

end Command

namespace Token

/-- A keyword begins with a letter. -/
theorem Follows.exists_letter {t : Token} {s s' : Shape} (h : Follows s t s')
    (ht : t.kind = .keyword) : ∃ c u, t.text = c :: u ∧ isLetter c = true := by
  obtain ⟨c, u, htext, -, -, hk, -⟩ := h
  have hident : t.text.isIdentifier = true := by
    by_contra hident
    rw [hk] at ht
    rcases s' with _ | _ | _ | _ | _ | _ | _ | _ | _ <;> simp [Shape.kind, hident] at ht
  exact ⟨c, u, htext, isLetter_of_isIdentifier (htext ▸ hident)⟩

/-- An opening parenthesis is spelled by one. -/
theorem Follows.text_eq_of_opening {t : Token} {s s' : Shape} (h : Follows s t s')
    (ht : t.kind = .opening) : t.text = ['('] := by
  obtain rfl := h.kind_eq_opening_iff.1 ht
  obtain ⟨c, u, htext, -, hu, -, -⟩ := h
  have hbegun : Shape.begun true c = .opening ∧ u = [] := by
    rcases List.eq_nil_or_concat' u with rfl | ⟨v, d, rfl⟩
    · exact ⟨Option.some.inj hu, rfl⟩
    · obtain ⟨longer, -, hd⟩ := Shape.run?_append.1 hu
      obtain ⟨last, hlast, hnil⟩ := Shape.run?_cons.1 hd
      obtain rfl := Option.some.inj hnil
      -- no lexeme becomes a parenthesis by one more character
      rcases longer with _ | _ | _ | (_ | _) | _ | _ | _ | _ | _ <;>
        simp [Shape.extended] at hlast
  have hc : c = '(' := by
    by_contra hc
    have hshape := hbegun.1
    simp only [Shape.begun, if_neg hc] at hshape
    split_ifs at hshape
  rw [htext, hc, hbegun.2]

end Token

namespace Command.Capture

variable {l : Layout} {c : Capture} {w : Text}

/-- What is read of a capture, as far as its solid texts are concerned. -/
structure IsLexed (c : Capture) : Prop where
  keyword : ∃ d u, c.keyword = d :: u ∧ isLetter d = true
  isComplete : ∀ t ∈ c.tokens, t.IsComplete

theorem IsLexed.ink_of_solid (h : c.IsLexed) (hw : c.Solid l w) : BeginsInk w ∧ EndsInk w := by
  cases hw with
  | keyword =>
    obtain ⟨d, u, htext, hd⟩ := h.keyword
    refine ⟨BeginsInk.append ?_ ['('], ⟨_, '(', rfl, by decide⟩⟩
    rw [htext]
    exact l.keywordCase.beginsInk_apply ⟨d, u, rfl, isWhiteSpace_of_isLetter hd⟩
  | @literal t ht hk =>
    obtain ⟨s, s', hf, hs'⟩ := h.isComplete t ht
    obtain ⟨u, htext, hu⟩ := hf.exists_literal hs' hk
    rw [htext]
    refine ⟨⟨Shape.quote, u, rfl, by decide⟩, ?_⟩
    have hlen := Text.literalLength_of_run? hu
    obtain ⟨v, rest, rfl, hrest⟩ := Text.exists_of_literalLength hlen
    obtain rfl : rest = [] := by
      refine List.length_eq_zero_iff.1 ?_
      simp only [List.length_append, List.length_cons] at hrest
      omega
    exact ⟨Shape.quote :: v, Shape.quote, rfl, by decide⟩
  | @number t ht hk _ htrim =>
    obtain ⟨s, s', hf, -⟩ := h.isComplete t ht
    rcases Text.trim_eq_nil_or_ink t.text with hnil | hink
    · exact absurd (htrim.symm.trans hnil) hf.text_ne_nil
    · rwa [htrim] at hink
  | @inner t o before after htokens hk ho =>
    obtain ⟨s, s', hf, -⟩ := h.isComplete t (by simp [htokens])
    obtain ⟨d, u, htext, hd⟩ := hf.exists_letter hk
    refine ⟨BeginsInk.append ?_ ['('], ⟨_, '(', rfl, by decide⟩⟩
    exact ⟨d, u, htext, isWhiteSpace_of_isLetter hd⟩

/-- A solid text is an atom. -/
theorem IsLexed.mem_atoms_of_solid (h : c.IsLexed) (hw : c.Solid l w) :
    w = Atom.opened (l.keywordCase.apply c.keyword) ∨
      w ∈ Atom.ofValue l.keywordCase (.ofTokens c.tokens) := by
  cases hw with
  | keyword => exact Or.inl rfl
  | @literal t ht hk =>
    exact Or.inr (Atom.mem_ofValue_of_literal l.keywordCase ht hk (h.isComplete t ht))
  | @number t ht hk hnumber htrim =>
    exact Or.inr (Atom.mem_ofValue_of_number l.keywordCase ht hk hnumber htrim)
  | @inner t o before after htokens hk ho =>
    exact Or.inr (Atom.mem_ofValue_of_keyword l.keywordCase htokens hk ho)

/-- A solid text of the value is part of its spelling. -/
theorem IsLexed.infix_of_solid (h : c.IsLexed) (hw : c.Solid l w) :
    w = Atom.opened (l.applyCase c.keyword) ∨ w <:+: texts c.tokens := by
  have hmem : ∀ t ∈ c.tokens, t.text <:+: texts c.tokens := by
    intro t ht
    obtain ⟨before, after, htokens⟩ := List.append_of_mem ht
    exact ⟨texts before, texts after, by rw [htokens, texts_append, texts_cons, List.append_assoc]⟩
  cases hw with
  | keyword => exact Or.inl rfl
  | @literal t ht => exact Or.inr (hmem t ht)
  | @number t ht => exact Or.inr (hmem t ht)
  | @inner t o before after htokens hk ho =>
    obtain ⟨s, s', hf, -⟩ := h.isComplete o (by simp [htokens])
    refine Or.inr ⟨texts before, texts after, ?_⟩
    rw [htokens, texts_append, texts_cons, texts_cons, hf.text_eq_of_opening ho, Atom.opened]
    simp only [List.append_assoc]

/-- A parameter that was read has one piece, in which its solid texts are. -/
theorem IsLexed.exists_piece (h : c.IsLexed) (hw : c.Solid l w) (atoms : List Text) (p : Page) :
    ∃ q ∈ p.parameterPieces l atoms c.toParameter, w <:+: q.text := by
  have hink := h.ink_of_solid hw
  obtain ⟨u, hu, hspell⟩ : ∃ u,
      (∀ indent, Segments.ofValue l indent (.ofTokens c.tokens) = .single u) ∧
      (w <:+: texts c.tokens → w <:+: u) := by
    rcases hts : c.tokens with _ | ⟨t, _ | ⟨v, ts⟩⟩
    · exact ⟨_, fun _ ↦ rfl, infix_trim hink.1 hink.2⟩
    · rw [Value.ofTokens]
      split_ifs
      · exact ⟨t.text, fun _ ↦ rfl, by simp⟩
      · exact ⟨_, fun _ ↦ rfl, infix_trim hink.1 hink.2⟩
    · exact ⟨_, fun _ ↦ rfl, infix_trim hink.1 hink.2⟩
  have hsegments : p.parameterSegments l c.toParameter =
      .single (l.applyCase c.keyword ++ ['('] ++ u ++ [')']) := by
    rw [Page.parameterSegments, Capture.toParameter, hu]
    rfl
  rw [Page.parameterPieces, hsegments]
  refine ⟨_, List.mem_singleton_self _, ?_⟩
  show w <:+: p.separator ++ (l.applyCase c.keyword ++ ['('] ++ u ++ [')'])
  rcases h.infix_of_solid hw with rfl | htexts
  · exact ⟨p.separator, u ++ [')'], by simp only [Atom.opened, List.append_assoc]⟩
  · obtain ⟨x, y, rfl⟩ := hspell htexts
    exact ⟨p.separator ++ (l.applyCase c.keyword ++ ['('] ++ x), y ++ [')'], by
      simp only [List.append_assoc]⟩

end Command.Capture

namespace Statement

/-- The keyword of a capture begins with a letter. -/
theorem exists_letter_of_mem {s : Text} {c : Command.Capture} (hc : c ∈ captures s) :
    ∃ d u, c.keyword = d :: u ∧ isLetter d = true := by
  obtain ⟨name, q, rest, hreads⟩ := exists_reads_of_mem hc
  obtain ⟨r, after, hkeyword, -⟩ := hreads.exists_chain hc
  exact hkeyword.exists_letter rfl

/-- **No atom of a statement that was read begins with a blank.** -/
theorem head?_ne_of_mem_atoms (l : Layout) {s a : Text}
    (ha : a ∈ (toCommand s).atoms l.keywordCase) : a.head? ≠ some ' ' := by
  obtain ⟨c, hc, ha⟩ := Atom.exists_of_mem_ofParameters (Command.mem_atoms.1 ha)
  rcases ha with rfl | ha
  · obtain ⟨d, u, htext, hd⟩ := exists_letter_of_mem hc
    obtain ⟨e, v, happly, he⟩ :=
      l.keywordCase.beginsInk_apply (t := c.keyword) ⟨d, u, htext, isWhiteSpace_of_isLetter hd⟩
    rw [Atom.opened, happly]
    rintro hblank
    obtain rfl := Option.some.inj hblank
    exact absurd he (by decide)
  · obtain ⟨name, q, rest, hreads⟩ := exists_reads_of_mem hc
    exact Atom.head?_ne_of_mem_ofValue l.keywordCase (hreads.exists_follows hc) ha

/-- **The solid texts of a statement that was read strictly are whole on its lines.** -/
theorem exists_line_of_solid (l : Layout) {s w : Text}
    (hstrict : ∃ ts, tokenizeStrict (ofText s).body = .ok ts) {c : Command.Capture}
    (hc : c ∈ captures s) (hw : c.Solid l w) :
    (∃ q ∈ (toCommand s).pieces l ((ofText s).label.getD []), w <:+: q.text ∧
      q.Keeps l ((toCommand s).atoms l.keywordCase) w) ∧
      ∃ line ∈ (format l s).lines, w <:+: line := by
  obtain ⟨name, q, rest, hreads⟩ := exists_reads_of_mem hc
  obtain ⟨ts, hts⟩ := hstrict
  have hlexed : c.IsLexed := ⟨exists_letter_of_mem hc, hreads.isComplete hts hc⟩
  have hink := hlexed.ink_of_solid hw
  have hkept : Page.IsKept ((toCommand s).atoms l.keywordCase) w := by
    refine ⟨Command.mem_atoms.2 (Atom.mem_ofParameters hc (hlexed.mem_atoms_of_solid hw)), ?_⟩
    obtain ⟨d, u, htext, hd⟩ := hink.1
    refine ⟨d, u, htext, ?_⟩
    rintro rfl
    exact absurd hd (by decide)
  have hparameter : c.toParameter ∈ (toCommand s).parameters := List.mem_map_of_mem hc
  obtain ⟨p, hp⟩ : ∃ p, ∀ x ∈ Page.parameterPieces l ((toCommand s).atoms l.keywordCase) p
      c.toParameter, x ∈ (toCommand s).pieces l ((ofText s).label.getD []) :=
    Page.exists_parameterPieces hparameter _
  obtain ⟨r, hr, hinfix⟩ := hlexed.exists_piece hw ((toCommand s).atoms l.keywordCase) p
  refine ⟨⟨r, hp r hr, hinfix, r.keeps_of_isKept hkept⟩, ?_⟩
  exact ((Command.filledBy_pieces l _ _).holds_of_mem hink.2 hkept (hp r hr) hinfix).exists_line
    hink.2

/-- **No line break ever splits an atom.** The first half is about every command, the second about
statements that were read. -/
theorem keeps_atoms (l : Layout) :
    (∀ (label : Text) (c : Command),
      Page.FilledBy l (c.atoms l.keywordCase) (c.firstPage l label) (c.pieces l label)
        (c.page l (c.atoms l.keywordCase) label) ∧
      ∀ q ∈ c.pieces l label,
        { q.filled l (c.atoms l.keywordCase) with gaveUp := q.page.gaveUp } =
          Page.layOut l q.text 0 q.page (q.breaks l (c.atoms l.keywordCase)) ∧
        ∀ a ∈ c.atoms l.keywordCase, 2 ≤ a.length → a.head? ≠ some ' ' →
          q.Keeps l (c.atoms l.keywordCase) a) ∧
    ∀ s : Text, (∀ a ∈ (toCommand s).atoms l.keywordCase, a.head? ≠ some ' ') ∧
      ((∃ ts, tokenizeStrict (ofText s).body = .ok ts) → ∀ c ∈ captures s, ∀ w, c.Solid l w →
        (∃ q ∈ (toCommand s).pieces l ((ofText s).label.getD []), w <:+: q.text ∧
          q.Keeps l ((toCommand s).atoms l.keywordCase) w) ∧
          ∃ line ∈ (format l s).lines, w <:+: line) := by
  refine ⟨fun label c ↦ ⟨c.filledBy_pieces l label, fun q _ ↦ ⟨q.filled_eq_layOut, ?_⟩⟩,
    fun s ↦ ⟨fun a ↦ head?_ne_of_mem_atoms l,
      fun hstrict c hc w ↦ exists_line_of_solid l hstrict hc⟩⟩
  intro a ha hlen hhead
  obtain ⟨d, u, rfl⟩ := List.exists_cons_of_length_pos (Nat.lt_of_lt_of_le Nat.two_pos hlen)
  exact q.keeps_of_isKept ⟨ha, d, u, rfl, fun hd ↦ hhead (congrArg some hd)⟩

/-- A keyword with its parenthesis, and a literal that was typed. -/
theorem keeps_atoms_copy :
    (∀ q ∈ (toCommand "cpyf TOFILE('B C' 17)".toList).pieces .standard [],
      q.Keeps .standard ((toCommand "cpyf TOFILE('B C' 17)".toList).atoms .upper)
        "TOFILE(".toList) ∧
    ∃ line ∈ (format .standard "cpyf TOFILE('B C' 17)".toList).lines,
      "'B C'".toList <:+: line := by
  obtain ⟨hall, hread⟩ := keeps_atoms .standard
  have hatoms : Atom.ofParameters .upper (toCommand "cpyf TOFILE('B C' 17)".toList).parameters =
      ["TOFILE(".toList, "'B C'".toList, "17".toList] := by decide +kernel
  have hcapture : ⟨"TOFILE".toList, [⟨.literal, "'B C'".toList, 13⟩, ⟨.blank, [' '], 18⟩,
      ⟨.value, "17".toList, 19⟩], true⟩ ∈ captures "cpyf TOFILE('B C' 17)".toList := by decide
  constructor
  · intro q hq
    have hmem : "TOFILE(".toList ∈ (toCommand "cpyf TOFILE('B C' 17)".toList).atoms .upper := by
      rw [Command.mem_atoms, hatoms]
      exact List.mem_cons_self
    exact ((hall [] _).2 q hq).2 _ hmem (by decide) (by decide)
  · have hlines := (hread "cpyf TOFILE('B C' 17)".toList).2 ⟨_, rfl⟩ _ hcapture "'B C'".toList
    exact (hlines (.literal (t := ⟨.literal, "'B C'".toList, 13⟩) List.mem_cons_self rfl)).2

/-- **Only what is written can be whole.** A literal between parameters is passed over, and without
the space of typography in front of it a number is no atom of its expression. -/
theorem not_forall_exists_line :
    (¬ ∀ (l : Layout) (s : Text) (ts : List Token), tokenizeStrict (ofText s).body = .ok ts →
      ∀ t ∈ ts, t.kind = .literal → ∃ line ∈ (format l s).lines, t.text <:+: line) ∧
    ¬ ∀ (l : Layout) (s : Text) (ts : List Token), tokenizeStrict (ofText s).body = .ok ts →
      ∀ t ∈ ts, t.kind = .value → t.text.isNumber = true →
        ∃ line ∈ (format l s).lines, t.text.trim <:+: line := by
  have hatoms : (toCommand "CPYF 'S' TOFILE(\u00a0123456789012345 A)".toList).atoms .upper =
      ["TOFILE(".toList, "\u00a0123456789012345".toList] :=
    Command.atoms_eq_of_perm (by decide +kernel) (by decide)
  have hlines : (format ⟨1, 2, 3, 2, 20, .plus, .upper, by decide, by decide, by decide, by decide,
      by decide, by decide, by decide⟩ "CPYF 'S' TOFILE(\u00a0123456789012345 A)".toList).lines =
      [" CPYF +".toList, " TOFILE(1234567890+".toList, " 12345 A)".toList] := by
    rw [format, ← toCommand, Command.format, hatoms]
    decide +kernel
  have hts : ∃ ts, tokenizeStrict (ofText "CPYF 'S' TOFILE(\u00a0123456789012345 A)".toList).body =
      .ok ts ∧ ⟨.literal, "'S'".toList, 6⟩ ∈ ts ∧
        ⟨.value, "\u00a0123456789012345".toList, 17⟩ ∈ ts := ⟨_, rfl, by decide, by decide⟩
  obtain ⟨ts, hstrict, hliteral, hnumber⟩ := hts
  constructor
  · intro hall
    obtain ⟨line, hline, hinfix⟩ := hall _ _ ts hstrict _ hliteral rfl
    rw [hlines] at hline
    revert line
    decide
  · intro hall
    obtain ⟨line, hline, hinfix⟩ := hall _ _ ts hstrict _ hnumber rfl (by decide)
    rw [hlines] at hline
    revert line
    decide

end Statement

end ControlLanguage
