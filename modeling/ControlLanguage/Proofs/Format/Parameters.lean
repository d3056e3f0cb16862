import ControlLanguage.Proofs.Format.Piece
import ControlLanguage.Proofs.Statement.Joining
import ControlLanguage.Proofs.Text.LetterCase

/-!
# The parameters of a page, read back

A page gets its parameters one after the other, so what it says about them is a text that is read
from left to right as the parameters of the command: `SaysParameters`. The text may follow any
lexeme that a blank ends, which is what makes **the induction on the parameters** go through; the
first parameter follows the command name and each of the others a closing parenthesis.

A parameter comes back as `Capture.Rewritten`: with its keyword in the case of the layout and a
thinned value.
-/

namespace ControlLanguage

open Shape Token

theorem isLetter_of_isIdentifier {c : Char} {t : Text} (h : Text.isIdentifier (c :: t) = true) :
    isLetter c = true := by
  rw [Text.isIdentifier, Text.dropFinalLineFeed] at h
  split_ifs at h with hlast
  · cases t with
    | nil => simp at h
    | cons d t =>
      rw [List.dropLast_cons_cons] at h
      exact (Bool.and_eq_true _ _ ▸ h : isLetter c = true ∧ _).1
  · exact (Bool.and_eq_true _ _ ▸ h : isLetter c = true ∧ _).1

namespace Token

/-- A run of blanks is one token. -/
theorem following_blanks {q : Shape} (hq : q.extended ' ' = none) (n : Nat) {t : Text}
    (ht : Shape.blank.Stops t) :
    following q (Text.blanks (n + 1) ++ t) = Token.blank :: following .blank t :=
  following_of_isBlank (stops_cons.2 hq) (List.cons_ne_nil _ _)
    (fun _ hc ↦ List.eq_of_mem_replicate hc ▸ rfl) ht

end Token

namespace Command

/-- A capture is written in the case of a layout, and perhaps without some blanks. -/
structure Capture.Rewritten (l : Layout) (c d : Capture) : Prop where
  keyword : d.keyword = l.applyCase c.keyword
  tokens : Thinned true c.tokens d.tokens
  isClosed : d.isClosed = true

/-- The columns of the tokens do not matter. -/
theorem Capture.Rewritten.of_unplaced {l : Layout} {c d : Capture}
    (h : c.unplaced.Rewritten l d.unplaced) : c.Rewritten l d where
  keyword := h.keyword
  tokens := (h.tokens.congr_alike (alike_unplaced d.tokens).2).congr_left
    (alike_unplaced c.tokens).1
  isClosed := h.isClosed

/-- What a page says about parameters: wherever a blank ends the lexeme before, the text is read as
these parameters. -/
structure SaysParameters (l : Layout) (cs : List Capture) (t : Text) : Prop where
  reads : ∃ ds, List.Forall₂ (Capture.Rewritten l) cs ds ∧
    ∀ q : Shape, q.extended ' ' = none → capturesFrom (.between none) (following q t) = ds
  eq_nil : cs = [] → t = []
  begins : cs ≠ [] → ∃ n c u, t = Text.blanks (n + 1) ++ c :: u ∧ isWhiteSpace c = false ∧ c ≠ ':'
  isFinal : cs ≠ [] → Statement.IsFinal t

theorem SaysParameters.nil (l : Layout) : SaysParameters l [] [] where
  reads := ⟨[], List.Forall₂.nil, fun _ _ ↦ rfl⟩
  eq_nil _ := rfl
  begins h := absurd rfl h
  isFinal h := absurd rfl h

/-- Parameters stand behind a blank, and do not begin with a colon. -/
theorem SaysParameters.eq_nil_or {l : Layout} {cs : List Capture} {w : Text}
    (h : SaysParameters l cs w) :
    w = [] ∨ ∃ u, w = ' ' :: u ∧ ∀ rest, Text.trimStart u ≠ ':' :: rest := by
  by_cases hcs : cs = []
  · exact Or.inl (h.eq_nil hcs)
  · obtain ⟨n, c, u, rfl, hc, hcolon⟩ := h.begins hcs
    refine Or.inr ⟨Text.blanks n ++ c :: u, rfl, fun rest hrest ↦ hcolon ?_⟩
    rw [Text.trimStart_append_of_isWhite (Text.isWhite_blanks n),
      Text.trimStart_of_beginsInk ⟨c, u, rfl, hc⟩] at hrest
    exact (List.cons.inj hrest).1

/-- A keyword begins with a letter, also in the case of a layout. -/
theorem Capture.IsReadable.exists_letter {c : Capture} (h : c.IsReadable) (l : Layout) :
    ∃ d u, l.applyCase c.keyword = d :: u ∧ isWhiteSpace d = false ∧ d ≠ ':' := by
  have hident := h.keyword.isIdentifier
  obtain ⟨d, u, htext, -⟩ := h.keyword
  have htext' : c.keyword = d :: u := htext
  rw [htext'] at hident
  have hd : d.toNat < 128 := h.isAscii d (htext' ▸ List.mem_cons_self)
  have hletter : isLetter (l.keywordCase.char d) = true := by
    rw [l.keywordCase.isLetter_char hd]
    exact isLetter_of_isIdentifier hident
  refine ⟨l.keywordCase.char d, u.map l.keywordCase.char, ?_, isWhiteSpace_of_isLetter hletter, ?_⟩
  · rw [Layout.applyCase, l.keywordCase.apply_of_isAscii h.isAscii, htext', List.map_cons]
  · intro hcolon
    rw [hcolon] at hletter
    exact absurd hletter (by decide)

section Writes

variable {l : Layout} {c : Capture} {ts : List Token} {y : Text}

/-- **A parameter that was written is read back**, and reading goes on behind it: the value is
balanced, so it is captured as it stands. -/
theorem Writes.exists_rewritten (h : Writes l c ts) (hc : c.IsReadable) :
    ∃ d, Capture.Rewritten l c d ∧ ∀ {y w : Text}, Text.Widened .blank (texts ts) y →
      capturesFrom (.between none) (following .blank (y ++ w)) =
        d :: capturesFrom (.between none) (following .closing w) := by
  obtain ⟨hchain, k, o, us, t, rfl, hk, hktext, ho, ht, -, hus⟩ := h
  have halike := (alike_unplaced us).1
  refine ⟨⟨k.text, us.map unplaced, true⟩, ⟨hktext, hus.congr_alike halike, rfl⟩, fun hy ↦ ?_⟩
  have hbalanced : IsBalanced 0 (us.map unplaced) := (hus.isBalanced hc.isBalanced).congr halike
  have hlist : ∀ rest, (k :: o :: (us ++ [t])).map unplaced ++ rest =
      k.unplaced :: o.unplaced :: (us.map unplaced ++ t.unplaced :: rest) := by
    simp
  rw [following_eq_of_widened (hy.append_right _), following_chain hchain fun _ _ ↦ rfl, hlist]
  exact capturesFrom_parameter hk ho hbalanced ht

/-- A parameter begins with its keyword, perhaps behind blanks. -/
theorem Writes.exists_blanks (h : Writes l c ts) (hc : c.IsReadable)
    (hy : Text.Widened .blank (texts ts) y) :
    ∃ n d u, y = Text.blanks n ++ d :: u ∧ Text.Widened .blank (texts ts) (d :: u) ∧
      isWhiteSpace d = false ∧ d ≠ ':' := by
  obtain ⟨-, k, o, us, t, rfl, -, hktext, -⟩ := h
  obtain ⟨d, u, htext, hd, hcolon⟩ := hc.exists_letter l
  rw [texts_cons, hktext, htext, List.cons_append] at hy ⊢
  obtain ⟨n, u, rfl, hu⟩ := hy.exists_blanks
  exact ⟨n, d, u, rfl, Text.Widened.keep hu, hd, hcolon⟩

/-- A parameter ends with a closing parenthesis. -/
theorem Writes.exists_concat (h : Writes l c ts) (hy : Text.Widened .blank (texts ts) y) :
    ∃ x, y = x ++ [')'] := by
  obtain ⟨-, k, o, us, t, rfl, -, -, -, -, httext, -⟩ := h
  have hlast : texts (k :: o :: (us ++ [t])) = texts (k :: o :: us) ++ [')'] := by simp [httext]
  exact (hlast ▸ hy).exists_concat (by decide)

/-- **One more parameter in front.** -/
theorem SaysParameters.cons {cs : List Capture} {w : Text} (h : SaysParameters l cs w)
    (hc : c.IsReadable) (n : Nat) (hts : Writes l c ts) {v : Text}
    (hv : Text.Widened .blank (texts ts) v) :
    SaysParameters l (c :: cs) (Text.blanks (n + 1) ++ (v ++ w)) := by
  -- the blanks in front of the keyword belong to those in front of the parameter
  obtain ⟨m, d, y, rfl, hy, hd, hcolon⟩ := hts.exists_blanks hc hv
  have hblanks : Text.blanks (n + 1) ++ (Text.blanks m ++ d :: y ++ w) =
      Text.blanks (n + m + 1) ++ (d :: y ++ w) := by
    rw [List.append_assoc, ← List.append_assoc, Text.blanks, Text.blanks,
      List.replicate_append_replicate, Nat.add_right_comm]
    rfl
  rw [hblanks]
  refine ⟨?_, fun hnil ↦ absurd hnil (List.cons_ne_nil c cs), fun _ ↦ ?_, fun _ ↦ ?_⟩
  · obtain ⟨ds, hds, hreads⟩ := h.reads
    obtain ⟨e, he, hread⟩ := hts.exists_rewritten hc
    refine ⟨e :: ds, List.Forall₂.cons he hds, fun q hq ↦ ?_⟩
    have hstart : Shape.blank.Stops (d :: y ++ w) :=
      stops_cons.2 (by simp [extended, isBlank_eq_false_of_ink hd])
    rw [following_blanks hq (n + m) hstart, capturesFrom_blank rfl, hread hy, hreads .closing rfl]
  · exact ⟨n + m, d, y ++ w, rfl, hd, hcolon⟩
  · by_cases hcs : cs = []
    · obtain ⟨x, hx⟩ := hts.exists_concat hy
      refine ⟨Text.blanks (n + m + 1) ++ x, ')', ?_, by decide, by decide, by decide⟩
      rw [h.eq_nil hcs, List.append_nil, hx, List.append_assoc]
    · rw [← List.append_assoc]
      exact (h.isFinal hcs).append _

end Writes

end Command

namespace Page

open Command

theorem isReady_of_endsInk {p : Page} (h : Text.EndsInk p.current) : p.IsReady :=
  ⟨p.current, 0, (List.append_nil _).symm, h⟩

/-- The text of a parameter ends in ink, so it leaves a line that does. -/
theorem exists_addParameter_eq_wrap (l : Layout) (atoms : List Text) (p : Page) {c : Capture}
    (hc : c.IsReadable) : ∃ t, Text.EndsInk t ∧
      p.addParameter l atoms c.toParameter = wrap l atoms stepLimit p t := by
  obtain ⟨us, hsegments, -⟩ := hc.exists_segments l p
  refine ⟨p.separator ++ texts (ofParameter (l.applyCase c.keyword) us), ?_, ?_⟩
  · rw [texts_ofParameter]
    exact Text.EndsInk.append _ ⟨_, ')', rfl, by decide⟩
  · rw [addParameter, hsegments]
    rfl

/-- **What a page says about its parameters**, if joining its lines undoes the breaks. The induction
is on the parameters; each one leaves a line that ends in ink, where the next one begins behind a
blank. -/
theorem exists_saysParameters {l : Layout} {atoms : List Text}
    (hatoms : ∀ a ∈ atoms, a.IsUnpadded) {cs : List Capture} (hcs : ∀ c ∈ cs, c.IsReadable)
    (hliterals : ∀ c ∈ cs, ∀ t ∈ c.tokens, t.kind = .literal → t.text ∈ atoms) {p : Page}
    (hmends : ∀ q ∈ pieces l atoms p (cs.map Capture.toParameter), ∀ b ∈ q.breaks l atoms,
      l.Mends b.joined)
    (hp : p.IsReady) (hend : cs = [] → Text.EndsInk p.current) :
    ∃ w, SaysParameters l cs w ∧
      ((cs.map Capture.toParameter).foldl (addParameter l atoms) p).spoken l.marker =
        (p.spoken l.marker).trimEnd ++ w ∧
      Text.EndsInk ((cs.map Capture.toParameter).foldl (addParameter l atoms) p).current := by
  induction cs generalizing p with
  | nil =>
    refine ⟨[], SaysParameters.nil l, ?_, hend rfl⟩
    rw [trimEnd_spoken l.marker (hend rfl), List.append_nil]
    rfl
  | cons c cs ih =>
    have hc := hcs c List.mem_cons_self
    have hpieces : pieces l atoms p ((c :: cs).map Capture.toParameter) =
        p.parameterPieces l atoms c.toParameter ++
          pieces l atoms (p.addParameter l atoms c.toParameter) (cs.map Capture.toParameter) := rfl
    rw [hpieces] at hmends
    obtain ⟨n, ts, v, hts, hv, hspoken⟩ := exists_spoken_addParameter hatoms hp hc
      (hliterals c List.mem_cons_self) fun q hq ↦ hmends q (List.mem_append_left _ hq)
    obtain ⟨t, ht, hwrap⟩ := exists_addParameter_eq_wrap l atoms p hc
    have hend' : Text.EndsInk (p.addParameter l atoms c.toParameter).current := by
      rw [hwrap]
      exact endsInk_wrap _ ht
    obtain ⟨w, hw, hfold, hcurrent⟩ := ih (fun d hd ↦ hcs d (List.mem_cons_of_mem _ hd))
      (fun d hd ↦ hliterals d (List.mem_cons_of_mem _ hd))
      (fun q hq ↦ hmends q (List.mem_append_right _ hq)) (isReady_of_endsInk hend') fun _ ↦ hend'
    refine ⟨_, hw.cons hc n hts hv, ?_, hcurrent⟩
    rw [List.map_cons, List.foldl_cons, hfold, trimEnd_spoken l.marker hend', hspoken,
      List.append_assoc, List.append_assoc]

end Page

end ControlLanguage
