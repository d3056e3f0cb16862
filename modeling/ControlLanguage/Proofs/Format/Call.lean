import ControlLanguage.Proofs.Format.Context
import ControlLanguage.Proofs.Format.Greedy
import ControlLanguage.Proofs.Format.Growth

/-!
# Calls are laid out all or nothing

A call of a built-in function is one text, `name(arg … arg)`, in one piece for the wrap loop; or its
name with the parenthesis is the end of a piece and **each argument begins a continuation line of
its own** (`Command.Place.isWhole_or_isSpread`).

Which of the two it is depends on where the call is expected to begin, and this may differ from
where it does begin: items in front of it, lines that were broken and parentheses behind it are not
looked at. So a call in one piece is whole on one line if it fits where it begins
(`Piece.FitsAt`). That is always so for a call that is the value of its parameter, where the column
is the expected one and one parenthesis follows. Nor is there a line for every name: a text without
blanks that is too long for a continuation line is cut, be it the name of a call.
-/

namespace ControlLanguage

open Text Segments

namespace Command

/-- A place for a value in a command: in a parameter, at any depth. -/
structure Place where
  name : Text
  front : List Parameter
  keyword : Text
  context : Value.Context
  back : List Parameter

namespace Place

/-- The command with a value in the place. -/
def fill (P : Place) (v : Value) : Command :=
  ⟨P.name, P.front ++ ⟨P.keyword, P.context.fill v⟩ :: P.back⟩

/-- The place of an argument, in the place of its call. -/
def argument (P : Place) (name : Text) (vs ws : List Value) : Place :=
  { P with context := P.context.comp (.argument name vs .hole ws) }

section Layout

variable (l : Layout) (label : Option Text) (P : Place) (v : Value)

def atoms : List Text :=
  (P.fill v).atoms l.keywordCase

/-- The page on which the parameter is put. -/
def page : Page :=
  P.front.foldl (Page.addParameter l (P.atoms l v)) ((P.fill v).firstPage l (label.getD []))

/-- What is written in front of the parameter's value. -/
def head : Text :=
  (P.page l label v).separator ++ l.applyCase P.keyword ++ ['(']

/-- Where the parameter's value begins, unless the line is closed in front of it. -/
def start : Nat :=
  (P.page l label v).current.length + (P.head l label v).length

/-- Where the value in the place is expected to begin. -/
def indent : Nat :=
  P.context.indent (P.start l label v)

/-- The layout of what is in front of the place. -/
def before : Segments :=
  single (P.head l label v) ++ P.context.before l v (P.start l label v)

/-- The layout of the value. -/
def layout : Segments :=
  ofValue l (P.indent l label v) v

/-- The layout of what is behind the place. -/
def after : Segments :=
  P.context.after l v (P.start l label v) ++ single [')']

/-- The pieces of the parameter. -/
def pieces : List Piece :=
  (P.page l label v).parameterPieces l (P.atoms l v) ⟨P.keyword, P.context.fill v⟩

/-- **The pieces of the parameter are those in front of the place, in it and behind it**, where each
of these begins in the piece in which the one before ends. -/
theorem map_text_pieces : (P.pieces l label v).map (·.text) =
    (P.before l label v ++ (P.layout l label v ++ P.after l label v)).toList := by
  have hindent : (P.page l label v).current.length + (P.page l label v).separator.length +
      (l.applyCase P.keyword).length + 1 = P.start l label v := by
    rw [start, head, List.length_append, List.length_append, List.length_singleton]
    omega
  have hsegments : single (P.page l label v).separator ++
      (P.page l label v).parameterSegments l ⟨P.keyword, P.context.fill v⟩ =
        P.before l label v ++ (P.layout l label v ++ P.after l label v) := by
    have hhead : single (P.head l label v) = single (P.page l label v).separator ++
        single (l.applyCase P.keyword ++ ['(']) := by
      rw [head, List.append_assoc]
      rfl
    simp only [Page.parameterSegments, hindent, prepend_eq, append_eq, ofValue_fill, before, after,
      layout, indent, hhead, append_assoc]
  rw [← hsegments, pieces, Page.parameterPieces, Page.map_text_segmentPieces]
  rfl

theorem length_rest_before_lt : (P.before l label v).rest.length < (P.pieces l label v).length := by
  have hlength := congrArg List.length (P.map_text_pieces l label v)
  rw [List.length_map, toList, List.length_cons, length_rest_append] at hlength
  omega

/-- The piece in which the value begins. -/
def piece : Piece :=
  (P.pieces l label v).get ⟨_, P.length_rest_before_lt l label v⟩

theorem getElem?_pieces :
    (P.pieces l label v)[(P.before l label v).rest.length]? = some (P.piece l label v) :=
  List.getElem?_eq_getElem _

theorem text_piece : (P.piece l label v).text =
    (P.before l label v).last ++ (P.layout l label v ++ P.after l label v).first := by
  have hget := congrArg (·[(P.before l label v).rest.length]?) (P.map_text_pieces l label v)
  simp only [List.getElem?_map, getElem?_pieces, getElem?_toList_append] at hget
  exact Option.some.inj hget

/-- The lines of the command. -/
def lines : List Text :=
  ((P.fill v).format l label).lines

/-- The lines of the command come from the page with a piece on it, and from what follows. -/
theorem exists_filledBy {n : Nat} {q : Piece} (hq : (P.pieces l label v)[n]? = some q) :
    ∃ qs p, Page.FilledBy l (P.atoms l v) (q.filled l (P.atoms l v)) qs p ∧
      P.lines l label v = p.lines := by
  have hparameter := @Page.filledBy_segmentPieces l (P.atoms l v) (P.page l label v)
    ((P.page l label v).separator ++
      ((P.page l label v).parameterSegments l ⟨P.keyword, P.context.fill v⟩).first)
    ((P.page l label v).parameterSegments l ⟨P.keyword, P.context.fill v⟩).rest
  have hback := @Page.filledBy_pieces l (P.atoms l v)
    ((P.page l label v).addParameter l (P.atoms l v) ⟨P.keyword, P.context.fill v⟩) P.back
  have hpieces := hparameter.append hback
  have hmem : (P.pieces l label v ++ Page.pieces l (P.atoms l v)
      ((P.page l label v).addParameter l (P.atoms l v) ⟨P.keyword, P.context.fill v⟩)
      P.back)[n]? = some q := by
    rw [List.getElem?_append_left (List.getElem?_eq_some_iff.1 hq).1, hq]
  refine ⟨_, _, hpieces.drop hmem, ?_⟩
  have hfold : (P.fill v).page l (P.atoms l v) (label.getD []) =
      P.back.foldl (Page.addParameter l (P.atoms l v))
        ((P.page l label v).addParameter l (P.atoms l v) ⟨P.keyword, P.context.fill v⟩) :=
    List.foldl_append
  rw [← hfold]
  rfl

/-- **A place in a later piece begins a continuation line.** -/
theorem page_piece {n : Nat} (h : (P.before l label v).rest.length = n + 1) {q : Piece}
    (hq : (P.pieces l label v)[n]? = some q) :
    (P.piece l label v).page = (q.filled l (P.atoms l v)).breakLine l false := by
  have hget := P.getElem?_pieces l label v
  rw [h] at hget
  exact Page.page_eq_breakLine hq hget

/-- The line in front is the one on which the piece before it ends. -/
theorem exists_line_before {n : Nat} (h : (P.before l label v).rest.length = n + 1) {q : Piece}
    (hq : (P.pieces l label v)[n]? = some q) :
    ∃ k, (P.piece l label v).page.closed.length = k + 1 ∧ (P.lines l label v)[k]? =
      some ((q.filled l (P.atoms l v)).current.trimEnd ++ l.ending false) := by
  obtain ⟨qs, p, hfill, hlines⟩ := P.exists_filledBy l label v (P.getElem?_pieces l label v)
  have hextends : (P.piece l label v).page.Extends p :=
    (Page.Extends.wrap Page.stepLimit _ _).trans hfill.extends
  rw [P.page_piece l label v h hq] at hextends ⊢
  refine ⟨(q.filled l (P.atoms l v)).closed.length, ?_, ?_⟩
  · rw [Page.closed_breakLine, List.length_append, List.length_singleton]
  · rw [hlines]
    exact hextends.getElem?_lines_of_breakLine

end Layout

/-! ### Arguments -/

section Argument

variable (l : Layout) (label : Option Text) (P : Place) (name : Text) (vs : List Value) (v : Value)
  (ws : List Value)

theorem fill_argument : (P.argument name vs ws).fill v =
    P.fill (.function name (vs ++ v :: ws)) := by
  simp only [fill, argument, Value.Context.fill_comp, Value.Context.fill]

theorem atoms_argument : (P.argument name vs ws).atoms l v =
    P.atoms l (.function name (vs ++ v :: ws)) := by
  rw [atoms, fill_argument, atoms]

theorem page_argument : (P.argument name vs ws).page l label v =
    P.page l label (.function name (vs ++ v :: ws)) := by
  rw [page, fill_argument, atoms_argument, page]
  rfl

theorem start_argument : (P.argument name vs ws).start l label v =
    P.start l label (.function name (vs ++ v :: ws)) := by
  rw [start, head, page_argument, start, head]
  rfl

theorem pieces_argument : (P.argument name vs ws).pieces l label v =
    P.pieces l label (.function name (vs ++ v :: ws)) := by
  rw [pieces, page_argument, atoms_argument, pieces]
  simp only [argument, Value.Context.fill_comp, Value.Context.fill]

theorem lines_argument : (P.argument name vs ws).lines l label v =
    P.lines l label (.function name (vs ++ v :: ws)) := by
  rw [lines, fill_argument, lines]

/-- The layouts of the arguments of a call. -/
def arguments (l : Layout) (label : Option Text) (P : Place) (name : Text) (args : List Value) :
    List Segments :=
  ofValues l (P.indent l label (.function name args) + name.length + 1) args

/-- Whether a call in the place is expected to fit on one line. -/
def isInline (l : Layout) (label : Option Text) (P : Place) (name : Text) (args : List Value) :
    Bool :=
  Segments.isInline l (P.indent l label (.function name args)) name (P.arguments l label name args)

variable {l label P name vs v ws}

/-- In front of an argument of a call that is expected to be too long there is a new line. -/
theorem before_argument (h : P.isInline l label name (vs ++ v :: ws) = false) :
    (P.argument name vs ws).before l label v =
      P.before l label (.function name (vs ++ v :: ws)) ++ (single (name ++ ['(']) ++
        concat ((ofValues l (P.indent l label (.function name (vs ++ v :: ws)) + name.length + 1)
          vs).map (newLine ++ ·))) ++ newLine := by
  have hargument : (Value.Context.argument name vs .hole ws).before l v
      (P.indent l label (.function name (vs ++ v :: ws))) =
      single (name ++ ['(']) ++ newLine ++ concat ((ofValues l
        (P.indent l label (.function name (vs ++ v :: ws)) + name.length + 1) vs).map
          (· ++ newLine)) := by
    rw [isInline, arguments] at h
    simp only [Value.Context.before, Value.Context.fill, h, opening, separator, append_single_nil]
    rfl
  have hhead : (P.argument name vs ws).head l label v =
      P.head l label (.function name (vs ++ v :: ws)) := by
    rw [head, page_argument, head]
    rfl
  have hcomp := Value.Context.before_comp l P.context (.argument name vs .hole ws) v
    (P.start l label (.function name (vs ++ v :: ws)))
  rw [← indent, hargument] at hcomp
  rw [before, hhead, start_argument, before]
  show _ ++ (P.context.comp _).before l v _ = _
  rw [hcomp, append_assoc _ newLine, concat_map_append]
  simp only [append_assoc]
  rfl

/-- **An argument of a call that is expected to be too long begins a piece.** -/
theorem last_before_argument (h : P.isInline l label name (vs ++ v :: ws) = false) :
    ((P.argument name vs ws).before l label v).last = [] := by
  rw [before_argument h, last_append_newLine]

theorem length_rest_before_argument (h : P.isInline l label name (vs ++ v :: ws) = false) :
    ((P.argument name vs ws).before l label v).rest.length =
      (P.before l label (.function name (vs ++ v :: ws))).rest.length +
        (concat ((ofValues l (P.indent l label (.function name (vs ++ v :: ws)) + name.length + 1)
          vs).map (newLine ++ ·))).rest.length + 1 := by
  rw [before_argument h, length_rest_append, length_rest_append, length_rest_append]
  show _ + (0 + _) + 1 = _
  omega

end Argument

/-! ### The two ways -/

section

variable (l : Layout) (label : Option Text) (P : Place) (name : Text) (args : List Value)

/-- The call on one line. -/
def inlineText : Text :=
  inlineCall name (P.arguments l label name args)

/-- A value that begins a line, with nothing in front of it but the blanks up to the continuation
column. The line has as much of the value's first word as there is room for. -/
structure BeginsLine (l : Layout) (label : Option Text) (P : Place) (v : Value) : Prop where
  last_before : (P.before l label v).last = []
  fresh : (P.piece l label v).page.current = blanks (l.continuationColumn - 1)
  line : ∀ w, w ≠ [] → (∀ c ∈ w, isWhiteSpace c = false) → w <+: (P.layout l label v).first →
    ∃ line, (P.lines l label v)[(P.piece l label v).page.closed.length]? = some line ∧
      blanks (l.continuationColumn - 1) ++
        w.take (l.rightMargin - l.continuationColumn - 1) <+: line

/-- A text that is whole in the piece in which a value begins, and on one line if it fits there. -/
structure IsWhole (l : Layout) (label : Option Text) (P : Place) (v : Value) (t : Text) : Prop where
  text : ∃ right, (P.piece l label v).text = (P.before l label v).last ++ t ++ right
  unbroken : (P.piece l label v).FitsAt l (P.atoms l v) (P.before l label v).last.length t.length →
    (P.piece l label v).KeepsAt l (P.atoms l v) (P.before l label v).last.length t.length ∧
      ∃ line ∈ P.lines l label v, t <:+: line
  /-- It fits if it begins no later than expected, and the line may end behind it or behind one more
  character. -/
  expected : P.indent l label v + t.length + 3 ≤ l.rightMargin →
    (P.piece l label v).widthBefore l (P.atoms l v) (P.before l label v).last.length ≤
      P.indent l label v →
    ∀ e, (P.before l label v).last.length + t.length ≤ e →
      e ≤ (P.before l label v).last.length + t.length + 1 →
      (e = (P.piece l label v).text.length ∨ Break.isUsable
        (Span.ofAtoms (P.atoms l v) (P.piece l label v).text) (P.piece l label v).text e = true) →
      (P.piece l label v).FitsAt l (P.atoms l v) (P.before l label v).last.length t.length
  /-- As the value of its parameter it begins where it was expected to. -/
  direct : P.indent l label v + t.length + 3 ≤ l.rightMargin → P.context = .hole →
    (P.piece l label v).FitsAt l (P.atoms l v) (P.before l label v).last.length t.length

/-- A call with a line for each argument. -/
structure IsSpread (l : Layout) (label : Option Text) (P : Place) (name : Text)
    (args : List Value) : Prop where
  /-- The name with the parenthesis is the end of a piece. -/
  text : (P.piece l label (.function name args)).text =
    (P.before l label (.function name args)).last ++ (name ++ ['('])
  argument : ∀ vs v ws, args = vs ++ v :: ws → (P.argument name vs ws).BeginsLine l label v
  /-- The lines of the arguments come one after the other. -/
  increasing : ∀ vs v us w ws, args = vs ++ v :: us ++ w :: ws →
    ((P.argument name vs (us ++ w :: ws)).piece l label v).page.closed.length <
      ((P.argument name (vs ++ v :: us) ws).piece l label w).page.closed.length
  /-- The name with the parenthesis ends the line in front of them, if it fits on a line. -/
  opening : ' ' ∉ name →
    (P.piece l label (.function name args)).EndFits l (P.atoms l (.function name args)) →
    ∀ v ws, args = v :: ws → ∃ k y,
      ((P.argument name [] ws).piece l label v).page.closed.length = k + 1 ∧
      (P.lines l label (.function name args))[k]? = some (y ++ (name ++ ['(']) ++ l.ending false)

end

/-! ### In one piece -/

section Whole

variable {l : Layout} {label : Option Text} {P : Place} {v : Value} {t : Text}
  (hlayout : P.layout l label v = single t)

include hlayout

theorem text_piece_of_single : (P.piece l label v).text =
    (P.before l label v).last ++ t ++ (P.after l label v).first := by
  rw [P.text_piece, hlayout, single, mk_nil_append, List.append_assoc]

/-- The value of a parameter that fits where it is expected to begin fits where it does begin. -/
theorem fitsAt_of_hole (hmargin : P.indent l label v + t.length + 3 ≤ l.rightMargin)
    (hhole : P.context = .hole) : (P.piece l label v).FitsAt l (P.atoms l v)
      (P.before l label v).last.length t.length := by
  have hbefore : P.before l label v = single (P.head l label v) := by
    rw [before, hhole]
    exact append_single_nil _
  have hafter : P.after l label v = single [')'] := by
    rw [after, hhole]
    rfl
  have hindent : P.indent l label v = P.start l label v := by
    rw [indent, hhole]
    rfl
  have hpage : (P.piece l label v).page = P.page l label v := by
    have hget := P.getElem?_pieces l label v
    rw [hbefore] at hget
    exact congrArg Piece.page
      (Option.some.inj (hget.symm.trans (Page.getElem?_segmentPieces_zero _ _ _)))
  have hlength := congrArg List.length (text_piece_of_single hlayout)
  rw [hbefore, hafter] at hlength
  rw [hindent, start] at hmargin
  rw [hbefore]
  simp only [last, single, List.getLast?_nil, Option.getD_none, List.length_append,
    List.length_singleton] at hlength ⊢
  refine Piece.fitsAt_of_length_le (by omega) ?_
  rw [hlength, Page.room, hpage]
  omega

/-- **A value of one piece of text is whole**, if it ends in ink. -/
theorem isWhole_of_single (hink : EndsInk t) : P.IsWhole l label v t := by
  have htext := text_piece_of_single hlayout
  have hpos : 0 < t.length := List.length_pos_iff.2 hink.ne_nil
  refine ⟨⟨_, htext⟩, fun hfits ↦ ⟨hfits.keepsAt hpos, ?_⟩,
    fun hmargin hwidth e he hle hend ↦ ⟨e, he, hend, by omega⟩, fitsAt_of_hole hlayout⟩
  have hprefix : t <+: (P.piece l label v).text.drop (P.before l label v).last.length := by
    rw [htext, List.append_assoc, List.drop_left]
    exact List.prefix_append _ _
  obtain ⟨qs, p, hfill, hlines⟩ := P.exists_filledBy l label _ (P.getElem?_pieces l label _)
  rw [hlines]
  exact (hfill.holds hink ((hfits.keepsAt hpos).holds_filled hink hprefix)).exists_line hink

end Whole

/-! ### On several lines -/

section Spread

variable {l : Layout} {label : Option Text} {P : Place}

/-- **A value in a later piece begins its line**, if nothing is in front of it in the piece. -/
theorem beginsLine_of_last_eq_nil {v : Value} (hlast : (P.before l label v).last = [])
    {n : Nat} (hn : (P.before l label v).rest.length = n + 1) : P.BeginsLine l label v := by
  have hlt := P.length_rest_before_lt l label v
  rw [hn] at hlt
  have hq := List.getElem?_eq_getElem (Nat.lt_of_succ_lt hlt)
  have hpage := P.page_piece l label v hn hq
  have hcurrent : (P.piece l label v).page.current = blanks (l.continuationColumn - 1) := by
    rw [hpage]
    rfl
  have hroom : ((P.piece l label v).page.room l).toNat =
      l.rightMargin - l.continuationColumn - 1 := by
    rw [hpage, Page.room_breakLine]
    omega
  have hmargin := l.continuation_add_ten_le
  have hpos : 1 ≤ (P.piece l label v).page.room l := by omega
  refine ⟨hlast, hcurrent, fun w hne hink hw ↦ ?_⟩
  have hprefix : w <+: (P.piece l label v).text := by
    rw [P.text_piece, hlast]
    exact hw.trans (first_prefix_append _ _)
  have hblank : ' ' ∉ w := fun hmem ↦ absurd (hink _ hmem) (by decide)
  obtain ⟨x, hx, hextends⟩ := @Page.exists_extends_of_prefix l (P.atoms l v) _
    (hcurrent ▸ isWhite_blanks _) hpos w _ hprefix hne hblank Page.stepLimit (by decide)
  obtain ⟨qs, p, hfill, hlines⟩ := P.exists_filledBy l label v (P.getElem?_pieces l label v)
  rw [hroom] at hx
  rw [hlines]
  refine (hextends.trans hfill.extends).exists_line ?_ ?_
  · have htake : w.take (l.rightMargin - l.continuationColumn - 1) ≠ [] := by
      rw [Ne, List.take_eq_nil_iff]
      exact not_or.2 ⟨by omega, hne⟩
    exact (endsInk_of_forall htake fun c hc ↦ hink c (List.mem_of_mem_take hc)).append _
  · show _ <+: _ ++ x
    rw [hcurrent]
    exact (List.prefix_append_right_inj _).2 hx

variable {name : Text} {args : List Value} (h : P.isInline l label name args = false)

include h

/-- The name of a call that is expected to be too long ends a piece. -/
theorem text_piece_of_spread (hne : args ≠ []) : (P.piece l label (.function name args)).text =
    (P.before l label (.function name args)).last ++ (name ++ ['(']) := by
  obtain ⟨v, ws, rfl⟩ := List.exists_cons_of_ne_nil hne
  have hlayout : P.layout l label (.function name (v :: ws)) =
      brokenCall name (P.arguments l label name (v :: ws)) :=
    (call_eq _ _ _ _).trans (if_neg (Bool.eq_false_iff.1 h))
  rw [P.text_piece, hlayout, brokenCall_eq, arguments, ofValues, List.map_cons, concat_cons]
  simp only [append_assoc, first_single_append_newLine]

/-- Its arguments are in later and later pieces, so their lines come one after the other. -/
theorem length_closed_argument_lt {vs us ws : List Value} {v w : Value}
    (hargs : args = vs ++ v :: us ++ w :: ws) :
    ((P.argument name vs (us ++ w :: ws)).piece l label v).page.closed.length <
      ((P.argument name (vs ++ v :: us) ws).piece l label w).page.closed.length := by
  have hargs' : args = vs ++ v :: (us ++ w :: ws) := by rw [hargs]; simp
  have hfirst := (P.argument name vs (us ++ w :: ws)).getElem?_pieces l label v
  have hsecond := (P.argument name (vs ++ v :: us) ws).getElem?_pieces l label w
  have hlength := length_rest_before_argument (hargs' ▸ h)
  have hlength' := length_rest_before_argument (hargs ▸ h)
  rw [pieces_argument, ← hargs'] at hfirst
  rw [pieces_argument, ← hargs] at hsecond
  rw [← hargs'] at hlength
  rw [← hargs, ofValues_append, List.map_append, concat_append, length_rest_append, ofValues,
    List.map_cons, concat_cons, length_rest_append, length_rest_append] at hlength'
  have hnewLine : newLine.rest.length = 1 := rfl
  exact Page.length_closed_lt_of_lt (by omega) hfirst hsecond

/-- Its name ends the line in front of the first argument. -/
theorem exists_line_opening (hblank : ' ' ∉ name) {v : Value} {ws : List Value}
    (hargs : args = v :: ws) (hfits : (P.piece l label (.function name args)).EndFits l
      (P.atoms l (.function name args))) :
    ∃ k y, ((P.argument name [] ws).piece l label v).page.closed.length = k + 1 ∧
      (P.lines l label (.function name args))[k]? =
        some (y ++ (name ++ ['(']) ++ l.ending false) := by
  have htext := text_piece_of_spread h (hargs ▸ List.cons_ne_nil v ws)
  subst hargs
  have hindex : ((P.argument name [] ws).before l label v).rest.length =
      (P.before l label (.function name (v :: ws))).rest.length + 1 :=
    length_rest_before_argument h
  have hq : ((P.argument name [] ws).pieces l label v)[
      (P.before l label (.function name (v :: ws))).rest.length]? =
        some (P.piece l label (.function name (v :: ws))) := by
    rw [pieces_argument]
    exact P.getElem?_pieces l label _
  obtain ⟨k, hk, hline⟩ := (P.argument name [] ws).exists_line_before l label v hindex hq
  have hsuffix : name ++ ['('] <:+ (P.piece l label (.function name (v :: ws))).text := by
    rw [htext]
    exact List.suffix_append _ _
  have hword : ' ' ∉ name ++ ['('] := by simpa using hblank
  obtain ⟨y, hy⟩ := hfits.suffix_current_filled hsuffix hword
  have hink : EndsInk (y ++ (name ++ ['('])) := ⟨y ++ name, '(', by simp, by decide⟩
  rw [lines_argument, atoms_argument, List.nil_append, ← hy, trimEnd_of_endsInk hink] at hline
  exact ⟨k, y, hk, hline⟩

/-- **A call that is expected to be too long has a line for each argument.** -/
theorem isSpread_of_isInline_eq_false (hne : args ≠ []) : P.IsSpread l label name args where
  text := text_piece_of_spread h hne
  argument vs v ws hargs := by
    subst hargs
    exact beginsLine_of_last_eq_nil (last_before_argument h) (length_rest_before_argument h)
  increasing vs v us w ws hargs := length_closed_argument_lt h hargs
  opening hblank hfits v ws hargs := exists_line_opening h hblank hargs hfits

end Spread

/-- **A call is laid out all or nothing.** It is one text if it is expected to fit on one line, or
if it has no arguments, and else it has a line for each argument. -/
theorem isWhole_or_isSpread (l : Layout) (label : Option Text) (P : Place) (name : Text)
    (args : List Value) :
    if P.isInline l label name args || args.isEmpty then
      P.IsWhole l label (.function name args) (P.inlineText l label name args)
    else P.IsSpread l label name args := by
  have hlayout : P.layout l label (.function name args) =
      if P.isInline l label name args then single (P.inlineText l label name args)
      else brokenCall name (P.arguments l label name args) := rfl
  have hink : EndsInk (P.inlineText l label name args) := ⟨_, ')', rfl, by decide⟩
  cases h : P.isInline l label name args with
  | true => exact isWhole_of_single (hlayout.trans (if_pos h)) hink
  | false =>
    cases args with
    | nil =>
      -- without arguments there is nothing to begin a line with
      have hempty : brokenCall name [] = single (inlineCall name []) := by
        simp [brokenCall, inlineCall, Segments.append, single, Text.joinBlank]
      exact isWhole_of_single (hlayout.trans ((if_neg (Bool.eq_false_iff.1 h)).trans hempty)) hink
    | cons v ws => exact isSpread_of_isInline_eq_false h (List.cons_ne_nil v ws)

/-- The same call is whole on one line or has a line for each argument, depending on the margin. -/
theorem isWhole_or_isSpread_changeVariable :
    ∃ (P : Place) (args : List Value), P.fill (.function "%SST".toList args) =
      ⟨"CHGVAR".toList, [⟨"VAR".toList, .scalar "&X".toList⟩, ⟨"VALUE".toList,
        .function "%SST".toList (["&NAME", "1", "10"].map fun w ↦ .scalar w.toList)⟩]⟩ ∧
      (∃ line ∈ P.lines { rightMargin := 57 } none (.function "%SST".toList args),
        "%SST(&NAME 1 10)".toList <:+: line) ∧
      P.IsSpread { rightMargin := 56 } none "%SST".toList args := by
  obtain ⟨args, hargs⟩ : ∃ args : List Value,
      args = ["&NAME", "1", "10"].map fun w ↦ .scalar w.toList := ⟨_, rfl⟩
  obtain ⟨P, hP⟩ : ∃ P : Place, P =
      ⟨"CHGVAR".toList, [⟨"VAR".toList, .scalar "&X".toList⟩], "VALUE".toList, .hole, []⟩ :=
    ⟨_, rfl⟩
  have hwhole := isWhole_or_isSpread { rightMargin := 57 } none P "%SST".toList args
  have hspread := isWhole_or_isSpread { rightMargin := 56 } none P "%SST".toList args
  have hatoms : (P.fill (.function "%SST".toList args)).atoms .upper =
      ["1".toList, "10".toList, "VALUE(".toList, "VAR(".toList] := by
    rw [hP, hargs]
    exact atoms_eq_of_perm (by decide +kernel) (by decide)
  have hfits :
      (P.isInline { rightMargin := 57 } none "%SST".toList args || args.isEmpty) = true := by
    rw [isInline, arguments, indent, start, head, page, atoms, hatoms, hP, hargs]
    decide +kernel
  have hlong :
      (P.isInline { rightMargin := 56 } none "%SST".toList args || args.isEmpty) = false := by
    rw [isInline, arguments, indent, start, head, page, atoms, hatoms, hP, hargs]
    decide +kernel
  have htext : P.inlineText { rightMargin := 57 } none "%SST".toList args =
      "%SST(&NAME 1 10)".toList := by
    rw [hargs]
    rfl
  have hindent : P.indent { rightMargin := 57 } none (.function "%SST".toList args) = 38 := by
    rw [indent, start, head, page, atoms, hatoms, hP, hargs]
    decide +kernel
  rw [if_pos hfits, htext] at hwhole
  rw [hlong] at hspread
  refine ⟨P, args, by rw [hP, hargs]; rfl, ?_, hspread⟩
  exact (hwhole.unbroken (hwhole.direct (by rw [hindent]; decide) (by rw [hP]))).2

/-- A layout with little room on its lines. -/
def narrow : Layout where
  labelColumn := 1
  commandColumn := 2
  parameterColumn := 5
  continuationColumn := 10
  rightMargin := 20

/-- **Not every call is whole on a line or has its name at the end of one**: a name that is too long
for a continuation line is cut. And a call that was expected to fit on one line may be broken, where
items of a list stand in front of it. -/
theorem not_forall_exists_line_of_call :
    (¬ ∀ (l : Layout) (label : Option Text) (P : Place) (name : Text) (ws : List Text),
      (∀ w ∈ ws, w ≠ [] ∧ ' ' ∉ w) →
        (∃ line ∈ P.lines l label (.function name (ws.map .scalar)),
          P.inlineText l label name (ws.map .scalar) <:+: line) ∨
        ∃ line ∈ P.lines l label (.function name (ws.map .scalar)),
          name ++ ['('] ++ l.ending false <:+ line) ∧
    ¬ ∀ (l : Layout) (label : Option Text) (P : Place) (name : Text) (ws : List Text),
      (∀ w ∈ ws, w ≠ [] ∧ ' ' ∉ w) → P.isInline l label name (ws.map .scalar) = true →
        ∃ line ∈ P.lines l label (.function name (ws.map .scalar)),
          P.inlineText l label name (ws.map .scalar) <:+: line := by
  refine ⟨fun h ↦ ?_, fun h ↦ ?_⟩
  · obtain ⟨P, hP⟩ : ∃ P : Place, P =
        ⟨"CHGVAR".toList, [], "VALUE".toList, .hole, []⟩ := ⟨_, rfl⟩
    have hatoms : (P.fill (.function "%SST".toList
        (["&A".toList, "1".toList, "2".toList].map .scalar))).atoms narrow.keywordCase =
          ["1".toList, "2".toList, "VALUE(".toList] := by
      rw [hP]
      exact atoms_eq_of_perm (by decide +kernel) (by decide)
    have hlines : P.lines narrow none (.function "%SST".toList
        (["&A".toList, "1".toList, "2".toList].map .scalar)) =
        [" CHGVAR +".toList, "         VALUE(%SS+".toList, "         T( +".toList,
          "         &A +".toList, "         1 +".toList, "         2))".toList] := by
      rw [lines, format, hatoms, hP]
      decide +kernel
    have htext : P.inlineText narrow none "%SST".toList
        (["&A".toList, "1".toList, "2".toList].map .scalar) = "%SST(&A 1 2)".toList := rfl
    have hcut := h narrow none P "%SST".toList ["&A".toList, "1".toList, "2".toList] (by decide)
    rw [hlines, htext] at hcut
    revert hcut
    decide
  · obtain ⟨P, hP⟩ : ∃ P : Place, P = ⟨"X".toList, [], "LIST".toList,
        .item (["FIRST", "SECOND", "THIRD", "FOURTH"].map fun w ↦ .scalar w.toList) .hole [], []⟩ :=
      ⟨_, rfl⟩
    have hatoms : (P.fill (.function "%SST".toList
        (["&NAME".toList, "1".toList, "10".toList].map .scalar))).atoms
          Layout.standard.keywordCase = ["1".toList, "10".toList, "LIST(".toList] := by
      rw [hP]
      exact atoms_eq_of_perm (by decide +kernel) (by decide)
    have hlines : P.lines .standard none (.function "%SST".toList
        (["&NAME".toList, "1".toList, "10".toList].map .scalar)) =
        ["             X          LIST((FIRST SECOND THIRD FOURTH %SST(&NAME 1 +".toList,
          "                          10)))".toList] := by
      rw [lines, format, hatoms, hP]
      decide +kernel
    have htext : P.inlineText .standard none "%SST".toList
        (["&NAME".toList, "1".toList, "10".toList].map .scalar) = "%SST(&NAME 1 10)".toList := rfl
    have hinline : P.isInline .standard none "%SST".toList
        (["&NAME".toList, "1".toList, "10".toList].map .scalar) = true := by
      rw [isInline, arguments, indent, start, head, page, atoms, hatoms, hP]
      decide +kernel
    have hbroken := h .standard none P "%SST".toList ["&NAME".toList, "1".toList, "10".toList]
      (by decide) hinline
    rw [hlines, htext] at hbroken
    revert hbroken
    decide +kernel

end Place

end Command

end ControlLanguage
