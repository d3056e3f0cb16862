import ControlLanguage.Format.Segment
import ControlLanguage.Proofs.Part.Splitting
import Mathlib.Data.List.Basic

/-!
# Where a value stands in a layout

A value inside another one is found by its context, the value around it with a hole in its place.
Laid out with a value in the hole, a context has one layout in front of the value and one behind it:
**the layout of the whole is these three put together** (`Segments.ofValue_fill`), and the value
itself is laid out as it would be alone at the indent that the context leads to.

Layouts are put together by making the last piece of the one and the first of the other one piece.
Everything that a value is built from can be written in this way: a text is a layout of one piece,
and a new line is one of two empty pieces.
-/

namespace ControlLanguage

/-! ### Layouts put together -/

namespace Segments

/-- Two layouts one behind the other. -/
instance : Append Segments :=
  ⟨beside []⟩

/-- The end of a line and the start of the next one. -/
def newLine : Segments :=
  ⟨[], [[]]⟩

/-- Several layouts one behind the other. -/
def concat (ss : List Segments) : Segments :=
  ss.foldr (· ++ ·) (single [])

/-- The last piece. -/
def last (s : Segments) : Text :=
  s.rest.getLast?.getD s.first

/-- A text on one line goes on with the first line of what follows. -/
theorem mk_nil_append (u : Text) (s : Segments) :
    (⟨u, []⟩ : Segments) ++ s = ⟨u ++ s.first, s.rest⟩ :=
  rfl

/-- The last line of a text goes on with the first line of what follows. -/
theorem mk_concat_append (u : Text) (us : List Text) (v : Text) (s : Segments) :
    (⟨u, us ++ [v]⟩ : Segments) ++ s = ⟨u, us ++ (v ++ s.first) :: s.rest⟩ := by
  show beside [] _ s = _
  simp [beside, append]

/-- Pieces behind a new line stay as they are. -/
theorem append_mk_nil (s : Segments) (us : List Text) :
    s ++ ⟨[], us⟩ = ⟨s.first, s.rest ++ us⟩ := by
  obtain ⟨a, as⟩ := s
  rcases List.eq_nil_or_concat' as with rfl | ⟨as, c, rfl⟩
  · simp only [mk_nil_append, List.append_nil, List.nil_append]
  · rw [mk_concat_append, List.append_nil, List.append_assoc]
    rfl

@[simp]
theorem append_single_nil (s : Segments) : s ++ single [] = s := by
  rw [single, append_mk_nil, List.append_nil]

/-- **Layouts are put together in any grouping**, so what stands around a place is put together by
itself. -/
@[simp]
theorem append_assoc (s t u : Segments) : s ++ t ++ u = s ++ (t ++ u) := by
  obtain ⟨a, as⟩ := s
  obtain ⟨b, bs⟩ := t
  -- the middle layout may be a single piece, which then is joined on both sides
  rcases List.eq_nil_or_concat' as with rfl | ⟨as, c, rfl⟩ <;>
    rcases List.eq_nil_or_concat' bs with rfl | ⟨bs, d, rfl⟩
  · simp only [mk_nil_append, List.append_assoc]
  · simp only [mk_nil_append, mk_concat_append]
  · simp only [mk_nil_append, mk_concat_append, List.append_assoc]
  · have hcons : as ++ (c ++ b) :: (bs ++ [d]) = (as ++ (c ++ b) :: bs) ++ [d] := by
      rw [List.append_assoc, List.cons_append]
    rw [mk_concat_append, hcons, mk_concat_append, mk_concat_append, mk_concat_append,
      List.append_assoc, List.cons_append]

/-- What is written in front is a layout of one line. -/
theorem prepend_eq (u : Text) (s : Segments) : s.prepend u = single u ++ s :=
  rfl

theorem append_eq (s : Segments) (u : Text) : s.append u = s ++ single u := by
  obtain ⟨a, as⟩ := s
  rcases List.eq_nil_or_concat' as with rfl | ⟨as, c, rfl⟩
  · rfl
  · rw [mk_concat_append]
    simp [append, single]

theorem beside_eq (u : Text) (s t : Segments) : beside u s t = s ++ (single u ++ t) :=
  rfl

/-- Putting layouts together makes no new line. -/
theorem length_rest_append (s t : Segments) :
    (s ++ t).rest.length = s.rest.length + t.rest.length := by
  obtain ⟨a, as⟩ := s
  rcases List.eq_nil_or_concat' as with rfl | ⟨as, c, rfl⟩
  · rw [mk_nil_append, List.length_nil, Nat.zero_add]
  · rw [mk_concat_append, List.length_append, List.length_append, List.length_cons,
      List.length_singleton, Nat.add_assoc, Nat.add_comm 1]

theorem first_prefix_append (s t : Segments) : s.first <+: (s ++ t).first := by
  obtain ⟨a, as⟩ := s
  rcases List.eq_nil_or_concat' as with rfl | ⟨as, c, rfl⟩
  · exact List.prefix_append a t.first
  · rw [mk_concat_append]

/-- Behind a new line a layout begins a piece. -/
theorem last_append_newLine (s : Segments) : (s ++ newLine).last = [] := by
  rw [newLine, append_mk_nil, last, List.getLast?_concat, Option.getD_some]

/-- In front of a new line a text is the end of a piece. -/
theorem first_single_append_newLine (u : Text) (s : Segments) :
    (single u ++ (newLine ++ s)).first = u :=
  List.append_nil u

/-- The piece in which the second layout begins. -/
theorem getElem?_toList_append (s t : Segments) :
    (s ++ t).toList[s.rest.length]? = some (s.last ++ t.first) := by
  obtain ⟨a, as⟩ := s
  rcases List.eq_nil_or_concat' as with rfl | ⟨as, c, rfl⟩
  · rfl
  · rw [mk_concat_append]
    simp [toList, last]

@[simp]
theorem concat_cons (s : Segments) (ss : List Segments) : concat (s :: ss) = s ++ concat ss :=
  rfl

@[simp]
theorem concat_append (ss ts : List Segments) : concat (ss ++ ts) = concat ss ++ concat ts := by
  induction ss with
  | nil => rfl
  | cons s ss ih => rw [List.cons_append, concat_cons, ih, concat_cons, append_assoc]

/-- A separator in front of each layout and one at the end, or one at the start and one behind
each. -/
theorem concat_map_append (sep : Segments) (ss : List Segments) :
    sep ++ concat (ss.map (· ++ sep)) = concat (ss.map (sep ++ ·)) ++ sep := by
  induction ss with
  | nil => exact append_single_nil sep
  | cons s ss ih =>
    rw [List.map_cons, concat_cons, List.map_cons, concat_cons, append_assoc s, ih]
    simp only [append_assoc]

/-! ### Lists and calls -/

/-- A blank. -/
def blank : Segments :=
  single [' ']

/-- Items beside one another are a layout with a blank in front of each item but the first. -/
theorem foldl_beside (s : Segments) (ss : List Segments) :
    ss.foldl (beside [' ']) s = s ++ concat (ss.map (blank ++ ·)) := by
  induction ss generalizing s with
  | nil => exact (append_single_nil s).symm
  | cons t ss ih =>
    rw [List.foldl_cons, ih, beside_eq, List.map_cons, concat_cons, append_assoc]
    rfl

/-- An item of a list has blanks on both sides, except at the parentheses. -/
theorem list_eq (ss : List Segments) (s : Segments) (ts : List Segments) :
    list (ss ++ s :: ts) = single ['('] ++ concat (ss.map (· ++ blank)) ++ s ++
      (concat (ts.map (blank ++ ·)) ++ single [')']) := by
  cases ss with
  | nil =>
    show Segments.append (ts.foldl (beside [' ']) (s.prepend ['('])) [')'] = _
    rw [append_eq, foldl_beside, prepend_eq, List.map_nil, append_assoc]
    rfl
  | cons t ss =>
    show Segments.append ((ss ++ s :: ts).foldl (beside [' ']) (t.prepend ['('])) [')'] = _
    have hshift := concat_map_append blank ss
    rw [append_eq, foldl_beside, prepend_eq, List.map_append, List.map_cons, concat_append,
      concat_cons, List.map_cons, concat_cons, append_assoc t, hshift]
    simp only [append_assoc]

/-- A call with a line for each argument begins a line with each of them. -/
theorem brokenCall_eq (name : Text) (ss : List Segments) :
    brokenCall name ss =
      single (name ++ ['(']) ++ concat (ss.map (newLine ++ ·)) ++ single [')'] := by
  have hlines : concat (ss.map (newLine ++ ·)) = ⟨[], ss.flatMap toList⟩ := by
    induction ss with
    | nil => rfl
    | cons s ss ih =>
      rw [List.map_cons, concat_cons, ih, append_assoc, append_mk_nil]
      rfl
  rw [brokenCall, append_eq, hlines, append_mk_nil]
  rfl

/-- Layouts without a new line are texts. -/
theorem eq_map_single {ss : List Segments} (h : ss.all (·.rest.isEmpty) = true) :
    ss = (ss.map (·.first)).map single := by
  induction ss with
  | nil => rfl
  | cons s ss ih =>
    obtain ⟨hs, hss⟩ : s.rest = [] ∧ ss.all (·.rest.isEmpty) = true := by simpa using h
    rw [List.map_cons, List.map_cons, ← ih hss, single, ← hs]

/-- Items of one piece each make a list of one piece. -/
theorem list_map_single (ts : List Text) :
    list (ts.map single) = single ('(' :: Text.joinBlank ts ++ [')']) := by
  cases ts with
  | nil => rfl
  | cons t ts =>
    have hconcat : concat ((ts.map single).map (blank ++ ·)) = single (ts.flatMap (' ' :: ·)) := by
      induction ts with
      | nil => rfl
      | cons u ts ih =>
        rw [List.map_cons, List.map_cons, concat_cons, ih]
        rfl
    show Segments.append ((ts.map single).foldl (beside [' ']) _) [')'] = _
    rw [append_eq, foldl_beside, hconcat, Text.joinBlank, Part.intercalate_eq]
    rfl

/-- A call on one line is its name and the list of its arguments. -/
theorem single_inlineCall (name : Text) {ss : List Segments}
    (h : ss.all (·.rest.isEmpty) = true) :
    single (inlineCall name ss) = single name ++ list ss := by
  have hlist := list_map_single (ss.map (·.first))
  rw [← eq_map_single h] at hlist
  rw [hlist, inlineCall, List.append_assoc]
  rfl

/-- Whether a call that is expected to begin at a column is written on one line. -/
def isInline (l : Layout) (indent : Nat) (name : Text) (args : List Segments) : Bool :=
  args.all (·.rest.isEmpty) && indent + (inlineCall name args).length + 3 ≤ l.rightMargin

/-- A call is one text or broken. -/
theorem call_eq (l : Layout) (indent : Nat) (name : Text) (args : List Segments) :
    call l indent name args =
      if isInline l indent name args then single (inlineCall name args)
      else brokenCall name args :=
  rfl

/-- What stands in front of the first argument of a call. -/
def opening (inline : Bool) (name : Text) : Segments :=
  single (name ++ ['(']) ++ if inline then single [] else newLine

/-- What stands between the arguments of a call. -/
def separator (inline : Bool) : Segments :=
  if inline then blank else newLine

/-- An argument of a call has blanks or new lines on both sides, except at the parentheses. -/
theorem call_append (l : Layout) (indent : Nat) (name : Text) (ss : List Segments) (s : Segments)
    (ts : List Segments) {inline : Bool} (h : isInline l indent name (ss ++ s :: ts) = inline) :
    call l indent name (ss ++ s :: ts) =
      opening inline name ++ concat (ss.map (· ++ separator inline)) ++ s ++
        (concat (ts.map (separator inline ++ ·)) ++ single [')']) := by
  rw [call_eq, h]
  cases inline with
  | true =>
    have hsingle : (ss ++ s :: ts).all (·.rest.isEmpty) = true := (Bool.and_eq_true_iff.1 h).1
    have hopen : single name ++ single ['('] = single (name ++ ['(']) := rfl
    show single _ = single (name ++ ['(']) ++ single [] ++ concat (ss.map (· ++ blank)) ++ s ++
      (concat (ts.map (blank ++ ·)) ++ single [')'])
    rw [single_inlineCall name hsingle, list_eq, append_single_nil, ← hopen]
    simp only [append_assoc]
  | false =>
    show brokenCall _ _ = single (name ++ ['(']) ++ newLine ++ concat (ss.map (· ++ newLine)) ++
      s ++ (concat (ts.map (newLine ++ ·)) ++ single [')'])
    rw [brokenCall_eq, List.map_append, List.map_cons, concat_append, concat_cons,
      append_assoc (single _) newLine, concat_map_append newLine ss]
    simp only [append_assoc]

end Segments

/-! ### Contexts -/

namespace Value

/-- A value with a hole in it: the hole itself, or an item of a list or an argument of a call with
a hole in it. -/
inductive Context where
  | hole
  | item (before : List Value) (context : Context) (after : List Value)
  | argument (name : Text) (before : List Value) (context : Context) (after : List Value)

namespace Context

/-- The context with a value in the hole. -/
def fill : Context → Value → Value
  | hole, v => v
  | item before C after, v => .array (before ++ C.fill v :: after)
  | argument name before C after, v => .function name (before ++ C.fill v :: after)

/-- Where the value in the hole is expected to begin. -/
def indent : Context → Nat → Nat
  | hole, i => i
  | item _ C _, i => C.indent (i + 1)
  | argument name _ C _, i => C.indent (i + name.length + 1)

/-- A context with another one in its hole. -/
def comp : Context → Context → Context
  | hole, D => D
  | item vs C ws, D => item vs (C.comp D) ws
  | argument name vs C ws, D => argument name vs (C.comp D) ws

/-- **A place inside a place is filled from the inside out.** -/
theorem fill_comp (C D : Context) (v : Value) : (C.comp D).fill v = C.fill (D.fill v) := by
  induction C with
  | hole => rfl
  | item vs C ws ih => rw [comp, fill, ih, fill]
  | argument name vs C ws ih => rw [comp, fill, ih, fill]

open Segments in
/-- The layout of what is in front of the hole. -/
def before (l : Layout) (v : Value) : Context → Nat → Segments
  | hole, _ => single []
  | item vs C _, i => single ['('] ++ concat ((ofValues l (i + 1) vs).map (· ++ blank)) ++
      C.before l v (i + 1)
  | argument name vs C ws, i =>
      let j := i + name.length + 1
      let inline := isInline l i name (ofValues l j (vs ++ C.fill v :: ws))
      opening inline name ++ concat ((ofValues l j vs).map (· ++ separator inline)) ++
        C.before l v j

open Segments in
/-- The layout of what is behind the hole. -/
def after (l : Layout) (v : Value) : Context → Nat → Segments
  | hole, _ => single []
  | item _ C ws, i => C.after l v (i + 1) ++ (concat ((ofValues l (i + 1) ws).map (blank ++ ·)) ++
      single [')'])
  | argument name vs C ws, i =>
      let j := i + name.length + 1
      let inline := isInline l i name (ofValues l j (vs ++ C.fill v :: ws))
      C.after l v j ++ (concat ((ofValues l j ws).map (separator inline ++ ·)) ++ single [')'])

/-- What is in front of the inner place is in front of the outer one, or between them. -/
theorem before_comp (l : Layout) (C D : Context) (v : Value) (i : Nat) :
    (C.comp D).before l v i = C.before l (D.fill v) i ++ D.before l v (C.indent i) := by
  induction C generalizing i with
  | hole => rfl
  | item vs C ws ih =>
    rw [comp, before, ih, before, indent]
    simp only [Segments.append_assoc]
  | argument name vs C ws ih =>
    rw [comp, before, ih, before, indent, fill_comp]
    simp only [Segments.append_assoc]

end Context

end Value

namespace Segments

open Value

theorem ofValues_append (l : Layout) (i : Nat) (vs ws : List Value) :
    ofValues l i (vs ++ ws) = ofValues l i vs ++ ofValues l i ws := by
  induction vs with
  | nil => rfl
  | cons v vs ih => rw [List.cons_append, ofValues, ih, ofValues, List.cons_append]

/-- **A value in a context is laid out as it would be alone**, between the layouts of what is in
front of it and behind it. -/
theorem ofValue_fill (l : Layout) (C : Context) (v : Value) (i : Nat) :
    ofValue l i (C.fill v) =
      C.before l v i ++ ofValue l (C.indent i) v ++ C.after l v i := by
  induction C generalizing i with
  | hole => exact (append_single_nil _).symm
  | item vs C ws ih =>
    rw [Context.fill, ofValue, ofValues_append, ofValues, list_eq, ih]
    simp only [append_assoc, Context.before, Context.after, Context.indent]
  | argument name vs C ws ih =>
    rw [Context.fill, ofValue, ofValues_append, ofValues, call_append l i name _ _ _ rfl, ih]
    simp only [append_assoc, Context.before, Context.after, Context.indent, ofValues_append,
      ofValues, ih]

end Segments

end ControlLanguage
