import ControlLanguage.Canonical.Value
import ControlLanguage.Proofs.Token.Wordlike

/-!
# Tidy texts

The lexer and the splitter look at the same value with different eyes: for the lexer a quote begins
a literal only where a lexeme begins, and an apostrophe is the only quote; for the splitter quotes
of both kinds count everywhere. A text is *tidy* when the two agree on it. **Outside of literals it
has no quotes**, its parentheses are balanced, and its blanks are single. A *strict* tidy text has
no blank outside of parentheses either, so it is one part of a value.

`Tidy` follows the lexer character by character, but passes over a literal in one step. What is done
to values keeps them tidy: trimming, upper case, quoting, joining with blanks, and putting in
parentheses.
-/

namespace ControlLanguage

open Text

namespace Part

/-- A text that the lexer and the splitter read alike, behind a lexeme of the given shape and with
`depth` parentheses open. It closes them, and if it is not `loose` it has blanks only inside of
parentheses. -/
inductive Tidy (loose : Bool) : Shape → (depth : Nat) → Text → Prop where
  | nil (s : Shape) : Tidy loose s 0 []
  | quoted {s : Shape} {d : Nat} {b t : Text} : b ≠ [] → s.extended Shape.quote = none →
      Tidy loose (.literal true) d t → Tidy loose s d (quoted b ++ t)
  | blank {s : Shape} {d : Nat} {t : Text} : loose = true ∨ 0 < d → s.extended ' ' = none →
      Tidy loose .blank d t → Tidy loose s d (' ' :: t)
  | opening {s : Shape} {d : Nat} {t : Text} : Tidy loose .opening (d + 1) t →
      Tidy loose s d ('(' :: t)
  | closing {s : Shape} {d : Nat} {t : Text} : Tidy loose .closing d t →
      Tidy loose s (d + 1) (')' :: t)
  | plain {s : Shape} {d : Nat} {c : Char} {t : Text} : isPlain c = true →
      Tidy loose (s.after c) d t → Tidy loose s d (c :: t)

namespace Tidy

variable {loose : Bool} {s : Shape} {d : Nat} {t : Text}

/-- What is tidy is tidy with white space at its end allowed. -/
theorem loosen (h : Tidy loose s d t) : Tidy true s d t := by
  induction h with
  | nil s => exact Tidy.nil s
  | quoted hb hs _ ih => exact Tidy.quoted hb hs ih
  | blank _ hs _ ih => exact Tidy.blank (Or.inl rfl) hs ih
  | opening _ ih => exact Tidy.opening ih
  | closing _ ih => exact Tidy.closing ih
  | plain hc _ ih => exact Tidy.plain hc ih

theorem head?_ne (h : Tidy loose .blank d t) : t.head? ≠ some ' ' := by
  cases h with
  | nil => exact nofun
  | quoted => exact fun h ↦ absurd (Option.some.inj h) (by decide)
  | blank _ hs => exact absurd hs (by decide)
  | opening => exact fun h ↦ absurd (Option.some.inj h) (by decide)
  | closing => exact fun h ↦ absurd (Option.some.inj h) (by decide)
  | plain hc =>
    rintro h
    obtain rfl := Option.some.inj h
    exact absurd hc (by decide)

/-- Behind a blank as behind a parenthesis, unless there is a blank. -/
theorem congr_fresh {s' : Shape} (h : Tidy loose s d t) (hs : s = .blank ∨ s = .opening)
    (hs' : s' = .blank ∨ s' = .opening) (ht : t.head? ≠ some ' ') : Tidy loose s' d t := by
  have hfresh : ∀ {r : Shape} {c : Char}, (r = .blank ∨ r = .opening) → isPlain c = true →
      r.after c = .begun true c := by
    rintro r c (rfl | rfl) hc <;>
      simp [Shape.after, Shape.extended, (Shape.endsWord_of_isPlain hc).2.1]
  cases h with
  | nil => exact Tidy.nil s'
  | quoted hb _ hrest => exact Tidy.quoted hb (by rcases hs' with rfl | rfl <;> rfl) hrest
  | blank => exact absurd rfl ht
  | opening hrest => exact Tidy.opening hrest
  | closing hrest => exact Tidy.closing hrest
  | plain hc hrest =>
    rw [hfresh hs hc, ← hfresh hs' hc] at hrest
    exact Tidy.plain hc hrest

/-- Plain characters may stand in front. -/
theorem plain_append {w : Text} (hw : ∀ c ∈ w, isPlain c = true)
    (h : Tidy loose (s.afterText w) d t) : Tidy loose s d (w ++ t) := by
  induction w generalizing s with
  | nil => exact h
  | cons c w ih =>
    exact Tidy.plain (hw c List.mem_cons_self) (ih (fun x hx ↦ hw x (List.mem_cons_of_mem c hx)) h)

end Tidy

/-! ### The ends of a tidy text -/

/-- A text as it stands between the quotes of a literal. -/
def doubled (b : Text) : Text :=
  b.flatMap fun c ↦ if c = '\x27' then [c, c] else [c]

theorem doubled_cons_quote (b : Text) : doubled ('\x27' :: b) = '\x27' :: '\x27' :: doubled b :=
  rfl

/-- Only quotes are doubled. -/
theorem doubled_cons_of_ne {c : Char} (hc : c ≠ '\x27') (b : Text) :
    doubled (c :: b) = c :: doubled b := by
  rw [doubled, List.flatMap_cons, if_neg hc]
  rfl

theorem quoted_eq (b : Text) : quoted b = '\x27' :: (doubled b ++ ['\x27']) :=
  rfl

theorem beginsInk_quoted (b : Text) : BeginsInk (quoted b) :=
  ⟨_, _, quoted_eq b, by decide⟩

theorem endsInk_quoted (b : Text) : EndsInk (quoted b) :=
  ⟨_, '\x27', rfl, by decide⟩

/-- There is no white space around a literal. -/
theorem trim_quoted (b : Text) : (quoted b).trim = quoted b :=
  trim_of_ink (beginsInk_quoted b) (endsInk_quoted b)

namespace Tidy

variable {loose : Bool} {s : Shape} {d : Nat} {t : Text}

/-- Nothing is open at the end. -/
theorem depth_eq_zero (h : Tidy loose s d []) : d = 0 := by
  generalize hnil : ([] : Text) = u at h
  cases h with
  | nil => rfl
  | quoted => exact absurd hnil.symm (List.cons_ne_nil _ _)
  | blank => exact absurd hnil.symm (List.cons_ne_nil _ _)
  | opening => exact absurd hnil.symm (List.cons_ne_nil _ _)
  | closing => exact absurd hnil.symm (List.cons_ne_nil _ _)
  | plain => exact absurd hnil.symm (List.cons_ne_nil _ _)

/-- A tidy text ends with ink, unless it may end with white space. -/
theorem endsInk (h : Tidy false s d t) (ht : t ≠ []) : EndsInk t := by
  have hstep : ∀ {w u : Text}, EndsInk w → (u ≠ [] → EndsInk u) → EndsInk (w ++ u) := by
    intro w u hw hu
    by_cases hnil : u = []
    · rwa [hnil, List.append_nil]
    · exact (hu hnil).append w
  induction h with
  | nil => exact absurd rfl ht
  | @quoted _ _ b _ _ _ _ ih => exact hstep (endsInk_quoted b) ih
  | @blank _ _ t hd _ hrest ih =>
    -- a last blank would stand outside of parentheses
    have hne : t ≠ [] := by
      rintro rfl
      rw [hrest.depth_eq_zero] at hd
      exact absurd hd (by decide)
    exact (ih hne).append [' ']
  | opening _ ih => exact hstep ⟨[], '(', rfl, by decide⟩ ih
  | closing _ ih => exact hstep ⟨[], ')', rfl, by decide⟩ ih
  | @plain _ _ c _ hc _ ih => exact hstep ⟨[], c, rfl, (isPlain_iff.1 hc).1⟩ ih

/-- It begins with ink, unless it begins with a blank. -/
theorem beginsInk (h : Tidy loose s d t) (ht : t ≠ []) (hblank : t.head? ≠ some ' ') :
    BeginsInk t := by
  cases h with
  | nil => exact absurd rfl ht
  | @quoted _ _ b => exact (beginsInk_quoted b).append _
  | blank => exact absurd rfl hblank
  | opening => exact ⟨'(', _, rfl, by decide⟩
  | closing => exact ⟨')', _, rfl, by decide⟩
  | plain hc => exact ⟨_, _, rfl, (isPlain_iff.1 hc).1⟩

theorem head?_ne_of_strict (h : Tidy false s 0 t) : t.head? ≠ some ' ' := by
  generalize hd : 0 = d at h
  cases h with
  | nil => exact nofun
  | quoted => exact fun h ↦ absurd (Option.some.inj h) (by decide)
  | blank hdepth =>
    rw [← hd] at hdepth
    exact absurd hdepth (by decide)
  | opening => exact fun h ↦ absurd (Option.some.inj h) (by decide)
  | closing => exact absurd hd (Nat.succ_ne_zero _).symm
  | plain hc =>
    rintro h
    obtain rfl := Option.some.inj h
    exact absurd hc (by decide)

/-- A strict text has no white space at its ends. -/
theorem trim_eq (h : Tidy false s 0 t) : t.trim = t := by
  by_cases ht : t = []
  · rw [ht]
    rfl
  · exact trim_of_ink (h.beginsInk ht h.head?_ne_of_strict) (h.endsInk ht)

theorem trimEnd_append_of_endsInk {w : Text} (hw : EndsInk w) (u : Text) :
    (w ++ u).trimEnd = w ++ u.trimEnd := by
  by_cases hu : IsWhite u
  · rw [trimEnd_append_of_isWhite w hu, trimEnd_of_endsInk hw, trimEnd_of_isWhite hu,
      List.append_nil]
  · exact trimEnd_append w hu

/-- White space at the end may be taken away. -/
theorem trimEnd (h : Tidy true s d t) : Tidy true s d t.trimEnd := by
  induction h with
  | nil s => exact Tidy.nil s
  | @quoted _ _ b _ hb hs _ ih =>
    rw [trimEnd_append_of_endsInk (endsInk_quoted b)]
    exact Tidy.quoted hb hs ih
  | @blank s d t hd hs hrest ih =>
    by_cases ht : t = []
    · subst ht
      obtain rfl := hrest.depth_eq_zero
      exact Tidy.nil s
    · have hink := hrest.beginsInk ht hrest.head?_ne
      rw [show Text.trimEnd (' ' :: t) = ' ' :: Text.trimEnd t from
        trimEnd_append [' '] hink.not_isWhite]
      exact Tidy.blank hd hs ih
  | @opening _ _ t _ ih =>
    rw [show Text.trimEnd ('(' :: t) = '(' :: Text.trimEnd t from
      trimEnd_append_of_endsInk ⟨[], '(', rfl, by decide⟩ t]
    exact Tidy.opening ih
  | @closing _ _ t _ ih =>
    rw [show Text.trimEnd (')' :: t) = ')' :: Text.trimEnd t from
      trimEnd_append_of_endsInk ⟨[], ')', rfl, by decide⟩ t]
    exact Tidy.closing ih
  | @plain _ _ c t hc _ ih =>
    rw [show Text.trimEnd (c :: t) = c :: Text.trimEnd t from
      trimEnd_append_of_endsInk ⟨[], c, rfl, (isPlain_iff.1 hc).1⟩ t]
    exact Tidy.plain hc ih

/-- **Trimming keeps a text tidy.** -/
theorem trim (h : Tidy true .opening d t) : Tidy true .opening d t.trim := by
  refine trimEnd ?_
  by_cases hblank : t.head? = some ' '
  · obtain ⟨u, rfl⟩ := List.head?_eq_some_iff.1 hblank
    generalize hu : ' ' :: u = v at h
    cases h with
    | nil => exact absurd hu (List.cons_ne_nil _ _)
    | quoted => exact absurd (List.cons.inj hu).1 (by decide)
    | @blank _ _ t _ _ hrest =>
      obtain ⟨-, rfl⟩ := List.cons.inj hu
      rw [show trimStart (' ' :: u) = trimStart u from rfl]
      have hstart : trimStart u = u := by
        by_cases hnil : u = []
        · rw [hnil]
          rfl
        · exact trimStart_of_beginsInk (hrest.beginsInk hnil hrest.head?_ne)
      rw [hstart]
      exact hrest.congr_fresh (Or.inl rfl) (Or.inr rfl) hrest.head?_ne
    | opening => exact absurd (List.cons.inj hu).1 (by decide)
    | closing => exact absurd (List.cons.inj hu).1 (by decide)
    | plain hc =>
      obtain ⟨rfl, -⟩ := List.cons.inj hu
      exact absurd hc (by decide)
  · by_cases hnil : t = []
    · subst hnil
      exact h
    · rwa [trimStart_of_beginsInk (h.beginsInk hnil hblank)]

end Tidy

/-! ### Upper case -/

/-- A literal is put in upper case between its quotes: the quotes that are doubled stay the same. -/
theorem upper_quoted (b : Text) : upper (quoted b) = quoted (upper b) := by
  have hquote : upperChar '\x27' = ['\x27'] := by decide
  have hsame : ∀ u v : Text, (∀ x ∈ u, x ≠ '\x27') → doubled (u ++ v) = u ++ doubled v := by
    intro u v hu
    induction u with
    | nil => rfl
    | cons x u ih =>
      rw [List.cons_append, doubled_cons_of_ne (hu x List.mem_cons_self),
        ih fun y hy ↦ hu y (List.mem_cons_of_mem x hy), List.cons_append]
  have hdouble : upper (doubled b) = doubled (upper b) := by
    induction b with
    | nil => rfl
    | cons c b ih =>
      by_cases hc : c = '\x27'
      · rw [hc, doubled_cons_quote, upper_cons, upper_cons, upper_cons, hquote, ih]
        rfl
      · rw [doubled_cons_of_ne hc, upper_cons, upper_cons, ih, hsame]
        rintro x hx rfl
        exact hc (eq_of_mem_upperChar hx (by decide)).2.symm
  rw [quoted_eq, quoted_eq, upper_cons, upper_append, hdouble, upper_singleton, hquote]
  rfl

/-- **Upper case keeps a text tidy.** -/
theorem Tidy.upper {loose : Bool} {s s' : Shape} {d : Nat} {t : Text} (h : Tidy loose s d t)
    (hs : s.IsInner) (hcovers : s.Covers s') : Tidy loose s' d t.upper := by
  induction h generalizing s' with
  | nil => exact Tidy.nil s'
  | @quoted _ _ b t hb hnone _ ih =>
    rw [upper_append, upper_quoted]
    exact Tidy.quoted (mt upper_eq_nil_iff.1 hb) (hcovers.extended_eq_none hnone (by decide))
      (ih ⟨nofun, nofun⟩ (Or.inl rfl))
  | @blank _ _ t hd hnone _ ih =>
    exact Tidy.blank hd (hcovers.extended_eq_none hnone (by decide))
      (ih ⟨nofun, nofun⟩ (Or.inl rfl))
  | opening _ ih => exact Tidy.opening (ih ⟨nofun, nofun⟩ (Or.inl rfl))
  | closing _ ih => exact Tidy.closing (ih ⟨nofun, nofun⟩ (Or.inl rfl))
  | @plain _ _ c t hc _ ih =>
    rw [upper_cons]
    exact plain_append (fun x hx ↦ isPlain_of_mem_upperChar hc hx)
      (ih (Shape.isWordlike_after hs hc).isInner (hcovers.after hs hc))

/-! ### Putting texts together -/

namespace Tidy

variable {s : Shape} {d : Nat} {t u : Text}

/-- A strict text may be followed by a blank. -/
theorem append_blank (h : Tidy false s d t) (hs : s.IsInner) (ht : t = [] → s.extended ' ' = none)
    (hu : Tidy true .blank 0 u) : Tidy true s d (t ++ ' ' :: u) := by
  induction h with
  | nil s => exact Tidy.blank (Or.inl rfl) (ht rfl) hu
  | @quoted _ _ b t hb hnone _ ih =>
    rw [List.append_assoc]
    exact Tidy.quoted hb hnone (ih ⟨nofun, nofun⟩ fun _ ↦ rfl)
  | blank hd hnone hrest ih =>
    refine Tidy.blank (Or.inl rfl) hnone (ih ⟨nofun, nofun⟩ ?_)
    rintro rfl
    rw [hrest.depth_eq_zero] at hd
    exact absurd hd (by decide)
  | opening _ ih => exact Tidy.opening (ih ⟨nofun, nofun⟩ fun _ ↦ rfl)
  | closing _ ih => exact Tidy.closing (ih ⟨nofun, nofun⟩ fun _ ↦ rfl)
  | plain hc _ ih =>
    have hword := Shape.isWordlike_after hs hc
    exact Tidy.plain hc (ih hword.isInner fun _ ↦ hword.extended_blank)

/-- One more parenthesis may be closed at the end. -/
theorem append_closing (h : Tidy true s d t) : Tidy false s (d + 1) (t ++ [')']) := by
  induction h with
  | nil => exact Tidy.closing (Tidy.nil _)
  | quoted hb hnone _ ih =>
    rw [List.append_assoc]
    exact Tidy.quoted hb hnone ih
  | blank _ hnone _ ih => exact Tidy.blank (Or.inr (Nat.succ_pos _)) hnone ih
  | opening _ ih => exact Tidy.opening ih
  | closing _ ih => exact Tidy.closing ih
  | plain hc _ ih => exact Tidy.plain hc ih

end Tidy

end Part

end ControlLanguage
