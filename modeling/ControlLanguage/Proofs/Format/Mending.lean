import ControlLanguage.Proofs.Format.ReadBack

/-!
# Reading back at the minus sign

A line that ends in a minus sign loses the blanks in front of the sign, and the next line is joined
with all of its indentation. So with this marker **the blanks where two lines are joined are those
of the continuation column**, whether the line was closed at a blank or cut inside a word. A line
that was closed at a blank reads back if there is such an indentation, and one that was cut reads
back if there is none; no layout undoes both kinds of breaks.

Where every break is of the kind that the layout undoes, formatting is undone by reading back, as it
is with the plus sign.
-/

namespace ControlLanguage

open Token Text

/-- At the minus sign the continuation column decides which breaks are undone. -/
theorem Layout.mends_iff_of_minus {l : Layout} (hl : l.marker = .minus) (joined : Bool) :
    l.Mends joined ↔ (joined = true ↔ l.continuationColumn = 1) := by
  have hseam : l.seam joined = 0 ↔ l.continuationColumn = 1 := by
    have := l.continuation_pos
    simp only [seam, hl]
    omega
  rw [Mends, hseam]
  exact iff_comm

/-! ### The words of a capture -/

namespace Token

/-- The kinds and the texts of the tokens that are no blanks. -/
def words (ts : List Token) : List (TokenKind × Text) :=
  (ts.filter (·.kind ≠ .blank)).map fun t ↦ (t.kind, t.text)

theorem words_cons_of_blank {t : Token} (ht : t.kind = .blank) (ts : List Token) :
    words (t :: ts) = words ts := by
  rw [words, List.filter_cons_of_neg (by simpa using ht), words]

/-- Thinning drops no words. -/
theorem Thinned.words_eq {opened : Bool} {ts us : List Token} (h : Thinned opened ts us) :
    words us = words ts := by
  induction h with
  | nil => rfl
  | @keep opened t u ts us hkind htext _ ih =>
    by_cases ht : t.kind = .blank
    · rw [words_cons_of_blank ht, words_cons_of_blank (hkind ▸ ht), ih]
    · have hu : u.kind ≠ .blank := hkind ▸ ht
      rw [words, words, List.filter_cons_of_pos (by simpa using hu),
        List.filter_cons_of_pos (by simpa using ht), List.map_cons, List.map_cons, hkind, htext]
      exact congrArg _ ih
  | drop hb _ ih => rw [words_cons_of_blank hb, ih]
  | last hb => rw [words_cons_of_blank hb]

end Token

namespace Statement

/-- A statement that was rewritten has the words of the original in each of its parameters. -/
theorem Rewritten.words_eq {l : Layout} {s s' : Text} (h : Rewritten l s s') :
    (Statement.captures s').map (words ·.tokens) =
      (Statement.captures s).map (words ·.tokens) := by
  rw [← List.forall₂_eq_eq_eq, List.forall₂_map_left_iff, List.forall₂_map_right_iff]
  exact h.captures.flip.imp fun _ _ hcd ↦ hcd.tokens.words_eq

/-- **Formatting at the minus sign is undone by reading back** if no break is of the wrong kind. In
particular each parameter comes back with its words. -/
theorem exists_joinLines_format_minus {l : Layout} (hl : l.marker = .minus) {s : Text}
    (h : IsReadable s) (hcomment : isComment s.trim = false)
    (hbreaks : ∀ q ∈ (toCommand s).pieces l ((ofText s).label.getD []),
      ∀ b ∈ q.breaks l ((toCommand s).atoms l.keywordCase),
        (b.joined = true ↔ l.continuationColumn = 1)) :
    ∃ s', joinLines (format l s).lines = [s'] ∧ Rewritten l s s' ∧
      (captures s').map (words ·.tokens) = (captures s).map (words ·.tokens) := by
  obtain ⟨s', hlines, hrewritten⟩ := exists_joinLines_format_of_mends h hcomment fun q hq b hb ↦
    (Layout.mends_iff_of_minus hl b.joined).2 (hbreaks q hq b hb)
  exact ⟨s', hlines, hrewritten, hrewritten.words_eq⟩

/-- Lines that were closed at blanks read back behind an indentation. -/
theorem exists_joinLines_format_minus_object :
    ∃ s', joinLines (format { rightMargin := 50, marker := .minus }
        "CHKOBJ OBJ(MYLIB/MYOBJ) OBJTYPE(*FILE) AUT(*USE *OBJEXIST)".toList).lines = [s'] ∧
      Rewritten { rightMargin := 50, marker := .minus }
        "CHKOBJ OBJ(MYLIB/MYOBJ) OBJTYPE(*FILE) AUT(*USE *OBJEXIST)".toList s' ∧
      (captures s').map (words ·.tokens) =
        (captures "CHKOBJ OBJ(MYLIB/MYOBJ) OBJTYPE(*FILE) AUT(*USE *OBJEXIST)".toList).map
          (words ·.tokens) := by
  have hreadable : IsReadable
      "CHKOBJ OBJ(MYLIB/MYOBJ) OBJTYPE(*FILE) AUT(*USE *OBJEXIST)".toList :=
    ⟨List.all_iff_forall_prop.1 (by decide), ⟨_, rfl⟩, by decide, by decide, by decide, by decide,
      by decide, by decide⟩
  generalize hs : "CHKOBJ OBJ(MYLIB/MYOBJ) OBJTYPE(*FILE) AUT(*USE *OBJEXIST)".toList = s
    at hreadable
  generalize hl : ({ rightMargin := 50, marker := .minus } : Layout) = l
  have hbreaks : (((toCommand s).pieces l ((ofText s).label.getD [])).all fun q ↦
      (q.breaks l ((toCommand s).atoms l.keywordCase)).all fun b ↦ !b.joined) = true := by
    rw [← hs, ← hl]
    decide +kernel
  have hcolumn : l.continuationColumn = 27 := by rw [← hl]
  refine exists_joinLines_format_minus (by rw [← hl]) hreadable (by rw [← hs]; rfl)
    fun q hq b hb ↦ ?_
  have hjoined : b.joined = false := by
    simpa using List.all_eq_true.1 (List.all_eq_true.1 hbreaks q hq) b hb
  simp [hjoined, hcolumn]

/-- **The other breaks are not undone.** A word that was cut comes back in two behind an
indentation, and without one the words between which a line was closed come back as one. -/
theorem not_forall_exists_joinLines_format_minus :
    (¬ ∀ (l : Layout) (s : Text), l.marker = .minus → l.continuationColumn ≠ 1 → IsReadable s →
      isComment s.trim = false → ∃ s', joinLines (format l s).lines = [s'] ∧
        (captures s').map (words ·.tokens) = (captures s).map (words ·.tokens)) ∧
    ¬ ∀ (l : Layout) (s : Text), l.marker = .minus → l.continuationColumn = 1 → IsReadable s →
      isComment s.trim = false → ∃ s', joinLines (format l s).lines = [s'] ∧
        (captures s').map (words ·.tokens) = (captures s).map (words ·.tokens) := by
  constructor
  · intro hall
    have hlines : joinLines (format ⟨1, 2, 3, 2, 20, .minus, .upper, by decide, by decide,
        by decide, by decide, by decide, by decide, by decide⟩
          "CALL PGM(ABCDEFGHIJKLMNOPQRSTUVW)".toList).lines =
        ["CALL PGM(ABCDEFGHIJKLM NOPQRSTUVW)".toList] := by decide +kernel
    have hreadable : IsReadable "CALL PGM(ABCDEFGHIJKLMNOPQRSTUVW)".toList :=
      ⟨List.all_iff_forall_prop.1 (by decide), ⟨_, rfl⟩, by decide, by decide, by decide,
        by decide, by decide, by decide⟩
    obtain ⟨s', hs', hwords⟩ := hall ⟨1, 2, 3, 2, 20, .minus, .upper, by decide, by decide,
      by decide, by decide, by decide, by decide, by decide⟩ _ rfl (by decide) hreadable rfl
    rw [hlines] at hs'
    rw [← (List.cons.inj hs').1] at hwords
    exact absurd hwords (by decide)
  · intro hall
    have hlines : joinLines (format ⟨1, 2, 3, 1, 20, .minus, .upper, by decide, by decide,
        by decide, by decide, by decide, by decide, by decide⟩
          "CALL PGM(ABCDEFG IJKLMNO)".toList).lines =
        ["CALL PGM(ABCDEFGIJKLMNO)".toList] := by decide +kernel
    have hreadable : IsReadable "CALL PGM(ABCDEFG IJKLMNO)".toList :=
      ⟨List.all_iff_forall_prop.1 (by decide), ⟨_, rfl⟩, by decide, by decide, by decide,
        by decide, by decide, by decide⟩
    obtain ⟨s', hs', hwords⟩ := hall ⟨1, 2, 3, 1, 20, .minus, .upper, by decide, by decide,
      by decide, by decide, by decide, by decide, by decide⟩ _ rfl rfl hreadable rfl
    rw [hlines] at hs'
    rw [← (List.cons.inj hs').1] at hwords
    exact absurd hwords (by decide)

end Statement

end ControlLanguage
