import ControlLanguage.Format.Statement
import ControlLanguage.Proofs.Format.Atom

/-!
# Where lines are broken does not show the order of the atoms

The atoms of a command are a set, which comes in no particular order, and the spans come in the
order of the atoms. The search for a cut goes over them in this order and may pass different
positions. **What it finds depends on the set of spans alone**, because it is the least free
position; and a usable blank asks only whether some span has a position inside.

From there it goes up: the atoms of a text have the same spans in any order (`Span.mem_ofAtoms`), so
each step of the wrap loop is the same (`Page.nextStep_congr`), and with it a piece of text, a
parameter and a page.
-/

namespace ControlLanguage

namespace Break

variable {spans spans' : List Span}

/-- Whether a position splits a span is a matter of the set of spans. -/
theorem splits_congr (h : ∀ s, s ∈ spans' ↔ s ∈ spans) (i : Nat) :
    splits spans' i = splits spans i := by
  rw [Bool.eq_iff_iff]
  simp only [splits, List.any_eq_true, h]

/-- So is the last usable break. -/
theorem last?_congr (h : ∀ s, s ∈ spans' ↔ s ∈ spans) (room : Int) (t : Text) :
    last? spans' room t = last? spans room t := by
  have husable : isUsable spans' t = isUsable spans t :=
    funext fun i ↦ by rw [isUsable, isUsable, splits_congr h]
  rw [last?, last?, husable]

/-- A position is free for spans that are the same as a set. -/
theorem isFree_congr (h : ∀ s, s ∈ spans' ↔ s ∈ spans) {room : Int} {t : Text} {c : Nat} :
    IsFree spans' room t c ↔ IsFree spans room t c := by
  have hsplits := splits_congr h c
  exact ⟨fun ⟨hs, hroom⟩ ↦ ⟨hsplits ▸ hs, hroom⟩, fun ⟨hs, hroom⟩ ↦ ⟨hsplits.trans hs, hroom⟩⟩

/-- **The cut does not show the order of the spans.** -/
theorem cut_congr (h : ∀ s, s ∈ spans' ↔ s ∈ spans) (room : Int) {t : Text}
    (hspans : ∀ s ∈ spans, s.stop ≤ t.length) : cut spans' room t = cut spans room t := by
  have hleast' := isLeast_cut room fun s hs ↦ hspans s ((h s).1 hs)
  simp only [isFree_congr h] at hleast'
  exact hleast'.unique (isLeast_cut room hspans)

/-- The cut as the least position of which each condition is said by itself. The end of a text is
its length; the empty text, which is never cut, has no position behind its first character. -/
theorem isLeast_cut_of_stop_le (room : Int) {t : Text} (hspans : ∀ s ∈ spans, s.stop ≤ t.length) :
    IsLeast {c : Nat | max 1 (min room t.length) ≤ c ∧
      (∀ s ∈ spans, ¬ (s.start < c ∧ c < s.stop)) ∧
      (room < c → (t ≠ [] → c = t.length) ∨ t[c]? = some ' ')} (cut spans room t) := by
  obtain ⟨⟨hearliest, hfree⟩, hleast⟩ := isLeast_cut room hspans
  have hle := cut_le_length room hspans
  have hfrom : ∀ c : Nat, earliest room t ≤ c ↔ max 1 (min room t.length) ≤ c := fun c ↦ by
    rw [earliest]
    omega
  have hpos : t ≠ [] ↔ 0 < t.length := List.length_pos_iff.symm
  have hinside : ∀ c : Nat, splits spans c = false ↔ ∀ s ∈ spans, ¬ (s.start < c ∧ c < s.stop) :=
    fun c ↦ by
      rw [splits_eq_false_iff]
      simp only [Bool.eq_false_iff, ne_eq, Span.hasInside_iff]
  constructor
  · refine ⟨(hfrom _).1 hearliest, (hinside _).1 hfree.splits_eq_false, fun hroom ↦ ?_⟩
    refine (hfree.of_room_lt hroom).imp_left fun hlength ht ↦ ?_
    rw [hpos] at ht
    rw [earliest] at hearliest
    omega
  · rintro c ⟨hc, hs, hroom⟩
    refine hleast ⟨(hfrom c).2 hc, (hinside c).2 hs, fun hlt ↦ ?_⟩
    refine (hroom hlt).imp_left fun hlength ↦ ?_
    rw [hpos] at hlength
    omega

end Break

/-! ### From the atoms to the page -/

/-- A span belongs to an occurrence of an atom. -/
theorem Span.mem_ofAtoms {atoms : List Text} {t : Text} {s : Span} :
    s ∈ Span.ofAtoms atoms t ↔
      ∃ a ∈ atoms, 2 ≤ a.length ∧ ∃ i ∈ Text.occurrences a t, ⟨i, i + a.length⟩ = s := by
  simp only [Span.ofAtoms, List.mem_flatMap, List.mem_filter, List.mem_map, decide_eq_true_eq,
    and_assoc]

namespace Page

variable {l : Layout} {atoms atoms' : List Text}

/-- A step of the wrap loop is the same for atoms that are the same as a set. -/
theorem nextStep_congr (h : ∀ a, a ∈ atoms' ↔ a ∈ atoms) (p : Page) (t : Text) :
    p.nextStep l atoms' t = p.nextStep l atoms t := by
  have hspans : ∀ s, s ∈ Span.ofAtoms atoms' t ↔ s ∈ Span.ofAtoms atoms t := fun s ↦ by
    simp only [Span.mem_ofAtoms, h]
  simp only [nextStep, Break.last?_congr hspans,
    Break.cut_congr hspans (p.room l) fun _ ↦ Span.stop_le_length]

/-- **The lines depend on the set of the atoms only**: the induction is on the steps, which agree
one by one. -/
theorem wrap_congr (h : ∀ a, a ∈ atoms' ↔ a ∈ atoms) (limit : Nat) (p : Page) (t : Text) :
    wrap l atoms' limit p t = wrap l atoms limit p t := by
  induction limit generalizing p t with
  | zero => cases t <;> rfl
  | succ limit ih =>
    cases t with
    | nil => rfl
    | cons c t =>
      show wrap l atoms' limit _ _ = wrap l atoms limit _ _
      rw [nextStep_congr h, ih]

theorem wrapSegments_congr (h : ∀ a, a ∈ atoms' ↔ a ∈ atoms) (p : Page) (first : Text)
    (rest : List Text) :
    p.wrapSegments l atoms' first rest = p.wrapSegments l atoms first rest := by
  simp only [wrapSegments, wrap_congr h]

theorem addParameter_congr (h : ∀ a, a ∈ atoms' ↔ a ∈ atoms) :
    Page.addParameter l atoms' = Page.addParameter l atoms := by
  funext p q
  exact wrapSegments_congr h p _ _

end Page

namespace Command

/-- **A page does not show the order of the atoms.** -/
theorem page_congr {l : Layout} {atoms atoms' : List Text} (h : ∀ a, a ∈ atoms' ↔ a ∈ atoms)
    (label : Text) (c : Command) : c.page l atoms' label = c.page l atoms label := by
  simp only [page, Page.addParameter_congr h]

/-- **Where lines are broken does not show the order of the atoms.** The search for a cut, in
whatever order it goes over the spans, ends by itself at the least position that splits no span
and, beyond the room, is the end of the text or a blank. So the cut and the last usable blank
depend on the set of spans alone, and the lines of a command on the set of its atoms. The end of a
text is its length; only the empty text, which the wrap loop never cuts, has no position that is
its end, because no cut is in front of the first character. -/
theorem format_eq_of_atoms_enumerated :
    (∀ (spans : List Span) (room : Int) (t : Text), (∀ s ∈ spans, s.stop ≤ t.length) →
      IsLeast {c : Nat | max 1 (min room t.length) ≤ c ∧
        (∀ s ∈ spans, ¬ (s.start < c ∧ c < s.stop)) ∧
        (room < c → (t ≠ [] → c = t.length) ∨ t[c]? = some ' ')} (Break.cut spans room t) ∧
      Break.pass spans room t (Break.cut spans room t) = Break.cut spans room t ∧
      ∀ spans' : List Span, (∀ s, s ∈ spans' ↔ s ∈ spans) →
        Break.cut spans' room t = Break.cut spans room t) ∧
    (∀ (spans spans' : List Span) (room : Int) (t : Text), (∀ s, s ∈ spans' ↔ s ∈ spans) →
      Break.last? spans' room t = Break.last? spans room t) ∧
    ∀ (l : Layout) (label : Option Text) (c : Command) (atoms : List Text),
      (∀ a, a ∈ atoms ↔ a ∈ Atom.ofCommand l.keywordCase c) →
        (c.page l atoms (label.getD [])).lines = (c.format l label).lines ∧
          (c.page l atoms (label.getD [])).gaveUp = (c.format l label).gaveUp := by
  refine ⟨fun spans room t hspans ↦ ⟨Break.isLeast_cut_of_stop_le room hspans,
    Break.pass_cut hspans, fun spans' h ↦ Break.cut_congr h room hspans⟩,
    fun spans spans' room t h ↦ Break.last?_congr h room t, fun l label c atoms h ↦ ?_⟩
  have hatoms : ∀ a, a ∈ atoms ↔ a ∈ c.atoms l.keywordCase := fun a ↦ by
    rw [h, mem_atoms]
    cases c
    rfl
  rw [page_congr hatoms, format]
  exact ⟨rfl, rfl⟩

/-- Two spans that overlap carry the cut to a blank. The literal and the keyword of a command are
found in either order. -/
theorem format_eq_of_atoms_enumerated_copy :
    (Break.pass [⟨3, 6⟩, ⟨1, 4⟩] 2 "ABCDEFGH IJ".toList 8 = 8 ∧
      Break.cut [⟨3, 6⟩, ⟨1, 4⟩] 2 "ABCDEFGH IJ".toList = 8 ∧
      Break.cut [⟨1, 4⟩, ⟨3, 6⟩] 2 "ABCDEFGH IJ".toList = 8) ∧
    ((ofText "CPYF TOFILE('B C')".toList).page .standard
        ["TOFILE(".toList, "'B C'".toList] []).lines =
      ((ofText "CPYF TOFILE('B C')".toList).format .standard none).lines := by
  obtain ⟨hcut, -, hlines⟩ := format_eq_of_atoms_enumerated
  obtain ⟨-, hpass, hcongr⟩ := hcut [⟨3, 6⟩, ⟨1, 4⟩] 2 "ABCDEFGH IJ".toList (by decide)
  have height : Break.cut [⟨3, 6⟩, ⟨1, 4⟩] 2 "ABCDEFGH IJ".toList = 8 := by decide
  rw [height] at hpass hcongr
  refine ⟨⟨hpass, height, hcongr _ fun s ↦ ?_⟩, (hlines .standard none _ _ fun a ↦ ?_).1⟩
  · simp [or_comm]
  · have hatoms : Atom.ofCommand .upper (ofText "CPYF TOFILE('B C')".toList) =
        ["TOFILE(".toList, "'B C'".toList] := by decide +kernel
    rw [show Layout.standard.keywordCase = .upper from rfl, hatoms]

end Command

end ControlLanguage
