import ControlLanguage.Proofs.Parameter.SurfaceText

/-!
# Statements from surface text

A statement may be assembled from the text of a value or from what was read from it. **Both ways
give the same statement if and only if the text is plain** (`assemble_text_eq_assemble_interpret`),
where the text is not several occurrences that the printer takes for one.

Scalars, their occurrences and names are always plain. In a list of elements the printer leaves a
list in parentheses and a name in parentheses as they were typed, and the reader does not
(`assemble_differs_in_parentheses`).
-/

namespace ControlLanguage

open Text ControlLanguage.Part ValueRules

namespace Statement

/-- **A value gives the same statement as text and as it was read**, if the text is plain; and a
closed text that does so is plain. -/
theorem assemble_text_eq_assemble_interpret {rules : AssemblyRules} {p : ParameterSpec} {t : Text}
    (h : p.OccursAlike (rules.valueRules p.key) t) (name : Text) {present : List Text}
    (hpresent : p.key ∈ present.map upper) (label : Option Text) :
    (p.IsPlainText (rules.valueRules p.key) t →
      assemble name [(p.keyword, .text t)] [p] rules present label =
        assemble name [(p.keyword, p.interpret t)] [p] rules present label) ∧
    (ElementKey.keyword? p.key = none → IsWellNested t →
      assemble name [(p.keyword, .text t)] [p] rules present label =
        assemble name [(p.keyword, p.interpret t)] [p] rules present label →
      p.IsPlainText (rules.valueRules p.key) t) := by
  constructor
  · intro hplain
    by_cases hkey : ElementKey.keyword? p.key = none
    · rw [assemble_singleton rules name hpresent label hkey,
        assemble_singleton rules name hpresent label hkey, ValueRules.typed_text_eq h hplain]
    · -- neither value is found under the key of an element
      rw [assemble_singleton_of_isElementKey rules name label hkey,
        assemble_singleton_of_isElementKey rules name label hkey]
  · intro hkey hnested heq
    exact ValueRules.isPlainText_of_typed_text_eq h hnested
      (typed_eq_of_assemble_singleton_eq rules name hpresent label hkey heq)

/-- A parameter with elements, qualified, nested and plain ones. -/
def mixedParameter (max : Int) : ParameterSpec :=
  ⟨"Log".toList, [], 0, max, none, [], [], mixedElements⟩

/-- Two lists in their parentheses. -/
def twoLists : Text :=
  "(LIB/OBJ (A 'b c'))  (*N *N WORD)".toList

/-- They stand as they are written, the list inside the first one too. -/
theorem isPlainText_twoLists : (mixedParameter 9).IsPlainText
    ((AssemblyRules.ofParameters [mixedParameter 1]).valueRules (mixedParameter 9).key)
    twoLists := by
  have hlists : Part.occurrences twoLists =
      ["(LIB/OBJ (A 'b c'))".toList, "(*N *N WORD)".toList] := by decide +kernel
  have hinner : Part.occurrences (unwrapped "(A 'b c')".toList) = ["A".toList, "'b c'".toList] := by
    decide +kernel
  have hfirst : Part.occurrences (unwrapped "(LIB/OBJ (A 'b c'))".toList) =
      ["LIB/OBJ".toList, "(A 'b c')".toList] := by decide +kernel
  have hsecond : Part.occurrences (unwrapped "(*N *N WORD)".toList) =
      ["*N".toList, "*N".toList, "WORD".toList] := by decide +kernel
  refine ⟨fun _ h ↦ absurd h (by decide), fun _ _ i o ho ↦ ?_,
    fun _ h ↦ absurd h (by decide +kernel)⟩
  rw [hlists] at ho
  rcases i with _ | _ | i <;> cases ho
  · refine ⟨by decide +kernel, by decide +kernel, fun j f hf ↦ ?_⟩
    rw [hfirst] at hf
    rcases j with _ | _ | j <;> cases hf
    · exact .name (by decide) (by decide +kernel)
    · refine .list rfl (by decide) (by decide) ⟨by decide +kernel, by decide +kernel, ?_⟩
      intro k g hg
      rw [hinner] at hg
      rcases k with _ | _ | k <;> cases hg <;> decide +kernel
  · refine ⟨by decide +kernel, by decide +kernel, fun j f hf ↦ ?_⟩
    rw [hsecond] at hf
    rcases j with _ | _ | _ | j <;> cases hf
    · exact .name (by decide) (by decide +kernel)
    · exact .text (by decide) (by decide) (by decide +kernel)
    · exact .text (by decide) (by decide) (by decide +kernel)

/-- A qualified name, a list and a word stand as they are written. So do two lists of such parts,
and two names that are put in upper case. -/
theorem assemble_text_eq_assemble_interpret_mixed :
    let p := mixedParameter 1
    let q := mixedParameter 9
    let rules := AssemblyRules.ofParameters [p]
    let t := " lib/obj  (A 'b c') word".toList
    let u := twoLists
    let names := nameParameter "Log".toList "*NAME".toList 9 []
    let v := "lib/obj *Libl/obj ".toList
    (p.OccursAlike (rules.valueRules p.key) t ∧ p.key ∈ ["log".toList].map upper ∧
      ElementKey.keyword? p.key = none ∧ IsWellNested t ∧
      assemble "X".toList [("Log".toList, .text t)] [p] rules ["log".toList] none =
        .ok "X Log(LIB/OBJ (A 'b c') WORD)".toList ∧
      assemble "X".toList [("Log".toList, p.interpret t)] [p] rules ["log".toList] none =
        .ok "X Log(LIB/OBJ (A 'b c') WORD)".toList ∧
      p.IsPlainText (rules.valueRules p.key) t) ∧
    (q.OccursAlike (rules.valueRules q.key) u ∧ q.IsPlainText (rules.valueRules q.key) u ∧
      assemble "X".toList [("Log".toList, .text u)] [q] rules ["log".toList] none =
        .ok "X Log((LIB/OBJ (A 'b c')) (*N *N WORD))".toList ∧
      assemble "X".toList [("Log".toList, q.interpret u)] [q] rules ["log".toList] none =
        .ok "X Log((LIB/OBJ (A 'b c')) (*N *N WORD))".toList) ∧
    names.OccursAlike names.rules v ∧ names.IsPlainText names.rules v ∧
      assemble "X".toList [("Log".toList, .text v)] [names] (.ofParameters [names])
        ["log".toList] none = .ok "X Log(LIB/OBJ *LIBL/OBJ)".toList ∧
      assemble "X".toList [("Log".toList, names.interpret v)] [names] (.ofParameters [names])
        ["log".toList] none = .ok "X Log(LIB/OBJ *LIBL/OBJ)".toList := by
  intro p q rules t u names v
  have hpresent : p.key ∈ ["log".toList].map upper := by decide +kernel
  have hkey : ElementKey.keyword? p.key = none := by decide +kernel
  have hnested : IsWellNested t := by decide +kernel
  have halike : p.OccursAlike (rules.valueRules p.key) t :=
    ⟨fun h ↦ absurd h (by decide), fun _ h ↦ absurd h (by decide)⟩
  have htext : assemble "X".toList [("Log".toList, .text t)] [p] rules ["log".toList] none =
      .ok "X Log(LIB/OBJ (A 'b c') WORD)".toList := by decide +kernel
  have hvalue : assemble "X".toList [("Log".toList, p.interpret t)] [p] rules ["log".toList] none =
      .ok "X Log(LIB/OBJ (A 'b c') WORD)".toList := by decide +kernel
  have halike' : q.OccursAlike (rules.valueRules q.key) u :=
    ⟨fun h ↦ absurd h (by decide), fun _ _ ↦ by decide +kernel⟩
  have hnames : names.OccursAlike names.rules v :=
    ⟨fun _ _ _ ↦ ⟨by decide +kernel, Or.inr ⟨true, by decide +kernel, by decide +kernel,
      by decide +kernel⟩⟩, fun h ↦ absurd h (by decide)⟩
  have hplain : names.IsPlainText names.rules v :=
    ⟨fun h ↦ absurd h (by decide), fun h ↦ absurd h (by decide), fun h ↦ absurd h (by decide)⟩
  have hlists : assemble "X".toList [("Log".toList, .text u)] [q] rules ["log".toList] none =
      .ok "X Log((LIB/OBJ (A 'b c')) (*N *N WORD))".toList := by decide +kernel
  have hnames' : assemble "X".toList [("Log".toList, .text v)] [names] (.ofParameters [names])
      ["log".toList] none = .ok "X Log(LIB/OBJ *LIBL/OBJ)".toList := by decide +kernel
  exact ⟨⟨halike, hpresent, hkey, hnested, htext, hvalue,
      (assemble_text_eq_assemble_interpret halike "X".toList hpresent none).2 hkey hnested
        (htext.trans hvalue.symm)⟩,
    ⟨halike', isPlainText_twoLists, hlists,
      ((assemble_text_eq_assemble_interpret halike' "X".toList hpresent none).1
        isPlainText_twoLists).symm.trans hlists⟩,
    hnames, hplain, hnames',
    ((assemble_text_eq_assemble_interpret hnames "X".toList hpresent none).1 hplain).symm.trans
      hnames'⟩

/-- What is written for a text and for its value. -/
def bothWays (max : Int) (elements : List ElementSpec) (t : Text) :
    Except NoParts Text × Except NoParts Text :=
  let p : ParameterSpec := ⟨"K".toList, [], 0, max, none, [], [], elements⟩
  (assemble "X".toList [("K".toList, .text t)] [p] (.ofParameters [p]) ["K".toList] none,
    assemble "X".toList [("K".toList, p.interpret t)] [p] (.ofParameters [p]) ["K".toList] none)

/-- The printer leaves lists and names in parentheses as they were typed, and the reader does
not. Parentheses with nothing in them are no value to the reader. -/
theorem assemble_differs_in_parentheses :
    bothWays 1 [{ plainElement with elements := [plainElement, plainElement] }] "(a b)".toList =
      (.ok "X K((a b))".toList, .ok "X K((A B))".toList) ∧
    bothWays 1 [{ plainElement with qualifiers := [⟨"NAME".toList, [], none, []⟩] }]
        "(a b)".toList =
      (.ok "X K((a b))".toList, .ok "X K((A B))".toList) ∧
    bothWays 9 [plainElement, plainElement] "(a b) (c d)".toList =
      (.ok "X K((a b) (c d))".toList, .ok "X K((A B) (C D))".toList) ∧
    bothWays 1 [{ plainElement with elements := [plainElement, plainElement] }] "()".toList =
      (.ok "X K(())".toList, .ok "X".toList) := by
  refine ⟨?_, ?_, ?_, ?_⟩ <;> decide +kernel

end Statement

end ControlLanguage
