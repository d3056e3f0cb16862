import ControlLanguage.Proofs.Parameter.Elements
import ControlLanguage.Proofs.Parameter.Settling
import ControlLanguage.Proofs.Part.Matching
import ControlLanguage.Proofs.Part.NormalForm

/-!
# The parts of closed texts

The quotes and parentheses of a well-nested text are closed, and so they are in all of its parts:
**the occurrences of a well-nested text are undivided** (`IsWellNested.isUndivided`), and so are
those inside a pair of parentheses. What is read from an undivided text by the description of an
element is therefore a part that keeps its position when it is written (`isElementPart_interpret`).
-/

namespace ControlLanguage

open Text ValueRules

namespace Part

/-- A well-nested text in parentheses is well-nested inside. -/
theorem IsWellNested.exists_of_isWrapped {t : Text} (h : IsWellNested t)
    (hwrapped : isWrapped t = true) :
    ∃ u, t.trim = parenthesised u ∧ unwrapped t = u.trim ∧ IsWellNested u := by
  obtain ⟨u, r, ht, hu, -⟩ := (isWrapped_iff_isMatch h).1 hwrapped
  obtain rfl : r = [] := (isWrapped_iff_of_group ht hu.isWellNested).1 hwrapped
  refine ⟨u, ht, ?_, hu.isWellNested⟩
  rw [unwrapped, if_pos hwrapped, ht]
  exact congrArg Text.trim List.dropLast_concat

/-- A balanced text is balanced without its parentheses. -/
theorem IsWellNested.unwrapped {t : Text} (h : IsWellNested t) : IsWellNested (unwrapped t) := by
  by_cases hwrapped : isWrapped t = true
  · obtain ⟨u, -, hinside, hu⟩ := h.exists_of_isWrapped hwrapped
    exact hinside ▸ hu.trim
  · rw [Part.unwrapped, if_neg hwrapped]
    exact h.trim

/-- What was put in parentheses can be taken out of them. -/
theorem isWrapped_parenthesised {t : Text} (h : IsWellNested t) :
    isWrapped (parenthesised t) = true :=
  (isWrapped_iff_of_group (IsNeat.parenthesised h).trim_eq h).2 rfl

/-- **The occurrences of a well-nested text are undivided.** -/
theorem IsWellNested.isUndivided {t o : Text} (h : IsWellNested t) (ho : o ∈ occurrences t) :
    IsUndivided o := by
  have hwhole := (isCut_occurrences t).isWhole o ho
  have hne := ne_nil_of_mem_occurrences ho
  obtain ⟨f, hf, rfl⟩ := List.mem_map.1 (List.mem_filter.1 ho).1
  exact IsNeat.isUndivided ⟨⟨(h.of_mem_fields hf).trim, hwhole⟩, trim_trim f⟩ hne

theorem IsUndivided.ink {t : Text} (h : IsUndivided t) : BeginsInk t ∧ EndsInk t :=
  h.trim_eq ▸ (trim_eq_nil_or_ink t).resolve_left (h.trim_eq.symm ▸ h.ne_nil)

/-- There is no white space around parts that are joined by blanks. -/
theorem trim_joinBlank_of_isUndivided {ts : List Text} (h : ∀ t ∈ ts, IsUndivided t) :
    (joinBlank ts).trim = joinBlank ts := by
  by_cases hnil : ts = []
  · rw [hnil]
    rfl
  · have hink : BeginsInk (joinBlank ts) ∧ EndsInk (joinBlank ts) :=
      intercalate_induction (P := fun t ↦ BeginsInk t ∧ EndsInk t)
        (fun ht hu ↦ ⟨ht.1.append _, (hu.2.append [' ']).append _⟩) hnil fun t ht ↦ (h t ht).ink
    exact trim_of_ink hink.1 hink.2

theorem trim_of_mem_objectFirst {n : Int} {t u : Text} (hu : u ∈ objectFirst n t) :
    u.trim = u :=
  (isQualifiedList_qualified n t).trim_eq u (List.mem_reverse.1 hu)

/-- The parts of an undivided name are undivided or empty. -/
theorem IsUndivided.isItem_of_mem_objectFirst {n : Int} {t u : Text} (h : IsUndivided t)
    (hu : u ∈ objectFirst n t) : IsItem u := by
  have hneat : IsNeat u.trim := IsItem.isNeat_of_mem_objectFirst (Or.inr h) hu
  rw [trim_of_mem_objectFirst hu] at hneat
  by_cases hnil : u = []
  · exact Or.inl ((trim_of_mem_objectFirst hu).trans hnil)
  · exact Or.inr (hneat.isUndivided hnil)

/-- A part of a list inside the list is a text as it stands. -/
theorem isElementPart_asText (spec : Option ElementSpec) {f : Text} (h : IsUndivided f) :
    IsElementPart (ElementReader.asText spec f) :=
  .text (Or.inr h)

/-- **An undivided text is read as a part of an element list.** -/
theorem isElementPart_interpret (spec : Option ElementSpec) {f : Text} (h : IsUndivided f) :
    IsElementPart (ElementSpec.interpret spec f) := by
  rcases spec with _ | e
  · exact .text (Or.inr h)
  · rw [ElementSpec.interpret]
    split_ifs
    · exact .texts fun u ↦ h.isItem_of_mem_objectFirst
    · exact .texts fun o ho ↦ Or.inr (h.isWellNested.unwrapped.isUndivided ho)
    · exact .text (Or.inr h)

end Part

end ControlLanguage
