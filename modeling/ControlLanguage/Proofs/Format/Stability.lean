import ControlLanguage.Format.Source
import ControlLanguage.Proofs.Format.ReadBack

/-!
# Formatting twice changes nothing

What formatting writes is read back as the original, rewritten; and where no blank can be lost, the
rewritten statement agrees with the original in all that formatting depends on. So it is written on
the same lines. **The statements of a file do not interfere**: the lines of each one are joined to
one statement again, and comments are kept as they are.
-/

namespace ControlLanguage

namespace Statement

/-- A statement that keeps its blanks when it is formatted: none of them stands at the end of a
value or directly behind an opening parenthesis. -/
structure IsSettled (s : Text) : Prop extends IsReadable s where
  isTight : ∀ c ∈ captures s, Token.IsTight true c.tokens

/-- **A rewritten statement is formatted as the original**, if no blank was lost. -/
theorem format_eq_of_rewritten {l : Layout} {s s' : Text} (h : IsSettled s)
    (hs' : Rewritten l s s') : format l s' = format l s := by
  have hlabel : l.applyCase ((ofText s).label.getD []) =
        l.applyCase (((ofText s).label.map l.applyCase).getD []) ∧
      ((ofText s).label.getD []).isEmpty =
        (((ofText s).label.map l.applyCase).getD []).isEmpty := by
    rcases hcases : (ofText s).label with _ | label
    · exact ⟨rfl, rfl⟩
    · have hascii := h.label_isAscii label hcases
      refine ⟨(l.keywordCase.apply_apply hascii).symm, ?_⟩
      rw [Option.map_some, Option.getD_some, Option.getD_some, Layout.applyCase,
        l.keywordCase.apply_of_isAscii hascii, List.isEmpty_map]
  have hname : l.applyCase (nameIn s) = l.applyCase (nameIn s') := by
    rw [hs'.nameIn]
    exact (l.keywordCase.apply_apply h.nameIn_isAscii).symm
  have hcaptures : List.Forall₂ (Command.Capture.Alike l) (captures s) (captures s') := by
    have hmem : List.Forall₂ (fun c d ↦ c ∈ captures s ∧ c.Rewritten l d) (captures s)
        (captures s') :=
      (List.forall₂_and_left _ _).2 ⟨fun _ hc ↦ hc, hs'.captures⟩
    refine hmem.imp ?_
    rintro c d ⟨hc, hcd⟩
    refine ⟨?_, hcd.tokens.alike (h.isTight c hc)⟩
    rw [hcd.keyword]
    exact (l.keywordCase.apply_apply (h.keyword_isAscii c hc)).symm
  rw [← hs'.label] at hlabel
  exact (Command.format_congr hlabel.1 hlabel.2 hname hcaptures).symm

end Statement

namespace Source

open Statement

/-- The lines of formatted entries are joined to entries that are formatted alike. -/
theorem exists_joinedAfter_formatEntry {l : Layout} (hl : l.marker = .plus) {entries : List Text}
    (htrim : ∀ e ∈ entries, e.trim = e)
    (h : ∀ e ∈ entries, isComment e = false → IsSettled e) :
    ∃ entries', joinedAfter none (entries.flatMap (formatEntry l)) = entries' ∧
      entries'.map (formatEntry l) = entries.map (formatEntry l) := by
  induction entries with
  | nil => exact ⟨[], rfl, rfl⟩
  | cons e entries ih =>
    obtain ⟨entries', hjoined, hentries⟩ := ih (fun e he ↦ htrim e (List.mem_cons_of_mem _ he))
      (fun e he ↦ h e (List.mem_cons_of_mem _ he))
    rw [List.flatMap_cons]
    rcases hcomment : isComment e with _ | _
    · have hsettled := h e List.mem_cons_self hcomment
      have htrim' := htrim e List.mem_cons_self
      obtain ⟨s', hs', hcomment', hlines⟩ :=
        exists_joinedAfter_format hl hsettled.toIsReadable (htrim'.symm ▸ hcomment)
      have he : formatEntry l e = (Statement.format l e).lines := by simp [formatEntry, hcomment]
      have he' : formatEntry l s' = (Statement.format l s').lines := by
        simp [formatEntry, hcomment']
      refine ⟨s' :: entries', ?_, ?_⟩
      · rw [he, hlines, hjoined]
      · rw [List.map_cons, List.map_cons, hentries, he, he', format_eq_of_rewritten hsettled hs']
    · have he : formatEntry l e = [e] := by simp [formatEntry, hcomment]
      refine ⟨e :: entries', ?_, by rw [List.map_cons, List.map_cons, hentries]⟩
      rw [he, List.singleton_append, joinedAfter_comment _ hcomment (htrim e List.mem_cons_self),
        hjoined]

/-- **Formatting a file twice changes nothing.** -/
theorem format_format {l : Layout} (hl : l.marker = .plus) {lines : List Text}
    (h : ∀ e ∈ joinLines lines, isComment e = false → IsSettled e) :
    format l (format l lines) = format l lines := by
  obtain ⟨entries', hjoined, hentries⟩ :=
    exists_joinedAfter_formatEntry hl (fun e ↦ trim_eq_of_mem_joinLines) h
  rw [format, format, joinLines, hjoined, List.flatMap_def, hentries, ← List.flatMap_def]

/-- A comment, a statement with a label that goes on on a second line, and a command alone. -/
theorem format_format_copy :
    (∀ e ∈ joinLines ["/* Copy */".toList, "COPY: CPYF FROMFILE(A) +".toList,
        "  TOFILE('B C')".toList, "RETURN".toList], isComment e = false → IsSettled e) ∧
      format .standard (format .standard ["/* Copy */".toList, "COPY: CPYF FROMFILE(A) +".toList,
        "  TOFILE('B C')".toList, "RETURN".toList]) =
      format .standard ["/* Copy */".toList, "COPY: CPYF FROMFILE(A) +".toList,
        "  TOFILE('B C')".toList, "RETURN".toList] := by
  have h : ∀ e ∈ joinLines ["/* Copy */".toList, "COPY: CPYF FROMFILE(A) +".toList,
      "  TOFILE('B C')".toList, "RETURN".toList], isComment e = false → IsSettled e := by
    have hentries : joinLines ["/* Copy */".toList, "COPY: CPYF FROMFILE(A) +".toList,
        "  TOFILE('B C')".toList, "RETURN".toList] = ["/* Copy */".toList,
        "COPY: CPYF FROMFILE(A) TOFILE('B C')".toList, "RETURN".toList] := by decide
    rw [hentries]
    simp only [List.forall_mem_cons]
    refine ⟨fun hcomment ↦ absurd hcomment (by decide), fun _ ↦ ⟨⟨?_, ⟨_, rfl⟩, by decide,
      by decide, by decide, by decide, by decide, by decide⟩, by decide⟩, fun _ ↦ ⟨⟨?_,
      ⟨_, rfl⟩, by decide, by decide, by decide, by decide, by decide, by decide⟩, by decide⟩,
      nofun⟩
    · exact List.all_iff_forall_prop.1 (by decide)
    · exact List.all_iff_forall_prop.1 (by decide)
  exact ⟨h, format_format rfl h⟩

end Source

end ControlLanguage
