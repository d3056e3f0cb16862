import ControlLanguage.Proofs.Format.Parameters

/-!
# What a formatted command says

A page begins with the label and the command name, and the two may stand on lines of their own or
far apart. **Joined, they read as if they had been written with single colons and blanks**: the
label with its colon and at least one blank, if there is a label, and the name. With the parameters
behind them this is all that the page of a command says (`exists_spoken_page`).
-/

namespace ControlLanguage

open Text

namespace Page

/-- What stands in front of a command name: nothing, or a label with a colon and blanks. -/
def IsLead (l : Layout) (label lead : Text) : Prop :=
  label = [] ∧ lead = [] ∨ label ≠ [] ∧ ∃ n, lead = l.applyCase label ++ ':' :: blanks (n + 1)

theorem IsLead.append_beginsInk {l : Layout} {label lead t : Text} (h : IsLead l label lead)
    (hlabel : label ≠ [] → BeginsInk (l.applyCase label)) (ht : BeginsInk t) :
    BeginsInk (lead ++ t) := by
  rcases h with ⟨-, rfl⟩ | ⟨hne, n, rfl⟩
  · exact ht
  · rw [List.append_assoc]
    exact (hlabel hne).append _

/-- Only blanks in front of a text may be lost when its line is resumed. -/
theorem exists_resumed_eq (m : Marker) (n : Nat) {t : Text} (ht : BeginsInk t) :
    ∃ k, m.resumed (blanks n ++ t) = blanks k ++ t := by
  cases m with
  | plus =>
    refine ⟨0, ?_⟩
    rw [Marker.resumed, trimStart_append_of_isWhite (isWhite_blanks n), trimStart_of_beginsInk ht]
    rfl
  | minus => exact ⟨n, rfl⟩

/-- A text on a line of its own stands behind a blank at least: the one in front of the marker
counts, or else those of the line itself. -/
theorem exists_kept_append_resumed (m : Marker) {n : Nat} (hn : 0 < n) {t : Text}
    (ht : BeginsInk t) :
    ∃ k, m.kept (blanks 1) ++ m.resumed (blanks n ++ t) = blanks (k + 1) ++ t := by
  cases m with
  | plus =>
    refine ⟨0, ?_⟩
    rw [Marker.resumed, trimStart_append_of_isWhite (isWhite_blanks n), trimStart_of_beginsInk ht]
    rfl
  | minus =>
    obtain ⟨k, rfl⟩ := Nat.exists_eq_add_of_lt hn
    exact ⟨k, by rw [Nat.zero_add]; rfl⟩

/-- What a line says that ends in ink and is left at a blank for the next one. -/
theorem spoken_breakLine_start (l : Layout) {lead : Text} (h : EndsInk lead) (t : Text) :
    Page.spoken l.marker { (start lead).breakLine l false with current := t } =
      l.marker.resumed lead ++ (l.marker.kept (blanks 1) ++ l.marker.resumed t) := by
  have hclosed : ((start lead).breakLine l false).closed.flatMap (Statement.spoken l.marker) =
      l.marker.resumed lead ++ l.marker.kept (blanks 1) := by
    rw [← trimEnd_of_endsInk (l.marker.endsInk_resumed h), ← spoken_closing l.marker h.not_isWhite]
    simp [breakLine, start]
  rw [← List.append_assoc, ← hclosed]
  rfl

/-- The label with its colon, and what is behind it on the line. -/
theorem exists_resumed_label {l : Layout} {label : Text} (h : BeginsInk (l.applyCase label))
    (t : Text) :
    ∃ k, l.marker.resumed (blanks (l.labelColumn - 1) ++ l.applyCase label ++ [':'] ++ t) =
      blanks k ++ (l.applyCase label ++ ':' :: t) := by
  rw [List.append_assoc, List.append_assoc]
  exact exists_resumed_eq l.marker _ (h.append _)

/-- What the page of a label and a command name says. It may begin with blanks. -/
theorem exists_spoken_headed {l : Layout} {label name : Text}
    (hlabel : label ≠ [] → BeginsInk (l.applyCase label)) (hname : BeginsInk (l.applyCase name))
    (hend : EndsInk (l.applyCase name)) :
    ∃ k lead, IsLead l label lead ∧
      (headed l label name).spoken l.marker = blanks k ++ (lead ++ l.applyCase name) ∧
      EndsInk (headed l label name).current := by
  by_cases hempty : label = []
  · have hpage : headed l label name =
        start (blanks (l.commandColumn - 1) ++ l.applyCase name) := by simp [headed, hempty]
    obtain ⟨k, hk⟩ := exists_resumed_eq l.marker (l.commandColumn - 1) hname
    rw [hpage]
    exact ⟨k, [], Or.inl ⟨hempty, rfl⟩, hk, hend.append _⟩
  have hsaid := exists_resumed_label (hlabel hempty)
  generalize hlead : blanks (l.labelColumn - 1) ++ l.applyCase label ++ [':'] = lead at hsaid
  -- a label that reaches the command column is closed off with a blank, else it is padded
  by_cases hlong : l.commandColumn - 1 ≤ lead.length
  · have hpage : headed l label name = { (start lead).breakLine l false with
        current := blanks (l.commandColumn - 1) ++ l.applyCase name } := by
      simp [headed, hempty, hlead, hlong]
    have hindent : 0 < l.commandColumn - 1 := by
      have := l.label_pos
      have := l.label_lt_command
      omega
    obtain ⟨k, hk⟩ := hsaid []
    rw [List.append_nil] at hk
    obtain ⟨n, hn⟩ := exists_kept_append_resumed l.marker hindent hname
    rw [hpage]
    refine ⟨k, l.applyCase label ++ ':' :: blanks (n + 1), Or.inr ⟨hempty, n, rfl⟩, ?_,
      hend.append _⟩
    rw [spoken_breakLine_start l ⟨_, ':', hlead.symm, by decide⟩, hk, hn]
    simp
  · have hpage : headed l label name =
        start (lead.padEnd (l.commandColumn - 1) ++ l.applyCase name) := by
      simp [headed, hempty, hlead, hlong]
    obtain ⟨n, hn⟩ : ∃ n, l.commandColumn - 1 - lead.length = n + 1 :=
      ⟨l.commandColumn - 1 - lead.length - 1, by omega⟩
    obtain ⟨k, hk⟩ := hsaid (blanks (n + 1) ++ l.applyCase name)
    rw [hpage]
    refine ⟨k, l.applyCase label ++ ':' :: blanks (n + 1), Or.inr ⟨hempty, n, rfl⟩, ?_,
      hend.append _⟩
    show l.marker.resumed (lead.padEnd (l.commandColumn - 1) ++ l.applyCase name) = _
    rw [padEnd, hn, List.append_assoc, hk]
    simp

/-- Moving on to the parameters adds blanks only. -/
theorem toParameters_spec (l : Layout) {p : Page} (hend : EndsInk p.current) :
    (p.toParameters l).IsReady ∧
      ((p.toParameters l).spoken l.marker).trimEnd = p.spoken l.marker := by
  have hblanks : ∃ n, p.toParameters l = p.append (blanks n) := by
    rw [toParameters]
    split_ifs
    · exact ⟨_, rfl⟩
    · exact ⟨1, rfl⟩
  obtain ⟨n, hn⟩ := hblanks
  rw [hn]
  refine ⟨⟨p.current, n, rfl, hend⟩, ?_⟩
  rw [spoken_append _ fun h ↦ absurd h hend.not_isWhite,
    trimEnd_append_of_isWhite _ (isWhite_blanks n), trimEnd_spoken l.marker hend]

end Page

namespace Command

open Page

/-- **What the page of a command says**, if joining its lines undoes the breaks. -/
theorem exists_spoken_page {l : Layout} {atoms : List Text}
    (hatoms : ∀ a ∈ atoms, a.IsUnpadded) {label name : Text}
    (hlabel : label ≠ [] → BeginsInk (l.applyCase label)) (hname : BeginsInk (l.applyCase name))
    (hend : EndsInk (l.applyCase name)) {cs : List Capture} (hcs : ∀ c ∈ cs, c.IsReadable)
    (hliterals : ∀ c ∈ cs, ∀ t ∈ c.tokens, t.kind = .literal → t.text ∈ atoms)
    (hmends : ∀ q ∈ Page.pieces l atoms
        (firstPage l label ⟨name, cs.map Capture.toParameter⟩) (cs.map Capture.toParameter),
      ∀ b ∈ q.breaks l atoms, l.Mends b.joined) :
    ∃ k lead w, IsLead l label lead ∧ SaysParameters l cs w ∧
      (page l atoms label ⟨name, cs.map Capture.toParameter⟩).spoken l.marker =
        blanks k ++ (lead ++ (l.applyCase name ++ w)) ∧
      EndsInk (page l atoms label ⟨name, cs.map Capture.toParameter⟩).current := by
  obtain ⟨k, lead, hlead, hspoken, hcurrent⟩ := exists_spoken_headed hlabel hname hend
  rcases cs with _ | ⟨c, cs⟩
  · refine ⟨k, lead, [], hlead, SaysParameters.nil l, ?_, hcurrent⟩
    rw [List.append_nil]
    exact hspoken
  · obtain ⟨hready, htrim⟩ := toParameters_spec l hcurrent
    have hpage : firstPage l label ⟨name, (c :: cs).map Capture.toParameter⟩ =
        (headed l label name).toParameters l := rfl
    rw [hpage] at hmends
    obtain ⟨w, hw, hfold, hcurrent'⟩ :=
      exists_saysParameters hatoms hcs hliterals hmends hready nofun
    refine ⟨k, lead, w, hlead, hw, ?_, hcurrent'⟩
    rw [htrim, hspoken, List.append_assoc, List.append_assoc] at hfold
    exact hfold

end Command

end ControlLanguage
