import ControlLanguage.Proofs.Format.Breaking
import ControlLanguage.Proofs.Token.Thinning

/-!
# What formatting depends on

Formatting looks at the tokens of a value through their kinds and texts only, and at a keyword only
in the case of the layout. So **two commands that agree in these respects are formatted alike**,
whatever the columns of their tokens and the case of their words.
-/

namespace ControlLanguage

open Token

variable {ts us : List Token}

/-- Alike tokens are spelled alike. -/
theorem Token.spelling_congr (h : List.Forall₂ Alike ts us) : spelling ts = spelling us := by
  have htexts : ts.flatMap (·.text) = us.flatMap (·.text) := by
    induction h with
    | nil => rfl
    | cons h _ ih => rw [List.flatMap_cons, List.flatMap_cons, h.2, ih]
  rw [spelling, spelling, htexts]

theorem Token.Alike.isScalar_eq {t u : Token} (h : Alike t u) : t.isScalar = u.isScalar := by
  rw [isScalar, isScalar, h.1]

/-- A value is laid out by its spelling. -/
theorem Segments.ofValue_congr (l : Layout) (indent : Nat) (h : List.Forall₂ Alike ts us) :
    ofValue l indent (.ofTokens ts) = ofValue l indent (.ofTokens us) := by
  have hspell := spelling_congr h
  rcases h with _ | ⟨htu, _ | ⟨_, _⟩⟩
  · rfl
  · rw [Value.ofTokens, Value.ofTokens, htu.isScalar_eq]
    split_ifs
    · rw [ofValue, ofValue, htu.2]
    · rw [ofValue, ofValue, hspell]
  · exact congrArg single hspell

namespace Atom

/-- Alike tokens have the same atoms. -/
theorem ofTokens_congr (h : List.Forall₂ Alike ts us) : ofTokens ts = ofTokens us := by
  induction h with
  | nil => rfl
  | @cons t u ts us htu hrest ih =>
    have hnext : ts.head?.any (·.kind = .opening) = us.head?.any (·.kind = .opening) := by
      cases hrest with
      | nil => rfl
      | cons h _ => simp [h.1]
    rw [ofTokens, ofTokens, htu.1, htu.2, hnext, ih]

/-- A value has the atoms of its tokens. -/
theorem ofValue_congr (k : KeywordCase) (h : List.Forall₂ Alike ts us) :
    ofValue k (.ofTokens ts) = ofValue k (.ofTokens us) := by
  have htokens := ofTokens_congr h
  rcases h with _ | ⟨htu, _ | ⟨_, _⟩⟩
  · rfl
  · rw [Value.ofTokens, Value.ofTokens, htu.isScalar_eq]
    split_ifs
    · rw [ofValue, ofValue, htu.2]
    · rw [ofValue, ofValue, htokens]
  · exact htokens

end Atom

namespace Command

variable {l : Layout} {cs ds : List Capture}

/-- Two captures that a layout writes alike. -/
def Capture.Alike (l : Layout) (c d : Capture) : Prop :=
  l.applyCase c.keyword = l.applyCase d.keyword ∧ List.Forall₂ Token.Alike c.tokens d.tokens

/-- The atoms of parameters are those of alike parameters. -/
theorem ofParameters_congr (h : List.Forall₂ (Capture.Alike l) cs ds) :
    Atom.ofParameters l.keywordCase (cs.map Capture.toParameter) =
      Atom.ofParameters l.keywordCase (ds.map Capture.toParameter) := by
  induction h with
  | nil => rfl
  | cons hcd _ ih =>
    rw [List.map_cons, List.map_cons, Atom.ofParameters, Atom.ofParameters, ih]
    congr 1
    rw [Capture.toParameter, Capture.toParameter, Atom.ofParameter, Atom.ofParameter,
      Atom.ofValue_congr _ hcd.2]
    exact congrArg (fun t ↦ Atom.opened t :: _) hcd.1

/-- Alike parameters are laid out alike. -/
theorem parameterSegments_congr (p : Page) {c d : Capture} (h : Capture.Alike l c d) :
    p.parameterSegments l c.toParameter = p.parameterSegments l d.toParameter := by
  simp only [Page.parameterSegments, Capture.toParameter, h.1, Segments.ofValue_congr l _ h.2]

theorem addParameter_congr (atoms : List Text) (p : Page) {c d : Capture}
    (h : Capture.Alike l c d) :
    p.addParameter l atoms c.toParameter = p.addParameter l atoms d.toParameter := by
  rw [Page.addParameter, Page.addParameter, parameterSegments_congr p h]

/-- So are alike lists of parameters, one after the other. -/
theorem foldl_addParameter_congr (atoms : List Text) (p : Page)
    (h : List.Forall₂ (Capture.Alike l) cs ds) :
    (cs.map Capture.toParameter).foldl (Page.addParameter l atoms) p =
      (ds.map Capture.toParameter).foldl (Page.addParameter l atoms) p := by
  induction h generalizing p with
  | nil => rfl
  | cons hcd _ ih =>
    rw [List.map_cons, List.map_cons, List.foldl_cons, List.foldl_cons,
      addParameter_congr atoms p hcd, ih]

/-- They are put on a page in the same pieces. -/
theorem pieces_parameters_congr (atoms : List Text) (p : Page)
    (h : List.Forall₂ (Capture.Alike l) cs ds) :
    Page.pieces l atoms p (cs.map Capture.toParameter) =
      Page.pieces l atoms p (ds.map Capture.toParameter) := by
  induction h generalizing p with
  | nil => rfl
  | cons hcd _ ih =>
    rw [List.map_cons, List.map_cons, Page.pieces, Page.pieces, Page.parameterPieces,
      Page.parameterPieces, parameterSegments_congr p hcd, addParameter_congr atoms p hcd, ih]

/-- The name of a command is no atom, so the atoms of two commands agree if their parameters are
alike. -/
theorem atoms_congr (name name' : Text) (h : List.Forall₂ (Capture.Alike l) cs ds) :
    atoms l.keywordCase ⟨name, cs.map Capture.toParameter⟩ =
      atoms l.keywordCase ⟨name', ds.map Capture.toParameter⟩ := by
  rw [atoms, atoms, Atom.ofCommand, Atom.ofCommand, ofParameters_congr h]

theorem isEmpty_congr (h : List.Forall₂ (Capture.Alike l) cs ds) :
    (cs.map Capture.toParameter).isEmpty = (ds.map Capture.toParameter).isEmpty := by
  cases h <;> rfl

/-- **Commands that a layout writes alike are formatted alike.** -/
theorem format_congr {name name' : Text} {label label' : Option Text}
    (hlabel : l.applyCase (label.getD []) = l.applyCase (label'.getD []))
    (hlabel' : (label.getD []).isEmpty = (label'.getD []).isEmpty)
    (hname : l.applyCase name = l.applyCase name') (h : List.Forall₂ (Capture.Alike l) cs ds) :
    format l label ⟨name, cs.map Capture.toParameter⟩ =
      format l label' ⟨name', ds.map Capture.toParameter⟩ := by
  have hpage : ∀ a, page l a (label.getD []) ⟨name, cs.map Capture.toParameter⟩ =
      page l a (label'.getD []) ⟨name', ds.map Capture.toParameter⟩ := by
    intro a
    simp only [page, Page.headed, hlabel, hlabel', hname, isEmpty_congr h]
    exact foldl_addParameter_congr a _ h
  rw [format, format, atoms_congr name name' h, hpage]

/-- They come in the same pieces. -/
theorem pieces_congr (label name : Text) (h : List.Forall₂ (Capture.Alike l) cs ds) :
    pieces l label ⟨name, cs.map Capture.toParameter⟩ =
      pieces l label ⟨name, ds.map Capture.toParameter⟩ := by
  simp only [pieces, firstPage, atoms_congr name name h, isEmpty_congr h]
  exact pieces_parameters_congr _ _ h

end Command

end ControlLanguage
