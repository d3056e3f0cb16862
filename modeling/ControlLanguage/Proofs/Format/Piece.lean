import ControlLanguage.Format.Statement
import ControlLanguage.Proofs.Command.Capture
import ControlLanguage.Proofs.Format.Atom
import ControlLanguage.Proofs.Format.Filling
import ControlLanguage.Proofs.Text.AsciiCase

/-!
# The pieces of a statement that was read

Each parameter of a statement is one piece of text for the wrap loop: its keyword, and its value
between parentheses. As the text of a chain of tokens, **a piece may be wrapped** as soon as its
literals are atoms (`Wrappable.of_chain`).

`exists_spoken_addParameter` is the result for one parameter: it is said behind at least one blank,
and what is said is read as a chain of tokens with the keyword in the case of the layout and a
thinned value.
-/

namespace ControlLanguage

open Shape Token

/-- Literals stay literals. -/
theorem Shape.literal_of_run? {closed : Bool} {s : Shape} {u : Text}
    (h : (literal closed).run? u = some s) : ∃ closed', s = .literal closed' := by
  induction u generalizing closed with
  | nil => exact ⟨closed, (Option.some.inj h).symm⟩
  | cons c u ih =>
    obtain ⟨longer, hc, hu⟩ := run?_cons.1 h
    cases closed with
    | false =>
      obtain rfl := Option.some.inj hc
      exact ih hu
    | true =>
      rw [extended] at hc
      split_ifs at hc
      obtain rfl := Option.some.inj hc
      exact ih hu

section Follows

variable {s s' : Shape} {t : Token} {u v : Text} {c : Char}

/-- A blank that no literal holds is a token. -/
theorem Token.Follows.eq_blank (h : Follows s t s') (ht : t.text = u ++ c :: v)
    (hc : isBlank c = true) (hlit : s.afterText u ≠ .literal false) :
    s' = .blank ∧ u = [] ∧ c = ' ' ∧ v = [] := by
  have hblank : s' = .blank := by
    rcases u with _ | ⟨d, u⟩
    · exact (h.isBlank_iff ht).1 hc
    · obtain ⟨longer, hlonger, hv⟩ := h.exists_run? (List.cons_ne_nil d u) ht
      have hshape := (extended_eq_some_of_isBlank hc hlonger).resolve_right hlit
      rw [hshape, extended, if_pos hc, Option.some.injEq] at hlonger
      exact run?_blank (hlonger ▸ hv)
  subst hblank
  rw [h.text_eq_of_blank, eq_comm, List.append_eq_singleton_iff] at ht
  obtain ⟨rfl, hrest⟩ | ⟨-, hnil⟩ := ht
  · obtain ⟨rfl, rfl⟩ := List.cons.inj hrest
    exact ⟨rfl, rfl, rfl, rfl⟩
  · exact absurd hnil (List.cons_ne_nil c v)

/-- A character that a literal holds belongs to a token that is a literal and began before it. -/
theorem Token.Follows.kind_eq_literal_of_holdsInLiteral (h : Follows s t s')
    (ht : t.text = u ++ c :: v) (hlit : (s.afterText u).HoldsInLiteral c) :
    u ≠ [] ∧ t.kind = .literal := by
  obtain ⟨hgoes, closed, hclosed⟩ := hlit
  have hu : u ≠ [] := by
    rintro rfl
    obtain ⟨d, w, hd, hstop, -⟩ := h
    obtain ⟨rfl, -⟩ := List.cons.inj (ht.symm.trans hd)
    exact hgoes hstop
  obtain ⟨longer, hlonger, hv⟩ := h.exists_run? hu ht
  obtain ⟨closed', rfl⟩ := literal_of_run? (run?_cons.2 ⟨longer, hclosed ▸ hlonger, hv⟩)
  exact ⟨hu, h.kind_eq⟩

end Follows

/-- **The text of a chain may be wrapped** if its literals are atoms. -/
theorem Wrappable.of_chain {atoms : List Text} {s s' : Shape} {ts : List Token}
    (h : Chain s ts s') (hs' : s' ≠ .blank)
    (hwhite : ∀ c ∈ texts ts, isWhiteSpace c = true → isBlank c = true)
    (hatoms : ∀ t ∈ ts, t.kind = .literal → t.text ∈ atoms) : Wrappable atoms s (texts ts) where
  isBlank_of_isWhiteSpace := hwhite
  single x c y hxy hc hlit := by
    obtain ⟨before, t, rest, r, r', u, v, rfl, hb, hf, hrest, rfl, htext, rfl⟩ :=
      h.exists_token hxy
    rw [afterText_append, hb.afterText] at hlit
    obtain ⟨rfl, rfl, rfl, rfl⟩ := hf.eq_blank htext hc hlit
    refine ⟨rfl, ?_⟩
    -- the token behind a blank does not begin with another one
    cases hrest with
    | nil => exact absurd rfl hs'
    | @cons _ _ _ t' rest hf' _ =>
      obtain ⟨d, w, hd, hstop, -⟩ := hf'
      refine ⟨d, w ++ texts rest, by rw [texts_cons, hd]; rfl, ?_⟩
      simpa [extended] using hstop
  guarded x c y hxy hlit := by
    obtain ⟨before, t, rest, r, r', u, v, rfl, hb, hf, hrest, rfl, htext, rfl⟩ :=
      h.exists_token hxy
    rw [afterText_append, hb.afterText] at hlit
    obtain ⟨hu, hkind⟩ := hf.kind_eq_literal_of_holdsInLiteral htext hlit
    refine ⟨t.text, hatoms t (by simp) hkind, (texts before).length, ?_, ?_, ?_⟩
    · rw [texts_append, List.drop_left, texts_cons]
      exact List.prefix_append _ _
    · have hpos := List.length_pos_iff.2 hu
      rw [List.length_append]
      omega
    · simp only [htext, List.length_append, List.length_cons]
      omega

/-! ### The tokens of a piece -/

namespace Token

/-- The token of a keyword. -/
def ofKeyword (t : Text) : Token :=
  ⟨.keyword, t, 0⟩

/-- The tokens of a parameter. -/
def ofParameter (keyword : Text) (value : List Token) : List Token :=
  ofKeyword keyword :: opening :: (value ++ [closing])

theorem texts_ofParameter (keyword : Text) (value : List Token) :
    texts (ofParameter keyword value) = keyword ++ ['('] ++ texts value ++ [')'] := by
  simp [ofParameter, ofKeyword, opening, closing]

/-- The literals of a parameter are those of its value. -/
theorem mem_of_mem_ofParameter {keyword : Text} {value : List Token} {t : Token}
    (ht : t ∈ ofParameter keyword value) (hkind : t.kind = .literal) : t ∈ value := by
  simp only [ofParameter, List.mem_cons, List.mem_append, List.not_mem_nil, or_false] at ht
  rcases ht with rfl | rfl | ht | rfl
  · exact TokenKind.noConfusion hkind
  · exact TokenKind.noConfusion hkind
  · exact ht
  · exact TokenKind.noConfusion hkind

/-- Thinning a parameter thins its value. -/
theorem Thinned.exists_of_ofParameter {keyword : Text} {us ws : List Token}
    (h : Thinned false (ofParameter keyword us) ws) :
    ∃ k o vs t, ws = k :: o :: (vs ++ [t]) ∧ k.kind = .keyword ∧ k.text = keyword ∧
      o.kind = .opening ∧ t.kind = .closing ∧ t.text = [')'] ∧ Thinned true us vs := by
  rw [ofParameter] at h
  generalize hrest : us ++ [closing] = rest at h
  cases h with
  | @keep _ _ k _ _ hkkind hktext h =>
    cases h with
    | last => simp at hrest
    | @keep _ _ o _ _ hokind hotext h =>
      subst hrest
      obtain ⟨vs, t, rfl, hvs, htkind, httext⟩ := h.exists_concat (nofun : closing.kind ≠ .blank)
      exact ⟨k, o, vs, t, rfl, hkkind.symm, hktext.symm, hokind.symm, htkind.symm, httext.symm,
        hvs⟩

/-- A chain does not end in an opening parenthesis if its last token is of another kind. -/
theorem Chain.ne_opening {s r : Shape} {ts : List Token} {t : Token} (h : Chain s (ts ++ [t]) r)
    (ht : t.kind ≠ .opening) : r ≠ .opening := by
  rintro rfl
  obtain ⟨s', -, hf⟩ := chain_concat.1 h
  exact ht (hf.kind_eq_opening_iff.2 rfl)

theorem extended_paren {s : Shape} (hs : s ≠ .literal false) :
    s.extended '(' = none ∧ s.extended ')' = none := by
  rcases s with _ | _ | _ | (_ | _) | _ | _ | _ | _ | _
  case literal.false => exact absurd rfl hs
  all_goals decide

theorem follows_opening {s : Shape} (hs : s ≠ .literal false) : Follows s opening .opening :=
  ⟨'(', [], rfl, (extended_paren hs).1, rfl, rfl, nofun⟩

theorem follows_closing {s : Shape} (hs : s ≠ .literal false) : Follows s closing .closing :=
  ⟨')', [], rfl, (extended_paren hs).2, rfl, rfl, nofun⟩

theorem follows_blank {s : Shape} (hs : s.extended ' ' = none) : Follows s blank .blank :=
  ⟨' ', [], rfl, hs, rfl, rfl, fun _ ↦ rfl⟩

/-- Blanks are read as one. -/
theorem following_of_isBlank {s : Shape} {b t : Text} (hs : s.Stops b) (hne : b ≠ [])
    (hb : ∀ c ∈ b, isBlank c = true) (ht : Shape.blank.Stops t) :
    following s (b ++ t) = Token.blank :: following .blank t := by
  obtain ⟨c, u, rfl⟩ := List.exists_cons_of_ne_nil hne
  have hrun : (begun true c).run? u = some .blank := by
    rw [begun_of_isBlank (hb c List.mem_cons_self)]
    exact run?_blank_of_isBlank fun d hd ↦ hb d (List.mem_cons_of_mem c hd)
  rw [List.cons_append]
  exact following_cons_append (stops_cons.1 hs) hrun ht

theorem chain_ofParameter {keyword : Text} {value : List Token} {s : Shape}
    (hkeyword : Follows .blank (ofKeyword keyword) .word) (hvalue : Chain .opening value s)
    (hs : s ≠ .literal false) : Chain .blank (ofParameter keyword value) .closing :=
  Chain.cons hkeyword (Chain.cons (follows_opening (by simp))
    (hvalue.append (Chain.cons (follows_closing hs) (Chain.nil _))))

/-- A keyword is a word. -/
theorem Follows.isIdentifier {t : Text} (h : Follows .blank (ofKeyword t) .word) :
    t.isIdentifier = true := by
  obtain ⟨c, u, -, -, -, hk, -⟩ := h
  have hkind : TokenKind.keyword = if t.isIdentifier then .keyword else .value := hk
  by_contra hident
  simp [hident] at hkind

end Token

namespace KeywordCase

/-- A keyword in another case is a keyword. -/
theorem follows_ofKeyword (k : KeywordCase) {t : Text} (ht : t.IsAscii)
    (h : Follows .blank (ofKeyword t) .word) : Follows .blank (ofKeyword (k.apply t)) .word := by
  have hident := h.isIdentifier
  obtain ⟨c, u, htext, hstop, hu, -, -⟩ := h
  obtain rfl : t = c :: u := htext
  obtain ⟨hc, hu'⟩ := Text.isAscii_cons.1 ht
  have happly : k.apply (c :: u) = k.char c :: k.apply u := by
    rw [apply_of_isAscii k ht, apply_of_isAscii k hu', List.map_cons]
  refine ⟨k.char c, k.apply u, happly, ?_, ?_, ?_, nofun⟩
  · rwa [extended_char k hc]
  · rwa [begun_char k hc, run?_apply k hu']
  · have hcased := isIdentifier_apply k ht
    rw [hident] at hcased
    simp [ofKeyword, Shape.kind, hcased]

end KeywordCase

/-! ### Parameters on a page -/

/-- A value that was read is laid out as one segment. -/
theorem Value.segments_ofTokens (l : Layout) (indent : Nat) (ts : List Token) :
    Segments.ofValue l indent (.ofTokens ts) = .single (Value.ofTokens ts).text := by
  rcases ts with _ | ⟨t, _ | ⟨u, ts⟩⟩
  · rfl
  · rw [Value.ofTokens]
    split_ifs <;> rfl
  · rfl

/-- A scalar is not trimmed, but there is nothing to trim. -/
theorem Token.Chain.text_ofTokens {s s' : Shape} {ts : List Token} (h : Chain s ts s')
    (hs' : s' ≠ .literal false)
    (hwhite : ∀ d ∈ texts ts, isWhiteSpace d = true → isBlank d = true) :
    (Value.ofTokens ts).text = spelling ts := by
  rcases ts with _ | ⟨t, _ | ⟨u, ts⟩⟩
  · rfl
  · rw [Value.ofTokens]
    split_ifs with hscalar
    · have hblank : t.kind ≠ .blank := by
        intro hb
        simp [Token.isScalar, hb] at hscalar
      have htrim := h.trim_texts hs' (by simpa using hblank) (by simpa using hblank) hwhite
      show t.text = Text.trim (texts [t])
      rw [htrim, texts_cons, texts_nil, List.append_nil]
    · rfl
  · rfl

namespace Command

/-- A capture that can be written and read back: its keyword is an ASCII word, and its value is a
chain of tokens with balanced parentheses and no other white space than blanks. -/
structure Capture.IsReadable (c : Capture) : Prop where
  keyword : Follows .blank (ofKeyword c.keyword) .word
  isAscii : c.keyword.IsAscii
  chain : ∃ s, Chain .opening c.tokens s ∧ s ≠ .literal false
  isBalanced : IsBalanced 0 c.tokens
  isBlank_of_isWhiteSpace : ∀ d ∈ c.keyword ++ texts c.tokens,
    isWhiteSpace d = true → isBlank d = true

/-- A value that was read is laid out as its spelling. -/
theorem Capture.IsReadable.ofValue_eq {c : Capture} (h : c.IsReadable) (l : Layout) (indent : Nat) :
    Segments.ofValue l indent (.ofTokens c.tokens) = .single (spelling c.tokens) := by
  obtain ⟨s, hchain, hs⟩ := h.chain
  rw [Value.segments_ofTokens, hchain.text_ofTokens hs fun d hd ↦
    h.isBlank_of_isWhiteSpace d (List.mem_append_right _ hd)]

/-- The tokens in which a layout writes a parameter. -/
structure Writes (l : Layout) (c : Capture) (ts : List Token) : Prop where
  chain : Chain .blank ts .closing
  parts : ∃ k o us t, ts = k :: o :: (us ++ [t]) ∧ k.kind = .keyword ∧
    k.text = l.applyCase c.keyword ∧ o.kind = .opening ∧ t.kind = .closing ∧ t.text = [')'] ∧
    Thinned true c.tokens us

/-- The text of a parameter is that of its tokens, without the blanks at the ends of the value. -/
theorem Capture.IsReadable.exists_segments {c : Capture} (h : c.IsReadable) (l : Layout)
    (p : Page) :
    ∃ us, p.parameterSegments l c.toParameter =
        .single (texts (ofParameter (l.applyCase c.keyword) us)) ∧
      Chain .blank (ofParameter (l.applyCase c.keyword) us) .closing ∧
      (∀ t ∈ us, t ∈ c.tokens) ∧ ∀ vs, Thinned true us vs → Thinned true c.tokens vs := by
  obtain ⟨s, hchain, hs⟩ := h.chain
  have hwhite : ∀ d ∈ texts c.tokens, isWhiteSpace d = true → isBlank d = true :=
    fun d hd ↦ h.isBlank_of_isWhiteSpace d (List.mem_append_right _ hd)
  obtain ⟨us, r, hspell, hus, hr, hsub, hthin⟩ := exists_written hchain hs hwhite
  refine ⟨us, ?_, ?_, hsub, hthin⟩
  · rw [Page.parameterSegments, Capture.toParameter, texts_ofParameter, ← hspell, h.ofValue_eq]
    rfl
  · exact chain_ofParameter (l.keywordCase.follows_ofKeyword h.isAscii h.keyword) hus hr

/-- The parameter holds no other white space than blanks. -/
theorem Capture.IsReadable.isBlank_of_mem {c : Capture} (h : c.IsReadable) (l : Layout)
    {us : List Token} (hus : ∀ t ∈ us, t ∈ c.tokens) :
    ∀ d ∈ texts (ofParameter (l.applyCase c.keyword) us),
      isWhiteSpace d = true → isBlank d = true := by
  intro d hd hw
  rw [texts_ofParameter, Layout.applyCase, l.keywordCase.apply_of_isAscii h.isAscii] at hd
  simp only [List.mem_append, List.mem_map, List.mem_singleton] at hd
  rcases hd with ((⟨e, he, rfl⟩ | rfl) | hd) | rfl
  · have hascii := h.isAscii e he
    rw [l.keywordCase.isWhiteSpace_char hascii] at hw
    rw [l.keywordCase.isBlank_char hascii]
    exact h.isBlank_of_isWhiteSpace e (List.mem_append_left _ he) hw
  · exact absurd hw (by decide)
  · obtain ⟨t, ht, hd⟩ := List.mem_flatMap.1 hd
    exact h.isBlank_of_isWhiteSpace d
      (List.mem_append_right _ (List.mem_flatMap.2 ⟨t, hus t ht, hd⟩)) hw
  · exact absurd hw (by decide)

end Command

namespace Page

open Command

/-- The line has ink on it, and blanks behind the ink at most. -/
def IsReady (p : Page) : Prop :=
  ∃ w n, p.current = w ++ Text.blanks n ∧ Text.EndsInk w

theorem IsReady.not_isWhite {p : Page} (h : p.IsReady) : ¬ Text.IsWhite p.current := by
  obtain ⟨w, n, hcurrent, hw⟩ := h
  rw [hcurrent, Text.isWhite_append]
  exact fun hwhite ↦ hw.not_isWhite hwhite.1

/-- A parameter is separated from what the page says by the blanks there or by one of its own. -/
theorem IsReady.exists_separator (m : Marker) {p : Page} (h : p.IsReady) :
    ∃ n, p.spoken m = (p.spoken m).trimEnd ++ Text.blanks n ∧
      (n = 0 ∧ p.separator = [' '] ∨ 0 < n ∧ p.separator = []) := by
  obtain ⟨w, n, hcurrent, hw⟩ := h
  have hpage : p = { p with current := w }.append (Text.blanks n) := by rw [append, ← hcurrent]
  have hspoken : p.spoken m = { p with current := w }.spoken m ++ Text.blanks n := by
    conv_lhs => rw [hpage, spoken_append m fun hwhite ↦ absurd hwhite hw.not_isWhite]
  refine ⟨n, ?_, ?_⟩
  · rw [hspoken, Text.trimEnd_append_of_isWhite _ (Text.isWhite_blanks n), trimEnd_spoken m hw]
  · obtain ⟨v, c, rfl, hc⟩ := hw
    rw [separator, hcurrent]
    cases n with
    | zero =>
      have hne : c ≠ ' ' := by
        rintro rfl
        exact absurd hc (by decide)
      simp [Text.blanks, hne]
    | succ n =>
      have hlast : (v ++ [c] ++ Text.blanks (n + 1)).getLast? = some ' ' := by
        rw [Text.blanks, List.replicate_succ', ← List.append_assoc, List.getLast?_concat]
      refine Or.inr ⟨Nat.succ_pos n, ?_⟩
      rw [hlast]
      simp

section Parameter

variable {l : Layout} {atoms : List Text} (hatoms : ∀ a ∈ atoms, a.IsUnpadded)

include hatoms

/-- **A piece is said behind at least one blank, respaced.** -/
theorem exists_spoken_piece {p : Page} (hp : p.IsReady) {t : Text} (hbegin : Text.BeginsInk t)
    (h : Wrappable atoms .blank t)
    (hmends : ∀ b ∈ Piece.breaks l atoms ⟨p, p.separator ++ t⟩, l.Mends b.joined) :
    ∃ n u, Text.Respaced .blank t u ∧
      (wrap l atoms stepLimit p (p.separator ++ t)).spoken l.marker =
        (p.spoken l.marker).trimEnd ++ (Text.blanks (n + 1) ++ u) := by
  have hskip := withoutBlanks_of_beginsInk hbegin
  rw [Piece.breaks] at hmends
  obtain ⟨n, hspoken, ⟨rfl, hsep⟩ | ⟨hn, hsep⟩⟩ := hp.exists_separator l.marker
  · have hskip' : withoutBlanks (' ' :: t) = t := hskip
    have hink : ¬ Text.IsWhite (' ' :: t) := fun hwhite ↦
      hbegin.not_isWhite fun c hc ↦ hwhite c (List.mem_cons_of_mem _ hc)
    rw [hsep, List.singleton_append] at hmends ⊢
    rcases exists_spoken_wrap hatoms stepLimit 0 hmends hp.not_isWhite hink (h.cons_blank hbegin)
      (hskip'.symm ▸ h) (hskip'.symm ▸ hbegin) with ⟨u, hu, hwrap⟩ | ⟨n, u, hu, hwrap⟩
    · obtain ⟨v, rfl, hv⟩ := hu.of_cons_blank (by decide) (by decide) rfl
      have hend : p.spoken l.marker = (p.spoken l.marker).trimEnd :=
        hspoken.trans (List.append_nil _)
      refine ⟨0, v, hv, ?_⟩
      rw [hwrap, ← hend]
      rfl
    · exact ⟨n, u, hskip' ▸ hu, hwrap⟩
  · rw [hsep, List.nil_append] at hmends ⊢
    rcases exists_spoken_wrap hatoms stepLimit 0 hmends hp.not_isWhite hbegin.not_isWhite h
      (hskip.symm ▸ h) (hskip.symm ▸ hbegin) with ⟨u, hu, hwrap⟩ | ⟨n', u, hu, hwrap⟩
    · refine ⟨n - 1, u, hu, ?_⟩
      rw [hwrap, ← List.append_assoc, Nat.sub_add_cancel hn, ← hspoken]
    · exact ⟨n', u, hskip ▸ hu, hwrap⟩

/-- A parameter is said behind at least one blank, as tokens that write it. -/
theorem exists_spoken_addParameter {p : Page} (hp : p.IsReady) {c : Capture} (hc : c.IsReadable)
    (hliterals : ∀ t ∈ c.tokens, t.kind = .literal → t.text ∈ atoms)
    (hmends : ∀ q ∈ p.parameterPieces l atoms c.toParameter, ∀ b ∈ q.breaks l atoms,
      l.Mends b.joined) :
    ∃ n ts u, Writes l c ts ∧ Text.Widened .blank (texts ts) u ∧
      (p.addParameter l atoms c.toParameter).spoken l.marker =
        (p.spoken l.marker).trimEnd ++ (Text.blanks (n + 1) ++ u) := by
  obtain ⟨us, hsegments, hchain, hsub, hthin⟩ := hc.exists_segments l p
  have hwhite := hc.isBlank_of_mem l hsub
  have hlit : ∀ t ∈ ofParameter (l.applyCase c.keyword) us, t.kind = .literal → t.text ∈ atoms :=
    fun t ht hkind ↦ hliterals t (hsub t (mem_of_mem_ofParameter ht hkind)) hkind
  have hbegin : Text.BeginsInk (texts (ofParameter (l.applyCase c.keyword) us)) := by
    obtain ⟨s, hf, -⟩ := chain_cons.1 hchain
    exact (hf.beginsInk hf.shape_ne_blank fun d hd ↦ hwhite d (by simp [ofParameter, hd])).append _
  have hpage : p.addParameter l atoms c.toParameter =
      wrap l atoms stepLimit p (p.separator ++ texts (ofParameter (l.applyCase c.keyword) us)) := by
    rw [addParameter, hsegments]
    rfl
  rw [parameterPieces, hsegments] at hmends
  -- wrapping thins the text of the piece, and a thinned text has thinned tokens
  obtain ⟨n, u, ⟨v, hv, hu⟩, hspoken⟩ := exists_spoken_piece hatoms hp hbegin
    (Wrappable.of_chain hchain (by simp) hwhite hlit) (hmends _ List.mem_cons_self)
  obtain ⟨ws, r, hws, hwchain, hr, rfl⟩ := exists_thinned hchain hv
  obtain ⟨k, o, vs, t, rfl, hk, hktext, ho, ht, httext, hvs⟩ := hws.exists_of_ofParameter
  rw [← List.cons_append, ← List.cons_append] at hwchain
  have hclosing : r = .closing := hr.resolve_right (hwchain.ne_opening (ht ▸ nofun))
  exact ⟨n, k :: o :: (vs ++ [t]), u, ⟨hclosing ▸ hwchain,
    k, o, vs, t, rfl, hk, hktext, ho, ht, httext, hthin vs hvs⟩, hu, by rw [hpage, hspoken]⟩

end Parameter

end Page

end ControlLanguage
