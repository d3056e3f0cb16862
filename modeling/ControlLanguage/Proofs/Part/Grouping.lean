import Mathlib.Data.Bool.AllAny
import ControlLanguage.Proofs.Part.Lexing
import ControlLanguage.Proofs.Token.Tiling

/-!
# The parts of a value as groups of tokens

The lexer groups the characters of a value into tokens, the splitter cuts its text character by
character. Where quotes stand in literals only, they agree: **the occurrences of a value are the
runs of tokens between the blanks outside of parentheses** (`occurrences_spelling`). A literal or
a group in parentheses that one of them recognises is never cut by the other.

The two are compared along a chain of tokens. While the splitter is inside a token it cuts nothing,
and behind the token it has the same parentheses open (`Chain.fields_texts`). What remains is that
trimming a run does nothing, since it begins and ends in ink (`isTrimmed_of_mem_groups`).
-/

namespace ControlLanguage

open Shape Token Text

namespace Token

/-! ### Groups -/

/-- How many parentheses are open behind a token. -/
def depthAfter (depth : Int) (t : Token) : Int :=
  match t.kind with
  | .opening => depth + 1
  | .closing => depth - 1
  | _ => depth

/-- Cuts tokens at the blanks outside of parentheses, with `depth` parentheses open in front. -/
def groupsFrom (depth : Int) : List Token → List (List Token)
  | [] => [[]]
  | t :: ts =>
    if depth = 0 ∧ t.kind = .blank then [] :: groupsFrom depth ts
    else (groupsFrom (depthAfter depth t) ts).modifyHead (t :: ·)

/-- The longest runs of tokens between the blanks outside of parentheses. -/
def groups (ts : List Token) : List (List Token) :=
  (groupsFrom 0 ts).filter (!·.isEmpty)

theorem depthAfter_of_ne {d : Int} {t : Token} (ho : t.kind ≠ .opening) (hc : t.kind ≠ .closing) :
    depthAfter d t = d := by
  cases hk : t.kind <;> simp_all [depthAfter]

theorem groupsFrom_cons_of_blank {t : Token} (ht : t.kind = .blank) (ts : List Token) :
    groupsFrom 0 (t :: ts) = [] :: groupsFrom 0 ts :=
  if_pos ⟨rfl, ht⟩

theorem groupsFrom_cons_of_not_cut {d : Int} {t : Token} (h : ¬(d = 0 ∧ t.kind = .blank))
    (ts : List Token) :
    groupsFrom d (t :: ts) = (groupsFrom (depthAfter d t) ts).modifyHead (t :: ·) :=
  if_neg h

theorem groupsFrom_ne_nil (d : Int) (ts : List Token) : groupsFrom d ts ≠ [] := by
  induction ts generalizing d with
  | nil => exact List.cons_ne_nil _ _
  | cons t ts ih =>
    rw [groupsFrom]
    split_ifs
    · exact List.cons_ne_nil _ _
    · exact mt List.modifyHead_eq_nil_iff.1 (ih _)

/-- A token in front of others: a blank outside of parentheses cuts, and any other token belongs to
the first group. -/
theorem IsBalanced.cons_cases {d : Nat} {t : Token} {ts : List Token} (h : IsBalanced d (t :: ts)) :
    (d = 0 ∧ t.kind = .blank ∧ IsBalanced 0 ts ∧
      ∀ us, groupsFrom d (t :: us) = [] :: groupsFrom 0 us) ∨
    ∃ d' : Nat, IsBalanced d' ts ∧ (t.kind = .blank → 0 < d ∧ 0 < d') ∧ depthAfter d t = d' ∧
      ∀ us, groupsFrom d (t :: us) = (groupsFrom d' us).modifyHead (t :: ·) := by
  have hkeep : ∀ {d' : Nat}, depthAfter d t = d' → ¬((d : Int) = 0 ∧ t.kind = .blank) →
      ∀ us, groupsFrom d (t :: us) = (groupsFrom d' us).modifyHead (t :: ·) := by
    intro d' hd' hcut us
    rw [groupsFrom_cons_of_not_cut hcut, hd']
  by_cases ho : t.kind = .opening
  · have hd' : depthAfter d t = (d + 1 : Nat) := by simp [depthAfter, ho]
    exact .inr
      ⟨d + 1, (isBalanced_cons_opening ho).1 h, by simp [ho], hd', hkeep hd' (by simp [ho])⟩
  by_cases hc : t.kind = .closing
  · rcases d with _ | d
    · exact absurd h (not_isBalanced_zero_cons hc)
    · have hd' : depthAfter (d + 1 : Nat) t = d := by simp [depthAfter, hc]
      exact .inr ⟨d, (isBalanced_cons_closing hc).1 h, by simp [hc], hd', hkeep hd' (by simp [hc])⟩
  have hts := (isBalanced_cons_of_ne ho hc).1 h
  by_cases hcut : (d : Int) = 0 ∧ t.kind = .blank
  · obtain ⟨hd, hb⟩ := hcut
    obtain rfl : d = 0 := by exact_mod_cast hd
    exact .inl ⟨rfl, hb, hts, groupsFrom_cons_of_blank hb⟩
  · have hd' := depthAfter_of_ne (d := d) ho hc
    refine .inr ⟨d, hts, fun hb ↦ ?_, hd', hkeep hd' hcut⟩
    have hpos : 0 < d := Nat.pos_of_ne_zero fun hd ↦ hcut ⟨by exact_mod_cast hd, hb⟩
    exact ⟨hpos, hpos⟩

/-- A blank behind balanced tokens cuts them off. -/
theorem groupsFrom_append_blank {d : Nat} {ts : List Token} (h : IsBalanced d ts) {b : Token}
    (hb : b.kind = .blank) (us : List Token) :
    groupsFrom d (ts ++ b :: us) = groupsFrom d ts ++ groupsFrom 0 us := by
  induction ts generalizing d with
  | nil =>
    obtain rfl : d = 0 := h
    exact groupsFrom_cons_of_blank hb us
  | cons t ts ih =>
    rcases h.cons_cases with ⟨rfl, -, hrest, hcut⟩ | ⟨d', hrest, -, -, hkeep⟩
    · rw [List.cons_append, hcut, hcut, List.cons_append]
      exact congrArg _ (ih hrest)
    · obtain ⟨g, gs, hg⟩ := List.exists_cons_of_ne_nil (groupsFrom_ne_nil d' ts)
      rw [List.cons_append, hkeep, hkeep, ih hrest, hg]
      rfl

/-- Blanks at the ends do not matter. -/
theorem groups_gap {gap us gap' : List Token} (hgap : IsGap gap) (hgap' : IsGap gap')
    (h : IsBalanced 0 us) : groups (gap ++ (us ++ gap')) = groups us := by
  have hend : groups (us ++ gap') = groups us := by
    rcases hgap' with rfl | ⟨b, rfl, hb, -⟩
    · rw [List.append_nil]
    · have hcut : groupsFrom 0 (us ++ [b]) = groupsFrom 0 us ++ [[]] :=
        groupsFrom_append_blank h hb []
      rw [groups, hcut, List.filter_append]
      exact List.append_nil _
  rcases hgap with rfl | ⟨b, rfl, hb, -⟩
  · exact hend
  · rw [List.singleton_append, groups, groupsFrom_cons_of_blank hb]
    exact hend

/-- A group does not begin or end with a blank, unless it is cut out of parentheses. -/
theorem exists_groupsFrom {d : Nat} {ts : List Token} (h : IsBalanced d ts) :
    ∃ g gs, groupsFrom d ts = g :: gs ∧ (d = 0 → ∀ t ∈ g.head?, t.kind ≠ .blank) ∧
      (0 < d → g ≠ []) ∧ (∀ t ∈ g.getLast?, t.kind ≠ .blank) ∧ (∀ t ∈ g, t ∈ ts) ∧
      ∀ g' ∈ gs, (∀ t ∈ g'.head?, t.kind ≠ .blank) ∧ (∀ t ∈ g'.getLast?, t.kind ≠ .blank) ∧
        ∀ t ∈ g', t ∈ ts := by
  induction ts generalizing d with
  | nil =>
    obtain rfl : d = 0 := h
    exact ⟨[], [], rfl, by simp, nofun, by simp, by simp, by simp⟩
  | cons t ts ih =>
    rcases h.cons_cases with ⟨rfl, -, hrest, hcut⟩ | ⟨d', hrest, hblank, -, hkeep⟩
    · obtain ⟨g, gs, heq, hhead, -, hlast, hmem, hgs⟩ := ih hrest
      refine ⟨[], g :: gs, ?_, by simp, nofun, by simp, by simp, fun g' hg' ↦ ?_⟩
      · rw [hcut]
        exact congrArg _ heq
      · rcases List.mem_cons.1 hg' with rfl | hg'
        · exact ⟨hhead rfl, hlast, fun u hu ↦ List.mem_cons_of_mem t (hmem u hu)⟩
        · obtain ⟨hhead', hlast', hmem'⟩ := hgs g' hg'
          exact ⟨hhead', hlast', fun u hu ↦ List.mem_cons_of_mem t (hmem' u hu)⟩
    · obtain ⟨g, gs, heq, -, hne, hlast, hmem, hgs⟩ := ih hrest
      refine ⟨t :: g, gs, by rw [hkeep, heq]; rfl, fun hd u hu hb ↦ ?_,
        fun _ ↦ List.cons_ne_nil t g, fun u hu hb ↦ ?_, fun u hu ↦ ?_, fun g' hg' ↦ ?_⟩
      · obtain rfl : t = u := by simpa using hu
        exact absurd (hblank hb).1 (by simp [hd])
      · -- a blank at the end would leave parentheses open
        rcases List.eq_nil_or_concat' g with rfl | ⟨g, v, rfl⟩
        · obtain rfl : t = u := by simpa using hu
          exact hne (hblank hb).2 rfl
        · exact hlast u (by simpa [List.getLast?_cons] using hu) hb
      · rcases List.mem_cons.1 hu with rfl | hu
        · exact List.mem_cons_self
        · exact List.mem_cons_of_mem t (hmem u hu)
      · obtain ⟨hhead', hlast', hmem'⟩ := hgs g' hg'
        exact ⟨hhead', hlast', fun u hu ↦ List.mem_cons_of_mem t (hmem' u hu)⟩

/-! ### The splitter along a chain -/

/-- A word is not cut. -/
theorem fields_word {w : Text} (hends : ∀ c ∈ w, endsWord c = false)
    (hquote : ∀ c ∈ w, Nesting.isQuote c = false) (d : Nat) (u : Text) :
    Part.fields isBlank (Part.opened d) (w ++ u) =
      (Part.fields isBlank (Part.opened d) u).modifyHead (w ++ ·) := by
  induction w with
  | nil => exact (congrFun List.modifyHead_id _).symm
  | cons c w ih =>
    have hc := hends c List.mem_cons_self
    simp only [endsWord, Bool.or_eq_false_iff, decide_eq_false_iff_not] at hc
    have hafter : (Part.opened d).after c = Part.opened d := by
      simp [Nesting.after, hquote c List.mem_cons_self, hc]
    rw [List.cons_append, Part.fields_cons_of_not_cut (by simp [hc]), hafter,
      ih (fun x hx ↦ hends x (List.mem_cons_of_mem c hx))
        (fun x hx ↦ hquote x (List.mem_cons_of_mem c hx)), List.modifyHead_modifyHead]
    rfl

/-- **A token is not cut**, unless it is a blank outside of parentheses, and behind it the splitter
has as many parentheses open as the tokens have. -/
theorem Follows.fields_append {s s' : Shape} {t : Token} (h : Follows s t s')
    (hs' : s' ≠ .literal false)
    (hquote : t.kind ≠ .literal → ∀ c ∈ t.text, Nesting.isQuote c = false) {d d' : Nat}
    (hd' : depthAfter d t = d') (hblank : t.kind = .blank → 0 < d) (u : Text) :
    Part.fields isBlank (Part.opened d) (t.text ++ u) =
      (Part.fields isBlank (Part.opened d') u).modifyHead (t.text ++ ·) := by
  have hkind : t.kind = s'.kind t.text := h.kind_eq
  rcases h.cases hs' with ⟨htext, rfl, -⟩ | ⟨htext, rfl⟩ | ⟨htext, rfl⟩ | ⟨b, htext, rfl, -⟩ |
    ⟨hword, -, hends⟩
  · have hk : t.kind = .blank := hkind
    have hfree := Part.isFree_opened (hblank hk) ' '
    obtain rfl : d = d' := Int.ofNat_inj.1 (by simpa [depthAfter, hk] using hd')
    rw [htext, List.singleton_append, Part.fields_cons_of_not_cut (by rw [hfree]; rfl),
      Part.after_opened_blank]
    rfl
  · have hk : t.kind = .opening := hkind
    obtain rfl : d + 1 = d' := by
      simp only [depthAfter, hk] at hd'
      exact_mod_cast hd'
    rw [htext, List.singleton_append, Part.fields_cons_of_not_cut (by simp [Nesting.isFree]),
      Part.after_opened_opening]
    rfl
  · have hk : t.kind = .closing := hkind
    obtain rfl : d = d' + 1 := by
      simp only [depthAfter, hk] at hd'
      omega
    rw [htext, List.singleton_append, Part.fields_cons_of_not_cut (by simp [Nesting.isFree]),
      Part.after_opened_closing]
    rfl
  · have hk : t.kind = .literal := hkind
    obtain rfl : d = d' := Int.ofNat_inj.1 (by simpa [depthAfter, hk] using hd')
    rw [htext, Part.fields_quoted]
  · obtain ⟨hliteral, hopening, hclosing⟩ := h.kind_of_isWordlike hword
    obtain rfl : d = d' := Int.ofNat_inj.1 ((depthAfter_of_ne hopening hclosing).symm.trans hd')
    exact fields_word hends (hquote hliteral) d u

/-- **The fields of a chain of tokens are its groups.** -/
theorem Chain.fields_texts {s s' : Shape} {ts : List Token} (h : Chain s ts s')
    (hs' : s' ≠ .literal false)
    (hquote : ∀ t ∈ ts, t.kind ≠ .literal → ∀ c ∈ t.text, Nesting.isQuote c = false) {d : Nat}
    (hbalanced : IsBalanced d ts) :
    Part.fields isBlank (Part.opened d) (texts ts) = (groupsFrom d ts).map texts := by
  induction h generalizing d with
  | nil s => rfl
  | @cons s s₁ s' t ts hf hc ih =>
    have hrest : ∀ {e : Nat}, IsBalanced e ts →
        Part.fields isBlank (Part.opened e) (texts ts) = (groupsFrom e ts).map texts :=
      ih hs' fun u hu ↦ hquote u (List.mem_cons_of_mem t hu)
    rcases hbalanced.cons_cases with ⟨rfl, hk, hts, hcut⟩ | ⟨d', hts, hblank, hd', hkeep⟩
    · obtain rfl := hf.kind_eq_blank_iff.1 hk
      rw [hcut, texts_cons, hf.text_eq_of_blank, List.singleton_append, Part.fields,
        if_pos (by decide), List.map_cons]
      exact congrArg _ (hrest hts)
    · rw [hkeep, texts_cons, hf.fields_append (hc.shape_ne_literal hs')
        (hquote t List.mem_cons_self) hd' (fun hk ↦ (hblank hk).1), hrest hts]
      obtain ⟨g, gs, hg⟩ := List.exists_cons_of_ne_nil (groupsFrom_ne_nil d' ts)
      rw [hg]
      rfl

end Token

namespace Token

/-! ### Trimmed groups -/

/-- A group of balanced tokens has ink at both ends, if each of its tokens does. -/
theorem trim_texts_of_mem_groups {ts g : List Token} (h : IsBalanced 0 ts) (hg : g ∈ groups ts)
    (hink : ∀ t ∈ ts, t.kind ≠ .blank → BeginsInk t.text ∧ EndsInk t.text) :
    texts g ≠ [] ∧ (texts g).trim = texts g := by
  obtain ⟨hmem, hne⟩ := List.mem_filter.1 hg
  have hends : (∀ t ∈ g.head?, t.kind ≠ .blank) ∧ (∀ t ∈ g.getLast?, t.kind ≠ .blank) ∧
      ∀ t ∈ g, t ∈ ts := by
    obtain ⟨g₁, gs, heq, hhead, -, hlast, hsub, hgs⟩ := exists_groupsFrom h
    rw [show groupsFrom 0 ts = g₁ :: gs from heq] at hmem
    rcases List.mem_cons.1 hmem with rfl | hmem
    · exact ⟨hhead rfl, hlast, hsub⟩
    · exact hgs g hmem
  obtain ⟨hhead, hlast, hsub⟩ := hends
  have hbegin : BeginsInk (texts g) := by
    rcases g with _ | ⟨t, g⟩
    · simp at hne
    · rw [texts_cons]
      exact (hink t (hsub t List.mem_cons_self) (hhead t rfl)).1.append _
  have hend : EndsInk (texts g) := by
    rcases List.eq_nil_or_concat' g with rfl | ⟨g, t, rfl⟩
    · simp at hne
    · rw [texts_append, texts_cons, texts_nil, List.append_nil]
      exact (hink t (hsub t (by simp)) (hlast t (by simp))).2.append _
  exact ⟨hend.ne_nil, trim_of_ink hbegin hend⟩

/-- **The occurrences of a chain of balanced tokens are its groups.** -/
theorem Chain.occurrences_texts {s s' : Shape} {ts : List Token} (h : Chain s ts s')
    (hs' : s' ≠ .literal false) (hbalanced : IsBalanced 0 ts)
    (hquote : ∀ t ∈ ts, t.kind ≠ .literal → ∀ c ∈ t.text, Nesting.isQuote c = false)
    (hwhite : ∀ c ∈ texts ts, isWhiteSpace c = true → isBlank c = true) :
    Part.occurrences (texts ts) = (groups ts).map texts := by
  have hink : ∀ t ∈ ts, t.kind ≠ .blank → BeginsInk t.text ∧ EndsInk t.text := by
    intro t ht hk
    obtain ⟨r, r', hf, hr'⟩ := h.isComplete hs' t ht
    have hb := mt hf.kind_eq_blank_iff.2 hk
    have hw : ∀ c ∈ t.text, isWhiteSpace c = true → isBlank c = true :=
      fun c hc ↦ hwhite c (List.mem_flatMap.2 ⟨t, ht, hc⟩)
    exact ⟨hf.beginsInk hb hw, hf.endsInk hr' hb hw⟩
  have hgroups := fun g hg ↦ trim_texts_of_mem_groups hbalanced (g := g) hg hink
  have hfields : Part.fields isBlank .outside (texts ts) = (groupsFrom 0 ts).map texts :=
    h.fields_texts hs' hquote hbalanced
  have htrim : ∀ g ∈ groupsFrom 0 ts, (texts g).trim = texts g ∧ (texts g).isEmpty = g.isEmpty := by
    intro g hg
    rcases g with _ | ⟨t, g⟩
    · exact ⟨rfl, rfl⟩
    · obtain ⟨hne, htrim⟩ := hgroups (t :: g) (List.mem_filter.2 ⟨hg, rfl⟩)
      exact ⟨htrim, by simpa using hne⟩
  have hmap : ((groupsFrom 0 ts).map texts).map Text.trim = (groupsFrom 0 ts).map texts := by
    rw [List.map_map]
    exact List.map_congr_left fun g hg ↦ (htrim g hg).1
  rw [Part.occurrences, hfields, hmap, List.filter_map, groups]
  exact congrArg _ (List.filter_congr fun g hg ↦ congrArg (!·) (htrim g hg).2)

end Token

namespace Command

/-! ### Values that are captured -/

theorem captures_unplaced (ts : List Token) :
    captures (ts.map Token.unplaced) = (captures ts).map Capture.unplaced := by
  rw [captures, captures, nameAndRest?_unplaced]
  rcases nameAndRest? ts with _ | ⟨name, rest⟩
  · rfl
  · exact capturesFrom_unplaced (.between none) rest

/-- Blanks in front of a command do not matter. -/
theorem captures_dropWhile (t : Text) : (captures (tokenize t)).map Capture.unplaced =
    (captures (tokenize (t.dropWhile isBlank))).map Capture.unplaced := by
  rcases t with _ | ⟨c, t⟩
  · rfl
  by_cases hc : isBlank c = true
  · rw [List.dropWhile_cons_of_pos hc, ← captures_unplaced, ← captures_unplaced,
      tokenize_of_isBlank hc]
    rfl
  · rw [List.dropWhile_cons_of_neg hc]

theorem mem_ofText_of_mem_dropWhile {t : Text} {l : Lexeme}
    (hl : l ∈ Lexeme.ofText (t.dropWhile isBlank)) : l ∈ Lexeme.ofText t := by
  rcases t with _ | ⟨c, t⟩
  · exact hl
  by_cases hc : isBlank c = true
  · obtain ⟨l', -, htext⟩ := exists_ofText_of_isBlank hc t
    rw [List.dropWhile_cons_of_pos hc] at hl
    rw [htext]
    exact List.mem_cons_of_mem l' hl
  · rwa [List.dropWhile_cons_of_neg hc] at hl

/-- A value that is read strictly is a chain of tokens that ends outside of literals. -/
theorem exists_chain_of_mem_captures {t : Text} {ts : List Token}
    (hstrict : tokenizeStrict t = .ok ts) {c : Capture} (hc : c ∈ captures (tokenize t)) :
    ∃ s, Chain .opening c.tokens s ∧ s ≠ .literal false ∧
      (c.isClosed = true → IsBalanced 0 c.tokens) ∧
      ∀ d ∈ texts c.tokens, d ∈ t ∨ d = ' ' := by
  have hmem : c.unplaced ∈ (captures (tokenize (t.dropWhile isBlank))).map Capture.unplaced := by
    rw [← captures_dropWhile]
    exact List.mem_map_of_mem hc
  obtain ⟨c', hc', heq⟩ := List.mem_map.1 hmem
  have htokens : c'.tokens.map unplaced = c.tokens.map unplaced := congrArg Capture.tokens heq
  have hclosed : c'.unplaced.isClosed = c.unplaced.isClosed := congrArg Capture.isClosed heq
  -- behind its blanks the text begins with a command name
  rcases hr : t.dropWhile isBlank with _ | ⟨d, r⟩
  · rw [hr] at hc'
    cases hc'
  rw [hr] at hc'
  have hd : isBlank d = false := by
    have hhead := List.head?_dropWhile_not isBlank t
    rwa [hr] at hhead
  obtain ⟨name, q, rest, hreads⟩ := exists_reads hd r
  have hunclosed : ∀ l ∈ Lexeme.ofText (d :: r), l.isUnclosed = false := by
    rw [← hr]
    exact fun l hl ↦ isUnclosed_eq_false hstrict l (mem_ofText_of_mem_dropWhile hl)
  obtain ⟨s, after, -, hvalue, hafter, hsub, hparen, -⟩ := hreads.exists_chain hc'
  rw [htokens] at hvalue hsub hparen
  refine ⟨s, hvalue.of_unplaced,
    hafter.shape_ne_literal (hreads.of_isUnclosed_eq_false hunclosed).2, fun h ↦ ?_,
    fun e he ↦ ?_⟩
  · exact (hparen (hclosed.trans h)).1.congr_kind (by rw [List.map_map]; rfl)
  · rw [texts_unplaced] at hsub
    refine (mem_of_mem_texts_following (hsub e (List.mem_append_right _ he))).imp_left fun he' ↦ ?_
    have hdrop : e ∈ t.dropWhile isBlank := by
      rw [hr, hreads.eq_append]
      exact List.mem_append_right _ he'
    exact (List.dropWhile_suffix isBlank).subset hdrop

/-- **The occurrences of a value are its groups of tokens**, if the text of the command is read
strictly, blanks are its only white space, and quotes stand in its literals only. -/
theorem occurrences_spelling {t : Text} {ts : List Token} (hstrict : tokenizeStrict t = .ok ts)
    (hwhite : ∀ d ∈ t, isWhiteSpace d = true → isBlank d = true)
    (hquote : ∀ a ∈ ts, a.kind ≠ .literal → ∀ d ∈ a.text, Nesting.isQuote d = false)
    {c : Capture} (hc : c ∈ captures ts) (hclosed : c.isClosed = true) :
    Part.occurrences (spelling c.tokens) = (groups c.tokens).map texts := by
  obtain rfl : tokenize t = ts := tokenize_eq_of_tokenizeStrict hstrict
  obtain ⟨s, hchain, hs, hbalanced, hsub⟩ := exists_chain_of_mem_captures hstrict hc
  have hvalue : ∀ d ∈ texts c.tokens, isWhiteSpace d = true → isBlank d = true := by
    intro d hd hw
    rcases hsub d hd with hd | rfl
    · exact hwhite d hd hw
    · decide
  -- the splitter sees the value without the blanks at its ends, and these make no group
  obtain ⟨gap, us, gap', r, htokens, hgap, hgap', hnil, hhead, hlast, hspell, hus, hr⟩ :=
    hchain.exists_spelling hs hvalue
  have hus' : ∀ a ∈ us, a ∈ c.tokens := fun a ha ↦ by simp [htokens, ha]
  have hbalanced' : IsBalanced 0 us :=
    ((Thinned.self true us).gap hgap hgap' hnil hhead hlast).isBalanced
      (htokens ▸ hbalanced hclosed)
  rw [hspell, htokens, groups_gap hgap hgap' hbalanced']
  refine hus.occurrences_texts hr hbalanced' (fun a ha ↦ hquote a ?_) fun d hd ↦ hvalue d ?_
  · obtain ⟨before, k, o, after, hts, -⟩ := captured_of_mem hc
    rw [hts]
    simp [hus' a ha]
  · obtain ⟨a, ha, hd⟩ := List.mem_flatMap.1 hd
    exact List.mem_flatMap.2 ⟨a, hus' a ha, hd⟩

/-- A literal with a doubled quote, a group with a literal in it that touches a variable, and a
word, with several blanks between them. -/
theorem occurrences_spelling_copy :
    ∃ c ∈ captures (tokenize "COPY FILES( 'A'' (B'  (C  'D')&X E ) TO(F)".toList),
      c.isClosed = true ∧ Part.occurrences (spelling c.tokens) = (groups c.tokens).map texts := by
  have hstrict : tokenizeStrict "COPY FILES( 'A'' (B'  (C  'D')&X E ) TO(F)".toList =
      .ok (tokenize "COPY FILES( 'A'' (B'  (C  'D')&X E ) TO(F)".toList) := rfl
  have hquote : ∀ a ∈ tokenize "COPY FILES( 'A'' (B'  (C  'D')&X E ) TO(F)".toList,
      a.kind ≠ .literal → a.text.all (fun d ↦ Nesting.isQuote d = false) = true := by
    decide +kernel
  have hc := List.head_mem
    (l := captures (tokenize "COPY FILES( 'A'' (B'  (C  'D')&X E ) TO(F)".toList))
    (by decide +kernel)
  refine ⟨_, hc, by decide +kernel, occurrences_spelling hstrict
    (List.all_iff_forall_prop.1 (by decide +kernel))
    (fun a ha hk ↦ List.all_iff_forall_prop.1 (hquote a ha hk)) hc (by decide +kernel)⟩

example : Part.occurrences "'A'' (B' (C 'D')&X E".toList =
    ["'A'' (B'".toList, "(C 'D')&X".toList, "E".toList] := by decide

end Command

end ControlLanguage
