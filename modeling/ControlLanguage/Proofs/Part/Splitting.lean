import ControlLanguage.Part.Split
import ControlLanguage.Proofs.Part.Tidy

/-!
# Splitting tidy texts

The splitter cuts a tidy text at exactly those blanks that stand outside of its literals and
parentheses, so what it cuts out is strict. Conversely strict texts that are joined with blanks are
cut apart again: **`occurrences` and `joinBlank` are inverse to each other** on lists of parts. In
the same way `unwrapped` takes off the parentheses that `parenthesised` puts around a text.
-/

namespace ControlLanguage

open Text

namespace Part

/-- Outside of literals, with parentheses open. -/
abbrev opened (d : Nat) : Nesting :=
  ⟨none, d⟩

/-! ### What one character opens and closes -/

theorem after_quote (d : Int) : Nesting.after ⟨none, d⟩ '\x27' = ⟨some '\x27', d⟩ :=
  rfl

theorem after_literal_quote (d : Int) : Nesting.after ⟨some '\x27', d⟩ '\x27' = ⟨none, d⟩ :=
  rfl

/-- Inside a literal only a quote counts. -/
theorem after_literal_of_ne {c : Char} (hc : c ≠ '\x27') (d : Int) :
    Nesting.after ⟨some '\x27', d⟩ c = ⟨some '\x27', d⟩ :=
  if_neg hc

/-- A plain character changes no nesting. -/
theorem after_opened_of_isPlain {c : Char} (hc : isPlain c = true) (d : Nat) :
    (opened d).after c = opened d := by
  obtain ⟨-, hq, ho, hp⟩ := isPlain_iff.1 hc
  simp [Nesting.after, hq, ho, hp]

theorem after_opened_opening (d : Nat) : (opened d).after '(' = opened (d + 1) :=
  rfl

theorem after_opened_closing (d : Nat) : (opened (d + 1)).after ')' = opened d := by
  show (⟨none, ((d + 1 : Nat) : Int) - 1⟩ : Nesting) = ⟨none, d⟩
  rw [Int.natCast_succ, Int.add_sub_cancel]

theorem after_opened_blank (d : Nat) : (opened d).after ' ' = opened d :=
  rfl

/-- Nothing inside parentheses is free. -/
theorem isFree_opened {d : Nat} (hd : 0 < d) (c : Char) : (opened d).isFree c = false := by
  have hne : opened d ≠ Nesting.outside := by
    intro h
    have : (d : Int) = 0 := congrArg Nesting.depth h
    omega
  simp [Nesting.isFree, hne]

/-! ### Where the splitter does not cut -/

/-- A character at which the text is not cut belongs to the first field. -/
theorem fields_cons_of_not_cut {p : Char → Bool} {n : Nesting} {c : Char}
    (h : (n.isFree c && p c) = false) (t : Text) :
    fields p n (c :: t) = (fields p (n.after c) t).modifyHead (c :: ·) := by
  rw [fields, if_neg (by simp [h])]

/-- There is always a field, if an empty one. -/
theorem fields_ne_nil {p : Char → Bool} {n : Nesting} (t : Text) : fields p n t ≠ [] := by
  induction t generalizing n with
  | nil => exact List.cons_ne_nil _ _
  | cons c t ih =>
    rw [fields]
    split_ifs
    · exact List.cons_ne_nil _ _
    · exact List.modifyHead_eq_nil_iff.not.2 ih

/-- The first field begins with a character that does not cut. -/
theorem exists_fields_cons {p : Char → Bool} {n : Nesting} {c : Char}
    (h : (n.isFree c && p c) = false) (t : Text) :
    ∃ f fs, fields p (n.after c) t = f :: fs ∧ fields p n (c :: t) = (c :: f) :: fs := by
  obtain ⟨f, fs, hfields⟩ := List.exists_cons_of_ne_nil (fields_ne_nil (p := p) (n := n.after c) t)
  exact ⟨f, fs, hfields, by rw [fields_cons_of_not_cut h, hfields, List.modifyHead_cons]⟩

/-- **A literal belongs to the field in which it begins**, whatever it holds. -/
theorem fields_quoted {p : Char → Bool} (d : Int) (b t : Text) :
    fields p ⟨none, d⟩ (quoted b ++ t) =
      (fields p ⟨none, d⟩ t).modifyHead (quoted b ++ ·) := by
  have hinside : fields p ⟨some '\x27', d⟩ (doubled b ++ '\x27' :: t) =
      (fields p ⟨none, d⟩ t).modifyHead ((doubled b ++ ['\x27']) ++ ·) := by
    induction b with
    | nil => exact fields_cons_of_not_cut (by simp [Nesting.isFree, Nesting.outside]) t
    | cons c b ih =>
      by_cases hc : c = '\x27'
      · -- a doubled quote closes the literal and opens it again
        rw [hc, doubled_cons_quote, List.cons_append, List.cons_append,
          fields_cons_of_not_cut (by simp [Nesting.isFree, Nesting.outside]),
          fields_cons_of_not_cut (by simp [Nesting.isFree, Nesting.isQuote])]
        rw [after_literal_quote, after_quote, ih, List.modifyHead_modifyHead,
          List.modifyHead_modifyHead]
        rfl
      · rw [doubled_cons_of_ne hc, List.cons_append,
          fields_cons_of_not_cut (by simp [Nesting.isFree, Nesting.outside]),
          after_literal_of_ne hc, ih, List.modifyHead_modifyHead]
        rfl
  rw [quoted_eq, List.cons_append, List.append_assoc,
    fields_cons_of_not_cut (by simp [Nesting.isFree, Nesting.isQuote]), after_quote,
    List.singleton_append, hinside, List.modifyHead_modifyHead]
  rfl

/-! ### Texts that are not cut -/

/-- The splitter passes over a text as a whole. -/
def Uncut (p : Char → Bool) (t : Text) : Prop :=
  ∀ r, fields p .outside (t ++ r) = (fields p .outside r).modifyHead (t ++ ·)

namespace Uncut

variable {p : Char → Bool} {t u : Text}

theorem nil : Uncut p [] :=
  fun _ ↦ (congrFun List.modifyHead_id _).symm

/-- Nothing is cut where nothing is cut in either text. -/
theorem append (ht : Uncut p t) (hu : Uncut p u) : Uncut p (t ++ u) := by
  intro r
  rw [List.append_assoc, ht, hu, List.modifyHead_modifyHead]
  simp only [Function.comp_def, List.append_assoc]

/-- No literal is cut. -/
theorem quoted (b : Text) : Uncut p (quoted b) :=
  fun r ↦ fields_quoted 0 b r

/-- Plain characters are cut only by themselves. -/
theorem plain (ht : ∀ c ∈ t, isPlain c = true ∧ p c = false) : Uncut p t := by
  induction t with
  | nil => exact nil
  | cons c t ih =>
    have hc : Uncut p [c] := by
      obtain ⟨hplain, hcut⟩ := ht c List.mem_cons_self
      intro r
      rw [List.singleton_append, fields_cons_of_not_cut (by simp [hcut])]
      exact congrArg (fun n ↦ (fields p n r).modifyHead (c :: ·)) (after_opened_of_isPlain hplain 0)
    exact hc.append (ih fun d hd ↦ ht d (List.mem_cons_of_mem c hd))

end Uncut

theorem intercalate_cons (c : Char) (t : Text) {ts : List Text} (h : ts ≠ []) :
    [c].intercalate (t :: ts) = t ++ c :: [c].intercalate ts := by
  obtain ⟨u, us, rfl⟩ := List.exists_cons_of_ne_nil h
  rfl

theorem intercalate_eq (c : Char) (t : Text) (ts : List Text) :
    [c].intercalate (t :: ts) = t ++ ts.flatMap (c :: ·) := by
  induction ts generalizing t with
  | nil => rfl
  | cons u ts ih => rw [intercalate_cons c t (List.cons_ne_nil u ts), ih, List.flatMap_cons,
      List.cons_append]

/-- Nothing is cut between texts that are joined by an uncut character. -/
theorem Uncut.intercalate {p : Char → Bool} {c : Char} (hc : Uncut p [c]) {ts : List Text}
    (hts : ∀ t ∈ ts, Uncut p t) : Uncut p ([c].intercalate ts) := by
  induction ts with
  | nil => exact Uncut.nil
  | cons t ts ih =>
    have ht := hts t List.mem_cons_self
    by_cases hnil : ts = []
    · rw [hnil, show [c].intercalate [t] = t from List.append_nil t]
      exact ht
    · rw [intercalate_cons c t hnil]
      exact ht.append (hc.append (ih fun u hu ↦ hts u (List.mem_cons_of_mem t hu)))

/-- **Texts that are joined with a separator are cut apart again**, if none of them is cut itself.
-/
theorem fields_intercalate {p : Char → Bool} {c : Char} (hfree : Nesting.outside.isFree c = true)
    (hc : p c = true) {ts : List Text} (hts : ∀ t ∈ ts, Uncut p t) (hne : ts ≠ []) :
    fields p .outside ([c].intercalate ts) = ts := by
  induction ts with
  | nil => exact absurd rfl hne
  | cons t ts ih =>
    have ht := hts t List.mem_cons_self
    by_cases hnil : ts = []
    · rw [hnil, show [c].intercalate [t] = t ++ [] from rfl, ht]
      exact congrArg (fun f ↦ [f]) (List.append_nil t)
    · rw [intercalate_cons c t hnil, ht, fields, if_pos (by simp [hfree, hc]),
        ih (fun u hu ↦ hts u (List.mem_cons_of_mem t hu)) hnil, List.modifyHead_cons,
        List.append_nil]

/-- Empty texts are dropped from the end, and none is left there. -/
theorem exists_dropEmptyEnd (rs : List Text) :
    ∃ es, rs = dropEmptyEnd rs ++ es ∧ (∀ r ∈ es, r = []) ∧
      ∀ r ∈ (dropEmptyEnd rs).getLast?, r ≠ [] := by
  induction rs using List.reverseRecOn with
  | nil => exact ⟨[], rfl, nofun, nofun⟩
  | append_singleton rs r ih =>
    have hstep : dropEmptyEnd (rs ++ [r]) = if r.isEmpty then dropEmptyEnd rs else rs ++ [r] :=
      List.rdropWhile_concat _ _ _
    rw [hstep]
    split_ifs with hr
    · obtain ⟨es, heq, hes, hlast⟩ := ih
      refine ⟨es ++ [r], ?_, List.forall_mem_append.2 ⟨hes, ?_⟩, hlast⟩
      · rw [← List.append_assoc, ← heq]
      · exact List.forall_mem_singleton.2 (List.isEmpty_iff.1 hr)
    · refine ⟨[], (List.append_nil _).symm, nofun, fun u hu ↦ ?_⟩
      rw [List.getLast?_concat, Option.mem_some_iff] at hu
      exact hu ▸ mt List.isEmpty_iff.2 hr

/-- Nothing is dropped if the last text is not empty. -/
theorem dropEmptyEnd_eq_self {ts : List Text} (hts : ∀ t ∈ ts.getLast?, t ≠ []) :
    dropEmptyEnd ts = ts := by
  rcases List.eq_nil_or_concat' ts with rfl | ⟨us, t, rfl⟩
  · rfl
  · have ht : t ≠ [] := hts t List.getLast?_concat
    exact List.rdropWhile_concat_neg _ _ _ (mt List.isEmpty_iff.1 ht)

/-- Nothing is dropped where no text is empty. -/
theorem filter_not_isEmpty {ts : List Text} (hts : ∀ t ∈ ts, t ≠ []) :
    ts.filter (!·.isEmpty) = ts :=
  List.filter_eq_self.2 fun t ht ↦ by simpa using hts t ht

/-- Either there are not enough fields to be joined, or all fields behind `k` others are. -/
theorem limited_cases (n : Int) (ts : List Text) :
    ts.length ≤ (n - 1).toNat ∧ limited n ts = ts ∨
      ∃ us vs, ts = us ++ vs ∧ vs ≠ [] ∧ us.length = (n - 1).toNat ∧
        limited n ts = us ++ [['/'].intercalate vs] := by
  rw [limited]
  rcases hdrop : ts.drop (n - 1).toNat with _ | ⟨v, vs⟩
  · exact Or.inl ⟨List.drop_eq_nil_iff.1 hdrop, rfl⟩
  · refine Or.inr ⟨ts.take (n - 1).toNat, v :: vs, ?_, List.cons_ne_nil v vs, ?_, rfl⟩
    · rw [← hdrop, List.take_append_drop]
    · have hlength := congrArg List.length hdrop
      rw [List.length_drop, List.length_cons] at hlength
      rw [List.length_take]
      omega

/-- All parts from the last allowed one on are one part. -/
theorem limited_append {n : Int} {us vs : List Text} (hus : us.length = (n - 1).toNat)
    (hvs : vs ≠ []) : limited n (us ++ vs) = us ++ [['/'].intercalate vs] := by
  obtain ⟨v, vs, rfl⟩ := List.exists_cons_of_ne_nil hvs
  rw [limited, ← hus, List.drop_left, List.take_left]

/-- Nothing is joined if there are no more fields than parts. -/
theorem limited_eq_self {n : Int} {ts : List Text} (h : (ts.length : Int) ≤ max n 1) :
    limited n ts = ts := by
  rcases limited_cases n ts with ⟨-, heq⟩ | ⟨us, vs, rfl, hvs, hus, heq⟩
  · exact heq
  · have hpos := List.length_pos_iff.2 hvs
    rw [List.length_append] at h
    obtain ⟨v, rfl⟩ := List.length_eq_one_iff.1 (show vs.length = 1 by omega)
    rw [heq, List.intercalate_singleton]

/-- Occurrences that are joined are cut apart again. -/
theorem occurrences_joinBlank_of_uncut {ts : List Text}
    (hts : ∀ t ∈ ts, Uncut isBlank t ∧ t.trim = t ∧ t ≠ []) : occurrences (joinBlank ts) = ts := by
  by_cases hnil : ts = []
  · rw [hnil]
    rfl
  · have hfields : fields isBlank .outside (joinBlank ts) = ts :=
      fields_intercalate (by decide) (by decide) (fun t ht ↦ (hts t ht).1) hnil
    rw [occurrences, hfields, List.map_congr_left (g := id) fun t ht ↦ (hts t ht).2.1, List.map_id]
    exact filter_not_isEmpty fun t ht ↦ (hts t ht).2.2

namespace Tidy

variable {loose : Bool} {s : Shape} {d : Nat} {t : Text}

/-- **A strict text is not cut.** -/
theorem fields_append (h : Tidy false s d t) (r : Text) :
    fields isBlank (opened d) (t ++ r) = (fields isBlank .outside r).modifyHead (t ++ ·) := by
  induction h with
  | nil =>
    show fields isBlank .outside r = _
    cases fields isBlank .outside r <;> rfl
  | quoted _ _ _ ih =>
    rw [List.append_assoc, fields_quoted, ih, List.modifyHead_modifyHead]
    simp only [Function.comp_def, List.append_assoc]
  | @blank _ d _ hd _ _ ih =>
    have hfree := isFree_opened (hd.resolve_left (by decide)) ' '
    rw [List.cons_append, fields_cons_of_not_cut (by rw [hfree]; rfl), after_opened_blank, ih,
      List.modifyHead_modifyHead]
    rfl
  | opening _ ih =>
    rw [List.cons_append, fields_cons_of_not_cut (by simp [Nesting.isFree]), after_opened_opening,
      ih, List.modifyHead_modifyHead]
    rfl
  | closing _ ih =>
    rw [List.cons_append, fields_cons_of_not_cut (by simp [Nesting.isFree]), after_opened_closing,
      ih, List.modifyHead_modifyHead]
    rfl
  | plain hc _ ih =>
    rw [List.cons_append,
      fields_cons_of_not_cut (by simp [(Shape.endsWord_of_isPlain hc).2.1]),
      after_opened_of_isPlain hc, ih, List.modifyHead_modifyHead]
    rfl

/-- The fields of a tidy text are strict. -/
theorem exists_fields (h : Tidy true s d t) : ∃ f fs, fields isBlank (opened d) t = f :: fs ∧
    Tidy false s d f ∧ ∀ g ∈ fs, Tidy false .blank 0 g := by
  induction h with
  | nil s => exact ⟨[], [], rfl, Tidy.nil s, nofun⟩
  | quoted hb hs _ ih =>
    obtain ⟨f, fs, heq, hf, hfs⟩ := ih
    exact ⟨_, fs, by rw [fields_quoted, heq]; rfl, Tidy.quoted hb hs hf, hfs⟩
  | @blank s d t _ hs _ ih =>
    obtain ⟨f, fs, heq, hf, hfs⟩ := ih
    -- a blank cuts outside of parentheses only
    by_cases hd : d = 0
    · subst hd
      refine ⟨[], f :: fs, ?_, Tidy.nil s, fun g hg ↦ ?_⟩
      · rw [fields, if_pos (by decide)]
        exact congrArg _ heq
      · rcases List.mem_cons.1 hg with rfl | hg
        · exact hf
        · exact hfs g hg
    · have hfree := isFree_opened (Nat.pos_of_ne_zero hd) ' '
      refine ⟨' ' :: f, fs, ?_, Tidy.blank (Or.inr (Nat.pos_of_ne_zero hd)) hs hf, hfs⟩
      rw [fields_cons_of_not_cut (by rw [hfree]; rfl), after_opened_blank, heq]
      rfl
  | opening _ ih =>
    obtain ⟨f, fs, heq, hf, hfs⟩ := ih
    refine ⟨'(' :: f, fs, ?_, Tidy.opening hf, hfs⟩
    rw [fields_cons_of_not_cut (by simp [Nesting.isFree]), after_opened_opening, heq]
    rfl
  | closing _ ih =>
    obtain ⟨f, fs, heq, hf, hfs⟩ := ih
    refine ⟨')' :: f, fs, ?_, Tidy.closing hf, hfs⟩
    rw [fields_cons_of_not_cut (by simp [Nesting.isFree]), after_opened_closing, heq]
    rfl
  | @plain _ _ c _ hc _ ih =>
    obtain ⟨f, fs, heq, hf, hfs⟩ := ih
    refine ⟨c :: f, fs, ?_, Tidy.plain hc hf, hfs⟩
    rw [fields_cons_of_not_cut (by simp [(Shape.endsWord_of_isPlain hc).2.1]),
      after_opened_of_isPlain hc, heq]
    rfl

end Tidy

/-! ### Parts -/

/-- One part of a value. -/
structure IsPart (t : Text) : Prop where
  tidy : Tidy false .blank 0 t
  ne_nil : t ≠ []

namespace IsPart

variable {t : Text}

theorem trim_eq (h : IsPart t) : t.trim = t :=
  h.tidy.trim_eq

theorem endsInk (h : IsPart t) : EndsInk t :=
  h.tidy.endsInk h.ne_nil

end IsPart

/-- What is tidy, trimmed and not empty: the source text of a value that is there. -/
structure IsValue (t : Text) : Prop where
  tidy : Tidy true .opening 0 t
  trim_eq : t.trim = t
  ne_nil : t ≠ []

/-- A part is a value of one part. -/
theorem IsPart.isValue {t : Text} (h : IsPart t) : IsValue t :=
  ⟨h.tidy.loosen.congr_fresh (Or.inl rfl) (Or.inr rfl) h.tidy.head?_ne, h.trim_eq, h.ne_nil⟩

/-- **The occurrences of a tidy text are parts.** -/
theorem isPart_of_mem_occurrences {t o : Text} (h : Tidy true .opening 0 t)
    (ho : o ∈ occurrences t) : IsPart o := by
  obtain ⟨f, fs, heq, hf, hfs⟩ := h.exists_fields
  rw [occurrences, show fields isBlank .outside t = f :: fs from heq, List.mem_filter] at ho
  obtain ⟨g, hg, rfl⟩ := List.mem_map.1 ho.1
  have htidy : Tidy false .blank 0 g := by
    rcases List.mem_cons.1 hg with rfl | hg
    · exact hf.congr_fresh (Or.inr rfl) (Or.inl rfl) hf.head?_ne_of_strict
    · exact hfs g hg
  have hne := ho.2
  rw [htidy.trim_eq] at hne ⊢
  exact ⟨htidy, by simpa using hne⟩

theorem joinBlank_singleton (t : Text) : joinBlank [t] = t :=
  List.append_nil t

theorem joinBlank_cons (t : Text) {ts : List Text} (h : ts ≠ []) :
    joinBlank (t :: ts) = t ++ ' ' :: joinBlank ts :=
  intercalate_cons ' ' t h

section Join

variable {ps : List Text} (hps : ∀ p ∈ ps, IsPart p)

include hps

/-- **Parts that are joined are cut apart again.** -/
theorem occurrences_joinBlank : occurrences (joinBlank ps) = ps :=
  occurrences_joinBlank_of_uncut fun p hp ↦
    ⟨(hps p hp).tidy.fields_append, (hps p hp).trim_eq, (hps p hp).ne_nil⟩

/-- **Parts that are joined by blanks are tidy.** -/
theorem tidy_joinBlank : Tidy true .blank 0 (joinBlank ps) := by
  induction ps with
  | nil => exact Tidy.nil _
  | cons p ps ih =>
    have hp := hps p List.mem_cons_self
    by_cases hnil : ps = []
    · rw [hnil, joinBlank_singleton]
      exact hp.tidy.loosen
    · rw [joinBlank_cons p hnil]
      exact hp.tidy.append_blank ⟨nofun, nofun⟩ (fun h ↦ absurd h hp.ne_nil)
        (ih fun q hq ↦ hps q (List.mem_cons_of_mem p hq))

theorem endsInk_joinBlank (hne : ps ≠ []) : EndsInk (joinBlank ps) := by
  induction ps with
  | nil => exact absurd rfl hne
  | cons p ps ih =>
    by_cases hnil : ps = []
    · rw [hnil, joinBlank_singleton]
      exact (hps p List.mem_cons_self).endsInk
    · rw [joinBlank_cons p hnil]
      exact ((ih (fun q hq ↦ hps q (List.mem_cons_of_mem p hq)) hnil).append [' ']).append p

/-- Joined parts are a value, if there are any. -/
theorem isValue_joinBlank (hne : ps ≠ []) : IsValue (joinBlank ps) := by
  have htidy := tidy_joinBlank hps
  have hend := endsInk_joinBlank hps hne
  exact ⟨htidy.congr_fresh (Or.inl rfl) (Or.inr rfl) htidy.head?_ne,
    trim_of_ink (htidy.beginsInk hend.ne_nil htidy.head?_ne) hend, hend.ne_nil⟩

/-- And there is no white space around them. -/
theorem trim_joinBlank : (joinBlank ps).trim = joinBlank ps := by
  by_cases hnil : ps = []
  · rw [hnil]
    rfl
  · exact (isValue_joinBlank hps hnil).trim_eq

theorem tidy_opening_joinBlank : Tidy true .opening 0 (joinBlank ps) :=
  (tidy_joinBlank hps).congr_fresh (Or.inl rfl) (Or.inr rfl) (tidy_joinBlank hps).head?_ne

end Join

end Part

end ControlLanguage
