import ControlLanguage.Proofs.Part.Fields
import ControlLanguage.Proofs.Text.Ink

/-!
# Parts in normal form

Splitting a value drops white space and empty parts, so joining the parts again does not give the
value back. It gives a value with the same parts: **the lists that splitting produces are exactly
those that are recovered after joining**, and they can be told without splitting. Their texts are
trimmed, no separator stands free in them, and only the last one may leave something open. For
occurrences none of them is empty (`IsOccurrenceList`); for a name of at most `n` parts the last one
is not empty, and where there are `n` of them it may have free slashes (`IsQualifiedList`).

No balance is assumed of the value: a quote or a parenthesis that is never closed makes the rest of
it the last part. What is dropped is white space and, of a name, the slashes between empty parts at
its end, which is said by comparing the ink.
-/

namespace ControlLanguage

open Text

namespace Part

/-! ### Only the last text is special -/

/-- A relation that looks at the left side only holds of all but the last. -/
theorem pairwise_left_iff {α : Type} {P : α → Prop} {as : List α} :
    (as.Pairwise fun a _ ↦ P a) ↔ ∀ a ∈ as.dropLast, P a := by
  rcases List.eq_nil_or_concat' as with rfl | ⟨as, b, rfl⟩
  · simp
  · rw [List.dropLast_concat]
    constructor
    · exact fun h a ha ↦ (List.pairwise_append.1 h).2.2 a ha b (List.mem_singleton_self b)
    · intro h
      have hleft : as.Pairwise fun a _ ↦ P a :=
        List.pairwise_of_forall_mem_list fun a ha _ _ ↦ h a ha
      exact List.pairwise_append.2 ⟨hleft, List.pairwise_singleton _ b, fun a ha _ _ ↦ h a ha⟩

section Fields

variable {p : Char → Bool} {s : Nesting}

/-- **In a whole text every slash is inside a literal or parentheses.** -/
theorem isWhole_slash_iff {t : Text} : IsWhole (· = '/') s t ↔
    ∀ {u v}, t = u ++ '/' :: v → s.afterText u ≠ .outside := by
  refine (isWhole_iff_afterText_ne fun c hc ↦ by rw [of_decide_eq_true hc]; decide).trans ?_
  exact ⟨fun h u v heq ↦ h heq rfl, fun h u c v heq hc ↦ h (of_decide_eq_true hc ▸ heq)⟩

/-- Cutting at white space loses no ink. -/
theorem ink_flatten_fields (hp : ∀ c, p c = true → isWhiteSpace c = true) (t : Text) :
    ink (fields p s t).flatten = ink t := by
  induction t generalizing s with
  | nil => rfl
  | cons c t ih =>
    rcases hcut : s.isFree c && p c with _ | _
    · obtain ⟨f, fs, hfields, heq⟩ := exists_fields_cons hcut t
      have hflatten : ((c :: f) :: fs).flatten = [c] ++ (f :: fs).flatten := rfl
      rw [heq, hflatten, ← hfields, ink_append, ih, ← ink_append, List.singleton_append]
    · have hwhite : IsWhite [c] :=
        List.forall_mem_singleton.2 (hp c (Bool.and_eq_true_iff.1 hcut).2)
      rw [fields, if_pos hcut, List.flatten_cons, List.nil_append, ih, ← List.singleton_append,
        ink_append, ink_of_isWhite hwhite, List.nil_append]

/-- **Fields that are joined with their separator are the text.** -/
theorem intercalate_fields (c : Char) (t : Text) : [c].intercalate (fields (· = c) s t) = t := by
  induction t generalizing s with
  | nil => exact List.intercalate_singleton
  | cons d t ih =>
    rcases hcut : s.isFree d && d = c with _ | _
    · obtain ⟨f, fs, hfields, heq⟩ := exists_fields_cons (p := (· = c)) hcut t
      have hjoin : [c].intercalate ((d :: f) :: fs) = d :: [c].intercalate (f :: fs) := by
        rw [intercalate_eq, intercalate_eq, List.cons_append]
      rw [heq, hjoin, ← hfields, ih]
    · obtain rfl : d = c := of_decide_eq_true (Bool.and_eq_true_iff.1 hcut).2
      rw [fields, if_pos hcut, intercalate_cons d [] (fields_ne_nil t), ih, List.nil_append]

end Fields

/-! ### Occurrences -/

/-- The occurrences of some value: trimmed texts that are not empty and have no free blank, of which
only the last one may leave something open. -/
structure IsOccurrenceList (ts : List Text) : Prop where
  trim_eq : ∀ t ∈ ts, t.trim = t
  ne_nil : ∀ t ∈ ts, t ≠ []
  afterText_ne : ∀ t ∈ ts, ∀ {u c v}, t = u ++ c :: v → isBlank c = true →
    Nesting.outside.afterText u ≠ .outside
  afterText_eq : ∀ t ∈ ts.dropLast, Nesting.outside.afterText t = .outside

/-- The parts of any text have their properties. -/
theorem isOccurrenceList_occurrences (v : Text) : IsOccurrenceList (occurrences v) where
  trim_eq _ := trim_of_mem_occurrences
  ne_nil _ := ne_nil_of_mem_occurrences
  afterText_ne t ht := isWhole_blank_iff.1 ((isCut_occurrences v).isWhole t ht)
  afterText_eq := pairwise_left_iff.1 (isCut_occurrences v).afterText_eq

theorem IsOccurrenceList.singleton {ts : List Text} (h : IsOccurrenceList ts) {t : Text}
    (ht : t ∈ ts) : IsOccurrenceList [t] where
  trim_eq := List.forall_mem_singleton.2 (h.trim_eq t ht)
  ne_nil := List.forall_mem_singleton.2 (h.ne_nil t ht)
  afterText_ne := List.forall_mem_singleton.2 (h.afterText_ne t ht)
  afterText_eq := nofun

/-- **Occurrences that are joined are cut apart again.** -/
theorem IsOccurrenceList.occurrences_joinBlank {ts : List Text} (h : IsOccurrenceList ts) :
    occurrences (joinBlank ts) = ts := by
  have hcut : IsCut isBlank ts :=
    ⟨fun t ht ↦ isWhole_blank_iff.2 (h.afterText_ne t ht), pairwise_left_iff.2 h.afterText_eq⟩
  rw [hcut.occurrences_joinBlank h.trim_eq, filter_not_isEmpty h.ne_nil]

/-- **No ink is lost between the parts.** -/
theorem ink_flatten_occurrences (v : Text) : ink (occurrences v).flatten = ink v := by
  calc ink (occurrences v).flatten
      = ink ((fields isBlank .outside v).map Text.trim).flatten := by
        rw [occurrences, List.flatten_filter_not_isEmpty]
    _ = ink (fields isBlank .outside v).flatten := by
        rw [ink_flatten, ink_flatten, List.map_map]
        exact congrArg List.flatten (List.map_congr_left fun f _ ↦ ink_trim f)
    _ = ink v := ink_flatten_fields (fun _ ↦ isWhiteSpace_of_isBlank) v

/-- **Occurrences are a normal form.** Each occurrence of a value is trimmed, not empty and its own
only occurrence; the occurrences of joined texts are these texts exactly if they are occurrences of
some value; and no ink is lost. -/
theorem occurrences_normalForm (v : Text) :
    (∀ o ∈ occurrences v, o ≠ [] ∧ o.trim = o ∧ occurrences o = [o]) ∧
      occurrences (joinBlank (occurrences v)) = occurrences v ∧
      (∀ ts, IsOccurrenceList ts ↔ occurrences (joinBlank ts) = ts) ∧
      ink v = ink (occurrences v).flatten := by
  have hlist := isOccurrenceList_occurrences v
  refine ⟨fun o ho ↦ ⟨hlist.ne_nil o ho, hlist.trim_eq o ho, ?_⟩, hlist.occurrences_joinBlank,
    fun ts ↦ ⟨fun h ↦ h.occurrences_joinBlank, fun h ↦ ?_⟩, (ink_flatten_occurrences v).symm⟩
  · have hself := (hlist.singleton ho).occurrences_joinBlank
    rwa [joinBlank_singleton] at hself
  · exact h ▸ isOccurrenceList_occurrences (joinBlank ts)

example : occurrences "A 'B C'\t(D E  (F".toList =
    ["A".toList, "'B C'".toList, "(D E  (F".toList] := by decide

/-! ### Qualified names -/

/-- The parts of some qualified name of at most `n` parts, or of one part if `n` is less: trimmed
texts of which the last one is not empty. Only the `n`-th may have free slashes, and only the last
one may leave something open. -/
structure IsQualifiedList (n : Int) (ts : List Text) : Prop where
  length_le : (ts.length : Int) ≤ max n 1
  trim_eq : ∀ t ∈ ts, t.trim = t
  getLast?_ne : ∀ t ∈ ts.getLast?, t ≠ []
  afterText_ne : ∀ {i : Nat} {t}, ts[i]? = some t → (i : Int) + 1 ≠ max n 1 →
    ∀ {u v}, t = u ++ '/' :: v → Nesting.outside.afterText u ≠ .outside
  afterText_eq : ∀ t ∈ ts.dropLast, Nesting.outside.afterText t = .outside

/-- The parts of a name before they are trimmed: at most `k + 1` of them, and only the one behind
`k` others may have free slashes. -/
structure IsLimited (k : Nat) (ts : List Text) : Prop where
  length_le : ts.length ≤ k + 1
  isWhole : ∀ t ∈ ts.take k, IsWhole (· = '/') .outside t
  afterText_eq : ts.Pairwise fun t _ ↦ Nesting.outside.afterText t = .outside

/-- Joining does not see that the last parts were joined before. -/
theorem intercalate_concat_intercalate (c : Char) (ts : List Text) {us : List Text} (h : us ≠ []) :
    [c].intercalate (ts ++ [[c].intercalate us]) = [c].intercalate (ts ++ us) := by
  induction ts with
  | nil => rw [List.nil_append, List.nil_append, List.intercalate_singleton]
  | cons t ts ih =>
    rw [List.cons_append, List.cons_append, intercalate_cons c t (List.concat_ne_nil _ _), ih,
      intercalate_cons c t (List.append_ne_nil_of_right_ne_nil ts h)]

/-- The limit cuts no text off: what is beyond it stays in the last part. -/
theorem intercalate_limited (n : Int) (ts : List Text) :
    ['/'].intercalate (limited n ts) = ['/'].intercalate ts := by
  rcases limited_cases n ts with ⟨-, h⟩ | ⟨us, vs, rfl, hvs, -, h⟩
  · rw [h]
  · rw [h, intercalate_concat_intercalate '/' us hvs]

/-- And there are no more parts than allowed. -/
theorem isLimited_limited (n : Int) (v : Text) :
    IsLimited (n - 1).toNat (limited n (fields (· = '/') .outside v)) := by
  obtain ⟨hwhole, hclosed⟩ := isCut_fields (· = '/') v
  rcases limited_cases n (fields (· = '/') .outside v) with
    ⟨hlength, h⟩ | ⟨us, vs, heq, hvs, hus, h⟩
  · rw [h]
    exact ⟨hlength.trans (Nat.le_succ _), fun t ht ↦ hwhole t (List.mem_of_mem_take ht), hclosed⟩
  · rw [heq] at hwhole hclosed
    obtain ⟨hleft, -, hright⟩ := List.pairwise_append.1 hclosed
    obtain ⟨w, ws, rfl⟩ := List.exists_cons_of_ne_nil hvs
    rw [h]
    constructor
    · simp [hus]
    · intro t ht
      rw [← hus, List.take_left] at ht
      exact hwhole t (List.mem_append_left _ ht)
    · exact List.pairwise_append.2 ⟨hleft, List.pairwise_singleton _ _,
        fun t ht _ _ ↦ hright t ht w List.mem_cons_self⟩

namespace IsLimited

variable {k : Nat} {ts : List Text} (h : IsLimited k ts)

include h

theorem map_trim : IsLimited k (ts.map Text.trim) where
  length_le := by simpa using h.length_le
  isWhole t ht := by
    rw [← List.map_take] at ht
    obtain ⟨u, hu, rfl⟩ := List.mem_map.1 ht
    exact (h.isWhole u hu).trim isQuoting_outside
  afterText_eq := List.pairwise_map.2 (h.afterText_eq.imp fun ht ↦
    (isQuoting_outside.afterText_trim _).trans ht)

/-- Parts may be left out at the end. -/
theorem of_prefix {us : List Text} (hus : us <+: ts) : IsLimited k us :=
  ⟨hus.length_le.trans h.length_le, fun t ht ↦ h.isWhole t ((hus.take k).subset ht),
    h.afterText_eq.sublist hus.sublist⟩

/-- **Such parts that are joined are cut apart again.** -/
theorem limited_fields_intercalate {n : Int} (hn : k = (n - 1).toNat) (hne : ts ≠ []) :
    limited n (fields (· = '/') .outside (['/'].intercalate ts)) = ts := by
  subst hn
  by_cases hlength : ts.length ≤ (n - 1).toNat
  · have hcut : IsCut (· = '/') ts :=
      ⟨fun t ht ↦ h.isWhole t (by rwa [List.take_of_length_le hlength]), h.afterText_eq⟩
    rw [hcut.fields_intercalate (by decide) (by decide) hne, limited_eq_self (by omega)]
  · obtain ⟨us, t, rfl⟩ := (List.eq_nil_or_concat' ts).resolve_left hne
    have hus : us.length = (n - 1).toNat := by
      have := h.length_le
      rw [List.length_append, List.length_singleton] at this hlength
      omega
    have hparts : ∀ u ∈ us,
        IsWhole (· = '/') .outside u ∧ Nesting.outside.afterText u = .outside := by
      intro u hu
      refine ⟨h.isWhole u ?_, (List.pairwise_append.1 h.afterText_eq).2.2 u hu t (by simp)⟩
      rwa [← hus, List.take_left]
    rw [fields_intercalate_concat (by decide) (by decide) hparts,
      limited_append hus (fields_ne_nil t), intercalate_fields]

end IsLimited

theorem isQualifiedList_iff {n : Int} {ts : List Text} : IsQualifiedList n ts ↔
    IsLimited (n - 1).toNat ts ∧ (∀ t ∈ ts, t.trim = t) ∧ ∀ t ∈ ts.getLast?, t ≠ [] := by
  constructor
  · intro h
    refine ⟨⟨by have := h.length_le; omega, fun t ht ↦ ?_, pairwise_left_iff.2 h.afterText_eq⟩,
      h.trim_eq, h.getLast?_ne⟩
    obtain ⟨i, hi, rfl⟩ := List.mem_take_iff_getElem.1 ht
    exact isWhole_slash_iff.2 fun {u v} heq ↦
      h.afterText_ne (List.getElem?_eq_getElem (by omega)) (by omega) heq
  · rintro ⟨h, htrim, hlast⟩
    refine ⟨by have := h.length_le; omega, htrim, hlast, fun {i t} hi hne ↦ ?_,
      pairwise_left_iff.1 h.afterText_eq⟩
    have hlength := h.length_le
    obtain ⟨hindex, rfl⟩ := List.getElem?_eq_some_iff.1 hi
    have hmem := h.isWhole _ (List.mem_take_iff_getElem.2 ⟨i, by omega, rfl⟩)
    exact fun {u v} heq ↦ isWhole_slash_iff.1 hmem heq

/-- **A qualified name has its properties whatever the text.** -/
theorem isQualifiedList_qualified (n : Int) (v : Text) : IsQualifiedList n (qualified n v) := by
  obtain ⟨es, heq, -, hlast⟩ :=
    exists_dropEmptyEnd ((limited n (fields (· = '/') .outside v)).map Text.trim)
  refine isQualifiedList_iff.2
    ⟨(isLimited_limited n v).map_trim.of_prefix ⟨es, heq.symm⟩, fun t ht ↦ ?_, hlast⟩
  obtain ⟨f, -, rfl⟩ := List.mem_map.1 (heq ▸ List.mem_append_left es ht)
  exact trim_trim f

/-- **The parts of a name that are joined are cut apart again.** -/
theorem IsQualifiedList.qualified_intercalate {n : Int} {ts : List Text}
    (h : IsQualifiedList n ts) : qualified n (['/'].intercalate ts) = ts := by
  obtain ⟨hlimited, htrim, hlast⟩ := isQualifiedList_iff.1 h
  by_cases hnil : ts = []
  · rw [hnil, List.intercalate_nil, qualified, fields, limited_eq_self (Int.le_max_right n 1)]
    rfl
  · rw [qualified, hlimited.limited_fields_intercalate rfl hnil,
      List.map_congr_left (g := id) htrim, List.map_id, dropEmptyEnd_eq_self hlast]

/-- Empty texts at the end are seen as the separators in front of them. -/
theorem intercalate_append_replicate (c : Char) (ts : List Text) (d : Nat) :
    [c].intercalate (ts ++ List.replicate d []) =
      [c].intercalate ts ++ List.replicate (if ts = [] then d - 1 else d) c := by
  have hflat : ∀ d, (List.replicate d ([] : Text)).flatMap (c :: ·) = List.replicate d c := by
    intro d
    rw [List.flatMap_replicate, List.flatten_replicate_singleton]
  rcases ts with _ | ⟨t, ts⟩
  · rcases d with _ | d
    · rfl
    · rw [List.nil_append, List.replicate_succ, intercalate_eq, hflat]
      rfl
  · rw [List.cons_append, intercalate_eq, intercalate_eq, List.flatMap_append, hflat,
      List.append_assoc, if_neg (List.cons_ne_nil t ts)]

/-- What is dropped from a name is white space and the slashes between empty parts at its end. -/
theorem exists_ink_qualified (n : Int) (v : Text) : ∃ dropped,
    (limited n (fields (· = '/') .outside v)).map Text.trim =
        qualified n v ++ List.replicate dropped [] ∧
      ink v = ink (['/'].intercalate (qualified n v)) ++
        List.replicate (if qualified n v = [] then dropped - 1 else dropped) '/' := by
  obtain ⟨es, heq, hes, -⟩ :=
    exists_dropEmptyEnd ((limited n (fields (· = '/') .outside v)).map Text.trim)
  have hdropped : es = List.replicate es.length [] := List.eq_replicate_of_mem hes
  have hparts : (limited n (fields (· = '/') .outside v)).map Text.trim =
      qualified n v ++ List.replicate es.length [] := hdropped ▸ heq
  have htrim : ∀ ts : List Text,
      ink (['/'].intercalate (ts.map Text.trim)) = ink (['/'].intercalate ts) := by
    intro ts
    rw [ink_intercalate, ink_intercalate, List.map_map]
    exact congrArg _ (List.map_congr_left fun t _ ↦ ink_trim t)
  refine ⟨es.length, hparts, ?_⟩
  calc ink v
      = ink (['/'].intercalate (limited n (fields (· = '/') .outside v))) := by
        rw [intercalate_limited, intercalate_fields]
    _ = ink (['/'].intercalate (qualified n v ++ List.replicate es.length [])) := by
        rw [← htrim, hparts]
    _ = _ := by
        rw [intercalate_append_replicate, ink_append]
        exact congrArg _ (List.filter_replicate.trans (if_pos (by decide)))

/-- **The parts of a qualified name are a normal form.** There are at most `n` of them, trimmed, and
the last one is not empty; joined texts have these texts as their parts exactly if they are the
parts of some name. Besides white space only the slashes between empty parts at the end are
dropped. -/
theorem qualified_normalForm (n : Int) (v : Text) :
    IsQualifiedList n (qualified n v) ∧
      qualified n (['/'].intercalate (qualified n v)) = qualified n v ∧
      (∀ ts, IsQualifiedList n ts ↔ qualified n (['/'].intercalate ts) = ts) ∧
      ∃ dropped, (limited n (fields (· = '/') .outside v)).map Text.trim =
          qualified n v ++ List.replicate dropped [] ∧
        ink v = ink (['/'].intercalate (qualified n v)) ++
          List.replicate (if qualified n v = [] then dropped - 1 else dropped) '/' := by
  have hlist := isQualifiedList_qualified n v
  refine ⟨hlist, hlist.qualified_intercalate,
    fun ts ↦ ⟨fun h ↦ h.qualified_intercalate, fun h ↦ ?_⟩, exists_ink_qualified n v⟩
  exact h ▸ isQualifiedList_qualified n (['/'].intercalate ts)

example : qualified 5 " /'A/B' / C// ".toList = [[], "'A/B'".toList, "C".toList] ∧
    qualified 2 " /'A/B' / C// ".toList = [[], "'A/B' / C//".toList] := by decide

end Part

end ControlLanguage
