import ControlLanguage.Parameter.Rendering
import ControlLanguage.Proofs.Canonical.Settled
import ControlLanguage.Proofs.Command.Span
import ControlLanguage.Proofs.Part.Unwrapping

/-!
# Qualified names

A qualified name is written from right to left, its parts separated by slashes. Whatever its
literals hold, **the splitter takes it apart into the parts that were joined**
(`objectFirst_joined`), and a blank behind it ends it, since it looks for slashes and blanks outside
of quotes only.

The lexer sees less: a quote begins a literal at the start of a lexeme and means nothing within a
word. So only the first literal of the text is one lexeme, and what stands behind the first slash
goes on with a word. `Text.IsWordRun` says when that does no harm, and then the name is read as a
whole (`isSpan_joined`).
-/

namespace ControlLanguage

open Text Shape Token

namespace Part

/-- What may stand between the slashes of a qualified name: a literal that is not empty, or a word
without slashes, such as a name or a special value. -/
def IsNamePart (t : Text) : Prop :=
  (∃ b, b ≠ [] ∧ t = quoted b) ∨ t ≠ [] ∧ ∀ c ∈ t, isPlain c = true ∧ c ≠ '/'

/-- The characters of a name neither cut it nor nest. -/
theorem isPlain_of_isNameChar {c : Char} (h : isNameChar c = true) :
    isPlain c = true ∧ c ≠ '/' := by
  have hascii : ∀ n < 128, isNameChar (Char.ofNat n) = true →
      isPlain (Char.ofNat n) = true ∧ Char.ofNat n ≠ '/' := by decide +kernel
  rcases isLetter_or_lt_of_isNameChar h with hc | hc
  · exact forall_letter (P := fun c ↦ isNameChar c = true → isPlain c = true ∧ c ≠ '/') hascii
      (by decide +kernel) (by decide +kernel) (by decide +kernel) (by decide +kernel) hc h
  · exact forall_ascii (P := fun c ↦ isNameChar c = true → isPlain c = true ∧ c ≠ '/') hascii hc h

/-- A name or a variable is such a word. -/
theorem isNamePart_of_isName {t : Text} (h : t.isName = true) (hq : t.trim.isQuoted = false) :
    IsNamePart t.trim := by
  have hbare : ∀ {u : Text}, u.isBareName = true →
      u ≠ [] ∧ ∀ c ∈ u, isPlain c = true ∧ c ≠ '/' := by
    rintro (_ | ⟨d, u⟩) hu
    · exact Bool.noConfusion hu
    · simp only [isBareName, Bool.and_eq_true, List.all_eq_true] at hu
      refine ⟨List.cons_ne_nil d u, fun c hc ↦ isPlain_of_isNameChar ?_⟩
      rcases List.mem_cons.1 hc with rfl | hc
      · simp [isNameChar, isLabelChar, hu.1.1]
      · exact hu.1.2 c hc
  have htrim : t.trim.isName = true := by rwa [isName, trim_trim]
  refine Or.inr ?_
  rcases (isName_iff (trim_trim t) hq).1 htrim with h | ⟨name, heq, h⟩
  · exact hbare h
  · rw [heq]
    refine ⟨List.cons_ne_nil _ _, List.forall_mem_cons.2 ⟨by decide, (hbare h).2⟩⟩

namespace IsNamePart

variable {t : Text} (h : IsNamePart t)

include h

/-- There is no white space around a part of a name. -/
theorem ink : BeginsInk t ∧ EndsInk t := by
  rcases h with ⟨b, -, rfl⟩ | ⟨hne, ht⟩
  · exact ⟨beginsInk_quoted b, endsInk_quoted b⟩
  · obtain ⟨c, u, hc⟩ := List.exists_cons_of_ne_nil hne
    obtain ⟨v, d, hd⟩ := (List.eq_nil_or_concat' t).resolve_left hne
    exact ⟨⟨c, u, hc, (isPlain_iff.1 (ht c (by simp [hc])).1).1⟩,
      ⟨v, d, hd, (isPlain_iff.1 (ht d (by simp [hd])).1).1⟩⟩

/-- The empty literal is not one. -/
theorem ne_emptyLiteral : t ≠ ['\x27', '\x27'] := by
  rintro rfl
  rcases h with ⟨b, hb, heq⟩ | ⟨-, ht⟩
  · exact quoted_ne hb heq.symm
  · exact absurd (ht '\x27' List.mem_cons_self).1 (by decide)

/-- Only what stands between words cuts it. -/
theorem uncut {p : Char → Bool} (hp : ∀ c, isPlain c = true → c ≠ '/' → p c = false) :
    Uncut p t := by
  rcases h with ⟨b, -, rfl⟩ | ⟨-, ht⟩
  · exact Uncut.quoted b
  · exact Uncut.plain fun c hc ↦ ⟨(ht c hc).1, hp c (ht c hc).1 (ht c hc).2⟩

/-- No slash cuts a part of a name. -/
theorem uncut_slash : Uncut (· = '/') t :=
  h.uncut fun _ _ hc ↦ decide_eq_false hc

/-- And no blank does. -/
theorem uncut_blank : Uncut isBlank t :=
  h.uncut fun _ hc _ ↦ (endsWord_of_isPlain hc).2.1

theorem head?_ne : t.head? ≠ some '(' := by
  rcases h with ⟨b, -, rfl⟩ | ⟨-, ht⟩
  · exact fun h ↦ absurd (Option.some.inj h) (by decide)
  · intro hhead
    exact absurd (ht '(' (List.mem_of_head? hhead)).1 (by decide)

end IsNamePart

/-! ### Joined parts -/

section Joined

variable {parts : List Text} (hparts : ∀ t ∈ parts, IsNamePart t) (hne : parts ≠ [])

include hparts hne

/-- **A name is taken apart into the parts that were joined.** -/
theorem objectFirst_joined {n : Nat} (hlength : parts.length ≤ n) :
    objectFirst n (ValueRules.qualified.joined parts) = parts := by
  have hrev : ∀ t ∈ parts.reverse, IsNamePart t := fun t ht ↦ hparts t (List.mem_reverse.1 ht)
  have hfields : fields (· = '/') .outside (ValueRules.qualified.joined parts) = parts.reverse :=
    fields_intercalate (by decide) (by decide) (fun t ht ↦ (hrev t ht).uncut_slash) (by simpa)
  have htrim : parts.reverse.map Text.trim = parts.reverse :=
    (List.map_congr_left fun t ht ↦ trim_of_ink (hrev t ht).ink.1 (hrev t ht).ink.2).trans
      (List.map_id _)
  rw [objectFirst, qualified, hfields, limited_eq_self (by simp; omega), htrim,
    dropEmptyEnd_eq_self fun t ht ↦ (hrev t (List.mem_of_getLast? ht)).ink.1.ne_nil,
    List.reverse_reverse]

/-- The leftmost part of a name and what is written behind it. -/
theorem exists_joined_eq : ∃ t ts, parts = ts ++ [t] ∧ IsNamePart t ∧
    ValueRules.qualified.joined parts = t ++ ts.reverse.flatMap ('/' :: ·) := by
  obtain ⟨ts, t, rfl⟩ := (List.eq_nil_or_concat' parts).resolve_left hne
  refine ⟨t, ts, rfl, hparts t (by simp), ?_⟩
  rw [ValueRules.qualified.joined, List.reverse_concat]
  exact intercalate_eq '/' t ts.reverse

/-- There is no white space around the whole name. -/
theorem ink_joined : BeginsInk (ValueRules.qualified.joined parts) ∧
    EndsInk (ValueRules.qualified.joined parts) := by
  obtain ⟨t, ts, rfl, ht, heq⟩ := exists_joined_eq hparts hne
  rw [heq]
  refine ⟨ht.ink.1.append _, ?_⟩
  rcases ts with _ | ⟨u, ts⟩
  · rw [show ([] : List Text).reverse.flatMap ('/' :: ·) = [] from rfl, List.append_nil]
    exact ht.ink.2
  · have hu := hparts u (by simp)
    rw [List.reverse_cons, List.flatMap_append, ← List.append_assoc, List.flatMap_singleton]
    exact (hu.ink.2.append ['/']).append _

/-- A name is not in parentheses. -/
theorem unwrapped_joined :
    unwrapped (ValueRules.qualified.joined parts) = ValueRules.qualified.joined parts := by
  obtain ⟨hbegins, hends⟩ := ink_joined hparts hne
  have hhead : (ValueRules.qualified.joined parts).head? ≠ some '(' := by
    obtain ⟨t, ts, rfl, ht, heq⟩ := exists_joined_eq hparts hne
    rw [heq, List.head?_append_of_ne_nil _ ht.ink.1.ne_nil]
    exact ht.head?_ne
  rw [← trim_of_ink hbegins hends] at hhead
  exact (unwrapped_of_head?_ne hhead).trans (trim_of_ink hbegins hends)

omit hne in
/-- No blank cuts the whole name. -/
theorem uncut_joined : Uncut isBlank (ValueRules.qualified.joined parts) :=
  Uncut.intercalate (Uncut.plain (List.forall_mem_singleton.2 (by decide))) fun t ht ↦
    (hparts t (List.mem_reverse.1 ht)).uncut_blank

end Joined

end Part

/-! ### Names that the lexer reads as a whole -/

/-- A text that goes on with a word: it has no parentheses and no tabs, and where a blank ends the
word another one begins directly behind it. -/
inductive Text.IsWordRun : Text → Prop where
  | nil : IsWordRun []
  | char {c : Char} {t : Text} : endsWord c = false → IsWordRun t → IsWordRun (c :: t)
  | blank {c : Char} {t : Text} : begun true c = .word → IsWordRun (c :: t) →
      IsWordRun (' ' :: c :: t)

namespace Text.IsWordRun

theorem endsWord_of_begun {c : Char} (h : begun true c = .word) : endsWord c = false := by
  by_contra hc
  simp only [endsWord, Bool.not_eq_false, Bool.or_eq_true, decide_eq_true_eq] at hc
  rcases hc with (hc | rfl) | rfl
  · rw [begun_of_isBlank hc] at h
    exact Shape.noConfusion h
  · exact absurd h (by decide)
  · exact absurd h (by decide)

/-- A run of words goes on with a character of a word, or with a blank in front of a word. -/
theorem isWordRun_cons {c : Char} {t : Text} : IsWordRun (c :: t) ↔
    (endsWord c = false ∨ c = ' ' ∧ t.head?.map (begun true) = some .word) ∧ IsWordRun t := by
  constructor
  · rintro (_ | ⟨hc, ht⟩ | ⟨hd, ht⟩)
    · exact ⟨Or.inl hc, ht⟩
    · exact ⟨Or.inr ⟨rfl, congrArg some hd⟩, ht⟩
  · rintro ⟨hc | ⟨rfl, hbegun⟩, ht⟩
    · exact char hc ht
    · obtain ⟨d, hd, hword⟩ := Option.map_eq_some_iff.1 hbegun
      obtain ⟨u, rfl⟩ := List.head?_eq_some_iff.1 hd
      exact blank hword ht

instance decidable : (t : Text) → Decidable (IsWordRun t)
  | [] => isTrue nil
  | _ :: t =>
    haveI := decidable t
    decidable_of_iff' _ isWordRun_cons

/-- Runs of words are put together. -/
theorem append {t u : Text} (ht : IsWordRun t) (hu : IsWordRun u) : IsWordRun (t ++ u) := by
  induction ht with
  | nil => exact hu
  | char hc _ ih => exact char hc ih
  | blank hc _ ih => exact blank hc ih

theorem of_forall {t : Text} (ht : ∀ c ∈ t, endsWord c = false) : IsWordRun t := by
  induction t with
  | nil => exact nil
  | cons c t ih =>
    exact char (ht c List.mem_cons_self) (ih fun d hd ↦ ht d (List.mem_cons_of_mem c hd))

/-- It is read as words with blanks between them. -/
theorem runsOn {t : Text} (h : IsWordRun t) : RunsOn .word 0 t := by
  induction h with
  | nil => exact ⟨[], [], .word, .word, rfl, rfl, Chain.nil _, by decide, rfl, fun _ ↦ rfl⟩
  | @char c t hc _ ih =>
    obtain ⟨u, ts, s₁, r, rfl, hu, hchain, hr, hbalanced, -⟩ := ih
    have hext : Shape.word.extended c = some .word := by simp [extended, hc]
    refine ⟨c :: u, ts, s₁, r, rfl, run?_cons.2 ⟨_, hext, hu⟩, hchain, hr, hbalanced,
      fun hstop ↦ ?_⟩
    exact absurd (hext.symm.trans (stops_cons.1 hstop)) (Option.some_ne_none _)
  | @blank c t hc _ ih =>
    obtain ⟨u, ts, s₁, r, heq, hu, hchain, hr, hbalanced, -⟩ := ih
    have hends := endsWord_of_begun hc
    have hext : Shape.word.extended c = some .word := by simp [extended, hends]
    rcases u with _ | ⟨d, u⟩
    · -- the word could not stop in front of its first character
      obtain rfl : Shape.word = s₁ := Option.some.inj hu
      have hne : ts ≠ [] := by
        rintro rfl
        exact absurd heq (List.cons_ne_nil c t)
      have hstop := hchain.stops hne []
      rw [List.append_nil, show texts ts = c :: t from heq.symm, stops_cons, hext] at hstop
      exact absurd hstop (Option.some_ne_none _)
    · obtain ⟨rfl, rfl⟩ := List.cons.inj heq
      obtain ⟨longer, hlonger, hrun⟩ := run?_cons.1 hu
      obtain rfl : Shape.word = longer := Option.some.inj (hext.symm.trans hlonger)
      have hword : s₁.IsWordlike := (IsWordlike.run? (Or.inl rfl) hrun).1
      have hf : Follows .blank ⟨s₁.kind (c :: u), c :: u, 0⟩ s₁ := by
        refine ⟨c, u, rfl, ?_, hc ▸ hrun, rfl, fun hb ↦ ?_⟩
        · simp only [endsWord, Bool.or_eq_false_iff] at hends
          simp [extended, hends]
        · rw [hb] at hword
          simp [IsWordlike] at hword
      obtain ⟨-, hopening, hclosing⟩ := hf.kind_of_isWordlike hword
      exact ⟨[], Token.blank :: _ :: ts, .word, r, rfl, rfl,
        Chain.cons (follows_blank rfl) (Chain.cons hf hchain), hr,
        (isBalanced_cons_of_ne (by decide) (by decide)).2
          ((isBalanced_cons_of_ne hopening hclosing).2 hbalanced), fun _ ↦ rfl⟩

end Text.IsWordRun

namespace Part

/-- Behind a slash the lexer is in a word. -/
theorem after_slash {s : Shape} (hs : s.IsInner) : s.after '/' = .word := by
  rcases s with _ | _ | _ | (_ | _) | _ | _ | _ | _ | _
  case name => exact absurd rfl hs.1
  case literal.false => exact absurd rfl hs.2
  all_goals rfl

/-- What is written behind the leftmost part goes on with a word. -/
theorem runsOn_slashes {ts : List Text} (hts : ∀ t ∈ ts, IsWordRun t) {s : Shape}
    (hs : s.IsInner) : RunsOn s 0 (ts.flatMap ('/' :: ·)) := by
  have hrun : ∀ us : List Text, (∀ u ∈ us, IsWordRun u) → IsWordRun (us.flatMap ('/' :: ·)) := by
    intro us hus
    induction us with
    | nil => exact .nil
    | cons u us ih =>
      rw [List.flatMap_cons]
      exact .char (by decide) ((hus u List.mem_cons_self).append
        (ih fun v hv ↦ hus v (List.mem_cons_of_mem u hv)))
  rcases ts with _ | ⟨t, ts⟩
  · exact ⟨[], [], s, s, rfl, rfl, Chain.nil s, hs.2, rfl, fun _ ↦ rfl⟩
  · rw [List.flatMap_cons, List.cons_append]
    have hrest := ((hts t List.mem_cons_self).append
      (hrun ts fun u hu ↦ hts u (List.mem_cons_of_mem t hu))).runsOn
    exact RunsOn.cons hs (by decide) (by decide) (after_slash hs ▸ hrest)

/-- **A name is read as a whole**, if all but its leftmost part go on with a word. -/
theorem isSpan_joined {parts : List Text} (hparts : ∀ t ∈ parts, IsNamePart t) (hne : parts ≠ [])
    (hrun : ∀ t ∈ parts.dropLast, IsWordRun t) : (ValueRules.qualified.joined parts).IsSpan := by
  obtain ⟨hbegins, hends⟩ := ink_joined hparts hne
  refine .of_runsOn ?_ (trim_of_ink hbegins hends)
  obtain ⟨t, ts, rfl, ht, heq⟩ := exists_joined_eq hparts hne
  rw [List.dropLast_concat] at hrun
  have hslashes : ∀ {s : Shape}, s.IsInner → RunsOn s 0 (ts.reverse.flatMap ('/' :: ·)) :=
    runsOn_slashes fun u hu ↦ hrun u (List.mem_reverse.1 hu)
  rw [heq]
  rcases ht with ⟨b, -, rfl⟩ | ⟨hnil, hplain⟩
  · refine (hslashes ⟨by decide, by decide⟩).quoted_append b rfl ?_
    rcases ts.reverse with _ | ⟨u, us⟩
    · exact stops_nil _
    · exact stops_cons.2 (by decide)
  · have hplain' : ∀ c ∈ t, isPlain c = true := fun c hc ↦ (hplain c hc).1
    exact (hslashes (isWordlike_afterText ⟨by decide, by decide⟩ hnil hplain').isInner).plain_append
      hplain' ⟨by decide, by decide⟩

end Part

end ControlLanguage
