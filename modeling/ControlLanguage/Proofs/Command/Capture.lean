import ControlLanguage.Command.Parser
import ControlLanguage.Proofs.Token.Thinning

/-!
# What the reader captures

A parameter in the source is a keyword, an opening parenthesis, the tokens of its value and, unless
the statement ends first, the matching closing parenthesis. `captured_of_mem` finds these parts for
every capture, and `capturesFrom_parameter` is the converse: **a parameter with a balanced value is
captured as it stands**, whatever follows it.

The first one is an invariant of the reader. `Position.Reached` says what its position tells about
the tokens read so far; one step keeps it, hence so does a run.
-/

namespace ControlLanguage

namespace Token

/-- An opening parenthesis. -/
def opening : Token :=
  ⟨.opening, ['('], 0⟩

/-- A closing parenthesis. -/
def closing : Token :=
  ⟨.closing, [')'], 0⟩

/-- A blank. -/
def blank : Token :=
  ⟨.blank, [' '], 0⟩

/-- With `depth` parentheses open in front, every closing parenthesis closes one of them, and none
is left open. -/
def IsBalanced : Nat → List Token → Prop
  | depth, [] => depth = 0
  | depth, t :: ts =>
    match t.kind, depth with
    | .opening, depth => IsBalanced (depth + 1) ts
    | .closing, 0 => False
    | .closing, depth + 1 => IsBalanced depth ts
    | _, depth => IsBalanced depth ts

theorem isBalanced_cons_opening {depth : Nat} {t : Token} {ts : List Token}
    (ht : t.kind = .opening) : IsBalanced depth (t :: ts) ↔ IsBalanced (depth + 1) ts := by
  obtain ⟨kind, text, column⟩ := t
  obtain rfl : kind = _ := ht
  rfl

/-- A closing parenthesis needs an opening one in front of it. -/
theorem isBalanced_cons_closing {depth : Nat} {t : Token} {ts : List Token}
    (ht : t.kind = .closing) : IsBalanced (depth + 1) (t :: ts) ↔ IsBalanced depth ts := by
  obtain ⟨kind, text, column⟩ := t
  obtain rfl : kind = _ := ht
  rfl

theorem not_isBalanced_zero_cons {t : Token} {ts : List Token} (ht : t.kind = .closing) :
    ¬ IsBalanced 0 (t :: ts) := by
  obtain ⟨kind, text, column⟩ := t
  obtain rfl : kind = _ := ht
  exact id

theorem isBalanced_cons_of_ne {depth : Nat} {t : Token} {ts : List Token} (ho : t.kind ≠ .opening)
    (hc : t.kind ≠ .closing) : IsBalanced depth (t :: ts) ↔ IsBalanced depth ts := by
  cases hk : t.kind <;> simp_all [IsBalanced]

/-- Balanced runs of tokens may follow one another. -/
theorem IsBalanced.append {depth depth' : Nat} {ts us : List Token} (h : IsBalanced depth ts)
    (h' : IsBalanced depth' us) : IsBalanced (depth + depth') (ts ++ us) := by
  induction ts generalizing depth with
  | nil =>
    obtain rfl : depth = 0 := h
    rwa [Nat.zero_add]
  | cons t ts ih =>
    rw [List.cons_append]
    by_cases ho : t.kind = .opening
    · rw [isBalanced_cons_opening ho] at h ⊢
      rw [Nat.add_right_comm]
      exact ih h
    by_cases hc : t.kind = .closing
    · cases depth with
      | zero => exact absurd h (not_isBalanced_zero_cons hc)
      | succ depth =>
        rw [isBalanced_cons_closing hc] at h
        rw [Nat.add_right_comm, isBalanced_cons_closing hc]
        exact ih h
    · rw [isBalanced_cons_of_ne ho hc] at h ⊢
      exact ih h

/-- Only the kinds of the tokens count. -/
theorem IsBalanced.congr_kind {depth : Nat} {ts us : List Token} (h : IsBalanced depth ts)
    (hkind : ts.map Token.kind = us.map Token.kind) : IsBalanced depth us := by
  induction ts generalizing depth us with
  | nil =>
    rw [List.map_eq_nil_iff.1 hkind.symm]
    exact h
  | cons t ts ih =>
    obtain ⟨u, us, rfl, hk, hrest⟩ := List.map_eq_cons_iff.1 hkind.symm
    by_cases ho : t.kind = .opening
    · exact (isBalanced_cons_opening (hk.trans ho)).2
        (ih ((isBalanced_cons_opening ho).1 h) hrest.symm)
    by_cases hc : t.kind = .closing
    · cases depth with
      | zero => exact absurd h (not_isBalanced_zero_cons hc)
      | succ depth =>
        exact (isBalanced_cons_closing (hk.trans hc)).2
          (ih ((isBalanced_cons_closing hc).1 h) hrest.symm)
    · rw [isBalanced_cons_of_ne ho hc] at h
      exact (isBalanced_cons_of_ne (hk ▸ ho) (hk ▸ hc)).2 (ih h hrest.symm)

/-- Balance is a matter of the kinds of the tokens. -/
theorem IsBalanced.congr {depth : Nat} {ts us : List Token} (h : IsBalanced depth ts)
    (halike : List.Forall₂ Alike ts us) : IsBalanced depth us := by
  refine h.congr_kind ?_
  clear h
  induction halike with
  | nil => rfl
  | cons htu _ ih => rw [List.map_cons, List.map_cons, htu.1, ih]

/-- With `depth` parentheses open in front no closing parenthesis closes anything else, so what is
open at the end can be closed there. -/
def IsClosable (depth : Nat) (ts : List Token) : Prop :=
  ∃ n, IsBalanced depth (ts ++ List.replicate n closing)

/-- Where no token follows, no parenthesis is closed too often. -/
theorem isClosable_nil (depth : Nat) : IsClosable depth [] := by
  refine ⟨depth, ?_⟩
  rw [List.nil_append]
  induction depth with
  | zero => rfl
  | succ depth ih => exact (isBalanced_cons_closing rfl).2 ih

theorem isClosable_cons_opening {depth : Nat} {t : Token} {ts : List Token}
    (ht : t.kind = .opening) : IsClosable depth (t :: ts) ↔ IsClosable (depth + 1) ts := by
  simp only [IsClosable, List.cons_append, isBalanced_cons_opening ht]

/-- A closing parenthesis takes away one of the open ones. -/
theorem isClosable_cons_closing {depth : Nat} {t : Token} {ts : List Token}
    (ht : t.kind = .closing) : IsClosable (depth + 1) (t :: ts) ↔ IsClosable depth ts := by
  simp only [IsClosable, List.cons_append, isBalanced_cons_closing ht]

theorem not_isClosable_zero_cons {t : Token} {ts : List Token} (ht : t.kind = .closing) :
    ¬ IsClosable 0 (t :: ts) := by
  rintro ⟨n, hn⟩
  exact not_isBalanced_zero_cons ht hn

theorem isClosable_cons_of_ne {depth : Nat} {t : Token} {ts : List Token} (ho : t.kind ≠ .opening)
    (hc : t.kind ≠ .closing) : IsClosable depth (t :: ts) ↔ IsClosable depth ts := by
  simp only [IsClosable, List.cons_append, isBalanced_cons_of_ne ho hc]

/-- Only the kinds of the tokens count. -/
theorem IsClosable.congr_kind {depth : Nat} {ts us : List Token} (h : IsClosable depth ts)
    (hkind : ts.map Token.kind = us.map Token.kind) : IsClosable depth us := by
  obtain ⟨n, hn⟩ := h
  exact ⟨n, hn.congr_kind (by rw [List.map_append, List.map_append, hkind])⟩

/-- Thinning takes blanks only, so parentheses stay balanced. -/
theorem Thinned.isBalanced_append {opened : Bool} {depth : Nat} {ts us : List Token}
    (h : Thinned opened ts us) {ws : List Token} (hts : IsBalanced depth (ts ++ ws)) :
    IsBalanced depth (us ++ ws) := by
  induction h generalizing depth with
  | nil => exact hts
  | @keep opened t u ts us hk _ _ ih =>
    by_cases ho : t.kind = .opening
    · exact (isBalanced_cons_opening (hk ▸ ho)).2 (ih ((isBalanced_cons_opening ho).1 hts))
    by_cases hc : t.kind = .closing
    · cases depth with
      | zero => exact absurd hts (not_isBalanced_zero_cons hc)
      | succ depth =>
        exact (isBalanced_cons_closing (hk ▸ hc)).2 (ih ((isBalanced_cons_closing hc).1 hts))
    · rw [List.cons_append, isBalanced_cons_of_ne ho hc] at hts
      exact (isBalanced_cons_of_ne (hk ▸ ho) (hk ▸ hc)).2 (ih hts)
  | drop hb _ ih => exact ih ((isBalanced_cons_of_ne (by simp [hb]) (by simp [hb])).1 hts)
  | last hb => exact (isBalanced_cons_of_ne (by simp [hb]) (by simp [hb])).1 hts

/-- Balance does not depend on the blanks that are left out. -/
theorem Thinned.isBalanced {opened : Bool} {depth : Nat} {ts us : List Token}
    (h : Thinned opened ts us) (hts : IsBalanced depth ts) : IsBalanced depth us := by
  have happend : IsBalanced depth (us ++ []) := h.isBalanced_append (by rwa [List.append_nil])
  rwa [List.append_nil] at happend

end Token

namespace Command

open Token

/-! ### One step of the reader -/

section Step

variable {keyword : Text} {candidate : Option Text} {depth : Nat} {taken : List Token} {t : Token}
  (rest : List Token)

/-- A parenthesis behind a keyword begins a parameter. -/
theorem capturesFrom_between_opening (ht : t.kind = .opening) :
    capturesFrom (.between (some keyword)) (t :: rest) =
      capturesFrom (.inside keyword 0 []) rest := by
  obtain ⟨kind, text, column⟩ := t
  obtain rfl : kind = _ := ht
  rfl

/-- Between parameters, a token is passed over, and the next parenthesis may be its own. -/
theorem capturesFrom_between (h : candidate = none ∨ t.kind ≠ .opening) :
    capturesFrom (.between candidate) (t :: rest) =
      capturesFrom (.between (if t.namesParameter then some t.text else none)) rest := by
  rcases h with rfl | h
  · simp [capturesFrom]
  · cases candidate <;> simp [capturesFrom, h]

/-- The parenthesis that closes the value ends the parameter. -/
theorem capturesFrom_inside_final (ht : t.kind = .closing) :
    capturesFrom (.inside keyword 0 taken) (t :: rest) =
      ⟨keyword, taken.reverse, true⟩ :: capturesFrom (.between none) rest := by
  obtain ⟨kind, text, column⟩ := t
  obtain rfl : kind = _ := ht
  rfl

theorem capturesFrom_inside_closing (ht : t.kind = .closing) :
    capturesFrom (.inside keyword (depth + 1) taken) (t :: rest) =
      capturesFrom (.inside keyword depth (t :: taken)) rest := by
  obtain ⟨kind, text, column⟩ := t
  obtain rfl : kind = _ := ht
  rfl

theorem capturesFrom_inside_opening (ht : t.kind = .opening) :
    capturesFrom (.inside keyword depth taken) (t :: rest) =
      capturesFrom (.inside keyword (depth + 1) (t :: taken)) rest := by
  obtain ⟨kind, text, column⟩ := t
  obtain rfl : kind = _ := ht
  rfl

/-- Any other token inside is taken. -/
theorem capturesFrom_inside_other (ho : t.kind ≠ .opening) (hc : t.kind ≠ .closing) :
    capturesFrom (.inside keyword depth taken) (t :: rest) =
      capturesFrom (.inside keyword depth (t :: taken)) rest := by
  cases hk : t.kind <;> simp_all [capturesFrom]

end Step

/-- What a token makes of the position of the reader, and the capture that ends with it. -/
inductive Position.Step (t : Token) : Position → Position → Option Capture → Prop where
  | between {candidate : Option Text} (h : candidate = none ∨ t.kind ≠ .opening) :
      Step t (.between candidate) (.between (if t.namesParameter then some t.text else none)) none
  | enter {keyword : Text} (ht : t.kind = .opening) :
      Step t (.between (some keyword)) (.inside keyword 0 []) none
  | opening {keyword : Text} {depth : Nat} {taken : List Token} (ht : t.kind = .opening) :
      Step t (.inside keyword depth taken) (.inside keyword (depth + 1) (t :: taken)) none
  | closing {keyword : Text} {depth : Nat} {taken : List Token} (ht : t.kind = .closing) :
      Step t (.inside keyword (depth + 1) taken) (.inside keyword depth (t :: taken)) none
  | other {keyword : Text} {depth : Nat} {taken : List Token} (ho : t.kind ≠ .opening)
      (hc : t.kind ≠ .closing) :
      Step t (.inside keyword depth taken) (.inside keyword depth (t :: taken)) none
  | final {keyword : Text} {taken : List Token} (ht : t.kind = .closing) :
      Step t (.inside keyword 0 taken) (.between none) (some ⟨keyword, taken.reverse, true⟩)

/-- **There is one step for every token.** -/
theorem Position.exists_step (p : Position) (t : Token) : ∃ p' captured, Step t p p' captured := by
  rcases p with candidate | ⟨keyword, depth, taken⟩
  · by_cases hstart : candidate = none ∨ t.kind ≠ .opening
    · exact ⟨_, _, .between hstart⟩
    · obtain ⟨hcandidate, ht⟩ := not_or.1 hstart
      obtain ⟨keyword, rfl⟩ := Option.ne_none_iff_exists'.1 hcandidate
      exact ⟨_, _, .enter (not_not.1 ht)⟩
  · by_cases ho : t.kind = .opening
    · exact ⟨_, _, .opening ho⟩
    by_cases hc : t.kind = .closing
    · cases depth with
      | zero => exact ⟨_, _, .final hc⟩
      | succ depth => exact ⟨_, _, .closing hc⟩
    · exact ⟨_, _, .other ho hc⟩

/-- **One step of the reading says what the rest of the tokens is read for.** -/
theorem Position.Step.capturesFrom_cons {p p' : Position} {t : Token} {captured : Option Capture}
    (h : Position.Step t p p' captured) (rest : List Token) :
    capturesFrom p (t :: rest) = captured.toList ++ capturesFrom p' rest := by
  cases h with
  | between h => exact capturesFrom_between rest h
  | enter ht => exact capturesFrom_between_opening rest ht
  | opening ht => exact capturesFrom_inside_opening rest ht
  | closing ht => exact capturesFrom_inside_closing rest ht
  | other ho hc => exact capturesFrom_inside_other rest ho hc
  | final ht => exact capturesFrom_inside_final rest ht

/-! ### Where a capture comes from -/

/-- The parts of a capture in a list of tokens: its keyword, its opening parenthesis and its
tokens. If the capture is closed, these are balanced and a closing parenthesis follows them; else
they can be closed behind the end. -/
def Captured (ts : List Token) (c : Capture) : Prop :=
  ∃ before k o after, ts = before ++ k :: o :: (c.tokens ++ after) ∧ k.namesParameter ∧
    k.text = c.keyword ∧ o.kind = .opening ∧
    (c.isClosed → IsBalanced 0 c.tokens ∧ ∃ t ∈ after.head?, t.kind = .closing) ∧
    IsClosable 0 c.tokens

/-- What the position of the reader tells about the tokens read so far. -/
def Position.Reached (done : List Token) : Position → Prop
  | .between candidate => ∀ keyword ∈ candidate, ∃ before k, done = before ++ [k] ∧
      k.namesParameter ∧ k.text = keyword
  | .inside keyword depth taken => ∃ before k o, done = before ++ k :: o :: taken.reverse ∧
      k.namesParameter ∧ k.text = keyword ∧ o.kind = .opening ∧
      ∀ ts, IsBalanced depth ts → IsBalanced 0 (taken.reverse ++ ts)

/-- One more token of a value. -/
theorem Position.Reached.taken {done : List Token} {keyword : Text} {depth depth' : Nat}
    {taken : List Token} {t : Token} (h : Reached done (.inside keyword depth taken))
    (ht : ∀ ts, IsBalanced depth' ts → IsBalanced depth (t :: ts)) :
    Reached (done ++ [t]) (.inside keyword depth' (t :: taken)) := by
  obtain ⟨before, k, o, rfl, hk, htext, ho, hbal⟩ := h
  refine ⟨before, k, o, by simp, hk, htext, ho, fun ts hts ↦ ?_⟩
  have := hbal (t :: ts) (ht ts hts)
  simpa using this

/-- **A step keeps what is known of the tokens read so far.** -/
theorem Position.Step.reached {p p' : Position} {done : List Token} {t : Token}
    {captured : Option Capture} (h : Position.Step t p p' captured) (hp : p.Reached done) :
    p'.Reached (done ++ [t]) := by
  cases h with
  | between h =>
    intro keyword hkeyword
    rw [Option.mem_def] at hkeyword
    split_ifs at hkeyword with hnames
    exact ⟨done, t, rfl, hnames, Option.some.inj hkeyword⟩
  | @enter keyword ht =>
    obtain ⟨before, k, rfl, hnames, htext⟩ := hp keyword rfl
    exact ⟨before, k, t, by simp, hnames, htext, ht, fun us hus ↦ by simpa using hus⟩
  | opening ht => exact hp.taken fun us ↦ (isBalanced_cons_opening ht).2
  | closing ht => exact hp.taken fun us ↦ (isBalanced_cons_closing ht).2
  | other ho hc => exact hp.taken fun us ↦ (isBalanced_cons_of_ne ho hc).2
  | final ht => exact fun keyword h ↦ absurd h (Option.not_mem_none keyword)

/-- What is captured with a closing parenthesis has its parts in front of it. -/
theorem Position.Step.captured {p p' : Position} {done : List Token} {t : Token} {c : Capture}
    (h : Position.Step t p p' (some c)) (hp : p.Reached done) (rest : List Token) :
    Captured (done ++ t :: rest) c := by
  cases h with
  | @final keyword taken ht =>
    obtain ⟨before, k, o, rfl, hnames, htext, ho, hbal⟩ := hp
    have hbalanced : IsBalanced 0 taken.reverse := by simpa using hbal [] rfl
    exact ⟨before, k, o, t :: rest, by simp, hnames, htext, ho,
      fun _ ↦ ⟨hbalanced, t, rfl, ht⟩, 0, by simpa using hbalanced⟩

/-- **Every capture has its parts in the tokens.** -/
theorem captured_of_mem_capturesFrom {p : Position} {done ts : List Token} {c : Capture}
    (hp : p.Reached done) (hc : c ∈ capturesFrom p ts) : Captured (done ++ ts) c := by
  induction ts generalizing p done with
  | nil =>
    rcases p with candidate | ⟨keyword, depth, taken⟩
    · simp [capturesFrom] at hc
    -- a value that is open at the end is captured with the tokens taken so far
    · obtain ⟨before, k, o, rfl, hk, htext, ho, hbal⟩ := hp
      simp only [capturesFrom, List.mem_singleton] at hc
      subst hc
      obtain ⟨n, hclose⟩ := isClosable_nil depth
      exact ⟨before, k, o, [], by simp, hk, htext, ho, by simp, n, hbal _ hclose⟩
  | cons t ts ih =>
    obtain ⟨p', captured, hstep⟩ := p.exists_step t
    rw [hstep.capturesFrom_cons, List.mem_append, Option.mem_toList] at hc
    rcases hc with rfl | hc
    · exact hstep.captured hp ts
    · rw [List.append_cons]
      exact ih (hstep.reached hp) hc

/-- Each parameter is captured by the tokens around it. -/
theorem captured_of_mem {ts : List Token} {c : Capture} (hc : c ∈ captures ts) : Captured ts c := by
  rw [captures, nameAndRest?] at hc
  rcases hd : ts.dropWhile (·.kind = .blank) with _ | ⟨name, rest⟩
  · simp [hd] at hc
  · rw [hd] at hc
    have hts : ts = (ts.takeWhile (·.kind = .blank) ++ [name]) ++ rest := by
      rw [List.append_assoc, List.singleton_append, ← hd, List.takeWhile_append_dropWhile]
    rw [hts]
    exact captured_of_mem_capturesFrom (p := .between none) nofun hc

/-! ### What is captured -/

/-- The value of a parameter runs to the matching parenthesis. -/
theorem capturesFrom_inside {keyword : Text} {depth : Nat} {taken ts rest : List Token} {t : Token}
    (hts : IsBalanced depth ts) (ht : t.kind = .closing) :
    capturesFrom (.inside keyword depth taken) (ts ++ t :: rest) =
      ⟨keyword, taken.reverse ++ ts, true⟩ :: capturesFrom (.between none) rest := by
  induction ts generalizing depth taken with
  | nil =>
    obtain rfl : depth = 0 := hts
    simp [capturesFrom, ht]
  | cons u ts ih =>
    have hassoc : taken.reverse ++ u :: ts = (u :: taken).reverse ++ ts := by simp
    rw [hassoc, List.cons_append]
    by_cases ho : u.kind = .opening
    · rw [capturesFrom_inside_opening _ ho, ih ((isBalanced_cons_opening ho).1 hts)]
    by_cases hc : u.kind = .closing
    · cases depth with
      | zero => exact absurd hts (not_isBalanced_zero_cons hc)
      | succ depth =>
        rw [capturesFrom_inside_closing _ hc, ih ((isBalanced_cons_closing hc).1 hts)]
    · rw [capturesFrom_inside_other _ ho hc, ih ((isBalanced_cons_of_ne ho hc).1 hts)]

/-- A value without a matching parenthesis runs to the end. -/
theorem capturesFrom_inside_of_isClosable {keyword : Text} {depth : Nat} {taken ts : List Token}
    (hts : IsClosable depth ts) :
    capturesFrom (.inside keyword depth taken) ts = [⟨keyword, taken.reverse ++ ts, false⟩] := by
  induction ts generalizing depth taken with
  | nil => simp [capturesFrom]
  | cons u ts ih =>
    have hassoc : taken.reverse ++ u :: ts = (u :: taken).reverse ++ ts := by simp
    rw [hassoc]
    by_cases ho : u.kind = .opening
    · rw [capturesFrom_inside_opening _ ho, ih ((isClosable_cons_opening ho).1 hts)]
    by_cases hc : u.kind = .closing
    · cases depth with
      | zero => exact absurd hts (not_isClosable_zero_cons hc)
      | succ depth =>
        rw [capturesFrom_inside_closing _ hc, ih ((isClosable_cons_closing hc).1 hts)]
    · rw [capturesFrom_inside_other _ ho hc, ih ((isClosable_cons_of_ne ho hc).1 hts)]

/-- Only the last capture can be left open. -/
theorem capturesFrom_isClosed (p : Position) (ts : List Token) :
    (∀ c ∈ capturesFrom p ts, c.isClosed = true) ∨
      ∃ cs c, capturesFrom p ts = cs ++ [c] ∧ ∀ d ∈ cs, d.isClosed = true := by
  induction ts generalizing p with
  | nil =>
    rcases p with candidate | ⟨keyword, depth, taken⟩
    · exact Or.inl (by simp [capturesFrom])
    · exact Or.inr ⟨[], _, rfl, by simp⟩
  | cons t ts ih =>
    obtain ⟨p', captured, hstep⟩ := p.exists_step t
    -- a step captures closed values only; an open one is captured at the end of the tokens
    have hclosed : ∀ c ∈ captured.toList, c.isClosed = true := by
      cases hstep <;> simp
    rw [hstep.capturesFrom_cons]
    rcases ih p' with hall | ⟨cs, c, hcs, hall⟩
    · exact Or.inl (List.forall_mem_append.2 ⟨hclosed, hall⟩)
    · exact Or.inr ⟨captured.toList ++ cs, c, by rw [hcs, List.append_assoc],
        List.forall_mem_append.2 ⟨hclosed, hall⟩⟩

/-- **Only the last parameter may be without its closing parenthesis.** -/
theorem captures_isClosed (ts : List Token) : (∀ c ∈ captures ts, c.isClosed = true) ∨
    ∃ cs c, captures ts = cs ++ [c] ∧ ∀ d ∈ cs, d.isClosed = true := by
  rw [captures]
  cases nameAndRest? ts with
  | none => exact Or.inl (by simp)
  | some x => exact capturesFrom_isClosed _ x.2

/-- A keyword and an opening parenthesis begin a parameter. -/
theorem capturesFrom_keyword {k o : Token} (rest : List Token) (hk : k.kind = .keyword)
    (ho : o.kind = .opening) :
    capturesFrom (.between none) (k :: o :: rest) = capturesFrom (.inside k.text 0 []) rest := by
  have hnames : k.namesParameter = true := by simp [Token.namesParameter, hk]
  rw [capturesFrom_between _ (.inl rfl), if_pos hnames, capturesFrom_between_opening _ ho]

/-- **A parameter with a balanced value is captured as it stands.** -/
theorem capturesFrom_parameter {k o t : Token} {ts rest : List Token} (hk : k.kind = .keyword)
    (ho : o.kind = .opening) (hts : IsBalanced 0 ts) (ht : t.kind = .closing) :
    capturesFrom (.between none) (k :: o :: (ts ++ t :: rest)) =
      ⟨k.text, ts, true⟩ :: capturesFrom (.between none) rest := by
  rw [capturesFrom_keyword _ hk ho, capturesFrom_inside hts ht]
  rfl

/-- Blanks between parameters are passed over. -/
theorem capturesFrom_blank {b : Token} (hb : b.kind = .blank) (rest : List Token) :
    capturesFrom (.between none) (b :: rest) = capturesFrom (.between none) rest := by
  have hnames : b.namesParameter = false := by simp [Token.namesParameter, hb]
  rw [capturesFrom_between _ (.inl rfl), hnames]
  rfl

/-! ### Columns -/

namespace Capture

/-- The capture with the columns of its tokens left out. -/
def unplaced (c : Capture) : Capture :=
  { c with tokens := c.tokens.map Token.unplaced }

end Capture

/-- The position with the columns of its tokens left out. -/
def Position.unplaced : Position → Position
  | .between candidate => .between candidate
  | .inside keyword depth taken => .inside keyword depth (taken.map Token.unplaced)

/-- A step does not depend on columns. -/
theorem Position.Step.unplaced {p p' : Position} {t : Token} {captured : Option Capture}
    (h : Position.Step t p p' captured) :
    Position.Step t.unplaced p.unplaced p'.unplaced (captured.map Capture.unplaced) := by
  cases h with
  | between h => exact .between (t := t.unplaced) h
  | enter ht => exact .enter (t := t.unplaced) ht
  | opening ht => exact .opening (t := t.unplaced) ht
  | closing ht => exact .closing (t := t.unplaced) ht
  | other ho hc => exact .other (t := t.unplaced) ho hc
  | @final keyword taken ht =>
    rw [Option.map_some, Capture.unplaced, List.map_reverse]
    exact .final (t := t.unplaced) ht

/-- The columns of the tokens do not matter for the reading. -/
theorem capturesFrom_unplaced (p : Position) (ts : List Token) :
    capturesFrom p.unplaced (ts.map Token.unplaced) = (capturesFrom p ts).map Capture.unplaced := by
  induction ts generalizing p with
  | nil => cases p <;> simp [capturesFrom, Position.unplaced, Capture.unplaced]
  | cons t ts ih =>
    obtain ⟨p', captured, hstep⟩ := p.exists_step t
    rw [List.map_cons, hstep.capturesFrom_cons, hstep.unplaced.capturesFrom_cons, ih,
      List.map_append]
    cases captured <;> rfl

theorem nameAndRest?_unplaced (ts : List Token) :
    nameAndRest? (ts.map Token.unplaced) =
      (nameAndRest? ts).map fun (name, rest) ↦ (name.unplaced, rest.map Token.unplaced) := by
  have hdrop : (ts.map Token.unplaced).dropWhile (·.kind = .blank) =
      (ts.dropWhile (·.kind = .blank)).map Token.unplaced := by
    rw [List.dropWhile_map]
    rfl
  rw [nameAndRest?, nameAndRest?, hdrop]
  cases ts.dropWhile (·.kind = .blank) <;> rfl

end Command

end ControlLanguage
