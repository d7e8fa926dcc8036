import Parlance.Proofs.Consumption

/-! # Settling

A run settles if some budget is enough for it: the run under that budget is not cut short,
and every larger budget gives the same run. Actions settle one after the other: the
larger of two budgets is enough for both (`Settles.bind`). A loop settles if its body
settles wherever the loop may come to and every round leaves less of the text; the rounds
that a budget has left are counted down from it, so a loop is followed with one budget
for all its rounds. -/
namespace Parlance

/-! ## Budgets -/

namespace Budget

instance : LE Budget := ⟨fun b b' => b.depth ≤ b'.depth ∧ b.rounds ≤ b'.rounds⟩

theorem le_refl (b : Budget) : b ≤ b := ⟨Nat.le_refl _, Nat.le_refl _⟩

theorem le_trans {b b' b'' : Budget} (h : b ≤ b') (h' : b' ≤ b'') : b ≤ b'' :=
  ⟨Nat.le_trans h.1 h'.1, Nat.le_trans h.2 h'.2⟩

/-- The least budget that is enough where either is. -/
def max (b b' : Budget) : Budget := ⟨Nat.max b.depth b'.depth, Nat.max b.rounds b'.rounds⟩

theorem le_max_left (b b' : Budget) : b ≤ b.max b' := ⟨Nat.le_max_left _ _, Nat.le_max_left _ _⟩

theorem le_max_right (b b' : Budget) : b' ≤ b.max b' := ⟨Nat.le_max_right _ _, Nat.le_max_right _ _⟩

end Budget

/-- Some budget is enough for the run from here. -/
def Settles {α : Type} (m : Budget → Action α) (c : Cursor) : Prop :=
  ∃ b, ¬ ((m b).run c).Exhausted ∧ ∀ b', b ≤ b' → (m b').run c = (m b).run c

namespace Settles

open Parlance.Matcher

variable {α β : Type} {c : Cursor} {m : Budget → Action α}

/-- From some budget on the run ends like this. -/
theorem of_le {o : Outcome α} (b : Budget) (ho : ¬ o.Exhausted)
    (h : ∀ b', b ≤ b' → (m b').run c = o) : Settles m c := by
  have hleast := h b b.le_refl
  exact ⟨b, hleast ▸ ho, fun b' hle => (h b' hle).trans hleast.symm⟩

/-- An action that the budget has no part in. -/
theorem of_run {x : Action α} (h : ¬ (x.run c).Exhausted) : Settles (fun _ => x) c :=
  of_le ⟨0, 0⟩ h fun _ _ => rfl

theorem of_ok {x : Action α} {a : α} (h : (x.run c).exit = .ok a) : Settles (fun _ => x) c :=
  of_run (Outcome.not_exhausted_of_ok h)

theorem raise {fault : Fault} (h : ¬ fault.CutsShort) :
    Settles (fun _ => (Action.raise fault : Action α)) c := by
  refine of_run fun hexhausted => ?_
  obtain ⟨fault', hcut, hexit⟩ := Outcome.exhausted_iff.mp hexhausted
  cases hexit
  exact h hcut

theorem lift {result : Except Fault α} (h : ∀ fault, result = .error fault → ¬ fault.CutsShort) :
    Settles (fun _ => Action.lift result) c := by
  cases result with
  | error fault => exact raise (h fault rfl)
  | ok a => exact of_ok rfl

/-- What is so from some budget on decides. -/
theorem congr {m' : Budget → Action α} (hm' : Settles m' c) (b₀ : Budget)
    (h : ∀ b, b₀ ≤ b → m b = m' b) : Settles m c := by
  obtain ⟨b₁, hrun, hsame⟩ := hm'
  refine of_le (b₀.max b₁) hrun fun b' hle => ?_
  rw [h b' (Budget.le_trans (b₀.le_max_left b₁) hle)]
  exact hsame b' (Budget.le_trans (b₀.le_max_right b₁) hle)

/-- One action after another. -/
theorem bind {f : Budget → α → Action β} (hm : Settles m c)
    (hf : ∀ b a c', (m b).Returns c a c' → Settles (fun b => f b a) c') :
    Settles (fun b => m b >>= f b) c := by
  obtain ⟨b₁, hrun, hsame⟩ := hm
  rcases ho : (m b₁).run c with ⟨fault | a, c', trace⟩
  all_goals rw [ho] at hrun hsame
  · refine of_le (o := ⟨.error fault, c', trace⟩) b₁ ?_ fun b' hle => ?_
    · rintro (hexit | hexit) <;> cases hexit
      · exact hrun (.inl rfl)
      · exact hrun (.inr rfl)
    · rw [Action.run_bind, hsame b' hle, Outcome.andThen_error]
  · obtain ⟨b₂, hrun₂, hsame₂⟩ := hf b₁ a c' ⟨by rw [ho], by rw [ho]⟩
    refine of_le (o := ((f b₂ a).run c').after trace) (b₁.max b₂) hrun₂ fun b' hle => ?_
    rw [Action.run_bind, hsame b' (Budget.le_trans (b₁.le_max_left b₂) hle), Outcome.andThen_ok,
      hsame₂ b' (Budget.le_trans (b₁.le_max_right b₂) hle)]

theorem ite {b : Prop} [Decidable b] {m' : Budget → Action α} (hm : b → Settles m c)
    (hm' : ¬ b → Settles m' c) : Settles (fun budget => if b then m budget else m' budget) c := by
  by_cases h : b
  · simp only [if_pos h]
    exact hm h
  · simp only [if_neg h]
    exact hm' h

/-! ## Small actions -/

theorem succeed (v : Value) : Settles (fun _ => succeed v) c := of_ok rfl

theorem fail : Settles (fun _ => fail) c := of_ok rfl

theorem failAt (mark : Mark) : Settles (fun _ => failAt mark) c := of_ok rfl

theorem succeedAt (mark : Mark) (v : Value) : Settles (fun _ => succeedAt mark v) c := of_ok rfl

theorem marked {next : Budget → Mark → Action α} (h : Settles (fun b => next b c.mark) c) :
    Settles (fun b => Action.look Cursor.mark >>= next b) c :=
  bind (of_ok rfl) fun _ _ _ hlook => by
    obtain ⟨rfl, rfl⟩ := Action.returns_look.mp hlook
    exact h

theorem placed {next : Budget → Int → Action α} (h : Settles (fun b => next b c.position) c) :
    Settles (fun b => Action.look Cursor.position >>= next b) c :=
  bind (of_ok rfl) fun _ _ _ hlook => by
    obtain ⟨rfl, rfl⟩ := Action.returns_look.mp hlook
    exact h

/-- A callback and what is done with its result. -/
theorem lifted {result : Except Fault β} {next : Budget → β → Action α}
    (hresult : ∀ fault, result = .error fault → ¬ fault.CutsShort)
    (h : ∀ b, Settles (fun budget => next budget b) c) :
    Settles (fun budget => Action.lift result >>= next budget) c :=
  bind (lift hresult) fun _ b _ hlift => by
    obtain ⟨_, rfl⟩ := hlift
    exact h b

/-- A look at the next character, which is a fault in front of the text. -/
theorem peeked {next : Budget → Option Char → Action α}
    (h : ∀ d, Settles (fun budget => next budget d) c) :
    Settles (fun budget => Action.peek >>= next budget) c := by
  refine bind (of_run ?_) fun _ d _ hpeek => ?_
  · rw [Action.run_peek]
    split
    · rintro (hexit | hexit) <;> cases hexit
    · exact Outcome.not_exhausted_of_ok rfl
  · rw [returns_peek hpeek]
    exact h d

/-! ## Parts -/

section Parts

variable {p q : Budget → Matcher}

/-- A first part and what is done behind its success. -/
theorem first {next : Budget → Reply → Matcher} (hp : Settles p c)
    (hnext : ∀ b r c', (p b).Returns c r c' → r.success = true → Settles (fun b => next b r) c') :
    Settles (fun b => do
      let r ← p b
      if r.success then next b r else Matcher.fail) c :=
  bind hp fun b r c' hr => ite (hnext b r c' hr) fun _ => fail

/-- The last part of a sequence. -/
theorem last {value : Reply → Value} (hp : Settles p c) (mark : Mark) :
    Settles (fun b => do
      let s ← p b
      if s.success then Matcher.succeed (value s) else Matcher.failAt mark) c :=
  bind hp fun _ _ _ _ => ite (fun _ => succeed _) fun _ => failAt mark

/-- A last alternative, answered anew. -/
theorem answered (hp : Settles p c) :
    Settles (fun b => do
      let r ← p b
      if r.success then Matcher.succeed r.value else Matcher.fail) c :=
  first hp fun _ _ _ _ _ => succeed _

/-- Two parts in a row, whatever is made of their values. -/
theorem two {value : Reply → Reply → Value} (hp : Settles p c)
    (hq : ∀ b r c', (p b).Returns c r c' → r.success = true → Settles q c') :
    Settles (fun b => do
      let start ← Action.look Cursor.mark
      let r ← p b
      if r.success then do
        let s ← q b
        if s.success then Matcher.succeed (value r s) else Matcher.failAt start
      else Matcher.fail) c :=
  marked (first hp fun b r c' hr hsuccess => last (hq b r c' hr hsuccess) c.mark)

/-- Three parts in a row. -/
theorem three {t : Budget → Matcher} {value : Reply → Reply → Reply → Value} (hp : Settles p c)
    (hq : ∀ b r c', (p b).Returns c r c' → r.success = true → Settles q c' ∧
      ∀ b s c'', (q b).Returns c' s c'' → s.success = true → Settles t c'') :
    Settles (fun b => do
      let start ← Action.look Cursor.mark
      let r ← p b
      if r.success then do
        let s ← q b
        if s.success then do
          let u ← t b
          if u.success then Matcher.succeed (value r s u) else Matcher.failAt start
        else Matcher.failAt start
      else Matcher.fail) c :=
  marked (first hp fun b r c' hr hsuccess =>
    bind (hq b r c' hr hsuccess).1 fun b' s c'' hs => ite
      (fun hsuccess' => last ((hq b r c' hr hsuccess).2 b' s c'' hs hsuccess') c.mark)
      fun _ => failAt c.mark)

end Parts

/-! ## Combinators -/

section Combinators

variable {p q t : Budget → Matcher}

theorem replace (hp : Settles p c) (v : Value) : Settles (fun b => (p b).replace v) c :=
  first hp fun _ _ _ _ _ => succeed v

theorem map (hp : Settles p c) {f : Value → Except Fault Value} (hf : Harmless f) :
    Settles (fun b => (p b).map f) c :=
  first hp fun _ r _ _ _ => lifted (hf r.value) succeed

theorem withDefault (hp : Settles p c) (default : Value) :
    Settles (fun b => (p b).withDefault default) c :=
  bind hp fun _ _ _ _ => ite (fun _ => succeed _) fun _ => succeed default

theorem filter (hp : Settles p c) {accepts : Value → Except Fault Bool} (hf : Harmless accepts) :
    Settles (fun b => (p b).filter accepts) c :=
  marked (first hp fun _ r _ _ _ => lifted (hf r.value) fun _ =>
    ite (fun _ => succeed _) fun _ => failAt c.mark)

theorem atLeast (hp : Settles p c) (n : Int) : Settles (fun b => (p b).atLeast n) c :=
  marked (first hp fun _ _ _ _ _ => placed (ite (fun _ => failAt c.mark) fun _ => succeed _))

theorem butNot (hq : Settles q c) (hp : ∀ b r c', (q b).Returns c r c' → Settles p c') :
    Settles (fun b => (p b).butNot (q b)) c :=
  marked (bind hq fun b r c' hr => ite (fun _ => failAt c.mark) fun _ => answered (hp b r c' hr))

theorem orElse (hp : Settles p c) (hq : ∀ b r c', (p b).Returns c r c' → Settles q c') :
    Settles (fun b => (p b).orElse (q b)) c :=
  bind hp fun b r c' hr => ite (fun _ => succeed _) fun _ => answered (hq b r c' hr)

theorem branch (chars : List Char) (hp : Settles p c) (hq : Settles q c) :
    Settles (fun b => Matcher.branch chars (p b) (q b)) c := by
  refine peeked fun next => ?_
  cases next with
  | none => exact hq
  | some d => exact ite (fun _ => hp) fun _ => hq

theorem traced (hp : Settles p c) (name : String) : Settles (fun b => (p b).traced name) c := by
  refine bind (of_ok rfl) fun _ _ c' hrecord => ?_
  obtain ⟨_, rfl⟩ := hrecord
  exact bind hp fun _ _ _ _ => bind (of_ok rfl) fun _ _ _ _ => of_ok rfl

end Combinators

/-! ## Loops -/

section Loops

variable {p q : Budget → Matcher} {s : Cursor}

def collectRound (repetition : Repetition) (p : Matcher) (rest : Action (List Value)) :
    Action (List Value) := do
  let before ← Action.look Cursor.position
  let r ← p
  if r.success then do
    let after ← Action.look Cursor.position
    if after = before then Action.raise (.grammar (.notConsuming repetition))
    else do
      let values ← rest
      pure (r.value :: values)
  else pure []

/-- A round consumes before it goes on, or ends in its own fault. -/
theorem round_of_collect (repetition : Repetition) {rest : Budget → Action (List Value)}
    (hp : Settles p c)
    (hrest : ∀ b r c', (p b).Returns c r c' → c'.position ≠ c.position → Settles rest c') :
    Settles (fun b => collectRound repetition (p b) (rest b)) c := by
  refine placed (bind hp fun b r c' hr => ite (fun _ => placed ?_) fun _ => of_ok rfl)
  refine ite (fun _ => raise (Fault.not_cutsShort nofun nofun)) fun hmoved => ?_
  exact bind (hrest b r c' hr hmoved) fun _ _ _ _ => of_ok rfl

/-- With `k` rounds behind it. A round that moves leaves less of the text, so the induction is
on what is left of it. -/
theorem collect (repetition : Repetition) (In : Cursor → Prop) (hp : ∀ c, In c → Settles p c)
    (hnext : ∀ b c r c', In c → (p b).Returns c r c' → c'.position ≠ c.position →
      In c' ∧ c'.remaining < c.remaining) (k : Nat) (hc : In c) :
    Settles (fun b => Matcher.collect repetition (p b) (b.rounds - k)) c := by
  induction hn : c.remaining using Nat.strongRecOn generalizing c k with
  | ind n ih =>
    subst hn
    have hround : Settles (fun b => collectRound repetition (p b)
        (Matcher.collect repetition (p b) (b.rounds - (k + 1)))) c := by
      refine round_of_collect repetition (hp c hc) fun b r c' hr hmoved => ?_
      obtain ⟨hc', hless⟩ := hnext b c r c' hc hr hmoved
      exact ih _ hless (k + 1) hc' rfl
    refine hround.congr ⟨0, k + 1⟩ fun b hb => ?_
    have hpositive : k + 1 ≤ b.rounds := hb.2
    have hrounds : b.rounds - k = b.rounds - (k + 1) + 1 := by omega
    rw [hrounds]
    rfl

/-- Where all runs lead onward, a round that moves leaves less. -/
theorem next_of_reaches (hreach : ∀ b c r c', (p b).Returns c r c' → c.Reaches c') :
    ∀ b c r c', s.Reaches c → (p b).Returns c r c' → c'.position ≠ c.position →
      s.Reaches c' ∧ c'.remaining < c.remaining := by
  intro b c r c' hc hr hmoved
  have hc' := hreach b c r c' hr
  exact ⟨hc.trans hc', hc'.remaining_lt hmoved⟩

theorem many (In : Cursor → Prop) (hp : ∀ c, In c → Settles p c)
    (hnext : ∀ b c r c', In c → (p b).Returns c r c' → c'.position ≠ c.position →
      In c' ∧ c'.remaining < c.remaining) (hc : In c) :
    Settles (fun b => (p b).many b.rounds) c :=
  bind (collect .many In hp hnext 0 hc) fun _ _ _ _ => succeed _

theorem harmless_codeOf : Harmless Matcher.codeOf := by
  intro i fault h
  unfold Matcher.codeOf at h
  split at h
  · cases h
  · split at h
    all_goals
      cases h
      exact Fault.not_cutsShort nofun nofun

theorem harmless_joinCodes : Harmless Matcher.joinCodes := by
  intro values fault h
  induction values with
  | nil => cases h
  | cons v rest ih =>
    unfold Matcher.joinCodes at h
    split at h
    · cases h
      exact Fault.not_cutsShort nofun nofun
    · next i _ =>
      cases hcode : Matcher.codeOf i with
      | error fault' =>
        rw [hcode] at h
        cases h
        exact harmless_codeOf i fault hcode
      | ok p =>
        rw [hcode] at h
        cases hrest : Matcher.joinCodes rest with
        | error fault' =>
          rw [hrest] at h
          cases h
          exact ih hrest
        | ok ps =>
          rw [hrest] at h
          cases h

theorem manyChars (In : Cursor → Prop) (hp : ∀ c, In c → Settles p c)
    (hnext : ∀ b c r c', In c → (p b).Returns c r c' → c'.position ≠ c.position →
      In c' ∧ c'.remaining < c.remaining) (hc : In c) :
    Settles (fun b => (p b).manyChars b.rounds) c :=
  bind (collect .manyChars In hp hnext 0 hc) fun _ values _ _ =>
    lifted (harmless_joinCodes values) fun _ => succeed _

def chainRound (p separator : Matcher) (f : Value → Value → Value → Except Fault Value)
    (value : Value) (last : Mark) (rest : Value → Mark → Matcher) : Matcher := do
  let s ← separator
  if s.success then do
    let r ← p
    if r.success then do
      let value' ← Action.lift (f value s.value r.value)
      let here ← Action.look Cursor.mark
      rest value' here
    else Matcher.succeedAt last value
  else Matcher.succeedAt last value

theorem round_of_chain {f : Value → Value → Value → Except Fault Value}
    (hf : ∀ v w, Harmless (f v w)) (value : Value) (last : Mark)
    {rest : Budget → Value → Mark → Matcher} (hq : Settles q c)
    (hp : ∀ b s c', (q b).Returns c s c' → s.success = true → Settles p c' ∧
      ∀ b r c'', (p b).Returns c' r c'' → r.success = true →
        ∀ v m, Settles (fun b => rest b v m) c'') :
    Settles (fun b => chainRound (p b) (q b) f value last (rest b)) c := by
  refine bind hq fun b s c' hs => ite (fun hsuccess => ?_) fun _ => succeedAt last value
  obtain ⟨hoperand, hrest⟩ := hp b s c' hs hsuccess
  refine bind hoperand fun b' r c'' hr => ite (fun hsuccess' => ?_) fun _ => succeedAt last value
  exact lifted (hf value s.value r.value) fun v => marked (hrest b' r c'' hr hsuccess' v c''.mark)

/-- With `k` pairs behind it. A separator and an operand together leave less of the text, so
the induction is on what is left of it once more. -/
theorem chainFrom {f : Value → Value → Value → Except Fault Value} (hf : ∀ v w, Harmless (f v w))
    (In : Cursor → Prop) (hq : ∀ c, In c → Settles q c)
    (hp : ∀ b c r c', In c → (q b).Returns c r c' → r.success = true → Settles p c')
    (hnext : ∀ b b' c r c' r' c'', In c → (q b).Returns c r c' → r.success = true →
      (p b').Returns c' r' c'' → r'.success = true → In c'' ∧ c''.remaining < c.remaining)
    (k : Nat) (value : Value) (last : Mark) (hc : In c) :
    Settles (fun b => Matcher.chainFrom (p b) (q b) f (b.rounds - k) value last) c := by
  induction hn : c.remaining using Nat.strongRecOn generalizing c k value last with
  | ind n ih =>
    subst hn
    have hround : Settles (fun b => chainRound (p b) (q b) f value last
        (Matcher.chainFrom (p b) (q b) f (b.rounds - (k + 1)))) c := by
      refine round_of_chain hf value last (hq c hc) fun b s' c' hs hsuccess => ?_
      refine ⟨hp b c s' c' hc hs hsuccess, fun b' r c'' hr hsuccess' v m => ?_⟩
      obtain ⟨hc'', hless⟩ := hnext b b' c s' c' r c'' hc hs hsuccess hr hsuccess'
      exact ih _ hless (k + 1) v m hc'' rfl
    refine hround.congr ⟨0, k + 1⟩ fun b hb => ?_
    have hpositive : k + 1 ≤ b.rounds := hb.2
    have hrounds : b.rounds - k = b.rounds - (k + 1) + 1 := by omega
    rw [hrounds]
    rfl

end Loops
end Settles
end Parlance
