import Parlance.Proofs.Progress

/-! # Consumption

Which parsers consume something whenever they succeed. `Parser.Stays` says of a parser
that some run of it does not; `Parser.mayStay` looks at the parser alone, and at what is
assumed of its forwards, and is never wrong about a parser that it takes to consume, if
the definitions of the forwards bear the assumption out (`not_stays`). -/
namespace Parlance

/-- The parser may succeed without consuming anything. -/
def Parser.Stays (p : Parser) (fs : Forwards) : Prop :=
  ∃ budget c r, (p.run fs budget c).exit = .ok r ∧ r.success = true ∧
    (p.run fs budget c).cursor.position = c.position

/-! ## Successes that consume -/

namespace Matcher

open Parlance.Action

/-- A success from here ends behind `low`. -/
def Passes (low : Int) (p : Matcher) (c : Cursor) : Prop :=
  ∀ r c', p.Returns c r c' → r.success = true → low < c'.position

def Consumes (p : Matcher) : Prop := ∀ c, p.Passes c.position c

def Onward (p : Matcher) : Prop := ∀ c r c', p.Returns c r c' → c.position ≤ c'.position

section Passes

variable {p q t : Matcher} {low : Int} {c : Cursor}

theorem passes_succeed (v : Value) (h : low < c.position) : (succeed v).Passes low c := by
  intro r c' hreturns _
  obtain ⟨_, rfl⟩ := returns_succeed.mp hreturns
  exact h

theorem passes_fail : fail.Passes low c := by
  intro r c' hreturns hsuccess
  obtain ⟨rfl, _⟩ := returns_fail.mp hreturns
  cases hsuccess

theorem passes_failAt (m : Mark) : (failAt m).Passes low c := by
  intro r c' hreturns hsuccess
  obtain ⟨rfl, _⟩ := returns_failAt.mp hreturns
  cases hsuccess

theorem passes_bind {α : Type} {x : Action α} {f : α → Matcher}
    (h : ∀ a c₁, x.Returns c a c₁ → (f a).Passes low c₁) : Passes low (x >>= f) c := by
  intro r c' hreturns hsuccess
  obtain ⟨a, c₁, hx, hrest⟩ := returns_bind.mp hreturns
  exact h a c₁ hx r c' hrest hsuccess

theorem passes_ite {b : Prop} [Decidable b] (hp : b → p.Passes low c) (hq : ¬ b → q.Passes low c) :
    (if b then p else q).Passes low c := by
  split
  · exact hp ‹_›
  · exact hq ‹_›

theorem Passes.mono {low' : Int} (h : p.Passes low c) (hle : low' ≤ low) : p.Passes low' c :=
  fun r c' hreturns hsuccess => Int.lt_of_le_of_lt hle (h r c' hreturns hsuccess)

/-- What is behind `low` stays there. -/
theorem Onward.passes (h : p.Onward) (hlow : low < c.position) : p.Passes low c :=
  fun r c' hreturns _ => Int.lt_of_lt_of_le hlow (h c r c' hreturns)

/-- A first part, and what is done behind its success. -/
theorem passes_first {next : Reply → Matcher}
    (h : ∀ r c₁, p.Returns c r c₁ → r.success = true → (next r).Passes low c₁) :
    Passes low (do
      let r ← p
      if r.success then next r else fail) c :=
  passes_bind fun r c₁ hr => passes_ite (h r c₁ hr) fun _ => passes_fail

/-- The last part of a sequence. -/
theorem passes_last {value : Reply → Value} (h : p.Passes low c) (m : Mark) :
    Passes low (do
      let s ← p
      if s.success then succeed (value s) else failAt m) c :=
  passes_bind fun s c₁ hs => passes_ite
    (fun hsuccess => passes_succeed _ (h s c₁ hs hsuccess)) fun _ => passes_failAt m

theorem passes_marked {next : Mark → Matcher} (h : (next c.mark).Passes low c) :
    Passes low (Action.look Cursor.mark >>= next) c :=
  passes_bind fun start c₁ hlook => by
    obtain ⟨rfl, rfl⟩ := returns_look.mp hlook
    exact h

end Passes

section Consumes

variable {p q t : Matcher}

/-- A part behind the success of another passes its start, if one of the two consumes. -/
theorem passes_second {low : Int} {c c₁ : Cursor} {r : Reply} (hp : p.Onward) (hq : q.Onward)
    (h : p.Passes low c ∨ q.Consumes) (hlow : low ≤ c.position) (hr : p.Returns c r c₁)
    (hsuccess : r.success = true) : q.Passes low c₁ := by
  rcases h with hpass | hconsumes
  · exact hq.passes (hpass r c₁ hr hsuccess)
  · exact (hconsumes c₁).mono (Int.le_trans hlow (hp c r c₁ hr))

/-- Two parts in a row, whatever is made of their values. -/
theorem consumes_two {value : Reply → Reply → Value} (hp : p.Onward) (hq : q.Onward)
    (h : p.Consumes ∨ q.Consumes) :
    Consumes (do
      let start ← Action.look Cursor.mark
      let r ← p
      if r.success then do
        let s ← q
        if s.success then succeed (value r s) else failAt start
      else fail) := by
  intro c
  refine passes_marked (passes_first fun r c₁ hr hsuccess => passes_last ?_ c.mark)
  exact passes_second hp hq (h.imp_left (· c)) (Int.le_refl _) hr hsuccess

/-- Three parts in a row. -/
theorem consumes_three {value : Reply → Reply → Reply → Value} (hp : p.Onward) (hq : q.Onward)
    (ht : t.Onward) (h : p.Consumes ∨ q.Consumes ∨ t.Consumes) :
    Consumes (do
      let start ← Action.look Cursor.mark
      let r ← p
      if r.success then do
        let s ← q
        if s.success then do
          let u ← t
          if u.success then succeed (value r s u) else failAt start
        else failAt start
      else fail) := by
  intro c
  refine passes_marked (passes_first fun r c₁ hr hsuccess => ?_)
  refine passes_bind fun s c₂ hs => passes_ite (fun hsuccess' => passes_last ?_ c.mark) fun _ =>
    passes_failAt c.mark
  have hle : c.position ≤ c₁.position := hp c r c₁ hr
  rcases h with hp' | hq' | ht'
  · exact ht.passes (hq.passes (hp' c r c₁ hr hsuccess) s c₂ hs hsuccess')
  · exact ht.passes (Int.lt_of_le_of_lt hle (hq' c₁ s c₂ hs hsuccess'))
  · exact (ht' c₂).mono (Int.le_trans hle (hq c₁ s c₂ hs))

theorem consumes_replace (hp : p.Consumes) (v : Value) : (p.replace v).Consumes :=
  fun c => passes_first fun r c₁ hr hsuccess => passes_succeed v (hp c r c₁ hr hsuccess)

theorem consumes_map (hp : p.Consumes) (f : Value → Except Fault Value) : (p.map f).Consumes := by
  refine fun c => passes_first fun r c₁ hr hsuccess => passes_bind fun v c₂ hlift => ?_
  obtain ⟨_, rfl⟩ := hlift
  exact passes_succeed v (hp c r c₁ hr hsuccess)

theorem consumes_filter (hp : p.Consumes) (accepts : Value → Except Fault Bool) :
    (p.filter accepts).Consumes := by
  intro c
  refine passes_marked (passes_first fun r c₁ hr hsuccess => passes_bind fun accepted c₂ hlift => ?_)
  obtain ⟨_, rfl⟩ := hlift
  exact passes_ite (fun _ => passes_succeed _ (hp c r c₁ hr hsuccess)) fun _ => passes_failAt c.mark

/-- A positive number of characters, or a part that consumes. -/
theorem consumes_atLeast {n : Int} (h : 0 < n ∨ p.Consumes) : (p.atLeast n).Consumes := by
  intro c
  refine passes_marked (passes_first fun r c₁ hr hsuccess => passes_bind fun stop c₂ hlook => ?_)
  obtain ⟨rfl, rfl⟩ := returns_look.mp hlook
  refine passes_ite (fun _ => passes_failAt c.mark) fun hfar => passes_succeed _ ?_
  rcases h with hn | hp
  · have hstart : c.mark.position = c.position := rfl
    omega
  · exact hp c r c₁ hr hsuccess

theorem passes_answered {low : Int} {c : Cursor} (h : p.Passes low c) :
    Passes low (do
      let r ← p
      if r.success then succeed r.value else fail) c :=
  passes_first fun r c₁ hr hsuccess => passes_succeed _ (h r c₁ hr hsuccess)

theorem consumes_butNot (hp : p.Consumes) (hq : q.Onward) : (p.butNot q).Consumes := by
  intro c
  refine passes_marked (passes_bind fun e c₁ he => passes_ite (fun _ => passes_failAt c.mark) fun _ => ?_)
  exact passes_answered ((hp c₁).mono (hq c e c₁ he))

theorem consumes_orElse (hp : p.Consumes) (hp' : p.Onward) (hq : q.Consumes) :
    (p.orElse q).Consumes := by
  intro c
  refine passes_bind fun r c₁ hr => passes_ite
    (fun hsuccess => passes_succeed _ (hp c r c₁ hr hsuccess)) fun _ => ?_
  exact passes_answered ((hq c₁).mono (hp' c r c₁ hr))

theorem consumes_branch (chars : List Char) (hp : p.Consumes) (hq : q.Consumes) :
    (branch chars p q).Consumes := by
  refine fun c => passes_bind fun next c₁ hpeek => ?_
  rw [returns_peek hpeek]
  cases next with
  | none => exact hq c
  | some d => exact passes_ite (fun _ => hp c) fun _ => hq c

theorem consumes_traced (hp : p.Consumes) (name : String) : (p.traced name).Consumes := by
  intro c r c' h hsuccess
  simp only [traced, returns_bind, returns_record, returns_pure] at h
  obtain ⟨_, _, rfl, s, c₂, hs, _, _, rfl, rfl, rfl⟩ := h
  exact hp c s c₂ hs hsuccess

/-- A chain ends at the end of an operand, and the marks of those that follow the first lie
behind it. -/
theorem passes_chainFrom {low : Int} (hp : p.Onward) (hq : q.Onward)
    (f : Value → Value → Value → Except Fault Value) (rounds : Nat) :
    ∀ (value : Value) (last : Mark) (c : Cursor), low < last.position → low < c.position →
      (p.chainFrom q f rounds value last).Passes low c := by
  induction rounds with
  | zero => exact fun _ _ _ _ _ _ _ h => absurd h returns_raise
  | succ rounds ih =>
    intro value last c hlast hc
    have hback : ∀ c', (succeedAt last value).Passes low c' := by
      intro c' r c'' hreturns _
      obtain ⟨_, rfl⟩ := hreturns
      exact hlast
    refine passes_bind fun s c₁ hs => passes_ite (fun _ => ?_) fun _ => hback c₁
    refine passes_bind fun r c₂ hr => passes_ite (fun _ => ?_) fun _ => hback c₂
    have hlow : low < c₂.position :=
      Int.lt_of_lt_of_le hc (Int.le_trans (hq c s c₁ hs) (hp c₁ r c₂ hr))
    refine passes_bind fun value' c₃ hlift => ?_
    obtain ⟨_, rfl⟩ := hlift
    exact passes_marked (ih value' c₂.mark c₂ hlow hlow)

theorem consumes_chainl (hp : p.Consumes) (hp' : p.Onward) (hq : q.Onward)
    (f : Value → Value → Value → Except Fault Value) (rounds : Nat) :
    (p.chainl q f rounds).Consumes := by
  refine fun c => passes_first fun r c₁ hr hsuccess => passes_marked ?_
  have hlow := hp c r c₁ hr hsuccess
  exact passes_chainFrom hp' hq f rounds r.value c₁.mark c₁ hlow hlow

end Consumes
end Matcher

/-! ## Parsers that consume -/

namespace Parser

open Parlance.Matcher

/-- May the parser succeed without consuming anything, if its forwards may as `stay`
says? -/
def mayStay (stay : Nat → Bool) : Parser → Bool
  | primitive leaf => leaf.mayStay
  | forward id => stay id
  | native _ | withDefault _ _ | many _ | manyChars _ => true
  | replace p _ | map p _ | filter p _ | butNot p _ | chainl p _ _ | traced p _ => p.mayStay stay
  | atLeast p n => n ≤ 0 && p.mayStay stay
  | seqLeft p q | seqRight p q | pair p q => p.mayStay stay && q.mayStay stay
  | enclosed p q t => q.mayStay stay && (p.mayStay stay && t.mayStay stay)
  | triple p q t => p.mayStay stay && (q.mayStay stay && t.mayStay stay)
  | orElse p q | branch _ p q => p.mayStay stay || q.mayStay stay

variable {stay : Nat → Bool} {Id : Nat → Prop} {fs : Forwards}

theorem consumes_leaf {leaf : Primitive} (h : leaf.mayStay = false) : leaf.matcher.Consumes := by
  intro c r c' hreturns hsuccess
  have hends := leaf.ends c
  have hlower := hends.reach.lower
  have hmoved := hends.moved r hreturns.1 hsuccess h
  rw [hreturns.2] at hlower hmoved
  omega

theorem onward_matcher {rounds : Nat} {call : Nat → Matcher}
    (hcall : ∀ s id, Id id → (onward s).Match (call id) (call id)) {p : Parser}
    (hp : p.MadeOf (fun _ => True) (fun _ => True) Id) : (p.matcher rounds call).Onward := by
  intro c r c' hreturns
  have hrun := (onward c).matcher (hcall c) (Agreement.Rounds.refl rounds) p hp
  have hreach := (hrun c (Cursor.reaches_self c)).1
  rw [hreturns.2] at hreach
  exact hreach.lower

/-- A parser that may not stay consumes, if the forwards that may not stay do. -/
theorem consumes_matcher {rounds : Nat} {call : Nat → Matcher}
    (hcall : ∀ s id, Id id → (onward s).Match (call id) (call id))
    (hstay : ∀ id, Id id → stay id = false → (call id).Consumes) :
    ∀ p : Parser, p.MadeOf (fun _ => True) (fun _ => True) Id → p.mayStay stay = false →
      (p.matcher rounds call).Consumes
  | primitive _, _, h => consumes_leaf h
  | forward id, hp, h => hstay id hp h
  | replace p v, hp, h => consumes_replace (consumes_matcher hcall hstay p hp h) v
  | map p f, hp, h => consumes_map (consumes_matcher hcall hstay p hp h) f
  | filter p accepts, hp, h => consumes_filter (consumes_matcher hcall hstay p hp h) accepts
  | traced p name, hp, h => consumes_traced (consumes_matcher hcall hstay p hp.2 h) name
  | atLeast p n, hp, h => by
    refine consumes_atLeast ?_
    rcases Bool.and_eq_false_iff.mp h with hn | hbody
    · exact .inl (by simpa using hn)
    · exact .inr (consumes_matcher hcall hstay p hp hbody)
  | butNot p q, hp, h =>
    consumes_butNot (consumes_matcher hcall hstay p hp.1 h) (onward_matcher hcall hp.2)
  | chainl p q f, hp, h =>
    consumes_chainl (consumes_matcher hcall hstay p hp.1 h) (onward_matcher hcall hp.1)
      (onward_matcher hcall hp.2) f rounds
  | seqLeft p q, hp, h | seqRight p q, hp, h | pair p q, hp, h =>
    consumes_two (onward_matcher hcall hp.1) (onward_matcher hcall hp.2)
      ((Bool.and_eq_false_iff.mp h).imp (consumes_matcher hcall hstay p hp.1)
        (consumes_matcher hcall hstay q hp.2))
  | triple p q t, hp, h =>
    consumes_three (onward_matcher hcall hp.1) (onward_matcher hcall hp.2.1)
      (onward_matcher hcall hp.2.2)
      ((Bool.and_eq_false_iff.mp h).imp (consumes_matcher hcall hstay p hp.1) fun h =>
        (Bool.and_eq_false_iff.mp h).imp (consumes_matcher hcall hstay q hp.2.1)
          (consumes_matcher hcall hstay t hp.2.2))
  | enclosed p q t, hp, h =>
    consumes_three (onward_matcher hcall hp.2.1) (onward_matcher hcall hp.1)
      (onward_matcher hcall hp.2.2)
      ((Bool.and_eq_false_iff.mp h).imp (consumes_matcher hcall hstay q hp.2.1) fun h =>
        (Bool.and_eq_false_iff.mp h).imp (consumes_matcher hcall hstay p hp.1)
          (consumes_matcher hcall hstay t hp.2.2))
  | orElse p q, hp, h => by
    obtain ⟨hp', hq'⟩ := Bool.or_eq_false_iff.mp h
    exact consumes_orElse (consumes_matcher hcall hstay p hp.1 hp') (onward_matcher hcall hp.1)
      (consumes_matcher hcall hstay q hp.2 hq')
  | branch chars p q, hp, h => by
    obtain ⟨hp', hq'⟩ := Bool.or_eq_false_iff.mp h
    exact consumes_branch chars (consumes_matcher hcall hstay p hp.1 hp')
      (consumes_matcher hcall hstay q hp.2 hq')

/-- The forwards that may not stay are defined by parsers that may not. -/
def StayBound (fs : Forwards) (stay : Nat → Bool) (Id : Nat → Prop) : Prop :=
  ∀ id body, Id id → fs.target? id = some body → stay id = false → body.mayStay stay = false

theorem consumes_call (hfs : fs.Closed (fun _ => True) (fun _ => True) Id)
    (hbound : StayBound fs stay Id) (rounds depth : Nat) :
    ∀ id, Id id → stay id = false → (fs.call rounds depth id).Consumes := by
  intro id hid hstay
  refine Forwards.call_induction Matcher.Consumes (fun id => Id id ∧ stay id = false)
    (fun _ _ _ _ hreturns => absurd hreturns Action.returns_raise) (fun depth ih id body hid h => ?_)
    depth id ⟨hid, hstay⟩
  exact consumes_matcher (fun s => (onward s).call hfs rounds depth)
    (fun id hid hstay => ih id ⟨hid, hstay⟩) body (hfs id body hid.1 h) (hbound id body hid.1 h hid.2)

/-- What the parser alone says is so in every run. -/
theorem not_stays (hfs : fs.Closed (fun _ => True) (fun _ => True) Id)
    (hbound : StayBound fs stay Id) {p : Parser}
    (hp : p.MadeOf (fun _ => True) (fun _ => True) Id) (h : p.mayStay stay = false) :
    ¬ p.Stays fs := by
  rintro ⟨budget, c, r, hexit, hsuccess, hposition⟩
  have hconsumes : (p.matcher budget.rounds (fs.call budget.rounds budget.depth)).Consumes :=
    consumes_matcher (fun s => (onward s).call hfs budget.rounds budget.depth)
      (consumes_call hfs hbound budget.rounds budget.depth) p hp h
  have hpast := hconsumes c r _ ⟨hexit, rfl⟩ hsuccess
  exact absurd hposition (Int.ne_of_gt hpast)

end Parser
end Parlance
