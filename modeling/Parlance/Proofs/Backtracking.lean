import Parlance.Grammar
import Parlance.Proofs.Reading

/-! # Backtracking

A parser is safe if a run of it that ends in failure leaves the cursor where the run
began, place and level alike. This is the contract that alternatives rest on. Every
primitive keeps it. A combinator that takes a mark keeps it as soon as the part that
it runs first does, whatever the other parts do, because it returns to the mark when
a later part fails; one that never fails keeps it always; and one that passes on a
failure of several parts needs all of them. Parsers without hand-written parts are
safe, and recursion through forwards is no obstacle: a run has opened only so many
of them, and the induction is on their number. -/
namespace Parlance

/-! ## Runs that return -/

/-- The run ends without a fault, with a result and a cursor. -/
def Action.Returns {α : Type} (m : Action α) (c : Cursor) (a : α) (c' : Cursor) : Prop :=
  (m.run c).exit = .ok a ∧ (m.run c).cursor = c'

namespace Action

variable {α β : Type} {c c' : Cursor} {a : α} {b : β}

@[simp]
theorem returns_pure {a' : α} : (pure a' : Action α).Returns c a c' ↔ a' = a ∧ c = c' := by
  simp [Returns]

@[simp]
theorem returns_bind {m : Action α} {f : α → Action β} :
    (m >>= f).Returns c b c' ↔ ∃ a c₁, m.Returns c a c₁ ∧ (f a).Returns c₁ b c' := by
  rcases h : m.run c with ⟨fault | a, c₁, trace⟩
  · simp [Returns, h]
  · simp only [Returns, run_bind, h, Outcome.andThen_ok, Outcome.after, Except.ok.injEq]
    constructor
    · exact fun hrest => ⟨a, c₁, ⟨rfl, rfl⟩, hrest⟩
    · rintro ⟨_, _, ⟨rfl, rfl⟩, hrest⟩
      exact hrest

@[simp]
theorem returns_raise {fault : Fault} : ¬ (raise fault : Action α).Returns c a c' := by
  simp [Returns]

@[simp]
theorem returns_look {view : Cursor → α} : (look view).Returns c a c' ↔ view c = a ∧ c = c' := by
  simp [Returns]

/-- A run is determined by where it starts. -/
theorem Returns.unique {m : Action α} {a' : α} {d : Cursor} (h : m.Returns c a c')
    (h' : m.Returns c a' d) : a = a' ∧ c' = d :=
  ⟨Except.ok.inj (h.1.symm.trans h'.1), h.2.symm.trans h'.2⟩

theorem Returns.exists_run {m : Action α} (h : m.Returns c a c') :
    ∃ trace, m.run c = ⟨.ok a, c', trace⟩ :=
  ⟨(m.run c).trace, Outcome.ext h.1 h.2 rfl⟩

theorem exists_run_of_fault {m : Action α} {fault : Fault} (h : (m.run c).exit = .error fault) :
    ∃ c' trace, m.run c = ⟨.error fault, c', trace⟩ :=
  ⟨(m.run c).cursor, (m.run c).trace, Outcome.ext h rfl rfl⟩

/-- What would be done behind a fault does not matter. -/
theorem exit_bind_of_fault {m : Action α} {f : α → Action β} {fault : Fault}
    (h : (m.run c).exit = .error fault) : ((m >>= f).run c).exit = .error fault := by
  obtain ⟨c', trace, hrun⟩ := exists_run_of_fault h
  rw [run_bind, hrun]
  rfl

end Action

namespace Matcher

open Parlance.Action

variable {c c' : Cursor} {r : Reply} {v : Value} {m : Mark}

@[simp]
theorem returns_succeed : (succeed v).Returns c r c' ↔ ⟨true, v, c.position⟩ = r ∧ c = c' := by
  simp [Returns]

@[simp]
theorem returns_fail : fail.Returns c r c' ↔ ⟨false, .null, c.position⟩ = r ∧ c = c' := by
  simp [Returns]

@[simp]
theorem returns_failAt :
    (failAt m).Returns c r c' ↔ ⟨false, .null, m.position⟩ = r ∧ c.rewind m = c' := by
  simp [Returns]

/-! ## Where a run can fail -/

/-- Every run that ends in failure leaves place and level of the cursor. -/
def Safe (p : Matcher) : Prop :=
  ∀ c r c', p.Returns c r c' → r.success = false → c'.mark = c.mark

/-- Every run that ends in failure ends at this mark, wherever it began. -/
def FailsAt (p : Matcher) (m : Mark) : Prop :=
  ∀ c r c', p.Returns c r c' → r.success = false → c'.mark = m

def NeverFails (p : Matcher) : Prop := ∀ c r c', p.Returns c r c' → r.success = true

theorem NeverFails.failsAt {p : Matcher} (h : p.NeverFails) (m : Mark) : p.FailsAt m := by
  intro c r c' hreturns hfailure
  rw [h c r c' hreturns] at hfailure
  cases hfailure

theorem NeverFails.safe {p : Matcher} (h : p.NeverFails) : p.Safe :=
  fun c r c' hreturns hfailure => h.failsAt c.mark c r c' hreturns hfailure

theorem neverFails_succeed (v : Value) : (succeed v).NeverFails := by
  intro c r c' h
  obtain ⟨rfl, _⟩ := returns_succeed.mp h
  rfl

theorem failsAt_failAt (m : Mark) : (failAt m).FailsAt m := by
  intro c r c' h _
  obtain ⟨_, rfl⟩ := returns_failAt.mp h
  rfl

theorem neverFails_raise (fault : Fault) : NeverFails (Action.raise fault) :=
  fun _ _ _ h => absurd h returns_raise

theorem neverFails_bind {α : Type} {x : Action α} {f : α → Matcher}
    (h : ∀ a, (f a).NeverFails) : NeverFails (x >>= f) := by
  intro c r c' hreturns
  obtain ⟨a, c₁, _, hrest⟩ := returns_bind.mp hreturns
  exact h a c₁ r c' hrest

theorem failsAt_bind {α : Type} {x : Action α} {f : α → Matcher} {m : Mark}
    (h : ∀ a, (f a).FailsAt m) : FailsAt (x >>= f) m := by
  intro c r c' hreturns
  obtain ⟨a, c₁, _, hrest⟩ := returns_bind.mp hreturns
  exact h a c₁ r c' hrest

theorem failsAt_ite {b : Prop} [Decidable b] {p q : Matcher} {m : Mark} (hp : p.FailsAt m)
    (hq : q.FailsAt m) : (if b then p else q).FailsAt m := by
  split
  · exact hp
  · exact hq

/-- A matcher that goes on behind a success of `p` and returns to its mark if that
fails is as safe as `p` is. -/
theorem safe_marked_iff {p : Matcher} {next : Mark → Reply → Matcher}
    (hnext : ∀ m r, (next m r).FailsAt m) :
    Safe (do
      let start ← Action.look Cursor.mark
      let r ← p
      if r.success then next start r else fail) ↔ p.Safe := by
  constructor
  · intro h c r c' hreturns hfailure
    refine h c ⟨false, .null, c'.position⟩ c' ?_ rfl
    simp only [returns_bind, returns_look]
    exact ⟨c.mark, c, ⟨rfl, rfl⟩, r, c', hreturns, by simp [hfailure]⟩
  · intro hp c r c' hreturns hfailure
    obtain ⟨start, c₁, hlook, hreturns⟩ := returns_bind.mp hreturns
    obtain ⟨rfl, rfl⟩ := returns_look.mp hlook
    obtain ⟨s, c₂, hs, hrest⟩ := returns_bind.mp hreturns
    by_cases hsuccess : s.success = true
    · rw [if_pos hsuccess] at hrest
      exact hnext c.mark s c₂ r c' hrest hfailure
    · rw [if_neg hsuccess] at hrest
      obtain ⟨_, rfl⟩ := returns_fail.mp hrest
      exact hp c s c₂ hs (by simpa using hsuccess)

/-- A matcher that takes no mark and cannot fail behind a success of `p`. -/
theorem safe_unmarked_iff {p : Matcher} {next : Reply → Matcher}
    (hnext : ∀ r, (next r).NeverFails) :
    Safe (do
      let r ← p
      if r.success then next r else fail) ↔ p.Safe := by
  constructor
  · intro h c r c' hreturns hfailure
    refine h c ⟨false, .null, c'.position⟩ c' ?_ rfl
    exact returns_bind.mpr ⟨r, c', hreturns, by simp [hfailure]⟩
  · intro hp c r c' hreturns hfailure
    obtain ⟨s, c₁, hs, hrest⟩ := returns_bind.mp hreturns
    by_cases hsuccess : s.success = true
    · rw [if_pos hsuccess] at hrest
      rw [hnext s c₁ r c' hrest] at hfailure
      cases hfailure
    · rw [if_neg hsuccess] at hrest
      obtain ⟨_, rfl⟩ := returns_fail.mp hrest
      exact hp c s c₁ hs (by simpa using hsuccess)

/-! ## Combinators -/

section Combinators

variable {p q t : Matcher}

theorem safe_replace_iff (p : Matcher) (v : Value) : (p.replace v).Safe ↔ p.Safe :=
  safe_unmarked_iff fun _ => neverFails_succeed v

theorem safe_map_iff (p : Matcher) (f : Value → Except Fault Value) :
    (p.map f).Safe ↔ p.Safe :=
  safe_unmarked_iff fun _ => neverFails_bind neverFails_succeed

theorem safe_withDefault (p : Matcher) (default : Value) : (p.withDefault default).Safe := by
  refine NeverFails.safe (neverFails_bind fun r => ?_)
  split
  · exact neverFails_succeed _
  · exact neverFails_succeed _

theorem safe_filter_iff (p : Matcher) (accepts : Value → Except Fault Bool) :
    (p.filter accepts).Safe ↔ p.Safe :=
  safe_marked_iff fun m r => failsAt_bind fun _ =>
    failsAt_ite ((neverFails_succeed r.value).failsAt m) (failsAt_failAt m)

theorem safe_atLeast_iff (p : Matcher) (n : Int) : (p.atLeast n).Safe ↔ p.Safe :=
  safe_marked_iff fun m r => failsAt_bind fun _ =>
    failsAt_ite (failsAt_failAt m) ((neverFails_succeed r.value).failsAt m)

/-- The last part of a sequence: a success, or back to the mark. -/
theorem failsAt_last (q : Matcher) (m : Mark) (value : Reply → Value) :
    FailsAt (do
      let s ← q
      if s.success then succeed (value s) else failAt m) m :=
  failsAt_bind fun s => failsAt_ite ((neverFails_succeed (value s)).failsAt m) (failsAt_failAt m)

theorem safe_seqLeft_iff (p q : Matcher) : (p.seqLeft q).Safe ↔ p.Safe :=
  safe_marked_iff fun m r => failsAt_last q m fun _ => r.value

theorem safe_seqRight_iff (p q : Matcher) : (p.seqRight q).Safe ↔ p.Safe :=
  safe_marked_iff fun m _ => failsAt_last q m Reply.value

theorem safe_pair_iff (p q : Matcher) : (p.pair q).Safe ↔ p.Safe :=
  safe_marked_iff fun m r => failsAt_last q m fun s => .tuple [r.value, s.value]

theorem safe_enclosed_iff (p opening closing : Matcher) :
    (p.enclosed opening closing).Safe ↔ opening.Safe :=
  safe_marked_iff fun m _ => failsAt_bind fun r =>
    failsAt_ite (failsAt_last closing m fun _ => r.value) (failsAt_failAt m)

theorem safe_triple_iff (p q t : Matcher) : (p.triple q t).Safe ↔ p.Safe :=
  safe_marked_iff fun m r => failsAt_bind fun s =>
    failsAt_ite (failsAt_last t m fun u => .tuple [r.value, s.value, u.value]) (failsAt_failAt m)

theorem safe_butNot (hp : p.Safe) (hq : q.Safe) : (p.butNot q).Safe := by
  intro c r c' hreturns hfailure
  obtain ⟨start, c₁, hlook, hreturns⟩ := returns_bind.mp hreturns
  obtain ⟨rfl, rfl⟩ := returns_look.mp hlook
  obtain ⟨s, c₂, hs, hrest⟩ := returns_bind.mp hreturns
  by_cases hsuccess : s.success = true
  · rw [if_pos hsuccess] at hrest
    exact failsAt_failAt c.mark c₂ r c' hrest hfailure
  · rw [if_neg hsuccess] at hrest
    have hbody := (safe_unmarked_iff fun s => neverFails_succeed s.value).mpr hp c₂ r c' hrest
    rw [hbody hfailure]
    exact hq c s c₂ hs (by simpa using hsuccess)

theorem safe_orElse (hp : p.Safe) (hq : q.Safe) : (p.orElse q).Safe := by
  intro c r c' hreturns hfailure
  obtain ⟨s, c₁, hs, hrest⟩ := returns_bind.mp hreturns
  by_cases hsuccess : s.success = true
  · rw [if_pos hsuccess] at hrest
    rw [neverFails_succeed s.value c₁ r c' hrest] at hfailure
    cases hfailure
  · rw [if_neg hsuccess] at hrest
    have hother := (safe_unmarked_iff fun s => neverFails_succeed s.value).mpr hq c₁ r c' hrest
    rw [hother hfailure]
    exact hp c s c₁ hs (by simpa using hsuccess)

theorem safe_fail : fail.Safe := by
  intro c r c' h _
  obtain ⟨_, rfl⟩ := returns_fail.mp h
  rfl

/-- An action that leaves the cursor may stand in front. -/
theorem safe_bind {α : Type} {x : Action α} {f : α → Matcher}
    (hx : ∀ c a c', x.Returns c a c' → c' = c) (h : ∀ a, (f a).Safe) : Safe (x >>= f) := by
  intro c r c' hreturns hfailure
  obtain ⟨a, c₁, hfirst, hrest⟩ := returns_bind.mp hreturns
  rw [hx c a c₁ hfirst] at hrest
  exact h a c r c' hrest hfailure

theorem returns_peek {o : Option Char} : peek.Returns c o c' → c' = c := by
  intro h
  rw [Returns, run_peek] at h
  split at h
  · exact h.2.symm
  · exact h.2.symm

theorem safe_branch (chars : List Char) (hp : p.Safe) (hq : q.Safe) : (branch chars p q).Safe := by
  refine safe_bind (fun _ _ _ => returns_peek) fun o => ?_
  cases o with
  | none => exact hq
  | some d =>
    by_cases hd : d ∈ chars
    · simpa only [if_pos hd] using hp
    · simpa only [if_neg hd] using hq

theorem safe_many (p : Matcher) (rounds : Nat) : (p.many rounds).Safe :=
  NeverFails.safe (neverFails_bind fun values => neverFails_succeed (.list values))

theorem safe_manyChars (p : Matcher) (rounds : Nat) : (p.manyChars rounds).Safe :=
  NeverFails.safe (neverFails_bind fun _ => neverFails_bind fun codes =>
    neverFails_succeed (.text codes))

/-- The loop of a chain ends in success or with a fault. -/
theorem neverFails_chainFrom (p separator : Matcher)
    (f : Value → Value → Value → Except Fault Value) (rounds : Nat) :
    ∀ value last, (p.chainFrom separator f rounds value last).NeverFails := by
  induction rounds with
  | zero => exact fun _ _ => neverFails_raise .endless
  | succ rounds ih =>
    intro value last
    have hstop : (succeedAt last value).NeverFails := neverFails_bind fun _ => neverFails_succeed _
    refine neverFails_bind fun s => ?_
    split
    · refine neverFails_bind fun r => ?_
      split
      · exact neverFails_bind fun value' => neverFails_bind fun here => ih value' here
      · exact hstop
    · exact hstop

theorem safe_chainl_iff (p separator : Matcher)
    (f : Value → Value → Value → Except Fault Value) (rounds : Nat) :
    (p.chainl separator f rounds).Safe ↔ p.Safe :=
  safe_unmarked_iff fun r => neverFails_bind fun here =>
    neverFails_chainFrom p separator f rounds r.value here

theorem returns_record {name : String} {phase : Phase} {u : Unit} :
    (record name phase).Returns c u c' ↔ c = c' := by
  simp [Returns]

theorem safe_traced_iff (p : Matcher) (name : String) : (p.traced name).Safe ↔ p.Safe := by
  have hreturns : ∀ c r c', (p.traced name).Returns c r c' ↔ p.Returns c r c' := by
    intro c r c'
    simp only [traced, returns_bind, returns_record, returns_pure]
    constructor
    · rintro ⟨_, _, rfl, s, c₂, hp, _, _, rfl, rfl, rfl⟩
      exact hp
    · exact fun hp => ⟨(), c, rfl, r, c', hp, (), c', rfl, rfl, rfl⟩
  simp only [Safe, hreturns]

end Combinators

/-! ## Primitives -/

theorem neverFails_consume (v : Value) : (consume v).NeverFails :=
  neverFails_bind fun _ => neverFails_succeed v

/-- A matcher that remembers its start and fails only there. -/
theorem safe_of_mark {next : Mark → Matcher} (h : ∀ m, (next m).FailsAt m) :
    Safe (Action.look Cursor.mark >>= next) := by
  intro c r c' hreturns hfailure
  obtain ⟨start, c₁, hlook, hrest⟩ := returns_bind.mp hreturns
  obtain ⟨rfl, rfl⟩ := returns_look.mp hlook
  exact h c.mark c r c' hrest hfailure

theorem returns_look_cursor {α : Type} {view : Cursor → α} :
    ∀ c a c', (Action.look view).Returns c a c' → c' = c := by
  intro c a c' h
  exact (returns_look.mp h).2.symm

end Matcher

/-- Each primitive looks before it consumes, or returns to its start. -/
theorem Primitive.safe_matcher (leaf : Primitive) : leaf.matcher.Safe := by
  have hpeek : ∀ c o c', Action.peek.Returns c o c' → c' = c := fun _ _ _ => Matcher.returns_peek
  cases leaf with
  | success v => exact (Matcher.neverFails_succeed v).safe
  | failure => exact Matcher.safe_fail
  | anyChar =>
    refine Matcher.safe_bind hpeek fun o => ?_
    cases o with
    | none => exact Matcher.safe_fail
    | some d => exact (Matcher.neverFails_consume _).safe
  | oneOf chars table =>
    refine Matcher.safe_bind hpeek fun o => ?_
    split
    · exact Matcher.safe_fail
    · exact (Matcher.neverFails_bind fun _ => Matcher.neverFails_bind fun v =>
        Matcher.neverFails_succeed v).safe
  | oneOfMapped chars entries =>
    refine Matcher.safe_bind hpeek fun o => ?_
    split
    · exact Matcher.safe_fail
    · exact (Matcher.neverFails_consume _).safe
  | satisfy check =>
    refine Matcher.safe_bind hpeek fun o => ?_
    cases o with
    | none => exact Matcher.safe_fail
    | some d =>
      refine Matcher.safe_bind (fun _ _ _ h => h.2.symm) fun passes => ?_
      split
      · exact (Matcher.neverFails_consume _).safe
      · exact Matcher.safe_fail
  | takeWhile check =>
    exact (Matcher.neverFails_bind fun _ => Matcher.neverFails_succeed _).safe
  | skipWhile check =>
    exact (Matcher.neverFails_bind fun _ => Matcher.neverFails_succeed _).safe
  | literal chars =>
    exact Matcher.safe_of_mark fun m => Matcher.failsAt_bind fun _ =>
      Matcher.failsAt_ite ((Matcher.neverFails_succeed _).failsAt m) (Matcher.failsAt_failAt m)
  | endOfText =>
    refine Matcher.safe_bind Matcher.returns_look_cursor fun atEnd => ?_
    split
    · exact (Matcher.neverFails_succeed _).safe
    · exact Matcher.safe_fail
  | endOfLine =>
    refine Matcher.safe_bind hpeek fun o => ?_
    cases o with
    | none => exact (Matcher.neverFails_succeed _).safe
    | some d =>
      dsimp only
      split
      · exact (Matcher.neverFails_consume _).safe
      · split
        · -- behind a carriage return only success is left
          refine (Matcher.neverFails_bind fun _ => Matcher.neverFails_bind fun o => ?_).safe
          cases o with
          | none => exact Matcher.neverFails_succeed _
          | some d' =>
            dsimp only
            split
            · exact Matcher.neverFails_consume _
            · exact Matcher.neverFails_succeed _
        · exact Matcher.safe_fail
  | indent => exact (Matcher.neverFails_bind fun _ => Matcher.neverFails_succeed _).safe
  | dedent =>
    refine Matcher.safe_bind Matcher.returns_look_cursor fun lower => ?_
    cases lower with
    | none => exact Matcher.safe_fail
    | some c => exact (Matcher.neverFails_bind fun _ => Matcher.neverFails_succeed _).safe
  | leadingTabs =>
    refine Matcher.safe_of_mark fun m => Matcher.failsAt_ite
      ((Matcher.neverFails_succeed _).failsAt m) (Matcher.failsAt_bind fun _ => ?_)
    exact Matcher.failsAt_ite ((Matcher.neverFails_succeed _).failsAt m) (Matcher.failsAt_failAt m)

/-! ## Parsers -/

namespace Parser

/-- Under every budget and from every cursor, a run that ends in failure leaves the
position and the level of indentation. -/
def Safe (fs : Forwards) (p : Parser) : Prop :=
  ∀ (budget : Budget) (c : Cursor) (reply : Reply), (p.run fs budget c).exit = .ok reply →
    reply.success = false →
    (p.run fs budget c).cursor.position = c.position ∧ (p.run fs budget c).cursor.indent = c.indent

/-- Is the parser put together without hand-written matchers? -/
def isComposed : Parser → Bool
  | primitive _ | forward _ => true
  | native _ => false
  | replace p _ | map p _ | withDefault p _ | filter p _ | atLeast p _ | many p | manyChars p
  | traced p _ => p.isComposed
  | butNot p q | seqLeft p q | seqRight p q | pair p q | orElse p q | branch _ p q
  | chainl p q _ => p.isComposed && q.isComposed
  | enclosed p q t | triple p q t => p.isComposed && q.isComposed && t.isComposed

variable {fs : Forwards} {p q t : Parser}

theorem safe_iff : p.Safe fs ↔
    ∀ rounds depth, (p.matcher rounds (fs.call rounds depth)).Safe := by
  constructor
  · rintro h rounds depth c r _ ⟨hexit, rfl⟩ hfailure
    obtain ⟨hposition, hindent⟩ := h ⟨depth, rounds⟩ c r hexit hfailure
    exact Mark.mk.injEq .. ▸ ⟨hposition, hindent⟩
  · intro h budget c r hexit hfailure
    have hmark := h budget.rounds budget.depth c r _ ⟨hexit, rfl⟩ hfailure
    exact ⟨congrArg Mark.position hmark, congrArg Mark.indent hmark⟩

/-- A parser is as safe as another if its matchers are. -/
theorem safe_congr (h : ∀ rounds call, (p.matcher rounds call).Safe ↔ (q.matcher rounds call).Safe) :
    p.Safe fs ↔ q.Safe fs := by
  simp only [safe_iff, h]

theorem safe_firstOf {alternatives : List Parser} (h : ∀ p ∈ alternatives, p.Safe fs) :
    (firstOf alternatives).Safe fs := by
  induction alternatives with
  | nil => exact safe_iff.mpr fun _ _ => Matcher.safe_fail
  | cons p rest ih =>
    have hp := safe_iff.mp (h p (by simp))
    have hrest := safe_iff.mp (ih fun q hq => h q (by simp [hq]))
    exact safe_iff.mpr fun rounds depth => Matcher.safe_orElse (hp rounds depth) (hrest rounds depth)

theorem safe_branch (chars : List Char) (hp : p.Safe fs) (hq : q.Safe fs) :
    (branch chars p q).Safe fs :=
  safe_iff.mpr fun rounds depth =>
    Matcher.safe_branch chars (safe_iff.mp hp rounds depth) (safe_iff.mp hq rounds depth)

theorem safe_failure : failure.Safe fs := safe_iff.mpr fun _ _ => Matcher.safe_fail

theorem safe_dispatch {default : Option Parser} {cases : List (String × Parser)}
    (hdefault : ∀ p ∈ default, p.Safe fs) (hcases : ∀ case ∈ cases, case.2.Safe fs) :
    (dispatch default cases).Safe fs := by
  have hstart : (peeked (default.getD failure)).Safe fs := by
    refine safe_branch [] safe_failure ?_
    cases default with
    | none => exact safe_failure
    | some p => exact hdefault p rfl
  -- each further case wraps what has been built so far
  have hfold : ∀ (cases : List (String × Parser)) (rest : Parser), rest.Safe fs →
      (∀ case ∈ cases, case.2.Safe fs) →
      (cases.foldl (fun rest case => branch case.1.toList case.2 rest) rest).Safe fs := by
    intro cases
    induction cases with
    | nil => exact fun rest hrest _ => hrest
    | cons case cases ih =>
      intro rest hrest hall
      exact ih _ (safe_branch _ (hall case (by simp)) hrest) fun other hother =>
        hall other (by simp [hother])
  exact hfold cases _ hstart hcases

theorem safe_forward_iff {id : Nat} {body : Parser} (h : fs.target? id = some body) :
    (forward id).Safe fs ↔ body.Safe fs := by
  rw [safe_iff, safe_iff]
  constructor
  · intro hforward rounds depth
    have hcall : (fs.call rounds (depth + 1) id).Safe := hforward rounds (depth + 1)
    rwa [Forwards.call_succ h] at hcall
  · intro hbody rounds depth
    change (fs.call rounds depth id).Safe
    cases depth with
    | zero => rw [Forwards.call_zero h]; exact (Matcher.neverFails_raise _).safe
    | succ depth => rw [Forwards.call_succ h]; exact hbody rounds depth

/-- A matcher without hand-written parts is safe if the forwards it calls are. -/
theorem safe_matcher_of_isComposed {rounds : Nat} {call : Nat → Matcher}
    (hcall : ∀ id, (call id).Safe) :
    ∀ p : Parser, p.isComposed = true → (p.matcher rounds call).Safe
  | primitive leaf, _ => leaf.safe_matcher
  | forward id, _ => hcall id
  | replace p v, h => (Matcher.safe_replace_iff _ v).mpr (safe_matcher_of_isComposed hcall p h)
  | map p f, h => (Matcher.safe_map_iff _ f).mpr (safe_matcher_of_isComposed hcall p h)
  | withDefault p default, _ => Matcher.safe_withDefault _ default
  | filter p accepts, h =>
    (Matcher.safe_filter_iff _ accepts).mpr (safe_matcher_of_isComposed hcall p h)
  | atLeast p n, h => (Matcher.safe_atLeast_iff _ n).mpr (safe_matcher_of_isComposed hcall p h)
  | traced p name, h => (Matcher.safe_traced_iff _ name).mpr (safe_matcher_of_isComposed hcall p h)
  | many p, _ => Matcher.safe_many _ rounds
  | manyChars p, _ => Matcher.safe_manyChars _ rounds
  | butNot p q, h => by
    obtain ⟨hp, hq⟩ := Bool.and_eq_true_iff.mp h
    exact Matcher.safe_butNot (safe_matcher_of_isComposed hcall p hp)
      (safe_matcher_of_isComposed hcall q hq)
  | orElse p q, h => by
    obtain ⟨hp, hq⟩ := Bool.and_eq_true_iff.mp h
    exact Matcher.safe_orElse (safe_matcher_of_isComposed hcall p hp)
      (safe_matcher_of_isComposed hcall q hq)
  | branch chars p q, h => by
    obtain ⟨hp, hq⟩ := Bool.and_eq_true_iff.mp h
    exact Matcher.safe_branch chars (safe_matcher_of_isComposed hcall p hp)
      (safe_matcher_of_isComposed hcall q hq)
  | seqLeft p q, h =>
    (Matcher.safe_seqLeft_iff _ _).mpr
      (safe_matcher_of_isComposed hcall p (Bool.and_eq_true_iff.mp h).1)
  | seqRight p q, h =>
    (Matcher.safe_seqRight_iff _ _).mpr
      (safe_matcher_of_isComposed hcall p (Bool.and_eq_true_iff.mp h).1)
  | pair p q, h =>
    (Matcher.safe_pair_iff _ _).mpr
      (safe_matcher_of_isComposed hcall p (Bool.and_eq_true_iff.mp h).1)
  | chainl p q f, h =>
    (Matcher.safe_chainl_iff _ _ f rounds).mpr
      (safe_matcher_of_isComposed hcall p (Bool.and_eq_true_iff.mp h).1)
  | enclosed p q t, h => by
    obtain ⟨hpq, _⟩ := Bool.and_eq_true_iff.mp h
    exact (Matcher.safe_enclosed_iff _ _ _).mpr
      (safe_matcher_of_isComposed hcall q (Bool.and_eq_true_iff.mp hpq).2)
  | triple p q t, h => by
    obtain ⟨hpq, _⟩ := Bool.and_eq_true_iff.mp h
    exact (Matcher.safe_triple_iff _ _ _).mpr
      (safe_matcher_of_isComposed hcall p (Bool.and_eq_true_iff.mp hpq).1)

/-- Forwards are safe whatever refers to whatever. -/
theorem safe_call (hfs : ∀ id body, fs.target? id = some body → body.isComposed = true)
    (rounds depth : Nat) (id : Nat) : (fs.call rounds depth id).Safe := by
  refine Forwards.call_induction Matcher.Safe (fun _ => True)
    (fun fault => (Matcher.neverFails_raise fault).safe) (fun depth ih id body _ h => ?_) depth id
    trivial
  exact safe_matcher_of_isComposed (fun id => ih id trivial) body (hfs id body h)

theorem safe_of_isComposed
    (hfs : ∀ id body, fs.target? id = some body → body.isComposed = true)
    (hp : p.isComposed = true) : p.Safe fs :=
  safe_iff.mpr fun rounds depth => safe_matcher_of_isComposed (safe_call hfs rounds depth) p hp

theorem isComposed_of_builtin {id : Nat} {body : Parser}
    (h : Grammar.builtin.target? id = some body) : body.isComposed = true := by
  match id with
  | 0 => cases h; rfl
  | 1 => cases h; rfl
  | id + 2 => cases h

/-- The contract of backtracking under a table of forwards, part by part. What is not
asked to be safe may be any matcher at all. -/
structure Contract (fs : Forwards) : Prop where
  primitive : ∀ leaf, (Parser.primitive leaf).Safe fs
  -- these never fail
  withDefault : ∀ (p : Parser) v, (p.withDefault v).Safe fs
  many : ∀ p : Parser, p.many.Safe fs
  manyChars : ∀ p : Parser, p.manyChars.Safe fs
  -- one part, or a forward and its definition
  discard : ∀ p : Parser, p.discard.Safe fs ↔ p.Safe fs
  replace : ∀ (p : Parser) v, (p.replace v).Safe fs ↔ p.Safe fs
  map : ∀ (p : Parser) f, (p.map f).Safe fs ↔ p.Safe fs
  filter : ∀ (p : Parser) accepts, (p.filter accepts).Safe fs ↔ p.Safe fs
  atLeast : ∀ (p : Parser) n, (p.atLeast n).Safe fs ↔ p.Safe fs
  traced : ∀ (p : Parser) name, (p.traced name).Safe fs ↔ p.Safe fs
  forward : ∀ id body, fs.target? id = some body → ((Parser.forward id).Safe fs ↔ body.Safe fs)
  -- sequences and chains rely on the part that runs first
  seqLeft : ∀ p q : Parser, (p.seqLeft q).Safe fs ↔ p.Safe fs
  seqRight : ∀ p q : Parser, (p.seqRight q).Safe fs ↔ p.Safe fs
  pair : ∀ p q : Parser, (p.pair q).Safe fs ↔ p.Safe fs
  triple : ∀ p q t : Parser, (p.triple q t).Safe fs ↔ p.Safe fs
  enclosed : ∀ p opening closing : Parser,
    (p.enclosed opening closing).Safe fs ↔ opening.Safe fs
  chainl : ∀ (p separator : Parser) f, (p.chainl separator f).Safe fs ↔ p.Safe fs
  -- these pass on the failure of any part
  firstOf : ∀ ps : List Parser, (∀ p ∈ ps, p.Safe fs) → (Parser.firstOf ps).Safe fs
  dispatch : ∀ (default : Option Parser) (cases : List (String × Parser)),
    (∀ p ∈ default, p.Safe fs) → (∀ case ∈ cases, case.2.Safe fs) →
      (Parser.dispatch default cases).Safe fs
  butNot : ∀ p excluded : Parser, p.Safe fs → excluded.Safe fs → (p.butNot excluded).Safe fs
  /-- Forwards may refer to each other in any way. -/
  composed : (∀ id body, fs.target? id = some body → body.isComposed = true) →
    ∀ p : Parser, p.isComposed = true → p.Safe fs

/-- The contract holds under every table, and the grammars of expressions are safe. -/
theorem backtracking_contract : (∀ fs, Contract fs) ∧
    ∀ opts, (Grammar.selected opts).Safe Grammar.builtin := by
  constructor
  · intro fs
    exact {
      primitive := fun leaf => safe_iff.mpr fun _ _ => leaf.safe_matcher
      withDefault := fun _ v => safe_iff.mpr fun _ _ => Matcher.safe_withDefault _ v
      many := fun _ => safe_iff.mpr fun rounds _ => Matcher.safe_many _ rounds
      manyChars := fun _ => safe_iff.mpr fun rounds _ => Matcher.safe_manyChars _ rounds
      discard := fun _ => safe_congr fun _ _ => Matcher.safe_replace_iff _ _
      replace := fun _ _ => safe_congr fun _ _ => Matcher.safe_replace_iff _ _
      map := fun _ _ => safe_congr fun _ _ => Matcher.safe_map_iff _ _
      filter := fun _ _ => safe_congr fun _ _ => Matcher.safe_filter_iff _ _
      atLeast := fun _ _ => safe_congr fun _ _ => Matcher.safe_atLeast_iff _ _
      traced := fun _ _ => safe_congr fun _ _ => Matcher.safe_traced_iff _ _
      forward := fun _ _ h => safe_forward_iff h
      seqLeft := fun _ _ => safe_congr fun _ _ => Matcher.safe_seqLeft_iff _ _
      seqRight := fun _ _ => safe_congr fun _ _ => Matcher.safe_seqRight_iff _ _
      pair := fun _ _ => safe_congr fun _ _ => Matcher.safe_pair_iff _ _
      triple := fun _ _ _ => safe_congr fun _ _ => Matcher.safe_triple_iff _ _ _
      enclosed := fun _ _ _ => safe_congr fun _ _ => Matcher.safe_enclosed_iff _ _ _
      chainl := fun _ _ _ => safe_congr fun rounds _ => Matcher.safe_chainl_iff _ _ _ rounds
      firstOf := fun _ h => safe_firstOf h
      dispatch := fun _ _ hdefault hcases => safe_dispatch hdefault hcases
      butNot := fun _ _ hp hq => safe_iff.mpr fun rounds depth =>
        Matcher.safe_butNot (safe_iff.mp hp rounds depth) (safe_iff.mp hq rounds depth)
      composed := fun hfs _ hp => safe_of_isComposed hfs hp }
  · intro opts
    refine safe_of_isComposed (fun _ _ h => isComposed_of_builtin h) ?_
    rcases opts with ⟨_ | _, _ | _⟩ <;> rfl

end Parser

end Parlance
