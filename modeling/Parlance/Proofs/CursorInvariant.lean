import Parlance.Proofs.Locality

/-! # The invariant of cursors

However a run of a parser without hand-written parts ends, by a reply or by a fault
half-way through a sequence, a loop or a look ahead, the cursor that it leaves is in
order: same text, no step back, not past the end unless the run began there, no
negative level. Where the run can be is what `Locality` says of a run beside itself.
What is left is the reply, which has to tell the position of that cursor: nearly
every combinator answers anew, and those that pass a reply on have not moved since. -/
namespace Parlance

namespace Matcher

open Parlance.Action

/-- The reply tells the position that the run ends at, and a failure has no value. -/
def Coherent (p : Matcher) : Prop :=
  ∀ c r c', p.Returns c r c' →
    r.position = c'.position ∧ (r.success = false → r.value = .null)

variable {p q : Matcher}

theorem coherent_succeed (v : Value) : (succeed v).Coherent := by
  intro c r c' h
  obtain ⟨rfl, rfl⟩ := returns_succeed.mp h
  exact ⟨rfl, fun hfailure => by cases hfailure⟩

theorem coherent_fail : fail.Coherent := by
  intro c r c' h
  obtain ⟨rfl, rfl⟩ := returns_fail.mp h
  exact ⟨rfl, fun _ => rfl⟩

theorem coherent_raise (fault : Fault) : Coherent (Action.raise fault) :=
  fun _ _ _ h => absurd h returns_raise

/-- What an action does last decides. -/
theorem coherent_bind {α : Type} {x : Action α} {f : α → Matcher} (h : ∀ a, (f a).Coherent) :
    Coherent (x >>= f) := by
  intro c r c' hreturns
  obtain ⟨a, c₁, _, hrest⟩ := returns_bind.mp hreturns
  exact h a c₁ r c' hrest

theorem coherent_failAt (m : Mark) : (failAt m).Coherent := coherent_bind fun _ => coherent_fail

theorem coherent_succeedAt (m : Mark) (v : Value) : (succeedAt m v).Coherent :=
  coherent_bind fun _ => coherent_succeed v

theorem coherent_consume (v : Value) : (consume v).Coherent :=
  coherent_bind fun _ => coherent_succeed v

theorem coherent_ite {b : Prop} [Decidable b] (hp : p.Coherent) (hq : q.Coherent) :
    (if b then p else q).Coherent := by
  split
  · exact hp
  · exact hq

theorem coherent_chainFrom (p separator : Matcher)
    (f : Value → Value → Value → Except Fault Value) (rounds : Nat) :
    ∀ value last, (p.chainFrom separator f rounds value last).Coherent := by
  induction rounds with
  | zero => exact fun _ _ => coherent_raise .endless
  | succ rounds ih =>
    intro value last
    refine coherent_bind fun s => coherent_ite ?_ (coherent_succeedAt last value)
    refine coherent_bind fun r => coherent_ite ?_ (coherent_succeedAt last value)
    exact coherent_bind fun value' => coherent_bind fun here => ih value' here

theorem coherent_traced (hp : p.Coherent) (name : String) : (p.traced name).Coherent := by
  intro c r c' h
  simp only [traced, returns_bind, returns_record, returns_pure] at h
  obtain ⟨_, _, rfl, s, c₂, hs, _, _, rfl, rfl, rfl⟩ := h
  exact hp c s c₂ hs

theorem coherent_branch (chars : List Char) (hp : p.Coherent) (hq : q.Coherent) :
    (branch chars p q).Coherent := by
  refine coherent_bind fun next => ?_
  cases next with
  | none => exact hq
  | some d => exact coherent_ite hp hq

end Matcher

theorem Primitive.coherent_matcher (leaf : Primitive) : leaf.matcher.Coherent := by
  cases leaf with
  | success v => exact Matcher.coherent_succeed v
  | failure => exact Matcher.coherent_fail
  | anyChar =>
    refine Matcher.coherent_bind fun next => ?_
    cases next with
    | none => exact Matcher.coherent_fail
    | some d => exact Matcher.coherent_consume _
  | oneOf chars table =>
    refine Matcher.coherent_bind fun next => ?_
    split
    · exact Matcher.coherent_fail
    · exact Matcher.coherent_bind fun _ => Matcher.coherent_bind Matcher.coherent_succeed
  | oneOfMapped chars entries =>
    refine Matcher.coherent_bind fun next => ?_
    split
    · exact Matcher.coherent_fail
    · exact Matcher.coherent_consume _
  | satisfy check =>
    refine Matcher.coherent_bind fun next => ?_
    cases next with
    | none => exact Matcher.coherent_fail
    | some d =>
      exact Matcher.coherent_bind fun _ =>
        Matcher.coherent_ite (Matcher.coherent_consume _) Matcher.coherent_fail
  | takeWhile check => exact Matcher.coherent_bind fun _ => Matcher.coherent_succeed _
  | skipWhile check => exact Matcher.coherent_bind fun _ => Matcher.coherent_succeed _
  | literal chars =>
    exact Matcher.coherent_bind fun start => Matcher.coherent_bind fun _ =>
      Matcher.coherent_ite (Matcher.coherent_succeed _) (Matcher.coherent_failAt start)
  | endOfText =>
    exact Matcher.coherent_bind fun _ =>
      Matcher.coherent_ite (Matcher.coherent_succeed _) Matcher.coherent_fail
  | endOfLine =>
    refine Matcher.coherent_bind fun next => ?_
    cases next with
    | none => exact Matcher.coherent_succeed _
    | some d =>
      refine Matcher.coherent_ite (Matcher.coherent_consume _)
        (Matcher.coherent_ite ?_ Matcher.coherent_fail)
      refine Matcher.coherent_bind fun _ => Matcher.coherent_bind fun next => ?_
      cases next with
      | none => exact Matcher.coherent_succeed _
      | some d' =>
        exact Matcher.coherent_ite (Matcher.coherent_consume _) (Matcher.coherent_succeed _)
  | indent => exact Matcher.coherent_bind fun _ => Matcher.coherent_succeed _
  | dedent =>
    refine Matcher.coherent_bind fun lower => ?_
    cases lower with
    | none => exact Matcher.coherent_fail
    | some c => exact Matcher.coherent_bind fun _ => Matcher.coherent_succeed _
  | leadingTabs =>
    refine Matcher.coherent_bind fun start =>
      Matcher.coherent_ite (Matcher.coherent_succeed _) (Matcher.coherent_bind fun _ => ?_)
    exact Matcher.coherent_ite (Matcher.coherent_succeed _) (Matcher.coherent_failAt start)

namespace Parser

open Parlance.Matcher

/-- Only the parsers that pass a reply on need their parts to be coherent. -/
theorem coherent_matcher {rounds : Nat} {call : Nat → Matcher} (hcall : ∀ id, (call id).Coherent) :
    ∀ p : Parser, p.isComposed = true → (p.matcher rounds call).Coherent
  | primitive leaf, _ => leaf.coherent_matcher
  | forward id, _ => hcall id
  | traced p name, h => coherent_traced (coherent_matcher hcall p h) name
  | branch chars p q, h => by
    obtain ⟨hp, hq⟩ := Bool.and_eq_true_iff.mp h
    exact coherent_branch chars (coherent_matcher hcall p hp) (coherent_matcher hcall q hq)
  | replace _ v, _ => coherent_bind fun _ => coherent_ite (coherent_succeed v) coherent_fail
  | map _ _, _ =>
    coherent_bind fun _ => coherent_ite (coherent_bind coherent_succeed) coherent_fail
  | withDefault _ default, _ =>
    coherent_bind fun _ => coherent_ite (coherent_succeed _) (coherent_succeed default)
  | filter _ _, _ =>
    coherent_bind fun start => coherent_bind fun _ => coherent_ite
      (coherent_bind fun _ => coherent_ite (coherent_succeed _) (coherent_failAt start))
      coherent_fail
  | atLeast _ _, _ =>
    coherent_bind fun start => coherent_bind fun _ => coherent_ite
      (coherent_bind fun _ => coherent_ite (coherent_failAt start) (coherent_succeed _))
      coherent_fail
  | butNot _ _, _ =>
    coherent_bind fun start => coherent_bind fun _ => coherent_ite (coherent_failAt start)
      (coherent_bind fun _ => coherent_ite (coherent_succeed _) coherent_fail)
  | seqLeft _ _, _ | seqRight _ _, _ | pair _ _, _ =>
    coherent_bind fun start => coherent_bind fun _ => coherent_ite
      (coherent_bind fun _ => coherent_ite (coherent_succeed _) (coherent_failAt start))
      coherent_fail
  | enclosed _ _ _, _ | triple _ _ _, _ =>
    coherent_bind fun start => coherent_bind fun _ => coherent_ite
      (coherent_bind fun _ => coherent_ite
        (coherent_bind fun _ => coherent_ite (coherent_succeed _) (coherent_failAt start))
        (coherent_failAt start))
      coherent_fail
  | orElse _ _, _ =>
    coherent_bind fun _ => coherent_ite (coherent_succeed _)
      (coherent_bind fun _ => coherent_ite (coherent_succeed _) coherent_fail)
  | many _, _ => coherent_bind fun _ => coherent_succeed _
  | manyChars _, _ => coherent_bind fun _ => coherent_bind fun _ => coherent_succeed _
  | chainl _ _ f, _ =>
    coherent_bind fun _ => coherent_ite
      (coherent_bind fun here => coherent_chainFrom _ _ f rounds _ here) coherent_fail

variable {fs : Forwards} {p : Parser}

theorem coherent_call (hfs : ∀ id body, fs.target? id = some body → body.isComposed = true)
    (rounds depth : Nat) (id : Nat) : (fs.call rounds depth id).Coherent := by
  refine Forwards.call_induction Coherent (fun _ => True) coherent_raise
    (fun depth ih id body _ h => ?_) depth id trivial
  exact coherent_matcher (fun id => ih id trivial) body (hfs id body h)

structure KeepsCursor (c : Cursor) (o : Outcome Reply) : Prop where
  text : o.cursor.text = c.text
  lower : c.position ≤ o.cursor.position
  upper : o.cursor.position ≤ max c.position c.text.size
  indent : 0 ≤ o.cursor.indent
  reply : ∀ r, o.exit = .ok r →
    r.position = o.cursor.position ∧ (r.success = false → r.value = .null)

theorem keepsCursor_run (hfs : ∀ id body, fs.target? id = some body → body.isComposed = true)
    (hp : p.isComposed = true) (budget : Budget) {c : Cursor} (hposition : 0 ≤ c.position)
    (hindent : 0 ≤ c.indent) : KeepsCursor c (p.run fs budget c) := by
  -- a run beside itself: no characters more in front
  have htext : c.text.toList = c.text.toList.drop 0 := by rw [List.drop_zero]
  obtain ⟨_, _, _, hreach⟩ :=
    run_sameAhead hfs hp budget hposition htext c (Cursor.reaches_self c)
  refine ⟨hreach.text_eq, hreach.lower, hreach.upper, hreach.level hindent, fun r hexit => ?_⟩
  exact coherent_matcher (coherent_call hfs budget.rounds budget.depth) p hp c r _ ⟨hexit, rfl⟩

/-- Whatever ends a run, the cursor stays in its text, between its start and the end
of the text, and on a level that is not negative; a reply tells the position of that
cursor, and a failure has no value. From the start of a text the position is one of
the text. -/
theorem run_leaves_cursor_in_order
    (hfs : ∀ id body, fs.target? id = some body → body.isComposed = true)
    (hp : p.isComposed = true) (budget : Budget) :
    (∀ c : Cursor, 0 ≤ c.position → 0 ≤ c.indent → KeepsCursor c (p.run fs budget c)) ∧
    ∀ text : String,
      0 ≤ (p.run fs budget (.ofText text)).cursor.position ∧
      (p.run fs budget (.ofText text)).cursor.position ≤ text.length ∧
      0 ≤ (p.run fs budget (.ofText text)).cursor.indent := by
  refine ⟨fun c hposition hindent => keepsCursor_run hfs hp budget hposition hindent, ?_⟩
  intro text
  have hkeeps := keepsCursor_run (c := .ofText text) hfs hp budget (Int.le_refl 0) (Int.le_refl 0)
  have hsize : (Cursor.ofText text).text.size = text.length := by
    simp [Cursor.ofText, String.length_toList]
  have hupper := hkeeps.upper
  rw [hsize] at hupper
  refine ⟨hkeeps.lower, ?_, hkeeps.indent⟩
  simpa [Cursor.ofText] using hupper

/-- Two parentheses deep a callback raises: the cursor stays behind the character it
was called for, on the level that the parentheses have led to. -/
theorem run_leaves_cursor_in_order_nested :
    let raising := Parser.anyChar.map fun _ => .error (.callback "stop")
    let nested := ((literal "(").seqRight (Parser.indent.seqRight (.forward 0))).orElse raising
    let o := (Parser.forward 0).run ⟨#[some nested, none]⟩ ⟨3, 1⟩ ⟨#['a', '(', '(', 'x', ')'], 1, 0⟩
    o.exit = .error (.callback "stop") ∧ o.cursor.position = 4 ∧ o.cursor.indent = 2 ∧
      KeepsCursor ⟨#['a', '(', '(', 'x', ')'], 1, 0⟩ o := by
  refine ⟨rfl, rfl, rfl, (run_leaves_cursor_in_order ?_ rfl _).1 _ (by decide) (by decide)⟩
  intro id body h
  match id with
  | 0 => cases h; rfl
  | 1 => cases h
  | id + 2 => cases h

end Parser
end Parlance
