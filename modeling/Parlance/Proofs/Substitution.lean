import Mathlib.Logic.Function.Basic
import Parlance.Proofs.Budget

/-! # Substitution for a forward

A forward stands for its definition: a run of a parser that holds the forward is the
run of the parser that holds the definition in its place, but that a forward opens one
level of depth where the definition opens none. Replacing it turns the call of the
forward into the meaning of its definition (`matcher_subst`), which is the call with one
more level below it, so the run with the definition lies between two runs with the
forward, one with the same depth and one with a level more. Only the occurrences in the
parser are replaced; those in definitions, that of the forward itself among them, are
still looked up. -/
namespace Parlance

/-- The parser with `q` in place of a forward. -/
def Parser.subst (p : Parser) (id : Nat) (q : Parser) : Parser :=
  match p with
  | primitive leaf => primitive leaf
  | native run => native run
  | forward id' => if id' = id then q else forward id'
  | replace p v => (p.subst id q).replace v
  | map p f => (p.subst id q).map f
  | withDefault p default => (p.subst id q).withDefault default
  | filter p accepts => (p.subst id q).filter accepts
  | atLeast p n => (p.subst id q).atLeast n
  | butNot p excluded => (p.subst id q).butNot (excluded.subst id q)
  | seqLeft p r => (p.subst id q).seqLeft (r.subst id q)
  | seqRight p r => (p.subst id q).seqRight (r.subst id q)
  | enclosed p opening closing =>
    (p.subst id q).enclosed (opening.subst id q) (closing.subst id q)
  | pair p r => (p.subst id q).pair (r.subst id q)
  | triple p r t => (p.subst id q).triple (r.subst id q) (t.subst id q)
  | orElse p r => (p.subst id q).orElse (r.subst id q)
  | branch chars p r => branch chars (p.subst id q) (r.subst id q)
  | many p => (p.subst id q).many
  | manyChars p => (p.subst id q).manyChars
  | chainl p separator f => (p.subst id q).chainl (separator.subst id q) f
  | traced p name => (p.subst id q).traced name

/-- A parser with `q` in place of a forward means what the parser does where the forward
means what `q` does. -/
theorem Parser.matcher_subst (rounds : Nat) (call : Nat → Matcher) (id : Nat) (q p : Parser) :
    (p.subst id q).matcher rounds call =
      p.matcher rounds (Function.update call id (q.matcher rounds call)) := by
  induction p with
  | forward id' =>
    show (if id' = id then q else forward id').matcher rounds call =
      Function.update call id (q.matcher rounds call) id'
    by_cases h : id' = id
    · rw [if_pos h, h, Function.update_self]
    · rw [if_neg h, Function.update_of_ne h]
      rfl
  | _ => simp_all [subst, matcher]

section Runs

variable {fs : Forwards} {id : Nat} {q p : Parser} {budget : Budget} {c : Cursor}

/-- The calls of a parser in which the forward is replaced lie one level deeper for the
forward, and on the same level for all others. -/
theorem Forwards.update_call (h : fs.target? id = some q) (rounds depth id' : Nat) :
    Function.update (fs.call rounds depth) id (q.matcher rounds (fs.call rounds depth)) id' =
      fs.call rounds (if id' = id then depth + 1 else depth) id' := by
  by_cases hid : id' = id
  · rw [if_pos hid, hid, Function.update_self, call_succ h]
  · rw [if_neg hid, Function.update_of_ne hid]

/-- Calls that lie no deeper give the same run, unless they are cut short. -/
theorem Extends.call_of_le (fs : Forwards) (rounds : Nat) {depth depth' : Nat}
    (hle : depth ≤ depth') (id : Nat) :
    (agreement Fault.CutsShort).Match (fs.call rounds depth id) (fs.call rounds depth' id) :=
  call (fun _ => .inl rfl) (Agreement.Rounds.refl rounds) depth (.inr ⟨.inl rfl, hle⟩) id

namespace Parser

/-- A run that its budget does not cut short is the same with the definition in place of
the forward. -/
theorem run_subst_eq (h : fs.target? id = some q) (hrun : ¬ (p.run fs budget c).Exhausted) :
    (p.subst id q).run fs budget c = p.run fs budget c := by
  unfold run at hrun ⊢
  rw [matcher_subst]
  refine Extends.run_eq (Extends.matcher (fun id' => ?_) (Agreement.Rounds.refl _) p)
    fun hends => hrun (Outcome.exhausted_iff.mpr hends)
  have hle : budget.depth ≤ if id' = id then budget.depth + 1 else budget.depth := by
    split <;> omega
  rw [Forwards.update_call h]
  exact Extends.call_of_le fs _ hle id'

/-- With one more level of depth the forward does what its definition does in its place,
unless that is cut short. -/
theorem run_eq_run_subst (h : fs.target? id = some q)
    (hrun : ¬ ((p.subst id q).run fs budget c).Exhausted) :
    p.run fs ⟨budget.depth + 1, budget.rounds⟩ c = (p.subst id q).run fs budget c := by
  unfold run at hrun ⊢
  rw [matcher_subst] at hrun ⊢
  refine Extends.run_eq (Extends.matcher (fun id' => ?_) (Agreement.Rounds.refl _) p)
    fun hends => hrun (Outcome.exhausted_iff.mpr hends)
  have hle : (if id' = id then budget.depth + 1 else budget.depth) ≤ budget.depth + 1 := by
    split <;> omega
  rw [Forwards.update_call h]
  exact Extends.call_of_le fs _ hle id'

end Parser
end Runs
end Parlance
