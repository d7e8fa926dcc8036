import Parlance.Proofs.CursorInvariant

/-! # Laws of sequences and alternatives

Nested and flat forms of a sequence, or of alternatives, take their marks in different
places: an inner part returns to its own mark where the flat form would have returned to
the outer one, or neither does because the part that failed ran first. The laws below say
that none of this shows, whatever the parts do: a part may move and fail, answer with any
position, or end in a fault. Both sides of a law have the same outcome, exit, cursor and
trace, up to the grouping of the values.

All combinators of this kind are put together from one, `Matcher.fork`, which goes on one
way behind a success and another way behind a failure. Two forks in a row are one fork
with forks behind it, and a fork behind an answer is decided; the laws follow from these
two facts. -/
namespace Parlance

/-! ## Values of a sequence -/

namespace Value

/-- A pair whose first member is a pair, as three in a row. -/
def ungroupLeft : Value → Value
  | tuple [tuple [a, b], t] => tuple [a, b, t]
  | v => v

def ungroupRight : Value → Value
  | tuple [a, tuple [b, t]] => tuple [a, b, t]
  | v => v

def member (index : Nat) : Value → Value
  | tuple items => items.getD index null
  | v => v

end Value

/-- A success with another value; a failure stays. -/
def Reply.mapValue (f : Value → Value) (r : Reply) : Reply :=
  if r.success then { r with value := f r.value } else r

def Outcome.mapValue (f : Value → Value) (o : Outcome Reply) : Outcome Reply :=
  ⟨o.exit.map (Reply.mapValue f), o.cursor, o.trace⟩

namespace Matcher

open Parlance.Action

/-! ## Forks -/

/-- Goes on with the value of a success of `p`, and with `other` behind a failure. -/
def fork (p : Matcher) (next : Value → Matcher) (other : Matcher) : Matcher := do
  let r ← p
  if r.success then next r.value else other

variable (p q t : Matcher) (next next' : Value → Matcher) (other other' : Matcher) (v : Value)
  (m m' : Mark) (f : Value → Value)

/-- What comes behind a fork comes behind both of its ways. -/
theorem fork_fork : (p.fork next other).fork next' other' =
    p.fork (fun v => (next v).fork next' other') (other.fork next' other') := by
  ext1
  funext c
  rcases hp : p.run c with ⟨fault | r, c', trace⟩
  · simp [fork, hp]
  cases hr : r.success with
  | false => simp [fork, hp, hr]
  | true => simp [fork, hp, hr]

@[simp]
theorem fork_succeed : (succeed v).fork next other = next v := by
  ext1
  funext c
  simp [fork]

@[simp]
theorem fork_fail : fail.fork next other = other := by
  ext1
  funext c
  simp [fork]

/-- Of two returns in a row the second counts. -/
@[simp]
theorem fork_failAt : (failAt m).fork next (failAt m') = failAt m' := by
  ext1
  funext c
  simp [fork]

@[simp]
theorem fork_failAt_fail : (failAt m).fork next fail = failAt m := by
  ext1
  funext c
  simp [fork]

/-- A mark may be taken before the fork. -/
theorem fork_marked (start : Mark → Matcher) : fork (look Cursor.mark >>= start) next other =
    look Cursor.mark >>= fun m => (start m).fork next other := by
  ext1
  funext c
  simp [fork]

/-- One mark is as good as two at the same place. -/
theorem marked_marked (start : Mark → Mark → Matcher) :
    (do
      let m ← look Cursor.mark
      let m' ← look Cursor.mark
      start m m') = look Cursor.mark >>= fun m => start m m := by
  ext1
  funext c
  simp

/-- A mark that nothing returns to need not be taken. -/
theorem marked_const : (look Cursor.mark >>= fun _ => p) = p := by
  ext1
  funext c
  simp

/-! ## Sequences -/

/-- `p` then `q`, with a value made from theirs. -/
def twoInRow (value : Value → Value → Value) (p q : Matcher) : Matcher := do
  let start ← look Cursor.mark
  p.fork (fun v => q.fork (fun w => succeed (value v w)) (failAt start)) fail

def threeInRow (value : Value → Value → Value → Value) (p q t : Matcher) : Matcher := do
  let start ← look Cursor.mark
  p.fork (fun v => q.fork (fun w => t.fork (fun x => succeed (value v w x)) (failAt start))
    (failAt start)) fail

section Sequences

variable (inner outer : Value → Value → Value)

theorem twoInRow_left : twoInRow outer (twoInRow inner p q) t =
    threeInRow (fun v w x => outer (inner v w) x) p q t := by
  simp only [twoInRow, threeInRow, fork_marked, marked_marked, fork_fork, fork_succeed, fork_fail,
    fork_failAt_fail]

theorem twoInRow_right : twoInRow outer p (twoInRow inner q t) =
    threeInRow (fun v w x => outer v (inner w x)) p q t := by
  simp only [twoInRow, threeInRow, fork_marked, marked_const, fork_fork, fork_succeed, fork_fail,
    fork_failAt]

end Sequences

def withValues (f : Value → Value) (p : Matcher) : Matcher := ⟨fun c => (p.run c).mapValue f⟩

theorem withValues_fork : (p.fork next other).withValues f =
    p.fork (fun v => (next v).withValues f) (other.withValues f) := by
  ext1
  funext c
  rcases hp : p.run c with ⟨fault | r, c', trace⟩
  · simp [withValues, fork, hp, Outcome.mapValue, Except.map]
  · simp only [withValues, fork, run_bind, hp, Outcome.andThen_ok, run_ite, Outcome.after_ite]
    split <;> rfl

theorem withValues_marked (start : Mark → Matcher) : withValues f (look Cursor.mark >>= start) =
    look Cursor.mark >>= fun m => (start m).withValues f := by
  ext1
  funext c
  simp [withValues]

theorem withValues_succeed : (succeed v).withValues f = succeed (f v) := rfl

theorem withValues_fail : fail.withValues f = fail := rfl

theorem withValues_failAt : (failAt m).withValues f = failAt m := rfl

theorem withValues_twoInRow (value : Value → Value → Value) :
    (twoInRow value p q).withValues f = twoInRow (fun v w => f (value v w)) p q := by
  simp only [twoInRow, withValues_marked, withValues_fork, withValues_succeed, withValues_fail,
    withValues_failAt]

theorem withValues_threeInRow (value : Value → Value → Value → Value) :
    (threeInRow value p q t).withValues f = threeInRow (fun v w x => f (value v w x)) p q t := by
  simp only [threeInRow, withValues_marked, withValues_fork, withValues_succeed, withValues_fail,
    withValues_failAt]

theorem pair_eq_twoInRow : p.pair q = twoInRow (fun v w => .tuple [v, w]) p q := rfl

theorem triple_eq_threeInRow :
    p.triple q t = threeInRow (fun v w x => .tuple [v, w, x]) p q t := rfl

theorem pair_pair_left : ((p.pair q).pair t).withValues .ungroupLeft = p.triple q t := by
  rw [pair_eq_twoInRow, pair_eq_twoInRow, twoInRow_left, withValues_threeInRow,
    triple_eq_threeInRow]
  rfl

theorem pair_pair_right : (p.pair (q.pair t)).withValues .ungroupRight = p.triple q t := by
  rw [pair_eq_twoInRow, pair_eq_twoInRow, twoInRow_right, withValues_threeInRow,
    triple_eq_threeInRow]
  rfl

theorem seqLeft_eq_pair : p.seqLeft q = (p.pair q).withValues (.member 0) := by
  rw [pair_eq_twoInRow, withValues_twoInRow]
  rfl

theorem seqRight_eq_pair : p.seqRight q = (p.pair q).withValues (.member 1) := by
  rw [pair_eq_twoInRow, withValues_twoInRow]
  rfl

theorem enclosed_eq_triple : q.enclosed p t = (p.triple q t).withValues (.member 1) := by
  rw [triple_eq_threeInRow, withValues_threeInRow]
  rfl

/-! ## Alternatives -/

theorem orElse_eq_fork : p.orElse q = p.fork succeed (q.fork succeed fail) := rfl

theorem orElse_assoc : (p.orElse q).orElse t = p.orElse (q.orElse t) := by
  simp only [orElse_eq_fork, fork_fork, fork_succeed, fork_fail]

/-- An answer that is given anew is the same answer, if it told where the run had ended. -/
theorem fork_self {p : Matcher} (h : p.Coherent) : p.fork succeed fail = p := by
  ext1
  funext c
  rcases hp : p.run c with ⟨fault | ⟨success, value, position⟩, c', trace⟩
  · simp [fork, hp]
  · obtain ⟨hposition, hvalue⟩ := h c _ c' ⟨by rw [hp], by rw [hp]⟩
    cases success with
    | false => simp_all [fork]
    | true => simp_all [fork]

end Matcher

namespace Parser

open Parlance.Matcher

variable {rounds : Nat} {call : Nat → Matcher}

/-- Alternatives answer anew, whatever they are. -/
theorem coherent_firstOf (alternatives : List Parser) :
    ((firstOf alternatives).matcher rounds call).Coherent := by
  cases alternatives with
  | nil => exact coherent_fail
  | cons p rest =>
    exact coherent_bind fun _ => coherent_ite (coherent_succeed _)
      (coherent_bind fun _ => coherent_ite (coherent_succeed _) coherent_fail)

theorem matcher_firstOf_cons (p : Parser) (rest : List Parser) :
    (firstOf (p :: rest)).matcher rounds call =
      (p.matcher rounds call).orElse ((firstOf rest).matcher rounds call) := rfl

/-- Alternatives behind alternatives. -/
theorem matcher_firstOf_append (ps qs : List Parser) :
    (firstOf (ps ++ qs)).matcher rounds call =
      ((firstOf ps).matcher rounds call).orElse ((firstOf qs).matcher rounds call) := by
  induction ps with
  | nil =>
    have hnone : (firstOf []).matcher rounds call = fail := rfl
    rw [List.nil_append, hnone, orElse_eq_fork, fork_fail, fork_self (coherent_firstOf qs)]
  | cons p ps ih => rw [List.cons_append, matcher_firstOf_cons, matcher_firstOf_cons, ih, orElse_assoc]

theorem matcher_firstOf_nested (xs ys zs : List Parser) :
    (firstOf (xs ++ firstOf ys :: zs)).matcher rounds call =
      (firstOf (xs ++ ys ++ zs)).matcher rounds call := by
  rw [matcher_firstOf_append, matcher_firstOf_cons, List.append_assoc, matcher_firstOf_append xs,
    matcher_firstOf_append ys]

/-- A default is a last alternative that succeeds. -/
theorem matcher_withDefault (p : Parser) (v : Value) :
    (p.withDefault v).matcher rounds call = (firstOf [p, success v]).matcher rounds call := by
  have hdefault : (p.withDefault v).matcher rounds call =
      (p.matcher rounds call).fork succeed (succeed v) := rfl
  have hvalue : (success v).matcher rounds call = succeed v := rfl
  rw [hdefault, matcher_firstOf_cons, matcher_firstOf_cons, hvalue, orElse_eq_fork,
    orElse_eq_fork, fork_succeed, fork_succeed]

/-- Sequences may be grouped from either side, keep the members of their tuples in the
sequences that yield one value, and alternatives may be flattened; a default is a last
alternative. The parts may be any parsers at all. -/
theorem sequences_and_alternatives_regroup (fs : Forwards) (budget : Budget) (c : Cursor) :
    (∀ a b t : Parser,
      (((a.pair b).pair t).run fs budget c).mapValue .ungroupLeft = (a.triple b t).run fs budget c ∧
      ((a.pair (b.pair t)).run fs budget c).mapValue .ungroupRight =
        (a.triple b t).run fs budget c) ∧
    (∀ a b : Parser,
      (a.seqLeft b).run fs budget c = ((a.pair b).run fs budget c).mapValue (.member 0) ∧
      (a.seqRight b).run fs budget c = ((a.pair b).run fs budget c).mapValue (.member 1)) ∧
    (∀ a b t : Parser,
      (b.enclosed a t).run fs budget c = ((a.triple b t).run fs budget c).mapValue (.member 1)) ∧
    (∀ xs ys zs : List Parser,
      (firstOf (xs ++ firstOf ys :: zs)).run fs budget c =
        (firstOf (xs ++ ys ++ zs)).run fs budget c) ∧
    (∀ (a : Parser) (v : Value),
      (a.withDefault v).run fs budget c = (firstOf [a, success v]).run fs budget c) := by
  refine ⟨fun a b t => ⟨?_, ?_⟩, fun a b => ⟨?_, ?_⟩, fun a b t => ?_, fun xs ys zs => ?_,
    fun a v => ?_⟩
  · exact congrArg (Action.run · c) (pair_pair_left _ _ _)
  · exact congrArg (Action.run · c) (pair_pair_right _ _ _)
  · exact congrArg (Action.run · c) (seqLeft_eq_pair _ _)
  · exact congrArg (Action.run · c) (seqRight_eq_pair _ _)
  · exact congrArg (Action.run · c) (enclosed_eq_triple _ _ _)
  · exact congrArg (Action.run · c) (matcher_firstOf_nested xs ys zs)
  · exact congrArg (Action.run · c) (matcher_withDefault a v)

end Parser
end Parlance
