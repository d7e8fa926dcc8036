import Mathlib.Data.List.Induction
import Parlance.Proofs.GuardedRecursion
import Parlance.Proofs.Refactoring

/-! # Dispatch on the next character

A dispatch looks at the next character and runs one parser: that of the last case that
claims the character, or the default. Alternatives try one parser after the other. Where the
cases claim different characters, each fails where it claims nothing, and the default fails
where a case claims something, at most one of the alternatives does not fail. The others
leave no trace in the cursor, so the order of the alternatives does not matter, and the
dispatch is the same as all of them. Only the log tells them apart, because the alternatives
that fail may write to it; so outcomes are compared without their traces.

In front of its text a cursor faces nothing, and the look itself is a fault there. -/
namespace Parlance

def Outcome.bare {α : Type} (o : Outcome α) : Outcome α := { o with trace := [] }

@[simp]
theorem Outcome.bare_after {α : Type} (o : Outcome α) (trace : List Record) :
    (o.after trace).bare = o.bare := rfl

theorem Cursor.isBeforeStart_of_next? {c : Cursor} {d : Char} (h : c.next? = some d) :
    c.isBeforeStart = false := by
  unfold next? at h
  unfold isBeforeStart
  cases hposition : c.position with
  | ofNat n =>
    apply decide_eq_false
    have hnonneg : (0 : Int) ≤ Int.ofNat n := Int.natCast_nonneg n
    omega
  | negSucc n =>
    rw [hposition] at h
    have hchar : (if n < c.text.size then c.text[c.text.size - 1 - n]? else none) = some d := h
    by_cases hn : n < c.text.size
    · apply decide_eq_false
      rw [Int.negSucc_eq]
      omega
    · rw [if_neg hn] at hchar
      cases hchar

namespace Matcher

open Parlance.Action

variable {p q : Matcher} {c : Cursor} {chars : List Char}

/-! ## One case -/

theorem run_branch_of_mem {d : Char} (h : c.next? = some d) (hd : d ∈ chars) :
    (branch chars p q).run c = p.run c := by
  simp [branch, Cursor.isBeforeStart_of_next? h, h, hd]

theorem run_branch_of_not_mem (hstart : c.isBeforeStart = false)
    (h : ∀ d, c.next? = some d → d ∉ chars) : (branch chars p q).run c = q.run c := by
  cases hnext : c.next? with
  | none => simp [branch, hstart, hnext]
  | some d => simp [branch, hstart, hnext, h d hnext]

theorem run_branch_beforeStart (hstart : c.isBeforeStart = true) :
    (branch chars p q).run c = ⟨.error .beforeStart, c, []⟩ := by
  simp [branch, hstart]

/-! ## Alternatives that fail -/

def Fails (p : Matcher) (c : Cursor) : Prop := ∃ r c', p.Returns c r c' ∧ r.success = false

/-- A failure leaves the cursor as it was, the text included. -/
def Restores (p : Matcher) : Prop :=
  ∀ c r c', p.Returns c r c' → r.success = false → c' = c

theorem fails_oneOf {table : Nat → Except Fault Value} (hstart : c.isBeforeStart = false)
    (h : ∀ d, c.next? = some d → d ∉ chars) : (oneOf chars table).Fails c := by
  refine ⟨⟨false, .null, c.position⟩, c, ?_, rfl⟩
  have hindex : c.next?.bind (chars.idxOf? ·) = none := by
    cases hnext : c.next? with
    | none => rfl
    | some d => exact List.idxOf?_eq_none_iff.mpr (h d hnext)
  constructor <;> simp [oneOf, hstart, hindex]

theorem fails_endOfText {d : Char} (h : c.next? = some d) : endOfText.Fails c := by
  refine ⟨⟨false, .null, c.position⟩, c, ?_, rfl⟩
  have hend : c.atEnd = false := decide_eq_false (Int.not_le.mpr (Cursor.lt_size_of_next? h))
  constructor <;> simp [endOfText, hend]

/-- Behind a failure the next alternative starts from the same cursor. -/
theorem bare_run_orElse_of_fails (hp : p.Restores) (hq : q.Coherent) (h : p.Fails c) :
    ((p.orElse q).run c).bare = (q.run c).bare := by
  obtain ⟨r, c', hr, hfailure⟩ := h
  obtain ⟨trace, hrun⟩ := hr.exists_run
  rw [hp c r c' hr hfailure] at hrun
  have hother : (p.orElse q).run c = ((q.fork succeed fail).run c).after trace := by
    rw [orElse_eq_fork, fork, run_bind, hrun, Outcome.andThen_ok, hfailure]
    rfl
  rw [hother, fork_self hq, Outcome.bare_after]

/-- In front of alternatives that fail, an alternative answers for all of them. -/
theorem bare_run_orElse_of_last (hp : p.Restores) (hcoherent : p.Coherent)
    (hq : (q.run c).bare = (fail.run c).bare) : ((p.orElse q).run c).bare = (p.run c).bare := by
  rcases hrun : p.run c with ⟨fault | ⟨success, value, position⟩, c', trace⟩
  · simp [orElse, hrun]
  have hr : p.Returns c ⟨success, value, position⟩ c' := ⟨by rw [hrun], by rw [hrun]⟩
  obtain ⟨hposition, hvalue⟩ := hcoherent c _ c' hr
  cases success with
  | true =>
    dsimp only at hposition
    simp [orElse, hrun, hposition]
  | false =>
    obtain rfl : c' = c := hp c _ c' hr rfl
    obtain rfl : value = .null := hvalue rfl
    dsimp only at hposition
    rcases hother : q.run c' with ⟨fault | s, d, trace'⟩
    · rw [hother] at hq
      cases hq
    · rw [hother] at hq
      cases hq
      simp [orElse, hrun, hother, Outcome.bare, hposition]

end Matcher

namespace Parser

open Parlance.Matcher

variable {fs : Forwards} {budget : Budget} {default : Option Parser}
  {cases before after : List (String × Parser)} {case : String × Parser} {c : Cursor}

/-! ## Which parser a dispatch runs -/

def Claims (case : String × Parser) (c : Cursor) : Prop :=
  ∃ d, c.next? = some d ∧ d ∈ case.1.toList

/-- A later case is looked at before the earlier ones. -/
theorem dispatch_concat (default : Option Parser) (cases : List (String × Parser))
    (case : String × Parser) :
    dispatch default (cases ++ [case]) = branch case.1.toList case.2 (dispatch default cases) := by
  unfold dispatch
  rw [List.foldl_append]
  rfl

theorem run_dispatch_of_not_claims (hstart : c.isBeforeStart = false)
    (h : ∀ case ∈ cases, ¬ Claims case c) :
    (dispatch default cases).run fs budget c = (default.getD failure).run fs budget c := by
  induction cases using List.reverseRecOn with
  | nil => exact run_branch_of_not_mem hstart fun _ _ => List.not_mem_nil
  | append_singleton cases case ih =>
    have hlast := h case (by simp)
    rw [dispatch_concat, ← ih fun other hother => h other (by simp [hother])]
    exact run_branch_of_not_mem hstart fun d hnext hd => hlast ⟨d, hnext, hd⟩

theorem run_dispatch_of_claims (hclaims : Claims case c) (h : ∀ other ∈ after, ¬ Claims other c) :
    (dispatch default (before ++ case :: after)).run fs budget c = case.2.run fs budget c := by
  obtain ⟨d, hnext, hd⟩ := hclaims
  induction after using List.reverseRecOn with
  | nil =>
    rw [dispatch_concat]
    exact run_branch_of_mem hnext hd
  | append_singleton after other ih =>
    have hlast := h other (by simp)
    rw [← List.cons_append, ← List.append_assoc, dispatch_concat,
      ← ih fun other' hother => h other' (by simp [hother])]
    exact run_branch_of_not_mem (Cursor.isBeforeStart_of_next? hnext)
      fun d' hnext' hd' => hlast ⟨d', hnext', hd'⟩

theorem run_dispatch_beforeStart (hstart : c.isBeforeStart = true) :
    (dispatch default cases).run fs budget c = ⟨.error .beforeStart, c, []⟩ := by
  cases cases using List.reverseRecOn with
  | nil => exact run_branch_beforeStart hstart
  | append_singleton cases case =>
    rw [dispatch_concat]
    exact run_branch_beforeStart hstart

/-! ## Alternatives of which one may succeed -/

section Alternatives

variable {ps qs : List Parser} {p : Parser}

/-- The parser ends in failure here, if it returns, and leaves the cursor. -/
structure Declines (fs : Forwards) (budget : Budget) (c : Cursor) (p : Parser) : Prop where
  restores : (p.meaning fs budget).Restores
  fails : (p.meaning fs budget).Fails c

theorem bare_run_firstOf_of_declines (qs : List Parser)
    (h : ∀ p ∈ ps, Declines fs budget c p) :
    ((firstOf (ps ++ qs)).run fs budget c).bare = ((firstOf qs).run fs budget c).bare := by
  induction ps with
  | nil => rfl
  | cons p ps ih =>
    have hp := h p (List.mem_cons_self ..)
    rw [← ih fun q hq => h q (List.mem_cons_of_mem p hq)]
    exact bare_run_orElse_of_fails hp.restores (coherent_firstOf (ps ++ qs)) hp.fails

theorem bare_run_firstOf_of_all_decline (h : ∀ p ∈ ps, Declines fs budget c p) :
    ((firstOf ps).run fs budget c).bare = (failure.run fs budget c).bare := by
  have hnone := bare_run_firstOf_of_declines [] h
  rwa [List.append_nil] at hnone

/-- Wherever it stands among others that decline, one alternative answers for all. -/
theorem bare_run_firstOf_of_perm (hrestores : (p.meaning fs budget).Restores)
    (hcoherent : (p.meaning fs budget).Coherent) (hperm : ps.Perm (p :: qs))
    (h : ∀ q ∈ qs, Declines fs budget c q) :
    ((firstOf ps).run fs budget c).bare = (p.run fs budget c).bare := by
  obtain ⟨front, back, rfl⟩ := List.append_of_mem (hperm.mem_iff.mpr (List.mem_cons_self ..))
  have hothers : (front ++ back).Perm qs := (List.perm_middle.symm.trans hperm).cons_inv
  have hfront : ∀ q ∈ front, Declines fs budget c q := fun q hq =>
    h q (hothers.mem_iff.mp (List.mem_append_left back hq))
  have hback : ∀ q ∈ back, Declines fs budget c q := fun q hq =>
    h q (hothers.mem_iff.mp (List.mem_append_right front hq))
  rw [bare_run_firstOf_of_declines _ hfront]
  exact bare_run_orElse_of_last hrestores hcoherent (bare_run_firstOf_of_all_decline hback)

end Alternatives

/-! ## Dispatch and alternatives -/

def branches (default : Option Parser) (cases : List (String × Parser)) : List Parser :=
  cases.map Prod.snd ++ default.toList

def Apart (case other : String × Parser) : Prop := ∀ d ∈ case.1.toList, d ∉ other.1.toList

instance (case other : String × Parser) : Decidable (Apart case other) :=
  List.decidableBAll (fun d => d ∉ other.1.toList) case.1.toList

/-- At most one of the branches does not fail, wherever a run starts. -/
structure Exclusive (fs : Forwards) (budget : Budget) (default : Option Parser)
    (cases : List (String × Parser)) : Prop where
  restores : ∀ p ∈ branches default cases, (p.meaning fs budget).Restores
  coherent : ∀ p ∈ branches default cases, (p.meaning fs budget).Coherent
  apart : cases.Pairwise Apart
  /-- A case fails where it does not claim the next character, or there is none. -/
  unclaimed : ∀ case ∈ cases, ∀ c : Cursor, c.isBeforeStart = false → ¬ Claims case c →
    (case.2.meaning fs budget).Fails c
  /-- The default fails where a case claims the next character. -/
  claimed : ∀ p ∈ default, ∀ case ∈ cases, ∀ c : Cursor, Claims case c →
    (p.meaning fs budget).Fails c

theorem Apart.symm {case other : String × Parser} (h : Apart case other) : Apart other case :=
  fun d hd hd' => h d hd' hd

theorem Apart.not_claims {case other : String × Parser} (h : Apart case other)
    (hclaims : Claims case c) : ¬ Claims other c := by
  obtain ⟨d, hnext, hd⟩ := hclaims
  intro hother
  obtain ⟨d', hnext', hd'⟩ := hother
  have hsame : d = d' := Option.some.inj (hnext.symm.trans hnext')
  exact h d hd (hsame ▸ hd')

namespace Exclusive

theorem declines_case (h : Exclusive fs budget default cases) (hstart : c.isBeforeStart = false)
    (hcase : case ∈ cases) (hclaims : ¬ Claims case c) : Declines fs budget c case.2 :=
  ⟨h.restores _ (List.mem_append_left _ (List.mem_map_of_mem hcase)),
    h.unclaimed case hcase c hstart hclaims⟩

theorem declines_default (h : Exclusive fs budget default cases) (hcase : case ∈ cases)
    (hclaims : Claims case c) : ∀ p ∈ default.toList, Declines fs budget c p := by
  intro p hp
  exact ⟨h.restores p (List.mem_append_right _ hp),
    h.claimed p (Option.mem_toList.mp hp) case hcase c hclaims⟩

/-- The case that claims the next character answers for all branches. -/
theorem bare_run_of_claims (h : Exclusive fs budget default cases) (hcase : case ∈ cases)
    (hclaims : Claims case c) {ps : List Parser} (hperm : ps.Perm (branches default cases)) :
    ((dispatch default cases).run fs budget c).bare = ((firstOf ps).run fs budget c).bare := by
  have hstart : c.isBeforeStart = false := by
    obtain ⟨d, hnext, _⟩ := hclaims
    exact Cursor.isBeforeStart_of_next? hnext
  have hdefault := h.declines_default hcase hclaims
  have hbranch : case.2 ∈ branches default cases :=
    List.mem_append_left _ (List.mem_map_of_mem hcase)
  have hrestores := h.restores _ hbranch
  have hcoherent := h.coherent _ hbranch
  obtain ⟨before, after, rfl⟩ := List.append_of_mem hcase
  -- no other case claims it
  have hapart := (List.pairwise_cons.mp ((List.pairwise_middle Apart.symm).mp h.apart)).1
  have hothers : ∀ other ∈ before ++ after, ¬ Claims other c := fun other hother =>
    (hapart other hother).not_claims hclaims
  have hlast : ∀ other ∈ after, ¬ Claims other c := fun other hother =>
    hothers other (List.mem_append_right before hother)
  have hmiddle : (branches default (before ++ case :: after)).Perm
      (case.2 :: branches default (before ++ after)) := by
    simp only [branches, List.map_append, List.map_cons, List.append_assoc, List.cons_append]
    exact List.perm_middle
  rw [run_dispatch_of_claims hclaims hlast]
  refine (bare_run_firstOf_of_perm hrestores hcoherent (hperm.trans hmiddle) fun p hp => ?_).symm
  rcases List.mem_append.mp hp with hp | hp
  · obtain ⟨other, hother, rfl⟩ := List.mem_map.mp hp
    have hmem : other ∈ before ++ case :: after := by
      rcases List.mem_append.mp hother with hfront | hback
      · exact List.mem_append_left _ hfront
      · exact List.mem_append_right _ (List.mem_cons_of_mem case hback)
    exact h.declines_case hstart hmem (hothers other hother)
  · exact hdefault p hp

/-- Where no case claims the next character, the default answers. -/
theorem bare_run_of_not_claims (h : Exclusive fs budget default cases)
    (hstart : c.isBeforeStart = false) (hclaims : ∀ case ∈ cases, ¬ Claims case c)
    {ps : List Parser} (hperm : ps.Perm (branches default cases)) :
    ((dispatch default cases).run fs budget c).bare = ((firstOf ps).run fs budget c).bare := by
  have hcases : ∀ p ∈ cases.map Prod.snd, Declines fs budget c p := by
    intro p hp
    obtain ⟨case, hcase, rfl⟩ := List.mem_map.mp hp
    exact h.declines_case hstart hcase (hclaims case hcase)
  rw [run_dispatch_of_not_claims hstart hclaims]
  cases default with
  | none =>
    refine (bare_run_firstOf_of_all_decline fun p hp => hcases p ?_).symm
    have hmem := hperm.mem_iff.mp hp
    rwa [branches, Option.toList_none, List.append_nil] at hmem
  | some q =>
    have hbranch : q ∈ branches (some q) cases := List.mem_append_right _ (List.mem_singleton_self q)
    have hlast : (branches (some q) cases).Perm (q :: cases.map Prod.snd) := by
      rw [branches, Option.toList_some]
      exact List.perm_append_singleton q _
    exact (bare_run_firstOf_of_perm (h.restores q hbranch) (h.coherent q hbranch)
      (hperm.trans hlast) hcases).symm

end Exclusive

/-- A failure of a parser without hand-written parts leaves the cursor. -/
theorem restores_of_isComposed
    (hfs : ∀ id body, fs.target? id = some body → body.isComposed = true) {p : Parser}
    (hp : p.isComposed = true) : (p.meaning fs budget).Restores := by
  intro c r c' hr hfailure
  have hreach : c.Reaches c' := hr.2 ▸ reaches_run_of_isComposed hfs hp budget c
  have hmark : c'.mark = c.mark :=
    safe_iff.mp (safe_of_isComposed hfs hp) budget.rounds budget.depth c r c' hr hfailure
  rw [← c'.rewind_mark, hmark]
  exact hreach.rewind_mark

/-- A dispatch runs the last case that claims the next character, and passes its reply on; it
runs the default where no case does, and fails without one. If at most one of its branches
does not fail, wherever a run starts, it is the same as alternatives, in any order: same exit
and same cursor. In front of the text the look is a fault. -/
theorem dispatch_runs_last_claimant (fs : Forwards) (budget : Budget) (default : Option Parser)
    (cases : List (String × Parser)) :
    (∀ c before case after, cases = before ++ case :: after → Claims case c →
      (∀ other ∈ after, ¬ Claims other c) →
      (dispatch default cases).run fs budget c = case.2.run fs budget c) ∧
    (∀ c, c.isBeforeStart = false → (∀ case ∈ cases, ¬ Claims case c) →
      (∀ p, default = some p → (dispatch default cases).run fs budget c = p.run fs budget c) ∧
      (default = none →
        (dispatch default cases).run fs budget c = ⟨.ok ⟨false, .null, c.position⟩, c, []⟩)) ∧
    (∀ c, c.isBeforeStart = true →
      (dispatch default cases).run fs budget c = ⟨.error .beforeStart, c, []⟩) ∧
    (Exclusive fs budget default cases →
      ∀ alternatives : List Parser, alternatives.Perm (branches default cases) →
      ∀ c, c.isBeforeStart = false →
        ((dispatch default cases).run fs budget c).exit =
          ((firstOf alternatives).run fs budget c).exit ∧
        ((dispatch default cases).run fs budget c).cursor =
          ((firstOf alternatives).run fs budget c).cursor) := by
  refine ⟨fun c before case after hcases hclaims hlast => ?_, fun c hstart hclaims => ⟨?_, ?_⟩,
    fun c => run_dispatch_beforeStart, fun h alternatives hperm c hstart => ?_⟩
  · rw [hcases]
    exact run_dispatch_of_claims hclaims hlast
  · intro p hp
    rw [run_dispatch_of_not_claims hstart hclaims, hp]
    rfl
  · intro hnone
    rw [run_dispatch_of_not_claims hstart hclaims, hnone]
    rfl
  · have hbare : ((dispatch default cases).run fs budget c).bare =
        ((firstOf alternatives).run fs budget c).bare := by
      by_cases hclaims : ∃ case ∈ cases, Claims case c
      · obtain ⟨case, hcase, hclaims⟩ := hclaims
        exact h.bare_run_of_claims hcase hclaims hperm
      · exact h.bare_run_of_not_claims hstart
          (fun case hcase hclaim => hclaims ⟨case, hcase, hclaim⟩) hperm
    have hexit := congrArg Outcome.exit hbare
    have hcursor := congrArg Outcome.cursor hbare
    exact ⟨hexit, hcursor⟩

/-- The signs of sums and of products share no character, and the end of the text has none:
the alternatives may stand in any order. Where cases share a character, the last of them
runs, whether it succeeds or not. -/
theorem dispatch_runs_last_claimant_signs :
    let sums := oneOf "+-"
    let products := oneOf "*/"
    let cases := [("+-", sums), ("*/", products)]
    let shared := dispatch none [("ab", anyChar), ("b", sums), ("", endOfText)]
    Exclusive .empty ⟨0, 0⟩ (some endOfText) cases ∧
      (∀ c, c.isBeforeStart = false →
        ((dispatch (some endOfText) cases).run .empty ⟨0, 0⟩ c).exit =
          ((firstOf [products, endOfText, sums]).run .empty ⟨0, 0⟩ c).exit ∧
        ((dispatch (some endOfText) cases).run .empty ⟨0, 0⟩ c).cursor =
          ((firstOf [products, endOfText, sums]).run .empty ⟨0, 0⟩ c).cursor) ∧
      (dispatch (some endOfText) cases).run .empty ⟨0, 0⟩ (.ofText "") =
        endOfText.run .empty ⟨0, 0⟩ (.ofText "") ∧
      shared.run .empty ⟨0, 0⟩ (.ofText "b") = sums.run .empty ⟨0, 0⟩ (.ofText "b") ∧
      shared.run .empty ⟨0, 0⟩ (.ofText "c") =
        ⟨.ok ⟨false, .null, 0⟩, .ofText "c", []⟩ ∧
      shared.run .empty ⟨0, 0⟩ ⟨#['b'], -2, 0⟩ = ⟨.error .beforeStart, ⟨#['b'], -2, 0⟩, []⟩ := by
  intro sums products cases shared
  have hfs : ∀ id body, Forwards.empty.target? id = some body → body.isComposed = true := nofun
  have hcomposed : ∀ p ∈ branches (some endOfText) cases, p.isComposed = true := by decide
  have hexclusive : Exclusive .empty ⟨0, 0⟩ (some endOfText) cases := by
    refine ⟨fun p hp => restores_of_isComposed hfs (hcomposed p hp), fun p hp => ?_,
      List.pairwise_pair.mpr (by decide), fun case hcase c hstart hclaims => ?_,
      fun p hp case _ c hclaims => ?_⟩
    · exact coherent_matcher (coherent_call hfs 0 0) p (hcomposed p hp)
    · rcases List.mem_pair.mp hcase with rfl | rfl
      · exact fails_oneOf hstart fun d hnext hd => hclaims ⟨d, hnext, hd⟩
      · exact fails_oneOf hstart fun d hnext hd => hclaims ⟨d, hnext, hd⟩
    · obtain rfl : endOfText = p := Option.some.inj hp
      obtain ⟨d, hnext, _⟩ := hclaims
      exact fails_endOfText hnext
  have hperm : [products, endOfText, sums].Perm (branches (some endOfText) cases) :=
    List.perm_append_singleton sums [products, endOfText]
  obtain ⟨-, hdefault, -, hany⟩ :=
    dispatch_runs_last_claimant .empty ⟨0, 0⟩ (some endOfText) cases
  obtain ⟨hlast, hnone, hfault, -⟩ := dispatch_runs_last_claimant .empty ⟨0, 0⟩ none
    [("ab", anyChar), ("b", sums), ("", endOfText)]
  refine ⟨hexclusive, hany hexclusive _ hperm, (hdefault _ rfl ?_).1 _ rfl, ?_, ?_, hfault _ rfl⟩
  · intro case _ hclaims
    obtain ⟨d, hnext, _⟩ := hclaims
    cases hnext
  · refine hlast _ [("ab", anyChar)] ("b", sums) [("", endOfText)] rfl ⟨'b', rfl, by decide⟩ ?_
    intro other hother hclaims
    obtain rfl := List.mem_singleton.mp hother
    obtain ⟨d, _, hd⟩ := hclaims
    cases hd
  · refine (hnone (.ofText "c") rfl ?_).2 rfl
    intro case hcase hclaims
    obtain ⟨d, hnext, hd⟩ := hclaims
    obtain rfl : 'c' = d := Option.some.inj hnext
    revert case
    decide

end Parser
end Parlance
