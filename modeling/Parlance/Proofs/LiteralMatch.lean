import Parlance.Proofs.Refactoring

/-! # Matching by counting

A literal is not compared with the text: it scans a run that spells it out, and succeeds if
the run is as long as the literal. The two come to the same. The run cannot be longer, and it
is as long only where the text goes on with the literal; a shorter one is given back. So a
literal in two parts is the two literals in a row, although a mismatch in the second part is
found behind a match of the first, and taken back across both. This is said of the characters
that a scan meets, so it holds on cursors that count from the end of the text as well.

Leading tabs are counted in the same way, with the level of indentation as the number that is
asked for. The run that spells out so many tabs is the same run. -/
namespace Parlance

/-! ## The characters to come -/

namespace Cursor

variable {c : Cursor} {taken rest : List Char}

theorem charsFrom_drop (text : Array Char) (limit : Nat) (position : Int) (n : Nat)
    (h : n ≤ (charsFrom text limit position).length) :
    charsFrom text (limit - n) (position + n) = (charsFrom text limit position).drop n := by
  induction n generalizing limit position with
  | zero => simp
  | succ n ih =>
    cases limit with
    | zero => cases h
    | succ limit =>
      rw [charsFrom] at h ⊢
      cases hhere : elementAt? text position with
      | none =>
        rw [hhere] at h
        cases h
      | some d =>
        rw [hhere] at h
        have hplace : position + ((n + 1 : Nat) : Int) = position + 1 + n := by omega
        rw [Nat.add_sub_add_right, hplace, ih limit (position + 1) (Nat.le_of_succ_le_succ h)]
        rfl

/-- Behind what has been taken the other characters are still to come. -/
theorem upcoming_forward (h : c.upcoming = taken ++ rest) :
    (c.forward taken.length).upcoming = rest := by
  have hleft : (c.forward taken.length).remaining = c.remaining - taken.length := by
    simp only [remaining, position_forward, text_forward]
    omega
  have hlength : taken.length ≤ c.upcoming.length := by
    rw [h, List.length_append]
    omega
  rw [upcoming, hleft, position_forward, text_forward, charsFrom_drop _ _ _ _ hlength]
  show c.upcoming.drop taken.length = rest
  rw [h, List.drop_left]

theorem isBeforeStart_forward (h : c.isBeforeStart = false) (n : Nat) :
    (c.forward n).isBeforeStart = false := by
  rw [isBeforeStart, decide_eq_false_iff_not] at h ⊢
  rw [position_forward, text_forward]
  omega

end Cursor

namespace Matcher

open Parlance.Action

variable {c : Cursor}

/-! ## Literals in a row -/

theorem run_literal_beforeStart (chars : List Char) (h : c.isBeforeStart = true) :
    (literal chars).run c = ⟨.error .beforeStart, c, []⟩ := by
  simp [literal, skipRun, scan, h]

/-- A literal in two parts is the one behind the other, wherever the cursor stands. -/
theorem literal_append (chars chars' : List Char) :
    literal (chars ++ chars') = (literal chars).seqRight (literal chars') := by
  ext1
  funext c
  cases hstart : c.isBeforeStart with
  | true => simp [seqRight, run_literal_beforeStart _ hstart]
  | false =>
    by_cases hfirst : chars <+: c.upcoming
    · have htakes := takes_literal_upcoming hstart hfirst
      obtain ⟨rest, hrest⟩ := hfirst
      have hstart' := Cursor.isBeforeStart_forward hstart chars.length
      have hbehind : (c.forward chars.length).upcoming = rest := Cursor.upcoming_forward hrest.symm
      have hboth : chars ++ chars' <+: c.upcoming ↔
          chars' <+: (c.forward chars.length).upcoming := by
        rw [hbehind, ← hrest, List.prefix_append_right_inj]
      by_cases hsecond : chars' <+: (c.forward chars.length).upcoming
      · have htakes' := takes_literal_upcoming hstart' hsecond
        rw [(takes_literal_upcoming hstart (hboth.mpr hsecond)).run_eq,
          (takes_seqRight htakes htakes').run_eq, List.length_append]
      · -- the first part has moved the cursor by now, and the sequence returns to its start
        have hrefuses := refuses_literal_upcoming hstart' hsecond
        rw [(refuses_literal_upcoming hstart (mt hboth.mp hsecond)).run_eq,
          (refuses_seqRight_of_right htakes hrefuses).run_eq]
    · have hneither : ¬ chars ++ chars' <+: c.upcoming := fun h =>
        hfirst ((List.prefix_append chars chars').trans h)
      rw [(refuses_literal_upcoming hstart hneither).run_eq,
        (refuses_seqRight (refuses_literal_upcoming hstart hfirst)).run_eq]

/-! ## Tabs -/

/-- Tabs up to a level are what spells out that many tabs. -/
theorem spells_replicate (d : Nat) : spells (List.replicate d '\t') = tabs d := by
  funext code index
  by_cases hindex : index < d
  · have htab : '\t'.toNat = CodePoint.tab := rfl
    simp [spells, tabs, hindex, htab, eq_comm]
  · simp [spells, tabs, hindex]

/-- Leading tabs are a literal of as many tabs as the level says, and yield the level. -/
theorem run_leadingTabs {d : Nat} (hlevel : c.indent = d) (hstart : c.isBeforeStart = false) :
    leadingTabs.run c =
      ((literal (List.replicate d '\t')).run c).mapValue fun _ => .int d := by
  cases d with
  | zero =>
    -- on level zero nothing is scanned, and the literal without characters takes none
    rw [List.replicate_zero, (takes_literal_upcoming hstart List.nil_prefix).run_eq]
    simp [leadingTabs, hlevel, Outcome.mapValue, Reply.mapValue, Except.map]
  | succ d =>
    have hnonzero : ((d + 1 : Nat) : Int) ≠ 0 := by omega
    simp only [leadingTabs, literal, run_bind, run_look, Outcome.andThen_ok, Outcome.after_nil,
      Cursor.indent_mark, hlevel, hnonzero, if_false, spells_replicate,
      run_skipRun_upcoming hstart, List.length_replicate, Int.natCast_inj]
    by_cases hcount : (Cursor.runOf (tabs (d + 1 : Nat)) c.upcoming 0).length = d + 1
    · rw [hcount, if_pos rfl, if_pos rfl]
      rfl
    · rw [if_neg hcount, if_neg hcount]
      rfl

end Matcher

namespace Parser

open Parlance.Matcher

variable {fs : Forwards} {budget : Budget}

theorem run_literal (s : String) (text : Array Char) (k : Nat) (level : Int) :
    (literal s).run fs budget ⟨text, k, level⟩ =
      if s.toList <+: text.toList.drop k then
        ⟨.ok ⟨true, .null, k + s.length⟩, ⟨text, k + s.length, level⟩, []⟩
      else ⟨.ok ⟨false, .null, k⟩, ⟨text, k, level⟩, []⟩ := by
  have hfaces := Cursor.faces_drop text k level
  rw [← String.length_toList]
  split
  · next hfront =>
    rw [← hfaces.upcoming_eq] at hfront
    exact (takes_literal_upcoming hfaces.isBeforeStart_eq hfront).run_eq
  · next hne => exact (refuses_literal hfaces hne).run_eq

theorem run_leadingTabs (text : Array Char) (k d : Nat) :
    leadingTabs.run fs budget ⟨text, k, d⟩ =
      ((literal (String.ofList (List.replicate d '\t'))).run fs budget ⟨text, k, d⟩).mapValue
        fun _ => .int d := by
  have hstart := (Cursor.faces_drop text k d).isBeforeStart_eq
  show Matcher.leadingTabs.run _ =
    ((Matcher.literal (String.ofList (List.replicate d '\t')).toList).run _).mapValue _
  rw [String.toList_ofList]
  exact Matcher.run_leadingTabs rfl hstart

/-- Leading tabs take no more tabs than the level says. -/
theorem cursor_leadingTabs (text : Array Char) (k d : Nat) :
    ∃ n ≤ d, (leadingTabs.run fs budget ⟨text, k, d⟩).cursor = ⟨text, k + n, d⟩ ∧
      List.replicate n '\t' <+: text.toList.drop k := by
  rw [run_leadingTabs, run_literal, String.toList_ofList]
  split
  · next hfront => exact ⟨d, Nat.le_refl d, by simp [Outcome.mapValue], hfront⟩
  · exact ⟨0, Nat.zero_le d, by simp [Outcome.mapValue], List.nil_prefix⟩

/-- A literal succeeds where the rest of the text begins with it, and moves behind it; elsewhere
it fails and moves nothing. So a literal in two parts is the two literals in a row, on every
cursor. Leading tabs are a literal of as many tabs as the level says, which yields the level;
they take no more tabs than that. -/
theorem literal_exact (fs : Forwards) (budget : Budget) :
    (∀ (s : String) (text : Array Char) (k : Nat) (level : Int),
      (literal s).run fs budget ⟨text, k, level⟩ =
        if s.toList <+: text.toList.drop k then
          ⟨.ok ⟨true, .null, k + s.length⟩, ⟨text, k + s.length, level⟩, []⟩
        else ⟨.ok ⟨false, .null, k⟩, ⟨text, k, level⟩, []⟩) ∧
    (∀ (a b : String) (c : Cursor),
      (literal (a ++ b)).run fs budget c = ((literal a).seqRight (literal b)).run fs budget c) ∧
    (∀ (text : Array Char) (k d : Nat),
      leadingTabs.run fs budget ⟨text, k, d⟩ =
        ((literal (String.ofList (List.replicate d '\t'))).run fs budget ⟨text, k, d⟩).mapValue
          (fun _ => .int d) ∧
      ∃ n ≤ d, (leadingTabs.run fs budget ⟨text, k, d⟩).cursor = ⟨text, k + n, d⟩ ∧
        List.replicate n '\t' <+: text.toList.drop k) := by
  refine ⟨run_literal, fun a b c => ?_, fun text k d =>
    ⟨run_leadingTabs text k d, cursor_leadingTabs text k d⟩⟩
  show (Matcher.literal (a ++ b).toList).run c = _
  rw [String.toList_append, literal_append]
  rfl

end Parser
end Parlance
