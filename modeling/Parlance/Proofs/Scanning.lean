import Parlance.Proofs.Repetition

/-! # Runs of characters

A scan looks at the characters ahead one after the other, each with its index in the run, and
stops at the first that does not pass. So it takes the longest front of the rest of the text
whose characters all pass, wherever the cursor stands in the text, and nothing past its end.

A test that has no use for the index can as well be put to one character at a time: the
repetition of a single character then takes the same run, joins the code points to the same
text, and stops at the same place. One of a set of characters is found by its index in the
set; an index stands for the same code point whether or not the character occurs again. -/
namespace Parlance

/-! ## The longest run -/

namespace CharTest

/-- Every character passes the test at its own index. -/
def Accepts (test : CharTest) (cs : List Char) : Prop :=
  ∀ i d, cs[i]? = some d → test d.toNat i = true

def behind (test : CharTest) : CharTest := fun code index => test code (index + 1)

/-- The longest front of the characters ahead that the test accepts. -/
structure LongestRun (test : CharTest) (ahead taken : List Char) : Prop where
  front : taken <+: ahead
  accepted : test.Accepts taken
  longest : ∀ other, other <+: ahead → test.Accepts other → other.length ≤ taken.length

variable {test : CharTest} {ahead taken cs : List Char} {d : Char}

theorem accepts_nil : test.Accepts [] := by
  intro i d h
  cases h

theorem accepts_cons : test.Accepts (d :: cs) ↔ test d.toNat 0 = true ∧ test.behind.Accepts cs := by
  constructor
  · intro h
    exact ⟨h 0 d rfl, fun i e he => h (i + 1) e he⟩
  · rintro ⟨hd, hcs⟩ i e he
    cases i with
    | zero =>
      cases he
      exact hd
    | succ i => exact hcs i e he

theorem Accepts.concat (h : test.Accepts cs) (hd : test d.toNat cs.length = true) :
    test.Accepts (cs ++ [d]) := by
  intro i e he
  rcases Nat.lt_trichotomy i cs.length with hi | rfl | hi
  · rw [List.getElem?_append_left hi] at he
    exact h i e he
  · rw [List.getElem?_concat_length] at he
    cases he
    exact hd
  · have hend : (cs ++ [d]).length ≤ i := by
      rw [List.length_append, List.length_singleton]
      omega
    rw [List.getElem?_eq_none hend] at he
    cases he

/-- Where the longest run ends, the characters do, or the next one does not pass. -/
theorem LongestRun.stops (h : LongestRun test ahead taken) : taken.length = ahead.length ∨
    ∃ d, ahead[taken.length]? = some d ∧ test d.toNat taken.length = false := by
  obtain ⟨rest, rfl⟩ := h.front
  cases rest with
  | nil =>
    left
    rw [List.append_nil]
  | cons d rest =>
    right
    refine ⟨d, by simp, ?_⟩
    by_contra hpasses
    have hlonger : test.Accepts (taken ++ [d]) :=
      h.accepted.concat (Bool.eq_true_of_not_eq_false hpasses)
    have hlength := h.longest (taken ++ [d]) ⟨rest, by simp⟩ hlonger
    rw [List.length_append, List.length_singleton] at hlength
    omega

theorem runOf_succ (test : CharTest) (cs : List Char) (index : Nat) :
    Cursor.runOf test cs (index + 1) = Cursor.runOf test.behind cs index := by
  induction cs generalizing index with
  | nil => rfl
  | cons d cs ih =>
    rw [Cursor.runOf, Cursor.runOf, ih]
    rfl

/-- The run that a scan takes is the longest. -/
theorem longestRun_runOf (test : CharTest) (ahead : List Char) :
    LongestRun test ahead (Cursor.runOf test ahead 0) := by
  induction ahead generalizing test with
  | nil => exact ⟨List.prefix_refl [], accepts_nil, fun other hother _ => hother.length_le⟩
  | cons d cs ih =>
    have hrest := ih test.behind
    by_cases hd : test d.toNat 0 = true
    · have hrun : Cursor.runOf test (d :: cs) 0 = d :: Cursor.runOf test.behind cs 0 := by
        rw [Cursor.runOf, if_pos hd, runOf_succ]
      rw [hrun]
      refine ⟨List.cons_prefix_cons.mpr ⟨rfl, hrest.front⟩,
        accepts_cons.mpr ⟨hd, hrest.accepted⟩, ?_⟩
      intro other hlonger haccepts
      cases other with
      | nil => exact Nat.zero_le _
      | cons e other =>
        obtain ⟨rfl, hother⟩ := List.cons_prefix_cons.mp hlonger
        exact Nat.succ_le_succ (hrest.longest other hother (accepts_cons.mp haccepts).2)
    · have hrun : Cursor.runOf test (d :: cs) 0 = [] := by
        rw [Cursor.runOf, if_neg hd]
      have hfront : [] <+: d :: cs := List.nil_prefix
      rw [hrun]
      refine ⟨hfront, accepts_nil, ?_⟩
      intro other hlonger haccepts
      cases other with
      | nil => exact Nat.le_refl 0
      | cons e other =>
        obtain ⟨rfl, _⟩ := List.cons_prefix_cons.mp hlonger
        exact absurd (accepts_cons.mp haccepts).1 hd

end CharTest

namespace Matcher

open Parlance.Action

/-! ## One character at a time -/

section Satisfy

variable {test : CharTest} {holds : Nat → Bool} {c : Cursor} {ahead : List Char} {d : Char}

theorem takes_satisfy (h : c.Faces (d :: ahead)) (hd : test d.toNat 0 = true) :
    (satisfy test.toCheck).Takes c 1 (.int d.toNat) := by
  simp [Takes, satisfy, consume, CharTest.toCheck, h.isBeforeStart_eq, h.next?_eq, hd]

theorem refuses_satisfy (h : c.Faces ahead)
    (hnone : ∀ d, ahead.head? = some d → test d.toNat 0 = false) :
    (satisfy test.toCheck).Refuses c := by
  cases ahead with
  | nil => simp [Refuses, satisfy, h.isBeforeStart_eq, h.next?_eq]
  | cons d ahead =>
    simp [Refuses, satisfy, CharTest.toCheck, h.isBeforeStart_eq, h.next?_eq, hnone d rfl]

/-- The loop takes the characters of a run one by one, and finds the end of it in one round
more. -/
theorem run_collect_satisfy {repetition : Repetition} {rounds : Nat} (h : c.Faces ahead)
    (hrounds : ahead.length < rounds) :
    (collect repetition (satisfy (CharTest.toCheck fun code _ => holds code)) rounds).run c =
      ⟨.ok ((ahead.takeWhile fun d => holds d.toNat).map fun d => .int d.toNat),
        c.forward (ahead.takeWhile fun d => holds d.toNat).length, []⟩ := by
  induction rounds generalizing c ahead with
  | zero => exact absurd hrounds (Nat.not_lt_zero _)
  | succ rounds ih =>
    cases ahead with
    | nil =>
      rw [run_collect_of_failure (refuses_satisfy h nofun).run_eq rfl]
      simp
    | cons d ahead =>
      cases hd : holds d.toNat with
      | false =>
        have hstop : (satisfy (CharTest.toCheck fun code _ => holds code)).Refuses c := by
          refine refuses_satisfy h fun e he => ?_
          cases he
          exact hd
        rw [run_collect_of_failure hstop.run_eq rfl]
        simp [hd]
      | true =>
        have hstep : (satisfy (CharTest.toCheck fun code _ => holds code)).Takes c 1
            (.int d.toNat) := takes_satisfy h hd
        have hmoved : (c.forward 1).position ≠ c.position := by
          rw [Cursor.position_forward]
          omega
        have hbehind : (c.forward [d].length).Faces ahead := Cursor.Faces.forward h
        rw [List.length_singleton] at hbehind
        rw [run_collect_of_stride hstep.run_eq rfl hmoved,
          ih hbehind (Nat.lt_of_succ_lt_succ hrounds)]
        simp [hd, Nat.add_comm]

/-- The numbers of characters are joined to the code points of these characters. -/
theorem joinCodes_codes (cs : List Char) :
    joinCodes (cs.map fun d => .int d.toNat) = .ok (cs.map CodePoint.ofChar) := by
  refine joinCodes_of_hasCode ?_
  rw [List.forall₂_map_left_iff, List.forall₂_map_right_iff]
  exact List.forall₂_same.mpr fun d _ => rfl

/-- One character at a time or all at once, a test without use for the index takes the same
run. -/
theorem run_takeWhile_eq_manyChars {rounds : Nat} (h : c.Faces ahead)
    (hrounds : ahead.length < rounds) :
    (takeWhile (CharTest.toCheck fun code _ => holds code)).run c =
      ((satisfy (CharTest.toCheck fun code _ => holds code)).manyChars rounds).run c := by
  rw [(takes_takeWhile h _).run_eq, Cursor.runOf_eq_takeWhile]
  simp [manyChars, Value.ofChars, run_collect_satisfy h hrounds, joinCodes_codes]

end Satisfy

/-! ## One of a set of characters -/

/-- The callback turns an index in the set into the code point of the character there. -/
def LooksUp (chars : List Char) (f : Value → Except Fault Value) : Prop :=
  ∀ (i : Nat) (d : Char), chars[i]? = some d → f (.int i) = .ok (.int d.toNat)

/-- A character found by its index, and then looked up again, is a character tested for being
in the set. -/
theorem map_oneOf_eq_satisfy {chars : List Char} {f : Value → Except Fault Value}
    (hf : LooksUp chars f) :
    (oneOf chars fun index => .ok (.int index)).map f =
      satisfy (CharTest.toCheck fun code _ => chars.any fun e => e.toNat = code) := by
  ext1
  funext c
  cases hstart : c.isBeforeStart with
  | true => simp [Matcher.map, oneOf, satisfy, hstart]
  | false =>
    cases hnext : c.next? with
    | none => simp [Matcher.map, oneOf, satisfy, hstart, hnext]
    | some d =>
      have hmem : (chars.any fun e => e.toNat = d.toNat) = true ↔ d ∈ chars := by
        simp [Char.toNat_inj]
      cases hindex : chars.idxOf? d with
      | none =>
        have hnot := mt hmem.mp (List.idxOf?_eq_none_iff.mp hindex)
        simp [Matcher.map, oneOf, satisfy, CharTest.toCheck, hstart, hnext, hindex, hnot]
      | some i =>
        obtain ⟨hlt, hget, _⟩ := List.idxOf?_eq_some_iff.mp hindex
        have hcode := hf i d (List.getElem?_eq_some_iff.mpr ⟨hlt, hget⟩)
        have hin := hmem.mpr (hget ▸ List.getElem_mem hlt)
        simp [Matcher.map, oneOf, satisfy, consume, CharTest.toCheck, hstart, hnext, hindex,
          hcode, hin]

end Matcher

namespace Parser

open Parlance.Matcher

/-- A scan takes the longest run that its test accepts, moves behind it and does nothing else,
whether the run is yielded or counted. A test without use for the index takes the same run one
character at a time, and so does a set of characters, by index and code point. -/
theorem scan_takes_longest (fs : Forwards) (text : Array Char) (k : Nat) (level : Int) :
    (∀ test : CharTest, ∃ taken, test.LongestRun (text.toList.drop k) taken ∧
      (taken.length = (text.toList.drop k).length ∨ ∃ d,
        (text.toList.drop k)[taken.length]? = some d ∧ test d.toNat taken.length = false) ∧
      (Matcher.takeRun test.toCheck).run ⟨text, k, level⟩ =
        ⟨.ok taken, ⟨text, k + taken.length, level⟩, []⟩ ∧
      (Matcher.skipRun test.toCheck).run ⟨text, k, level⟩ =
        ⟨.ok taken.length, ⟨text, k + taken.length, level⟩, []⟩ ∧
      ∀ budget, (takeWhile test).run fs budget ⟨text, k, level⟩ =
        ⟨.ok ⟨true, .ofChars taken, k + taken.length⟩,
          ⟨text, k + taken.length, level⟩, []⟩) ∧
    ∀ budget : Budget, text.size - k < budget.rounds →
      (∀ holds : Nat → Bool,
        (takeWhile fun code _ => holds code).run fs budget ⟨text, k, level⟩ =
          (satisfy fun code _ => holds code).manyChars.run fs budget ⟨text, k, level⟩) ∧
      (∀ (chars : String) (f : Value → Except Fault Value), LooksUp chars.toList f →
        (stringOf chars).run fs budget ⟨text, k, level⟩ =
          ((oneOf chars).map f).manyChars.run fs budget ⟨text, k, level⟩) := by
  have hfaces := Cursor.faces_drop text k level
  refine ⟨fun test => ?_, fun budget hrounds => ?_⟩
  · have hlongest := test.longestRun_runOf (text.toList.drop k)
    refine ⟨Cursor.runOf test (text.toList.drop k) 0, hlongest, hlongest.stops, ?_, ?_,
      fun budget => (takes_takeWhile hfaces test).run_eq⟩
    · rw [run_takeRun hfaces, Cursor.runLength_toCheck]
      simp only [Cursor.take_length_runOf]
      rfl
    · rw [run_skipRun_toCheck hfaces]
      rfl
  · have henough : (text.toList.drop k).length < budget.rounds := by
      rwa [List.length_drop, Array.length_toList]
    refine ⟨fun holds => run_takeWhile_eq_manyChars hfaces henough, fun chars f hf => ?_⟩
    have hbody := map_oneOf_eq_satisfy hf
    show _ = (((Matcher.oneOf chars.toList fun index => .ok (.int index)).map f).manyChars
      budget.rounds).run ⟨text, k, level⟩
    rw [hbody]
    exact run_takeWhile_eq_manyChars hfaces henough

/-- Letters behind a digit, and the same ones as members of a set that has one of them
twice. -/
theorem scan_takes_longest_letters :
    let text := #['7', 'a', 'b', 'b', 'a', '!']
    let code : Value → Except Fault Value := fun v =>
      match v.toInt?.bind (elementAt? #['b', 'a', 'b']) with
      | some d => .ok (.int d.toNat)
      | none => .error (.callback "IndexError")
    let letters := fun code _ => CodePoint.isLetter code
    let found : Outcome Reply := ⟨.ok ⟨true, .ofChars "abba".toList, 5⟩, ⟨text, 5, 0⟩, []⟩
    text.size - 1 < 6 ∧ LooksUp "bab".toList code ∧
      (takeWhile letters).run .empty ⟨0, 6⟩ ⟨text, 1, 0⟩ = found ∧
      (satisfy letters).manyChars.run .empty ⟨0, 6⟩ ⟨text, 1, 0⟩ = found ∧
      (stringOf "bab").run .empty ⟨0, 6⟩ ⟨text, 1, 0⟩ = found ∧
      ((oneOf "bab").map code).manyChars.run .empty ⟨0, 6⟩ ⟨text, 1, 0⟩ = found := by
  intro text code letters found
  have hcode : LooksUp "bab".toList code := by
    intro i d h
    match i with
    | 0 => cases h; rfl
    | 1 => cases h; rfl
    | 2 => cases h; rfl
    | i + 3 => cases h
  obtain ⟨hclass, hset⟩ := (scan_takes_longest .empty text 1 0).2 ⟨0, 6⟩ (by decide)
  have htaken : (takeWhile letters).run .empty ⟨0, 6⟩ ⟨text, 1, 0⟩ = found := rfl
  have htaken' : (stringOf "bab").run .empty ⟨0, 6⟩ ⟨text, 1, 0⟩ = found := rfl
  exact ⟨by decide, hcode, htaken, (hclass CodePoint.isLetter).symm.trans htaken, htaken',
    (hset "bab" code hcode).symm.trans htaken'⟩

/-- From a place that counts from the end a run goes on with the start of the text: it moves by
three characters here, and yields the one that lies between the two places. -/
example : (Matcher.takeRun (CharTest.toCheck fun _ _ => true)).run ⟨#['a', 'b'], -1, 0⟩ =
    ⟨.ok ['b'], ⟨#['a', 'b'], 2, 0⟩, []⟩ := rfl

end Parser
end Parlance
