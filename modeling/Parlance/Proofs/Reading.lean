import Parlance.Parser.Forward

/-! # Runs on the characters ahead

A cursor that stands in its text is described by the characters ahead of it
(`Cursor.Faces`). Three judgements say how a run on such a cursor ends:
`Matcher.Takes` with a success that consumes so many characters,
`Matcher.Refuses` with a failure that leaves the cursor, `Matcher.Sinks` because
the limit on nesting was reached. Every primitive that the grammar of expressions
is made of, and every combinator, has its rules here, so that later proofs never
open a definition of an action again. -/
namespace Parlance

/-! ## The characters ahead -/

/-- The cursor does not stand before its text, and these characters are ahead. -/
structure Cursor.Faces (c : Cursor) (ahead : List Char) : Prop where
  inside : 0 ≤ c.position
  rest_eq : c.rest = ahead

namespace Cursor

@[simp]
theorem position_mark (c : Cursor) : c.mark.position = c.position := rfl

@[simp]
theorem indent_mark (c : Cursor) : c.mark.indent = c.indent := rfl

@[simp]
theorem position_forward (c : Cursor) (n : Nat) : (c.forward n).position = c.position + n := rfl

@[simp]
theorem text_forward (c : Cursor) (n : Nat) : (c.forward n).text = c.text := rfl

@[simp]
theorem forward_zero (c : Cursor) : c.forward 0 = c := by
  simp [forward]

@[simp]
theorem forward_forward (c : Cursor) (n k : Nat) :
    (c.forward n).forward k = c.forward (n + k) := by
  simp [forward, Int.add_assoc]

@[simp]
theorem rewind_forward (c : Cursor) (n : Nat) : (c.forward n).rewind c.mark = c := rfl

variable {c : Cursor} {ahead : List Char}

/-- At a place that does not count from the end the rest of the text is ahead. -/
theorem faces_drop (text : Array Char) (k : Nat) (level : Int) :
    (⟨text, k, level⟩ : Cursor).Faces (text.toList.drop k) :=
  ⟨Int.natCast_nonneg k, rfl⟩

theorem faces_ofText (text : String) : (ofText text).Faces text.toList :=
  ⟨Int.le_refl 0, rfl⟩

/-- A cursor that faces characters has a natural number for a place. -/
theorem Faces.exists_position (h : c.Faces ahead) :
    ∃ n : Nat, c.position = n ∧ c.text.toList.drop n = ahead := by
  obtain ⟨n, hn⟩ := Int.eq_ofNat_of_zero_le h.inside
  refine ⟨n, hn, ?_⟩
  rw [← h.rest_eq, rest, offset, hn, offsetOf_natCast]

theorem Faces.isBeforeStart_eq (h : c.Faces ahead) : c.isBeforeStart = false := by
  have hinside := h.inside
  simp only [isBeforeStart, decide_eq_false_iff_not]
  omega

theorem Faces.next?_eq (h : c.Faces ahead) : c.next? = ahead.head? := by
  obtain ⟨n, hn, hdrop⟩ := h.exists_position
  rw [next?, hn, elementAt?_natCast, ← hdrop, List.head?_drop, Array.getElem?_toList]

theorem Faces.remaining_eq (h : c.Faces ahead) : c.remaining = ahead.length := by
  obtain ⟨n, hn, hdrop⟩ := h.exists_position
  rw [remaining, hn, ← hdrop, List.length_drop, Array.length_toList]
  omega

theorem Faces.atEnd_eq (h : c.Faces ahead) : c.atEnd = ahead.isEmpty := by
  have hremaining := h.remaining_eq
  rw [remaining] at hremaining
  rw [atEnd, Bool.eq_iff_iff, decide_eq_true_iff, List.isEmpty_iff_length_eq_zero]
  omega

theorem Faces.forward {taken : List Char} (h : c.Faces (taken ++ ahead)) :
    (c.forward taken.length).Faces ahead := by
  obtain ⟨n, hn, hdrop⟩ := h.exists_position
  have hplace : (c.forward taken.length).position = ((n + taken.length : Nat) : Int) := by
    simp [hn]
  refine ⟨by omega, ?_⟩
  rw [rest, offset, hplace, offsetOf_natCast, text_forward, ← List.drop_drop, hdrop,
    List.drop_left]

/-! ## Scanning the characters ahead -/

/-- The longest run at the front whose characters pass the test, the first of them
at `index`. -/
def runOf (test : CharTest) : List Char → Nat → List Char
  | [], _ => []
  | c :: cs, index => if test c.toNat index then c :: runOf test cs (index + 1) else []

theorem runOf_append_drop (test : CharTest) (cs : List Char) (index : Nat) :
    runOf test cs index ++ cs.drop (runOf test cs index).length = cs := by
  induction cs generalizing index with
  | nil => rfl
  | cons c cs ih =>
    rw [runOf]
    split
    · simp [ih]
    · rfl

/-- A test that ignores the index takes what `List.takeWhile` takes. -/
theorem runOf_eq_takeWhile (holds : Nat → Bool) (cs : List Char) (index : Nat) :
    runOf (fun code _ => holds code) cs index = cs.takeWhile fun c => holds c.toNat := by
  induction cs generalizing index with
  | nil => rfl
  | cons c cs ih => simp [runOf, List.takeWhile_cons, ih]

/-- The length of the longest run at the front whose characters pass the check, or
the fault of the check that ends it. -/
def runLength (check : CharCheck) : List Char → Nat → Except Fault Nat
  | [], _ => .ok 0
  | c :: cs, index =>
    match check c.toNat index with
    | .ok true => (runLength check cs (index + 1)).map (· + 1)
    | .ok false => .ok 0
    | .error fault => .error fault

theorem runLength_le {check : CharCheck} {cs : List Char} {index n : Nat}
    (h : runLength check cs index = .ok n) : n ≤ cs.length := by
  induction cs generalizing index n with
  | nil =>
    cases h
    exact Nat.le_refl 0
  | cons c cs ih =>
    rw [runLength] at h
    split at h
    · cases hrest : runLength check cs (index + 1) with
      | error fault =>
        rw [hrest] at h
        cases h
      | ok k =>
        rw [hrest] at h
        cases h
        exact Nat.succ_le_succ (ih hrest)
    · cases h
      exact Nat.zero_le _
    · cases h

theorem runLength_toCheck (test : CharTest) (cs : List Char) (index : Nat) :
    runLength test.toCheck cs index = .ok (runOf test cs index).length := by
  induction cs generalizing index with
  | nil => rfl
  | cons c cs ih =>
    by_cases hc : test c.toNat index = true
    · simp [runLength, runOf, CharTest.toCheck, hc, ih, Except.map]
    · simp [runLength, runOf, CharTest.toCheck, hc]

/-- The characters that a scan meets from a place on, at most `limit` of them. -/
def charsFrom (text : Array Char) : Nat → Int → List Char
  | 0, _ => []
  | limit + 1, position =>
    match elementAt? text position with
    | some d => d :: charsFrom text limit (position + 1)
    | none => []

/-- The characters that a scan meets. They are the rest of the text, unless the place
counts from the end, where the scan goes on with the start of the text. -/
def upcoming (c : Cursor) : List Char := charsFrom c.text c.remaining c.position

theorem charsFrom_eq_drop (text : Array Char) (cs : List Char) (n : Nat)
    (hdrop : text.toList.drop n = cs) : charsFrom text cs.length n = cs := by
  induction cs generalizing n with
  | nil => rfl
  | cons d cs ih =>
    have hhere : elementAt? text (n : Int) = some d := by
      rw [elementAt?_natCast, ← Array.getElem?_toList, ← List.head?_drop, hdrop, List.head?_cons]
    have hnext : text.toList.drop (n + 1) = cs := by
      rw [← List.drop_drop, hdrop, List.drop_one, List.tail_cons]
    have hrest := ih (n + 1) hnext
    push_cast at hrest
    rw [List.length_cons, charsFrom, hhere]
    simp only [hrest]

theorem Faces.upcoming_eq (h : c.Faces ahead) : c.upcoming = ahead := by
  obtain ⟨n, hn, hdrop⟩ := h.exists_position
  rw [upcoming, h.remaining_eq, hn]
  exact charsFrom_eq_drop c.text ahead n hdrop

theorem scanFrom_eq (text : Array Char) (check : CharCheck) (limit : Nat) (position : Int)
    (index : Nat) : scanFrom text check limit position index =
      (runLength check (charsFrom text limit position) index).map fun k : Nat => position + k := by
  induction limit generalizing position index with
  | zero => simp [scanFrom, charsFrom, runLength, Except.map]
  | succ limit ih =>
    rw [scanFrom, charsFrom]
    cases elementAt? text position with
    | none => simp [runLength, Except.map]
    | some d =>
      rw [runLength]
      simp only [ih]
      rcases check d.toNat index with fault | _ | _
      · rfl
      · simp [Except.map]
      · cases runLength check (charsFrom text limit (position + 1)) (index + 1) with
        | error fault => rfl
        | ok k =>
          simp only [Except.map, Except.ok.injEq]
          push_cast
          omega

theorem scanEnd_eq (c : Cursor) (check : CharCheck) :
    c.scanEnd check = (runLength check c.upcoming 0).map fun k : Nat => c.position + k :=
  scanFrom_eq c.text check c.remaining c.position 0

theorem Faces.scanEnd_eq (h : c.Faces ahead) (check : CharCheck) :
    c.scanEnd check = (runLength check ahead 0).map fun k : Nat => c.position + k := by
  rw [Cursor.scanEnd_eq, h.upcoming_eq]

theorem Faces.upTo_forward (h : c.Faces ahead) (k : Nat) :
    c.upTo (c.position + k) = ahead.take k := by
  obtain ⟨n, hn, hdrop⟩ := h.exists_position
  have hstop : c.position + (k : Int) = ((n + k : Nat) : Int) := by
    rw [hn]; rfl
  rw [hstop, upTo, offset, hn, offsetOf_natCast, offsetOf_natCast, Array.toList_extract,
    List.extract_eq_take_drop, hdrop, Nat.add_sub_cancel_left]

theorem Faces.takeRun_eq (h : c.Faces ahead) (check : CharCheck) :
    c.takeRun check = (runLength check ahead 0).map fun k => (ahead.take k, c.forward k) := by
  rw [takeRun, h.scanEnd_eq check]
  cases runLength check ahead 0 with
  | error fault => rfl
  | ok k =>
    simp only [Except.map, h.upTo_forward]
    rfl

theorem skipRun_eq (c : Cursor) (check : CharCheck) :
    c.skipRun check = (runLength check c.upcoming 0).map fun k => (k, c.forward k) := by
  rw [skipRun, scanEnd_eq]
  cases runLength check c.upcoming 0 with
  | error fault => rfl
  | ok k =>
    have hcount : (c.position + (k : Int) - c.position).toNat = k := by omega
    simp only [Except.map, hcount]
    rfl

/-- A run that passes a test is what the test takes. -/
theorem take_length_runOf (test : CharTest) (cs : List Char) (index : Nat) :
    cs.take (runOf test cs index).length = runOf test cs index := by
  have hprefix := congrArg (List.take (runOf test cs index).length) (runOf_append_drop test cs index)
  rw [List.take_left] at hprefix
  exact hprefix.symm

end Cursor

/-! ## How a run ends -/

namespace Matcher

/-- The run consumes `n` characters and succeeds with `v`. -/
def Takes (m : Matcher) (c : Cursor) (n : Nat) (v : Value) : Prop :=
  m.run c = ⟨.ok ⟨true, v, c.position + n⟩, c.forward n, []⟩

/-- The run fails and leaves the cursor as it was. -/
def Refuses (m : Matcher) (c : Cursor) : Prop :=
  m.run c = ⟨.ok ⟨false, .null, c.position⟩, c, []⟩

/-- The run is cut short because it nests too deep. -/
def Sinks (m : Matcher) (c : Cursor) : Prop :=
  ∃ c', m.run c = ⟨.error .tooDeep, c', []⟩

theorem Takes.run_eq {m : Matcher} {c : Cursor} {n : Nat} {v : Value} (h : m.Takes c n v) :
    m.run c = ⟨.ok ⟨true, v, c.position + n⟩, c.forward n, []⟩ := h

theorem Refuses.run_eq {m : Matcher} {c : Cursor} (h : m.Refuses c) :
    m.run c = ⟨.ok ⟨false, .null, c.position⟩, c, []⟩ := h

/-- A run that goes on like another one from farther ahead. -/
theorem Takes.of_run {m m' : Matcher} {c : Cursor} {n k : Nat} {v : Value}
    (hrun : m.run c = m'.run (c.forward n)) (h : m'.Takes (c.forward n) k v) :
    m.Takes c (n + k) v := by
  rw [Takes, hrun, h.run_eq]
  simp [Int.add_assoc]

theorem Sinks.of_run {m m' : Matcher} {c c' : Cursor} (hrun : m.run c = m'.run c')
    (h : m'.Sinks c') : m.Sinks c := by
  rw [Sinks, hrun]
  exact h

section Exclusion

variable {m : Matcher} {c : Cursor} {n n' : Nat} {v v' : Value}

theorem Takes.unique (h : m.Takes c n v) (h' : m.Takes c n' v') : n = n' ∧ v = v' := by
  rw [Takes, h] at h'
  simp only [Outcome.mk.injEq, Except.ok.injEq, Reply.mk.injEq] at h'
  exact ⟨by omega, h'.1.2.1⟩

theorem Takes.not_refuses (h : m.Takes c n v) : ¬ m.Refuses c := by
  intro h'
  rw [Refuses, h] at h'
  simp at h'

theorem Takes.not_sinks (h : m.Takes c n v) : ¬ m.Sinks c := by
  rintro ⟨c', h'⟩
  rw [h] at h'
  simp at h'

theorem Refuses.not_sinks (h : m.Refuses c) : ¬ m.Sinks c := by
  rintro ⟨c', h'⟩
  rw [h] at h'
  simp at h'

end Exclusion

/-! ## Primitives -/

section Primitives

variable {c : Cursor} {ahead : List Char}

theorem run_takeRun (h : c.Faces ahead) (check : CharCheck) :
    (takeRun check).run c =
      match Cursor.runLength check ahead 0 with
      | .ok k => ⟨.ok (ahead.take k), c.forward k, []⟩
      | .error fault => ⟨.error fault, c, []⟩ := by
  simp only [takeRun, scan, Action.run_inText, h.isBeforeStart_eq, h.takeRun_eq]
  cases Cursor.runLength check ahead 0 with
  | error fault => rfl
  | ok k => rfl

theorem run_skipRun (h : c.Faces ahead) (check : CharCheck) :
    (skipRun check).run c =
      match Cursor.runLength check ahead 0 with
      | .ok k => ⟨.ok k, c.forward k, []⟩
      | .error fault => ⟨.error fault, c, []⟩ := by
  simp only [skipRun, scan, Action.run_inText, h.isBeforeStart_eq, c.skipRun_eq,
    h.upcoming_eq]
  cases Cursor.runLength check ahead 0 with
  | error fault => rfl
  | ok k => rfl

/-- In the text, and past its end, a test counts what it takes of the characters to come. -/
theorem run_skipRun_upcoming (h : c.isBeforeStart = false) (test : CharTest) :
    (skipRun test.toCheck).run c =
      ⟨.ok (Cursor.runOf test c.upcoming 0).length,
        c.forward (Cursor.runOf test c.upcoming 0).length, []⟩ := by
  simp [skipRun, scan, h, c.skipRun_eq, Cursor.runLength_toCheck, Except.map]

theorem run_skipRun_toCheck (h : c.Faces ahead) (test : CharTest) :
    (skipRun test.toCheck).run c =
      ⟨.ok (Cursor.runOf test ahead 0).length, c.forward (Cursor.runOf test ahead 0).length, []⟩ := by
  rw [run_skipRun_upcoming h.isBeforeStart_eq, h.upcoming_eq]

theorem takes_takeWhile (h : c.Faces ahead) (test : CharTest) :
    (takeWhile test.toCheck).Takes c (Cursor.runOf test ahead 0).length
      (.ofChars (Cursor.runOf test ahead 0)) := by
  simp [Takes, takeWhile, run_takeRun h, Cursor.runLength_toCheck, Cursor.take_length_runOf]

theorem takes_skipWhile (h : c.Faces ahead) (test : CharTest) :
    (skipWhile test.toCheck).Takes c (Cursor.runOf test ahead 0).length
      (.int (Cursor.runOf test ahead 0).length) := by
  simp [Takes, skipWhile, run_skipRun_toCheck h]

/-- From `index` on, the run that spells `chars` is as long as what is left of them
exactly where the characters ahead begin with what is left. -/
theorem length_runOf_spells (chars cs : List Char) (index : Nat) :
    (Cursor.runOf (spells chars) cs index).length = (chars.drop index).length ↔
      chars.drop index <+: cs := by
  induction cs generalizing index with
  | nil =>
    rw [Cursor.runOf, List.prefix_nil, List.length_nil, eq_comm, List.length_eq_zero_iff]
  | cons c cs ih =>
    cases hd : chars[index]? with
    | none =>
      have hdrop : chars.drop index = [] := List.drop_eq_nil_iff.mpr (List.getElem?_eq_none_iff.mp hd)
      simp [Cursor.runOf, spells, hd, hdrop]
    | some d =>
      have hdrop : chars.drop index = d :: chars.drop (index + 1) := by
        obtain ⟨hlt, hget⟩ := List.getElem?_eq_some_iff.mp hd
        rw [List.drop_eq_getElem_cons hlt, hget]
      by_cases hdc : d = c
      · subst hdc
        simp [Cursor.runOf, spells, hd, hdrop, List.cons_prefix_cons, ← ih]
      · have hcode : d.toNat ≠ c.toNat := fun he => hdc (Char.toNat_inj.mp he)
        simp [Cursor.runOf, spells, hd, hdrop, List.cons_prefix_cons, hdc, hcode]

theorem takes_literal_upcoming {chars : List Char} (h : c.isBeforeStart = false)
    (hfront : chars <+: c.upcoming) : (literal chars).Takes c chars.length .null := by
  have hlength := (length_runOf_spells chars c.upcoming 0).mpr hfront
  rw [List.drop_zero] at hlength
  simp [Takes, literal, run_skipRun_upcoming h, hlength]

theorem refuses_literal_upcoming {chars : List Char} (h : c.isBeforeStart = false)
    (hne : ¬ chars <+: c.upcoming) : (literal chars).Refuses c := by
  have hlength : (Cursor.runOf (spells chars) c.upcoming 0).length ≠ chars.length := fun he =>
    hne ((length_runOf_spells chars c.upcoming 0).mp he)
  simp [Refuses, literal, run_skipRun_upcoming h, hlength]

theorem takes_literal {chars : List Char} (h : c.Faces (chars ++ ahead)) :
    (literal chars).Takes c chars.length .null := by
  refine takes_literal_upcoming h.isBeforeStart_eq ?_
  rw [h.upcoming_eq]
  exact List.prefix_append chars ahead

theorem refuses_literal {chars : List Char} (h : c.Faces ahead) (hne : ¬ chars <+: ahead) :
    (literal chars).Refuses c := by
  refine refuses_literal_upcoming h.isBeforeStart_eq ?_
  rwa [h.upcoming_eq]

theorem takes_oneOfMapped {d : Char} {chars : List Char} {entries : List Value} {v : Value}
    (h : c.Faces (d :: ahead)) (hv : (chars.idxOf? d).bind (entries[·]?) = some v) :
    (oneOfMapped chars entries).Takes c 1 v := by
  simp [Takes, oneOfMapped, consume, h.isBeforeStart_eq, h.next?_eq, hv]

theorem refuses_oneOfMapped {chars : List Char} {entries : List Value} (h : c.Faces ahead)
    (hnone : (ahead.head?.bind (chars.idxOf? ·)).bind (entries[·]?) = none) :
    (oneOfMapped chars entries).Refuses c := by
  simp [Refuses, oneOfMapped, h.isBeforeStart_eq, h.next?_eq, hnone]

theorem takes_endOfText (h : c.Faces []) : endOfText.Takes c 0 .null := by
  simp [Takes, endOfText, h.atEnd_eq]

theorem refuses_endOfText (h : c.Faces ahead) (hne : ahead ≠ []) : endOfText.Refuses c := by
  simp [Refuses, endOfText, h.atEnd_eq, hne]

end Primitives

/-! ## Combinators -/

section Combinators

variable {p q t : Matcher} {c : Cursor} {n k : Nat} {v w : Value}

theorem takes_replace (hp : p.Takes c n w) : (p.replace v).Takes c n v := by
  simp [Takes, replace, hp.run_eq]

theorem refuses_replace (hp : p.Refuses c) : (p.replace v).Refuses c := by
  simp [Refuses, replace, hp.run_eq]

theorem takes_map {f : Value → Except Fault Value} (hp : p.Takes c n v) (hf : f v = .ok w) :
    (p.map f).Takes c n w := by
  simp [Takes, map, hp.run_eq, hf]

theorem refuses_map {f : Value → Except Fault Value} (hp : p.Refuses c) : (p.map f).Refuses c := by
  simp [Refuses, map, hp.run_eq]

theorem takes_atLeast {least : Int} (hp : p.Takes c n v) (hn : least ≤ n) :
    (p.atLeast least).Takes c n v := by
  have hstop : ¬ c.position + (n : Int) < c.position + least := by omega
  simp [Takes, atLeast, hp.run_eq, hstop]

theorem refuses_atLeast {least : Int} (hp : p.Takes c n v) (hn : n < least) :
    (p.atLeast least).Refuses c := by
  simp [Refuses, atLeast, hp.run_eq, hn]

theorem takes_seqLeft (hp : p.Takes c n v) (hq : q.Takes (c.forward n) k w) :
    (p.seqLeft q).Takes c (n + k) v := by
  simp [Takes, seqLeft, hp.run_eq, hq.run_eq, Int.add_assoc]

theorem refuses_seqLeft (hp : p.Refuses c) : (p.seqLeft q).Refuses c := by
  simp [Refuses, seqLeft, hp.run_eq]

theorem refuses_seqLeft_of_right (hp : p.Takes c n v) (hq : q.Refuses (c.forward n)) :
    (p.seqLeft q).Refuses c := by
  simp [Refuses, seqLeft, hp.run_eq, hq.run_eq]

theorem sinks_seqLeft (hp : p.Sinks c) : (p.seqLeft q).Sinks c := by
  obtain ⟨c', hrun⟩ := hp
  exact ⟨c', by simp [seqLeft, hrun]⟩

theorem takes_seqRight (hp : p.Takes c n v) (hq : q.Takes (c.forward n) k w) :
    (p.seqRight q).Takes c (n + k) w := by
  simp [Takes, seqRight, hp.run_eq, hq.run_eq, Int.add_assoc]

theorem refuses_seqRight (hp : p.Refuses c) : (p.seqRight q).Refuses c := by
  simp [Refuses, seqRight, hp.run_eq]

theorem refuses_seqRight_of_right (hp : p.Takes c n v) (hq : q.Refuses (c.forward n)) :
    (p.seqRight q).Refuses c := by
  simp [Refuses, seqRight, hp.run_eq, hq.run_eq]

theorem sinks_seqRight_of_right (hp : p.Takes c n v) (hq : q.Sinks (c.forward n)) :
    (p.seqRight q).Sinks c := by
  obtain ⟨c', hrun⟩ := hq
  exact ⟨c', by simp [seqRight, hp.run_eq, hrun]⟩

theorem takes_enclosed {o e : Matcher} {i : Nat} {u : Value} (ho : o.Takes c n u)
    (hp : p.Takes (c.forward n) k v) (he : e.Takes (c.forward (n + k)) i w) :
    (p.enclosed o e).Takes c (n + k + i) v := by
  simp [Takes, enclosed, ho.run_eq, hp.run_eq, he.run_eq, Int.add_assoc]

theorem refuses_enclosed {o e : Matcher} (ho : o.Refuses c) : (p.enclosed o e).Refuses c := by
  simp [Refuses, enclosed, ho.run_eq]

theorem refuses_enclosed_of_inner {o e : Matcher} (ho : o.Takes c n w)
    (hp : p.Refuses (c.forward n)) : (p.enclosed o e).Refuses c := by
  simp [Refuses, enclosed, ho.run_eq, hp.run_eq]

theorem refuses_enclosed_of_closing {o e : Matcher} (ho : o.Takes c n w)
    (hp : p.Takes (c.forward n) k v) (he : e.Refuses (c.forward (n + k))) :
    (p.enclosed o e).Refuses c := by
  simp [Refuses, enclosed, ho.run_eq, hp.run_eq, he.run_eq]

theorem sinks_enclosed_of_inner {o e : Matcher} (ho : o.Takes c n w)
    (hp : p.Sinks (c.forward n)) : (p.enclosed o e).Sinks c := by
  obtain ⟨c', hrun⟩ := hp
  exact ⟨c', by simp [enclosed, ho.run_eq, hrun]⟩

/-- Behind its first part a sequence is the rest of it. -/
theorem run_seqRight_of_left (hp : p.Takes c n v) :
    (p.seqRight q).run c = (q.run (c.forward n)).andThen fun s =>
      if s.success then succeed s.value else failAt c.mark := by
  simp [seqRight, hp.run_eq]

theorem run_enclosed_of_opening {o e : Matcher} (ho : o.Takes c n w) :
    (p.enclosed o e).run c = (p.run (c.forward n)).andThen fun r =>
      if r.success then do
        let s ← e
        if s.success then succeed r.value else failAt c.mark
      else failAt c.mark := by
  simp [enclosed, ho.run_eq]

theorem takes_orElse (hp : p.Takes c n v) : (p.orElse q).Takes c n v := by
  simp [Takes, orElse, hp.run_eq]

theorem takes_orElse_of_right (hp : p.Refuses c) (hq : q.Takes c n v) :
    (p.orElse q).Takes c n v := by
  simp [Takes, orElse, hp.run_eq, hq.run_eq]

theorem refuses_orElse (hp : p.Refuses c) (hq : q.Refuses c) : (p.orElse q).Refuses c := by
  simp [Refuses, orElse, hp.run_eq, hq.run_eq]

theorem sinks_orElse (hp : p.Sinks c) : (p.orElse q).Sinks c := by
  obtain ⟨c', hrun⟩ := hp
  exact ⟨c', by simp [orElse, hrun]⟩

theorem sinks_orElse_of_right (hp : p.Refuses c) (hq : q.Sinks c) : (p.orElse q).Sinks c := by
  obtain ⟨c', hrun⟩ := hq
  exact ⟨c', by simp [orElse, hp.run_eq, hrun]⟩

end Combinators

/-! ## Chains

A chain is its first operand and then a loop, which stands at the end of the last
complete pair. One round of the loop either ends it there or goes on with the next
pair. -/

section Chains

variable {p separator : Matcher} {f : Value → Value → Value → Except Fault Value}
  {c : Cursor} {n k rounds : Nat} {value s r value' : Value}

theorem refuses_chainl (hp : p.Refuses c) : (p.chainl separator f rounds).Refuses c := by
  simp [Refuses, chainl, hp.run_eq]

theorem sinks_chainl (hp : p.Sinks c) : (p.chainl separator f rounds).Sinks c := by
  obtain ⟨c', hrun⟩ := hp
  exact ⟨c', by simp [chainl, hrun]⟩

theorem run_chainl (hp : p.Takes c n value) :
    (p.chainl separator f rounds).run c =
      (p.chainFrom separator f rounds value (c.forward n).mark).run (c.forward n) := by
  simp [chainl, hp.run_eq]

theorem takes_chainFrom_of_separator (hs : separator.Refuses c) :
    (p.chainFrom separator f (rounds + 1) value c.mark).Takes c 0 value := by
  simp [Takes, chainFrom, hs.run_eq]

theorem takes_chainFrom_of_operand (hs : separator.Takes c n s)
    (hp : p.Refuses (c.forward n)) :
    (p.chainFrom separator f (rounds + 1) value c.mark).Takes c 0 value := by
  simp [Takes, chainFrom, hs.run_eq, hp.run_eq]

theorem sinks_chainFrom_of_operand (hs : separator.Takes c n s) (hp : p.Sinks (c.forward n)) :
    (p.chainFrom separator f (rounds + 1) value c.mark).Sinks c := by
  obtain ⟨c', hrun⟩ := hp
  exact ⟨c', by simp [chainFrom, hs.run_eq, hrun]⟩

theorem run_chainFrom_of_pair (hs : separator.Takes c n s) (hp : p.Takes (c.forward n) k r)
    (hf : f value s r = .ok value') :
    (p.chainFrom separator f (rounds + 1) value c.mark).run c =
      (p.chainFrom separator f rounds value' (c.forward (n + k)).mark).run
        (c.forward (n + k)) := by
  simp [chainFrom, hs.run_eq, hp.run_eq, hf]

end Chains

end Matcher
/-! ## Forwards -/

namespace Forwards

variable {fs : Forwards} {id rounds : Nat} {body : Parser}

theorem call_undefined (depth : Nat) (h : fs.target? id = none) :
    fs.call rounds depth id = Action.raise (.grammar .undefined) := by
  cases depth <;> rw [call, h]

theorem call_zero (h : fs.target? id = some body) :
    fs.call rounds 0 id = Action.raise .tooDeep := by
  rw [call, h]

theorem call_succ {depth : Nat} (h : fs.target? id = some body) :
    fs.call rounds (depth + 1) id = body.matcher rounds (fs.call rounds depth) := by
  rw [call, h]

/-- What holds of every fault, and of a definition wherever it holds of the forwards that
this may open, holds of the forwards. The induction is on how many of them may be open. -/
theorem call_induction (P : Matcher → Prop) (Id : Nat → Prop)
    (hraise : ∀ fault, P (Action.raise fault))
    (hbody : ∀ depth, (∀ id, Id id → P (fs.call rounds depth id)) → ∀ id body, Id id →
      fs.target? id = some body → P (body.matcher rounds (fs.call rounds depth)))
    (depth : Nat) : ∀ id, Id id → P (fs.call rounds depth id) := by
  induction depth with
  | zero =>
    intro id _
    cases h : fs.target? id with
    | none => rw [call_undefined 0 h]; exact hraise _
    | some body => rw [call_zero h]; exact hraise _
  | succ depth ih =>
    intro id hid
    cases h : fs.target? id with
    | none => rw [call_undefined _ h]; exact hraise _
    | some body => rw [call_succ h]; exact hbody depth ih id body hid h

end Forwards

end Parlance
