import Parlance.Proofs.Budget
import Parlance.Proofs.Locality

/-! # Progress

A run of a parser without hand-written parts leads onward, wherever it starts: to a
cursor within reach of its start. So a run that consumes anything leaves less of the
text. The start may be any place, before the text too, where `Locality` says nothing,
so the primitives are gone through once more; all that is said of them here is how far a
run of one can lead, whether a success moves, and that no budget cuts it short. -/
namespace Parlance

/-! ## Cursors within reach -/

namespace Cursor

variable {s c c' : Cursor}

theorem Reaches.trans (h : s.Reaches c) (h' : c.Reaches c') : s.Reaches c' := by
  have hlower := h.lower
  have hupper := h.upper
  have hlower' := h'.lower
  have hupper' := h'.upper
  rw [h.text_eq] at hupper'
  exact ⟨h'.text_eq.trans h.text_eq, by omega, by omega, fun hs => h'.level (h.level hs)⟩

theorem Reaches.remaining_eq (h : c.Reaches c') (hposition : c'.position = c.position) :
    c'.remaining = c.remaining := by
  unfold remaining
  rw [h.text_eq, hposition]

theorem Reaches.rewind_mark (h : c.Reaches c') : c'.rewind c.mark = c := by
  show (⟨c'.text, c.position, c.indent⟩ : Cursor) = ⟨c.text, c.position, c.indent⟩
  rw [h.text_eq]

/-- Less is left once anything is consumed. -/
theorem Reaches.remaining_lt (h : c.Reaches c') (hposition : c'.position ≠ c.position) :
    c'.remaining < c.remaining := by
  have hlower := h.lower
  have hupper := h.upper
  unfold remaining
  rw [h.text_eq]
  omega

theorem lt_size_of_next? {d : Char} (h : c.next? = some d) : c.position < c.text.size := by
  unfold next? at h
  cases hposition : c.position with
  | ofNat n =>
    rw [hposition] at h
    obtain ⟨hn, _⟩ := Array.getElem?_eq_some_iff.mp h
    exact Int.ofNat_lt.mpr hn
  | negSucc n =>
    have hnegative := Int.negSucc_lt_zero n
    omega

theorem reaches_forward_one {d : Char} (h : c.next? = some d) : c.Reaches (c.forward 1) := by
  have hsize := lt_size_of_next? h
  refine ⟨rfl, ?_, ?_, id⟩
  · show c.position ≤ c.position + 1
    omega
  · show c.position + 1 ≤ max c.position c.text.size
    omega

theorem reaches_of_decreaseIndent? (h : c.decreaseIndent? = some c') : c.Reaches c' := by
  unfold decreaseIndent? at h
  split at h
  · cases h
  · cases h
    refine ⟨rfl, Int.le_refl _, Int.le_max_left _ _, fun _ => ?_⟩
    show 0 ≤ c.indent - 1
    omega

theorem scanFrom_bounds {text : Array Char} {check : CharCheck} {limit : Nat} {position stop : Int}
    {index : Nat} (h : scanFrom text check limit position index = .ok stop) :
    position ≤ stop ∧ stop ≤ position + limit := by
  induction limit generalizing position index with
  | zero =>
    cases h
    omega
  | succ limit ih =>
    unfold scanFrom at h
    split at h
    · split at h
      · have hrest := ih h
        omega
      · cases h
        omega
      · cases h
    · cases h
      omega

theorem reaches_of_scanEnd {check : CharCheck} {stop : Int} (h : c.scanEnd check = .ok stop) :
    c.Reaches { c with position := stop } := by
  obtain ⟨hlower, hupper⟩ := scanFrom_bounds h
  unfold remaining at hupper
  refine ⟨rfl, hlower, ?_, id⟩
  show stop ≤ max c.position c.text.size
  omega

theorem reaches_of_takeRun {check : CharCheck} {run : List Char}
    (h : c.takeRun check = .ok (run, c')) : c.Reaches c' := by
  unfold takeRun at h
  cases hscan : c.scanEnd check with
  | error fault => rw [hscan] at h; cases h
  | ok stop =>
    rw [hscan] at h
    cases h
    exact reaches_of_scanEnd hscan

theorem reaches_of_skipRun {check : CharCheck} {n : Nat} (h : c.skipRun check = .ok (n, c')) :
    c.Reaches c' ∧ c'.position = c.position + n := by
  unfold skipRun at h
  cases hscan : c.scanEnd check with
  | error fault => rw [hscan] at h; cases h
  | ok stop =>
    rw [hscan] at h
    cases h
    have hreach := reaches_of_scanEnd hscan
    have hlower : c.position ≤ stop := hreach.lower
    refine ⟨hreach, ?_⟩
    show stop = c.position + ((stop - c.position).toNat : Int)
    omega

/-- A scan has no faults of its own. -/
theorem exists_check_of_scanFrom {text : Array Char} {check : CharCheck} {limit : Nat}
    {position : Int} {index : Nat} {fault : Fault}
    (h : scanFrom text check limit position index = .error fault) :
    ∃ code index, check code index = .error fault := by
  induction limit generalizing position index with
  | zero => cases h
  | succ limit ih =>
    unfold scanFrom at h
    split at h
    · split at h
      · exact ih h
      · cases h
      · next hcheck =>
        cases h
        exact ⟨_, _, hcheck⟩
    · cases h

theorem exists_check_of_scanEnd {α : Type} {check : CharCheck} {fault : Fault} {f : Int → α}
    (h : (c.scanEnd check).map f = .error fault) : ∃ code index, check code index = .error fault := by
  cases hscan : c.scanEnd check with
  | error fault' =>
    rw [hscan] at h
    cases h
    exact exists_check_of_scanFrom hscan
  | ok stop => rw [hscan] at h; cases h

end Cursor

/-! ## Primitives -/

/-- The callback ends in no fault that a budget raises; one that never raises does not. -/
def Harmless {α β : Type} (f : α → Except Fault β) : Prop :=
  ∀ a fault, f a = .error fault → ¬ fault.CutsShort

namespace Primitive

def Tame : Primitive → Prop
  | oneOf _ table => Harmless table
  | satisfy check | takeWhile check | skipWhile check => ∀ code, Harmless (check code)
  | _ => True

def mayStay : Primitive → Bool
  | failure | anyChar | oneOf _ _ | oneOfMapped _ _ | satisfy _ => false
  | literal chars => chars.isEmpty
  | success _ | takeWhile _ | skipWhile _ | endOfText | endOfLine | indent | dedent
  | leadingTabs => true

/-- How a run of the primitive ends: within reach, behind its start if it succeeds and may
not stay, and not because of a budget. -/
structure Ends (leaf : Primitive) (c : Cursor) (o : Outcome Reply) : Prop where
  reach : c.Reaches o.cursor
  moved : ∀ r, o.exit = .ok r → r.success = true → leaf.mayStay = false →
    o.cursor.position ≠ c.position
  fault : ∀ fault, o.exit = .error fault → leaf.Tame → ¬ fault.CutsShort

namespace Ends

variable {leaf : Primitive} {c c' : Cursor} {trace : List Record} {r : Reply} {fault : Fault}

theorem of_fault (hreach : c.Reaches c') (h : leaf.Tame → ¬ fault.CutsShort) :
    Ends leaf c ⟨.error fault, c', trace⟩ :=
  ⟨hreach, nofun, fun _ hexit => by cases hexit; exact h⟩

theorem of_failure (hfailure : r.success = false) (hreach : c.Reaches c') :
    Ends leaf c ⟨.ok r, c', trace⟩ := by
  refine ⟨hreach, fun r' hexit hsuccess => ?_, nofun⟩
  cases hexit
  rw [hfailure] at hsuccess
  cases hsuccess

theorem of_mayStay (h : leaf.mayStay = true) (hreach : c.Reaches c') :
    Ends leaf c ⟨.ok r, c', trace⟩ := by
  refine ⟨hreach, fun _ _ _ hmoves => ?_, nofun⟩
  rw [h] at hmoves
  cases hmoves

theorem of_moved (hreach : c.Reaches c') (h : c'.position ≠ c.position) :
    Ends leaf c ⟨.ok r, c', trace⟩ :=
  ⟨hreach, fun _ _ _ _ => h, nofun⟩

/-- One character has been consumed. -/
theorem of_forward_one {d : Char} (h : c.next? = some d) :
    Ends leaf c ⟨.ok r, c.forward 1, trace⟩ := by
  refine of_moved (Cursor.reaches_forward_one h) ?_
  show c.position + 1 ≠ c.position
  omega

/-- An action that looks at the next character first. -/
theorem of_peek {next : Option Char → Matcher} (hreach : c.Reaches c')
    (h : Ends leaf c ((next c'.next?).run c')) :
    Ends leaf c ((Action.peek >>= next).run c') := by
  rw [Action.run_bind, Action.run_peek]
  split
  · exact of_fault hreach fun _ => Fault.not_cutsShort (by simp) (by simp)
  · exact h

/-- An action that scans ahead first. -/
theorem of_scan {α : Type} {pass : Cursor → Except Fault (α × Cursor)} {next : α → Matcher}
    (hfault : ∀ fault, pass c = .error fault → leaf.Tame → ¬ fault.CutsShort)
    (h : ∀ a c', pass c = .ok (a, c') → Ends leaf c ((next a).run c')) :
    Ends leaf c ((Matcher.scan pass >>= next).run c) := by
  rw [Action.run_bind, Matcher.scan, Action.run_inText]
  split
  · exact of_fault (Cursor.reaches_self c) fun _ => Fault.not_cutsShort (by simp) (by simp)
  · dsimp only
    cases hpass : pass c with
    | error fault => exact of_fault (Cursor.reaches_self c) (hfault fault hpass)
    | ok passed => exact h passed.1 passed.2 hpass

/-- A primitive that counts a run of characters and returns to its start if that is not
long enough. -/
theorem of_counted (test : CharTest) (enough : Nat → Prop) [DecidablePred enough]
    (value : Nat → Value) (hmoves : leaf.mayStay = false → ¬ enough 0) :
    Ends leaf c ((do
      let count ← Matcher.skipRun test.toCheck
      if enough count then Matcher.succeed (value count) else Matcher.failAt c.mark).run c) := by
  refine of_scan (fun fault hpass => ?_) fun count c' hpass => ?_
  · obtain ⟨_, _, hcheck⟩ := Cursor.exists_check_of_scanEnd hpass
    cases hcheck
  · obtain ⟨hreach, hposition⟩ := Cursor.reaches_of_skipRun hpass
    rw [Action.run_ite]
    split
    · next henough =>
      cases hstay : leaf.mayStay with
      | true => exact of_mayStay hstay hreach
      | false =>
        refine of_moved hreach fun hsame => hmoves hstay ?_
        have hzero : count = 0 := by omega
        rwa [hzero] at henough
    · rw [Matcher.run_failAt, hreach.rewind_mark]
      exact of_failure rfl (Cursor.reaches_self c)

end Ends

theorem ends (leaf : Primitive) (c : Cursor) : Ends leaf c (leaf.matcher.run c) := by
  cases leaf with
  | success v => exact Ends.of_mayStay rfl (Cursor.reaches_self c)
  | failure => exact Ends.of_failure rfl (Cursor.reaches_self c)
  | anyChar =>
    refine Ends.of_peek (Cursor.reaches_self c) ?_
    cases hnext : c.next? with
    | none => exact Ends.of_failure rfl (Cursor.reaches_self c)
    | some d => exact Ends.of_forward_one hnext
  | oneOf chars table =>
    refine Ends.of_peek (Cursor.reaches_self c) ?_
    cases hnext : c.next? with
    | none => exact Ends.of_failure rfl (Cursor.reaches_self c)
    | some d =>
      dsimp only [Option.bind_some]
      cases chars.idxOf? d with
      | none => exact Ends.of_failure rfl (Cursor.reaches_self c)
      | some index =>
        dsimp only
        cases htable : table index with
        | error fault =>
          simp only [Action.run_bind, Action.run_move, Outcome.andThen_ok, Action.run_lift,
            Outcome.andThen_error, Outcome.after_nil]
          exact Ends.of_fault (Cursor.reaches_forward_one hnext) fun htame => htame index fault htable
        | ok v =>
          simp only [Action.run_bind, Action.run_move, Outcome.andThen_ok, Action.run_lift,
            Outcome.after_nil]
          exact Ends.of_forward_one hnext
  | oneOfMapped chars entries =>
    refine Ends.of_peek (Cursor.reaches_self c) ?_
    split
    · exact Ends.of_failure rfl (Cursor.reaches_self c)
    · next hentry =>
      cases hnext : c.next? with
      | none => rw [hnext] at hentry; cases hentry
      | some d => exact Ends.of_forward_one hnext
  | satisfy check =>
    refine Ends.of_peek (Cursor.reaches_self c) ?_
    cases hnext : c.next? with
    | none => exact Ends.of_failure rfl (Cursor.reaches_self c)
    | some d =>
      dsimp only
      rw [Action.run_bind, Action.run_lift]
      rcases hcheck : check d.toNat 0 with fault | _ | _
      · exact Ends.of_fault (Cursor.reaches_self c) fun htame => htame _ _ _ hcheck
      · exact Ends.of_failure rfl (Cursor.reaches_self c)
      · exact Ends.of_forward_one hnext
  | takeWhile check =>
    refine Ends.of_scan (fun fault hpass htame => ?_) fun run c' hpass =>
      Ends.of_mayStay rfl (Cursor.reaches_of_takeRun hpass)
    obtain ⟨code, index, hcheck⟩ := Cursor.exists_check_of_scanEnd hpass
    exact htame code index fault hcheck
  | skipWhile check =>
    refine Ends.of_scan (fun fault hpass htame => ?_) fun count c' hpass =>
      Ends.of_mayStay rfl (Cursor.reaches_of_skipRun hpass).1
    obtain ⟨code, index, hcheck⟩ := Cursor.exists_check_of_scanEnd hpass
    exact htame code index fault hcheck
  | literal chars =>
    refine Ends.of_counted (Matcher.spells chars) (· = chars.length) (fun _ => .null) ?_
    intro hmoves hlength
    rw [List.length_eq_zero_iff.mp hlength.symm] at hmoves
    cases hmoves
  | endOfText =>
    show Ends _ c ((if c.atEnd = true then Matcher.succeed .null else Matcher.fail).run c)
    split
    · exact Ends.of_mayStay rfl (Cursor.reaches_self c)
    · exact Ends.of_failure rfl (Cursor.reaches_self c)
  | endOfLine =>
    refine Ends.of_peek (Cursor.reaches_self c) ?_
    cases hnext : c.next? with
    | none => exact Ends.of_mayStay rfl (Cursor.reaches_self c)
    | some d =>
      dsimp only
      rw [Action.run_ite, Action.run_ite]
      split
      · exact Ends.of_forward_one hnext
      · split
        · -- behind a carriage return a line feed is consumed too
          have hreach := Cursor.reaches_forward_one hnext
          refine Ends.of_peek hreach ?_
          cases hnext' : (c.forward 1).next? with
          | none => exact Ends.of_mayStay rfl hreach
          | some d' =>
            dsimp only
            rw [Action.run_ite]
            split
            · exact Ends.of_mayStay rfl (hreach.trans (Cursor.reaches_forward_one hnext'))
            · exact Ends.of_mayStay rfl hreach
        · exact Ends.of_failure rfl (Cursor.reaches_self c)
  | indent =>
    refine Ends.of_mayStay rfl ⟨rfl, Int.le_refl _, Int.le_max_left _ _, fun hlevel => ?_⟩
    exact Int.le_add_one hlevel
  | dedent =>
    rw [matcher, Matcher.dedent, Action.run_bind, Action.run_look]
    cases hlower : c.decreaseIndent? with
    | none => exact Ends.of_failure rfl (Cursor.reaches_self c)
    | some c' => exact Ends.of_mayStay rfl (Cursor.reaches_of_decreaseIndent? hlower)
  | leadingTabs =>
    show Ends _ c ((if c.mark.indent = 0 then Matcher.succeed (.int 0)
      else do
        let count ← Matcher.skipRun (Matcher.tabs c.mark.indent).toCheck
        if (count : Int) = c.mark.indent then Matcher.succeed (.int count)
        else Matcher.failAt c.mark).run c)
    rw [Action.run_ite]
    split
    · exact Ends.of_mayStay rfl (Cursor.reaches_self c)
    · exact Ends.of_counted (Matcher.tabs c.mark.indent) (fun count => (count : Int) = c.mark.indent)
        (fun count => .int count) fun hstay => by cases hstay

end Primitive

/-! ## Composed runs -/

/-- An agreement that does not look at its second run: what is within reach of `s` leads
to what is. -/
def onward (s : Cursor) : Agreement where
  Agree Q m _ := ∀ c, s.Reaches c →
    s.Reaches (m.run c).cursor ∧ ∀ a, (m.run c).exit = .ok a → ∃ a', Q a a'
  Marks m m' := m = m' ∧ s.Reaches (s.rewind m)
  Leaf _ := True
  Name _ := True
  shift := 0
  position_eq h := by simp [h.1]
  pure h _ hc := ⟨hc, fun _ hexit => by cases hexit; exact ⟨_, h⟩⟩
  bind {_ _ _ _ m _ f _} hm hf c hc := by
    obtain ⟨hreach, hresult⟩ := hm c hc
    rw [Action.run_bind]
    rcases ho : m.run c with ⟨fault | a, c₁, trace⟩
    all_goals rw [ho] at hreach hresult
    · exact ⟨hreach, nofun⟩
    · obtain ⟨a', ha⟩ := hresult a rfl
      exact hf a a' ha c₁ hreach
  raise _ _ hc := ⟨hc, nofun⟩
  mark c hc := ⟨hc, fun _ hexit => by cases hexit; exact ⟨_, rfl, rfl, hc.lower, hc.upper, hc.level⟩⟩
  rewind h _ hc := ⟨⟨hc.text_eq, h.2.lower, h.2.upper, h.2.level⟩, fun _ _ => ⟨(), trivial⟩⟩
  peek c hc := by
    rw [Action.run_peek]
    split
    · exact ⟨hc, nofun⟩
    · exact ⟨hc, fun a _ => ⟨a, rfl⟩⟩
  record _ _ _ hc := ⟨hc, fun _ _ => ⟨(), trivial⟩⟩
  leaf {leaf} _ c hc := ⟨hc.trans (leaf.ends c).reach, fun r _ => ⟨r, rfl, rfl, by simp⟩⟩

/-- However a run ends, it has led onward. -/
theorem Parser.reaches_run {fs : Forwards} {Id : Nat → Prop} {p : Parser}
    (hfs : fs.Closed (fun _ => True) (fun _ => True) Id)
    (hp : p.MadeOf (fun _ => True) (fun _ => True) Id) (budget : Budget) (c : Cursor) :
    c.Reaches (p.run fs budget c).cursor := by
  have hcall := (onward c).call hfs budget.rounds budget.depth
  have hrun := (onward c).matcher hcall (Agreement.Rounds.refl budget.rounds) p hp
  exact (hrun c (Cursor.reaches_self c)).1

theorem Parser.reaches_run_of_isComposed {fs : Forwards} {p : Parser}
    (hfs : ∀ id body, fs.target? id = some body → body.isComposed = true)
    (hp : p.isComposed = true) (budget : Budget) (c : Cursor) :
    c.Reaches (p.run fs budget c).cursor := by
  have hclosed : fs.Closed (fun _ => True) (fun _ => True) fun _ => True :=
    Forwards.closed_of_isComposed (fun _ => trivial) (fun _ => trivial) hfs
  have hmade : p.MadeOf (fun _ => True) (fun _ => True) fun _ => True :=
    madeOf_of_isComposed (fun _ => trivial) (fun _ => trivial) (fun _ => trivial) p hp
  exact reaches_run hclosed hmade budget c

end Parlance
