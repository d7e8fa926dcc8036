import Parlance.Proofs.Transparency

/-! # Traces are well bracketed

A traced parser writes a line when it is entered and one when it has succeeded or failed,
and what runs in between writes its lines in between. So the trace of a run that returns is
*bracketed*, whatever loops, undone attempts and forwards the run has gone through. Its lines
need not report growing positions, since an attempt that fails is undone. That a failure is
reported where it was entered is the contract of backtracking, and that a success is not
reported in front of its entry is what `Progress` says. A fault leaves a trace that could
have become bracketed: the runs that are still open might all have failed. -/
namespace Parlance

/-! ## Bracketed traces -/

/-- The line ends the run that `entry` begins: under the same name, and where it was entered
for a failure, or not in front of that for a success. -/
def Record.Closes (close entry : Record) : Prop :=
  close.name = entry.name ∧
    (close.phase = .failed ∧ close.position = entry.position ∨
      close.phase = .succeeded ∧ entry.position ≤ close.position)

/-- Runs one after the other, each with whole runs between its entry and its end, and all of
them between these positions. -/
inductive Bracketed (low high : Int) : List Record → Prop
  | nil : Bracketed low high []
  | run {entry close : Record} {inner rest : List Record} : entry.phase = .entered →
      close.Closes entry → low ≤ entry.position → close.position ≤ high →
      Bracketed low high inner → Bracketed low high rest →
      Bracketed low high (entry :: (inner ++ close :: rest))

namespace Record.Closes

variable {close entry : Record}

theorem phase_ne (h : close.Closes entry) : close.phase ≠ .entered := by
  intro hphase
  rcases h.2 with ⟨hfailed, _⟩ | ⟨hsucceeded, _⟩
  · rw [hfailed] at hphase
    cases hphase
  · rw [hsucceeded] at hphase
    cases hphase

theorem position_le (h : close.Closes entry) : entry.position ≤ close.position := by
  rcases h.2 with ⟨_, hposition⟩ | ⟨_, hposition⟩
  · exact Int.le_of_eq hposition.symm
  · exact hposition

end Record.Closes

namespace Bracketed

variable {low high : Int} {trace trace' : List Record}

theorem append (h : Bracketed low high trace) (h' : Bracketed low high trace') :
    Bracketed low high (trace ++ trace') := by
  induction h with
  | nil => exact h'
  | run hentry hclose hlow hhigh hinner _ _ ih =>
    rw [List.cons_append, List.append_assoc, List.cons_append]
    exact .run hentry hclose hlow hhigh hinner ih

theorem within (h : Bracketed low high trace) :
    ∀ r ∈ trace, low ≤ r.position ∧ r.position ≤ high := by
  induction h with
  | nil => exact fun r hr => nomatch hr
  | run _ hclose hlow hhigh _ _ ihinner ihrest =>
    have hle := hclose.position_le
    intro r hr
    rcases List.mem_cons.mp hr with rfl | hr
    · exact ⟨hlow, Int.le_trans hle hhigh⟩
    rcases List.mem_append.mp hr with hr | hr
    · exact ihinner r hr
    rcases List.mem_cons.mp hr with rfl | hr
    · exact ⟨Int.le_trans hlow hle, hhigh⟩
    · exact ihrest r hr

/-- What follows a bracketed trace shows where this ends, if it is no entry. -/
theorem unique {close close' : Record} {rest rest' : List Record} (h : Bracketed low high trace)
    (h' : Bracketed low high trace') (hclose : close.phase ≠ .entered)
    (hclose' : close'.phase ≠ .entered) (heq : trace ++ close :: rest = trace' ++ close' :: rest') :
    trace = trace' ∧ close = close' ∧ rest = rest' := by
  induction h generalizing trace' close close' rest rest' with
  | nil =>
    cases h' with
    | nil => exact ⟨rfl, List.cons.inj heq⟩
    | run hentry _ _ _ _ _ =>
      cases heq
      exact absurd hentry hclose
  | run hentry hends _ _ _ _ ihinner ihrest =>
    cases h' with
    | nil =>
      cases heq
      exact absurd hentry hclose'
    | run _ hends' _ _ hinner' hrest' =>
      simp only [List.cons_append, List.append_assoc, List.cons.injEq] at heq
      obtain ⟨rfl, heq⟩ := heq
      obtain ⟨rfl, rfl, hbehind⟩ := ihinner hinner' hends.phase_ne hends'.phase_ne heq
      obtain ⟨rfl, hlast⟩ := ihrest hrest' hclose hclose' hbehind
      exact ⟨rfl, hlast⟩

/-- Behind each entry there are whole runs and then a line that ends it. -/
theorem exists_close (h : Bracketed low high trace) {front behind : List Record} {entry : Record}
    (htrace : trace = front ++ entry :: behind) (hentry : entry.phase = .entered) :
    ∃ inner close rest, behind = inner ++ close :: rest ∧ Bracketed low high inner ∧
      close.Closes entry := by
  induction h generalizing front behind with
  | nil => simp at htrace
  | @run first last inner rest _ hlast _ _ hinner _ ihinner ihrest =>
    rcases List.cons_eq_append_iff.mp htrace with ⟨_, hhead⟩ | ⟨front', _, htail⟩
    · cases hhead
      exact ⟨inner, last, rest, rfl, hinner, hlast⟩
    -- the entry lies among the runs inside, or behind the line that ends the first run
    rcases List.append_eq_append_iff.mp htail with ⟨middle, _, hmiddle⟩ | ⟨middle, hfront, hmiddle⟩
    · rcases List.cons_eq_append_iff.mp hmiddle with ⟨_, hhead⟩ | ⟨front'', _, htail'⟩
      · cases hhead
        exact absurd hentry hlast.phase_ne
      · exact ihrest htail'
    · rcases List.cons_eq_append_iff.mp hmiddle with ⟨_, hhead⟩ | ⟨middle', hmiddle', hbehind⟩
      · cases hhead
        exact absurd hentry hlast.phase_ne
      · subst hmiddle'
        obtain ⟨inner', close, rest', hinner', hbracketed, hcloses⟩ := ihinner hfront
        refine ⟨inner', close, rest' ++ last :: rest, ?_, hbracketed, hcloses⟩
        rw [hbehind, hinner', List.append_assoc, List.cons_append]

end Bracketed

/-! ## Traces of runs -/

/-- What a run within reach of `s` has traced: whole runs if it has returned, and what could
have become whole runs if it has ended in a fault. -/
structure TracedWithin {α : Type} (s : Cursor) (P : α → Prop) (o : Outcome α) : Prop where
  reach : s.Reaches o.cursor
  returned : ∀ a, o.exit = .ok a →
    P a ∧ Bracketed s.position (max s.position s.text.size) o.trace
  raised : ∀ fault, o.exit = .error fault →
    ∃ rest, Bracketed s.position (max s.position s.text.size) (o.trace ++ rest)

namespace TracedWithin

variable {α β : Type} {s : Cursor} {P : α → Prop} {P' : β → Prop}

theorem andThen {o : Outcome α} {f : α → Action β} (h : TracedWithin s P o)
    (hf : ∀ a, P a → ∀ c, s.Reaches c → TracedWithin s P' ((f a).run c)) :
    TracedWithin s P' (o.andThen f) := by
  rcases o with ⟨fault | a, c, trace⟩
  · exact ⟨h.reach, fun _ hexit => (by cases hexit), fun _ _ => h.raised fault rfl⟩
  · obtain ⟨ha, htrace⟩ := h.returned a rfl
    obtain ⟨hreach, hreturned, hraised⟩ := hf a ha c h.reach
    refine ⟨hreach, fun b hb => ?_, fun fault hfault => ?_⟩
    · obtain ⟨hP, htrace'⟩ := hreturned b hb
      exact ⟨hP, htrace.append htrace'⟩
    · obtain ⟨rest, hrest⟩ := hraised fault hfault
      refine ⟨rest, ?_⟩
      rw [Outcome.andThen_ok, Outcome.after, List.append_assoc]
      exact htrace.append hrest

/-- An action without a trace, of which it is known where it leads. -/
theorem of_silent {Q : α → α → Prop} {m m' : Action α} (hsilent : m.Silent)
    (h : (onward s).Agree Q m m') :
    ∀ c, s.Reaches c → TracedWithin s (fun a => ∃ a', Q a a') (m.run c) := by
  intro c hc
  obtain ⟨hreach, hresult⟩ := h c hc
  refine ⟨hreach, fun a ha => ⟨hresult a ha, ?_⟩, fun _ _ => ⟨[], ?_⟩⟩
  all_goals
    rw [hsilent c]
    exact .nil

/-- An agreement that does not look at its second run. A single line is not bracketed, so it
holds of no names, and traced parsers are a case of their own. -/
def agreement (s : Cursor) : Agreement where
  Agree Q m _ := ∀ c, s.Reaches c → TracedWithin s (fun a => ∃ a', Q a a') (m.run c)
  Marks := (onward s).Marks
  Leaf _ := True
  Name _ := False
  shift := 0
  position_eq := (onward s).position_eq
  pure h := of_silent (fun _ => rfl) ((onward s).pure h)
  bind hm hf c hc := (hm c hc).andThen fun a ⟨a', ha⟩ => hf a a' ha
  raise fault := of_silent (fun _ => rfl) ((onward s).raise fault)
  mark := of_silent (Action.silent_look _) (onward s).mark
  rewind h := of_silent (Action.silent_move _) ((onward s).rewind h)
  peek := of_silent Action.silent_peek (onward s).peek
  record _ h := h.elim
  leaf {leaf} h := of_silent leaf.silent_matcher ((onward s).leaf h)

/-- A traced parser that fails back at its start and does not lead back. -/
theorem traced {p : Matcher} (hsafe : p.Safe) (honward : ∀ c : Cursor, c.Reaches (p.run c).cursor)
    (hp : (agreement s).Match p p) (name : String) :
    (agreement s).Match (p.traced name) (p.traced name) := by
  intro c hc
  obtain ⟨hreach, hreturned, hraised⟩ := hp c hc
  have hlower := (honward c).lower
  have hfailed := fun r => hsafe c r (p.run c).cursor
  rcases ho : p.run c with ⟨fault | r, c', trace⟩
  all_goals rw [ho] at hreach hreturned hraised hlower hfailed
  · have hrun : (p.traced name).run c =
        ⟨.error fault, c', ⟨name, .entered, c.position⟩ :: trace⟩ := by
      simp [Matcher.traced, ho]
    rw [hrun]
    refine ⟨hreach, fun _ hexit => (by cases hexit), fun _ _ => ?_⟩
    -- what is open inside is closed first, and then the entry by a failure
    obtain ⟨rest, hrest⟩ := hraised fault rfl
    refine ⟨rest ++ [⟨name, .failed, c.position⟩], ?_⟩
    rw [List.cons_append, ← List.append_assoc]
    exact .run rfl ⟨rfl, .inl ⟨rfl, rfl⟩⟩ hc.lower hc.upper hrest .nil
  · have hrun : (p.traced name).run c = ⟨.ok r, c', ⟨name, .entered, c.position⟩ ::
        (trace ++ [⟨name, if r.success then .succeeded else .failed, c'.position⟩])⟩ := by
      simp only [Matcher.traced, Action.run_bind, Action.run_record, ho, Outcome.andThen_ok,
        Action.run_pure, Outcome.after_mk, List.append_nil, List.singleton_append]
    rw [hrun]
    obtain ⟨hreply, htrace⟩ := hreturned r rfl
    refine ⟨hreach, fun r' hr' => ⟨by cases hr'; exact hreply, ?_⟩,
      fun _ hexit => by cases hexit⟩
    refine .run rfl ⟨rfl, ?_⟩ hc.lower hreach.upper htrace .nil
    cases hsuccess : r.success with
    | true => exact .inr ⟨rfl, hlower⟩
    | false =>
      have hmark := hfailed r ⟨by rw [ho], by rw [ho]⟩ hsuccess
      exact .inl ⟨rfl, congrArg Mark.position hmark⟩

theorem matcher {rounds : Nat} {call : Nat → Matcher} (hsafe : ∀ id, (call id).Safe)
    (honward : ∀ s id, True → (onward s).Match (call id) (call id))
    (hcall : ∀ id, True → (agreement s).Match (call id) (call id)) {p : Parser}
    (hp : p.MadeOf (fun _ => True) (fun _ => True) fun _ => True) :
    (agreement s).Match (p.matcher rounds call) (p.matcher rounds call) := by
  refine Agreement.matcherTracing (fun _ h => h.elim) hcall (.refl rounds) ?_ p hp
  intro p name _ hp hbody
  have hcomposed := Parser.isComposed_of_madeOf hp
  have honward' := fun c => (onward c).matcher (honward c) (.refl rounds) p hp
  exact traced (Parser.safe_matcher_of_isComposed hsafe p hcomposed)
    (fun c => (honward' c c (Cursor.reaches_self c)).1) hbody name

end TracedWithin

namespace Parser

variable {fs : Forwards} {p : Parser}

theorem run_tracedWithin (hfs : ∀ id body, fs.target? id = some body → body.isComposed = true)
    (hp : p.isComposed = true) (budget : Budget) (c : Cursor) :
    TracedWithin c (fun r => ∃ r', Reply.Shifted 0 r r') (p.run fs budget c) := by
  have hmade : p.MadeOf (fun _ => True) (fun _ => True) fun _ => True :=
    madeOf_of_isComposed (fun _ => trivial) (fun _ => trivial) (fun _ => trivial) p hp
  have hclosed : fs.Closed (fun _ => True) (fun _ => True) fun _ => True :=
    Forwards.closed_of_isComposed (fun _ => trivial) (fun _ => trivial) hfs
  have hsafe := safe_call hfs budget.rounds
  have honward := fun depth s => (onward s).call hclosed budget.rounds depth
  have hcall := Forwards.call_induction (fun m => (TracedWithin.agreement c).Match m m)
    (fun _ => True) (fun fault => (TracedWithin.agreement c).raise fault)
    (fun depth ih id body _ h =>
      TracedWithin.matcher (hsafe depth) (honward depth) ih (hclosed id body trivial h)) budget.depth
  exact TracedWithin.matcher (hsafe _) (honward _) hcall hmade c (Cursor.reaches_self c)

/-- The trace of a run that returns is bracketed, and each entry in it is ended by one line
and no other; that of a run that ends in a fault is the front of a bracketed trace. All lines
report positions between the start and the end of the text, or that of a start behind it. -/
theorem run_trace_bracketed
    (hfs : ∀ id body, fs.target? id = some body → body.isComposed = true)
    (hp : p.isComposed = true) (budget : Budget) (c : Cursor) :
    let o := p.run fs budget c
    let Whole := Bracketed c.position (max c.position c.text.size)
    (∀ reply, o.exit = .ok reply → Whole o.trace ∧
      ∀ front entry behind, o.trace = front ++ entry :: behind → entry.phase = .entered →
        ∃ inner close rest, behind = inner ++ close :: rest ∧ Whole inner ∧ close.Closes entry ∧
          ∀ inner' close' rest', behind = inner' ++ close' :: rest' → Whole inner' →
            close'.phase ≠ .entered → inner' = inner ∧ close' = close ∧ rest' = rest) ∧
    (∀ fault, o.exit = .error fault → ∃ rest, Whole (o.trace ++ rest)) ∧
    ∀ r ∈ o.trace, c.position ≤ r.position ∧ r.position ≤ max c.position c.text.size := by
  intro o Whole
  obtain ⟨_, hreturned, hraised⟩ := run_tracedWithin hfs hp budget c
  refine ⟨fun reply hexit => ?_, hraised, fun r hr => ?_⟩
  · have htrace : Whole o.trace := (hreturned reply hexit).2
    refine ⟨htrace, fun front entry behind hsplit hentry => ?_⟩
    obtain ⟨inner, close, rest, hbehind, hinner, hclose⟩ := htrace.exists_close hsplit hentry
    refine ⟨inner, close, rest, hbehind, hinner, hclose, fun inner' close' rest' h hinner' hphase => ?_⟩
    exact hinner'.unique hinner hphase hclose.phase_ne (h.symm.trans hbehind)
  · cases hexit : o.exit with
    | ok reply => exact (hreturned reply hexit).2.within r hr
    | error fault =>
      obtain ⟨rest, hrest⟩ := hraised fault hexit
      exact hrest.within r (List.mem_append_left rest hr)

/-- A parenthesis that is never closed: the run inside succeeds behind it and is undone, and
the parenthesis is taken by itself. The second parser goes on to a forward that is not
defined. -/
theorem run_trace_bracketed_undone :
    let nested := (((literal "(").seqRight ((Parser.forward 0).seqLeft (literal ")"))).orElse
      .anyChar).traced "nested"
    let fs : Forwards := ⟨#[some nested, none]⟩
    let c : Cursor := ⟨#['(', 'x'], 0, 0⟩
    let o := (Parser.forward 0).run fs ⟨2, 1⟩ c
    let o' := (((Parser.forward 0).seqRight (.forward 1)).traced "outer").run fs ⟨2, 1⟩ c
    (o.trace = [⟨"nested", .entered, 0⟩, ⟨"nested", .entered, 1⟩, ⟨"nested", .succeeded, 2⟩,
      ⟨"nested", .succeeded, 1⟩] ∧ Bracketed 0 2 o.trace) ∧
    o'.trace = ⟨"outer", .entered, 0⟩ :: o.trace ∧ ∃ rest, Bracketed 0 2 (o'.trace ++ rest) := by
  intro nested fs c o o'
  have hfs : ∀ id body, fs.target? id = some body → body.isComposed = true := by
    intro id body h
    match id with
    | 0 => cases h; rfl
    | 1 => cases h
    | id + 2 => cases h
  have hwhole := (run_trace_bracketed (p := .forward 0) hfs rfl ⟨2, 1⟩ c).1
  have hfront := (run_trace_bracketed
    (p := ((Parser.forward 0).seqRight (.forward 1)).traced "outer") hfs rfl ⟨2, 1⟩ c).2.1
  have htrace : o.trace = [⟨"nested", .entered, 0⟩, ⟨"nested", .entered, 1⟩,
      ⟨"nested", .succeeded, 2⟩, ⟨"nested", .succeeded, 1⟩] := by decide +kernel
  have htrace' : o'.trace = ⟨"outer", .entered, 0⟩ :: o.trace := by decide +kernel
  have hok : o.exit.isOk = true := by decide +kernel
  have hok' : o'.exit.isOk = false := by decide +kernel
  cases hexit : o.exit with
  | error fault => rw [hexit] at hok; cases hok
  | ok reply =>
    cases hexit' : o'.exit with
    | ok reply' => rw [hexit'] at hok'; cases hok'
    | error fault => exact ⟨⟨htrace, (hwhole _ hexit).1⟩, htrace', hfront _ hexit'⟩

end Parser
end Parlance
