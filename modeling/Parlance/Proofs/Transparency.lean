import Mathlib.Data.List.Forall2
import Parlance.Proofs.Settling

/-! # Tracing is transparent

A parser without some of its traces runs as it does with them, and leaves the same trace but
for the lines that those would have written. Lines of two traces may look alike, so which
lines these are is said by marks: a marked parser traces under labels, and a label says the
name to show and whether the trace is removed. The parser with all its traces and the one
without the removed ones are both *relabelled* from the marked one, and relabelling a parser
relabels the trace of its run and changes nothing else (`Parser.run_relabel`). -/
namespace Parlance

/-! ## Relabelled runs -/

/-- A line of trace under a new name, or none. -/
def Record.relabel? (f : String → Option String) (r : Record) : Option Record :=
  (f r.name).map fun name => { r with name }

/-- The outcome with its trace under new names; lines without one are dropped. -/
def Outcome.relabel {α : Type} (f : String → Option String) (o : Outcome α) : Outcome α :=
  ⟨o.exit, o.cursor, o.trace.filterMap (Record.relabel? f)⟩

def Action.relabel {α : Type} (f : String → Option String) (m : Action α) : Action α :=
  ⟨fun c => (m.run c).relabel f⟩

/-- The parser whose traces have new names; those without one are removed. -/
def Parser.relabel (f : String → Option String) : Parser → Parser
  | primitive leaf => primitive leaf
  | native run => native (run.relabel f)
  | forward id => forward id
  | replace p v => (p.relabel f).replace v
  | map p g => (p.relabel f).map g
  | withDefault p default => (p.relabel f).withDefault default
  | filter p accepts => (p.relabel f).filter accepts
  | atLeast p n => (p.relabel f).atLeast n
  | butNot p excluded => (p.relabel f).butNot (excluded.relabel f)
  | seqLeft p q => (p.relabel f).seqLeft (q.relabel f)
  | seqRight p q => (p.relabel f).seqRight (q.relabel f)
  | enclosed p opening closing =>
    (p.relabel f).enclosed (opening.relabel f) (closing.relabel f)
  | pair p q => (p.relabel f).pair (q.relabel f)
  | triple p q t => (p.relabel f).triple (q.relabel f) (t.relabel f)
  | orElse p q => (p.relabel f).orElse (q.relabel f)
  | branch chars p q => branch chars (p.relabel f) (q.relabel f)
  | many p => (p.relabel f).many
  | manyChars p => (p.relabel f).manyChars
  | chainl p separator g => (p.relabel f).chainl (separator.relabel f) g
  | traced p label =>
    match f label with
    | some name => (p.relabel f).traced name
    | none => p.relabel f

def Forwards.relabel (f : String → Option String) (fs : Forwards) : Forwards :=
  ⟨fs.slots.map (Option.map (Parser.relabel f))⟩

theorem Forwards.target?_relabel (f : String → Option String) (fs : Forwards) (id : Nat) :
    (fs.relabel f).target? id = (fs.target? id).map (Parser.relabel f) := by
  simp only [target?, relabel, Array.getElem?_map]
  cases fs.slots[id]? with
  | none => rfl
  | some slot => rfl

/-! ## Primitives write no trace -/

def Action.Silent {α : Type} (m : Action α) : Prop := ∀ c, (m.run c).trace = []

section Silent

variable {α β : Type}

theorem Action.Silent.bind {m : Action α} {f : α → Action β} (hm : m.Silent)
    (hf : ∀ a, (f a).Silent) : (m >>= f).Silent := by
  intro c
  have htrace := hm c
  rw [run_bind]
  rcases ho : m.run c with ⟨exit, c₁, trace⟩
  rw [ho] at htrace
  cases exit with
  | error fault => exact htrace
  | ok a =>
    rw [Outcome.andThen_ok, Outcome.after, hf a c₁, List.append_nil]
    exact htrace

theorem Action.Silent.ite {b : Prop} [Decidable b] {m m' : Action α} (hm : m.Silent)
    (hm' : m'.Silent) : (if b then m else m').Silent := by
  split
  · exact hm
  · exact hm'

theorem Action.silent_look (view : Cursor → α) : (look view).Silent := fun _ => rfl

theorem Action.silent_move (change : Cursor → Cursor) : (move change).Silent := fun _ => rfl

theorem Action.silent_lift (result : Except Fault α) : (lift result).Silent := fun _ => rfl

theorem Action.silent_peek : peek.Silent := by
  intro c
  rw [run_peek]
  split <;> rfl

theorem Matcher.silent_scan (pass : Cursor → Except Fault (α × Cursor)) : (scan pass).Silent := by
  intro c
  rw [scan, Action.run_inText]
  split
  · rfl
  · dsimp only
    split <;> rfl

theorem Matcher.silent_failAt (m : Mark) : (failAt m).Silent :=
  (Action.silent_move _).bind fun _ => Action.silent_look _

theorem Matcher.silent_consume (v : Value) : (consume v).Silent :=
  (Action.silent_move _).bind fun _ => Action.silent_look _

end Silent

theorem Primitive.silent_matcher (leaf : Primitive) : leaf.matcher.Silent := by
  have hsucceed (v : Value) : (Matcher.succeed v).Silent := Action.silent_look _
  have hfail : Matcher.fail.Silent := Action.silent_look _
  cases leaf with
  | success v => exact hsucceed v
  | failure => exact hfail
  | anyChar =>
    refine Action.silent_peek.bind fun next => ?_
    cases next with
    | none => exact hfail
    | some d => exact Matcher.silent_consume _
  | oneOf chars table =>
    refine Action.silent_peek.bind fun next => ?_
    split
    · exact hfail
    · exact (Action.silent_move _).bind fun _ => (Action.silent_lift _).bind hsucceed
  | oneOfMapped chars entries =>
    refine Action.silent_peek.bind fun next => ?_
    split
    · exact hfail
    · exact Matcher.silent_consume _
  | satisfy check =>
    refine Action.silent_peek.bind fun next => ?_
    cases next with
    | none => exact hfail
    | some d => exact (Action.silent_lift _).bind fun _ => (Matcher.silent_consume _).ite hfail
  | takeWhile check => exact (Matcher.silent_scan _).bind fun _ => hsucceed _
  | skipWhile check => exact (Matcher.silent_scan _).bind fun _ => hsucceed _
  | literal chars =>
    exact (Action.silent_look _).bind fun start => (Matcher.silent_scan _).bind fun _ =>
      (hsucceed _).ite (Matcher.silent_failAt start)
  | endOfText => exact (Action.silent_look _).bind fun _ => (hsucceed _).ite hfail
  | endOfLine =>
    refine Action.silent_peek.bind fun next => ?_
    cases next with
    | none => exact hsucceed _
    | some d =>
      refine (Matcher.silent_consume _).ite (Action.Silent.ite ?_ hfail)
      refine (Action.silent_move _).bind fun _ => Action.silent_peek.bind fun next => ?_
      cases next with
      | none => exact hsucceed _
      | some d' => exact (Matcher.silent_consume _).ite (hsucceed _)
  | indent => exact (Action.silent_move _).bind fun _ => hsucceed _
  | dedent =>
    refine (Action.silent_look _).bind fun lower => ?_
    cases lower with
    | none => exact hfail
    | some c => exact (Action.silent_move _).bind fun _ => hsucceed _
  | leadingTabs =>
    refine (Action.silent_look _).bind fun start => (hsucceed _).ite ?_
    exact (Matcher.silent_scan _).bind fun _ => (hsucceed _).ite (Matcher.silent_failAt start)

/-! ## Relabelling commutes with running -/

/-- The second run is the first with its trace relabelled. -/
def Relabels {α : Type} (f : String → Option String) (Q : α → α → Prop) (m m' : Action α) : Prop :=
  ∀ c, ExitsAlike Q (m.run c).exit (m'.run c).exit ∧ (m'.run c).cursor = (m.run c).cursor ∧
    (m'.run c).trace = (m.run c).trace.filterMap (Record.relabel? f)

namespace Relabels

variable {α β : Type} {f : String → Option String} {Q : α → α → Prop} {Q' : β → β → Prop}

theorem bind {m m' : Action α} {k k' : α → Action β} (hm : Relabels f Q m m')
    (hk : ∀ a a', Q a a' → Relabels f Q' (k a) (k' a')) : Relabels f Q' (m >>= k) (m' >>= k') := by
  intro c
  rw [Action.run_bind, Action.run_bind]
  have hc := hm c
  rcases ho : m.run c with ⟨exit, c₁, trace⟩
  rcases ho' : m'.run c with ⟨exit', c₁', trace'⟩
  rw [ho, ho'] at hc
  obtain ⟨hexit, hcursor, htrace⟩ := hc
  dsimp only at hexit hcursor htrace
  subst hcursor htrace
  cases hexit with
  | error fault => exact ⟨.error fault, rfl, rfl⟩
  | ok hQ =>
    obtain ⟨hexit, hcursor, htrace⟩ := hk _ _ hQ c₁'
    refine ⟨hexit, hcursor, ?_⟩
    simp only [Outcome.andThen_ok, Outcome.after, htrace, List.filterMap_append]

/-- Without a trace there is nothing to relabel. -/
theorem of_silent {m : Action α} (h : m.Silent) (hQ : ∀ a, Q a a) : Relabels f Q m m := by
  intro c
  refine ⟨?_, rfl, by rw [h c]; rfl⟩
  cases (m.run c).exit with
  | error fault => exact .error fault
  | ok a => exact .ok (hQ a)

theorem position_eq {m m' : Mark} (h : m = m') : m.position = m'.position + 0 := by
  rw [h, Int.add_zero]

def agreement (f : String → Option String) : Agreement where
  Agree := Relabels f
  Marks := Eq
  Leaf _ := True
  Name _ := False
  shift := 0
  position_eq := position_eq
  pure h := fun _ => ⟨.ok h, rfl, rfl⟩
  bind := bind
  raise fault := fun _ => ⟨.error fault, rfl, rfl⟩
  mark := of_silent (Action.silent_look _) fun _ => rfl
  rewind h := by
    rw [h]
    exact of_silent (Action.silent_move _) fun _ => trivial
  peek := of_silent Action.silent_peek fun _ => rfl
  record _ h := h.elim
  leaf {leaf} _ := of_silent leaf.silent_matcher fun r => ⟨rfl, rfl, (Int.add_zero r.position).symm⟩

/-- A line of trace with a new name. -/
theorem record_some {label name : String} (h : f label = some name) (phase : Phase) :
    Relabels f (fun _ _ => True) (Action.record label phase) (Action.record name phase) := by
  intro c
  refine ⟨.ok trivial, rfl, ?_⟩
  simp [Record.relabel?, h]

/-- A line of trace that is dropped. -/
theorem record_none {label : String} (h : f label = none) (phase : Phase) :
    Relabels f (fun _ _ => True) (Action.record label phase) (pure ()) := by
  intro c
  refine ⟨.ok trivial, rfl, ?_⟩
  simp [Record.relabel?, h]

variable {p p' : Matcher}

theorem traced_some (hp : (agreement f).Match p p') {label name : String}
    (h : f label = some name) : (agreement f).Match (p.traced label) (p'.traced name) := by
  refine bind (record_some h .entered) fun _ _ _ => bind hp fun r r' hr => ?_
  rw [hr.1]
  exact bind (record_some h _) fun _ _ _ => (agreement f).pure hr

theorem traced_none (hp : (agreement f).Match p p') {label : String} (h : f label = none) :
    (agreement f).Match (p.traced label) p' := by
  have hsteps : p' = pure () >>= fun _ => p' >>= fun r => pure () >>= fun _ => pure r := by
    simp
  rw [hsteps]
  refine bind (record_none h .entered) fun _ _ _ => bind hp fun r r' hr => ?_
  exact bind (record_none h _) fun _ _ _ => (agreement f).pure hr

theorem native (run : Matcher) : (agreement f).Match run (run.relabel f) :=
  fun _ => ⟨exitsAlike_shifted_zero _, rfl, rfl⟩

theorem matcher {call call' : Nat → Matcher}
    (hcall : ∀ id, (agreement f).Match (call id) (call' id)) (rounds : Nat) :
    ∀ p : Parser, (agreement f).Match (p.matcher rounds call) ((p.relabel f).matcher rounds call')
  | .primitive _ => (agreement f).leaf trivial
  | .native run => native run
  | .forward id => hcall id
  | .replace p v => Agreement.replace (matcher hcall rounds p) v
  | .map p g => Agreement.map (matcher hcall rounds p) g
  | .withDefault p default => Agreement.withDefault (matcher hcall rounds p) default
  | .filter p accepts => Agreement.filter (matcher hcall rounds p) accepts
  | .atLeast p n => Agreement.atLeast (matcher hcall rounds p) n
  | .butNot p q => Agreement.butNot (matcher hcall rounds p) (matcher hcall rounds q)
  | .seqLeft p q => Agreement.seqLeft (matcher hcall rounds p) (matcher hcall rounds q)
  | .seqRight p q => Agreement.seqRight (matcher hcall rounds p) (matcher hcall rounds q)
  | .enclosed p q t => Agreement.enclosed (matcher hcall rounds p) (matcher hcall rounds q)
      (matcher hcall rounds t)
  | .pair p q => Agreement.pair (matcher hcall rounds p) (matcher hcall rounds q)
  | .triple p q t => Agreement.triple (matcher hcall rounds p) (matcher hcall rounds q)
      (matcher hcall rounds t)
  | .orElse p q => Agreement.orElse (matcher hcall rounds p) (matcher hcall rounds q)
  | .branch chars p q => Agreement.branch chars (matcher hcall rounds p) (matcher hcall rounds q)
  | .many p => Agreement.many (matcher hcall rounds p) (.refl rounds)
  | .manyChars p => Agreement.manyChars (matcher hcall rounds p) (.refl rounds)
  | .chainl p q g =>
    Agreement.chainl (matcher hcall rounds p) (matcher hcall rounds q) g (.refl rounds)
  | .traced p label => by
    have hp := matcher hcall rounds p
    cases h : f label with
    | none =>
      simp only [Parser.relabel, h]
      exact traced_none hp h
    | some name =>
      simp only [Parser.relabel, h]
      exact traced_some hp h

/-- Forwards of the relabelled table; the induction is on how many of them may be open. -/
theorem call (fs : Forwards) (rounds depth : Nat) :
    ∀ id, (agreement f).Match (fs.call rounds depth id) ((fs.relabel f).call rounds depth id) := by
  induction depth with
  | zero =>
    intro id
    have htarget := fs.target?_relabel f id
    cases h : fs.target? id with
    | none =>
      rw [h] at htarget
      rw [Forwards.call_undefined 0 h, Forwards.call_undefined 0 htarget]
      exact (agreement f).raise _
    | some body =>
      rw [h] at htarget
      rw [Forwards.call_zero h, Forwards.call_zero htarget]
      exact (agreement f).raise _
  | succ depth ih =>
    intro id
    have htarget := fs.target?_relabel f id
    cases h : fs.target? id with
    | none =>
      rw [h] at htarget
      rw [Forwards.call_undefined _ h, Forwards.call_undefined _ htarget]
      exact (agreement f).raise _
    | some body =>
      rw [h] at htarget
      rw [Forwards.call_succ h, Forwards.call_succ htarget]
      exact matcher ih rounds body

end Relabels

/-- A relabelled parser runs as before, with its trace relabelled. -/
theorem Parser.run_relabel (f : String → Option String) (p : Parser) (fs : Forwards)
    (budget : Budget) (c : Cursor) :
    (p.relabel f).run (fs.relabel f) budget c = (p.run fs budget c).relabel f := by
  obtain ⟨hexit, hcursor, htrace⟩ :=
    Relabels.matcher (Relabels.call (f := f) fs budget.rounds budget.depth) budget.rounds p c
  exact Outcome.ext hexit.eq_of_shifted_zero.symm hcursor htrace

/-! ## Removed traces -/

/-- The second parser is the first without some of its traces. -/
inductive Parser.Unwraps : Parser → Parser → Prop
  | primitive (leaf : Primitive) : Unwraps (.primitive leaf) (.primitive leaf)
  | native (run : Matcher) : Unwraps (.native run) (.native run)
  | forward (id : Nat) : Unwraps (.forward id) (.forward id)
  | replace {p p' : Parser} (v : Value) : Unwraps p p' → Unwraps (p.replace v) (p'.replace v)
  | map {p p' : Parser} (f : Value → Except Fault Value) :
      Unwraps p p' → Unwraps (p.map f) (p'.map f)
  | withDefault {p p' : Parser} (default : Value) :
      Unwraps p p' → Unwraps (p.withDefault default) (p'.withDefault default)
  | filter {p p' : Parser} (accepts : Value → Except Fault Bool) :
      Unwraps p p' → Unwraps (p.filter accepts) (p'.filter accepts)
  | atLeast {p p' : Parser} (n : Int) : Unwraps p p' → Unwraps (p.atLeast n) (p'.atLeast n)
  | butNot {p p' q q' : Parser} :
      Unwraps p p' → Unwraps q q' → Unwraps (p.butNot q) (p'.butNot q')
  | seqLeft {p p' q q' : Parser} :
      Unwraps p p' → Unwraps q q' → Unwraps (p.seqLeft q) (p'.seqLeft q')
  | seqRight {p p' q q' : Parser} :
      Unwraps p p' → Unwraps q q' → Unwraps (p.seqRight q) (p'.seqRight q')
  | enclosed {p p' q q' t t' : Parser} : Unwraps p p' → Unwraps q q' → Unwraps t t' →
      Unwraps (p.enclosed q t) (p'.enclosed q' t')
  | pair {p p' q q' : Parser} : Unwraps p p' → Unwraps q q' → Unwraps (p.pair q) (p'.pair q')
  | triple {p p' q q' t t' : Parser} : Unwraps p p' → Unwraps q q' → Unwraps t t' →
      Unwraps (p.triple q t) (p'.triple q' t')
  | orElse {p p' q q' : Parser} :
      Unwraps p p' → Unwraps q q' → Unwraps (p.orElse q) (p'.orElse q')
  | branch {p p' q q' : Parser} (chars : List Char) :
      Unwraps p p' → Unwraps q q' → Unwraps (.branch chars p q) (.branch chars p' q')
  | many {p p' : Parser} : Unwraps p p' → Unwraps p.many p'.many
  | manyChars {p p' : Parser} : Unwraps p p' → Unwraps p.manyChars p'.manyChars
  | chainl {p p' q q' : Parser} (f : Value → Value → Value → Except Fault Value) :
      Unwraps p p' → Unwraps q q' → Unwraps (p.chainl q f) (p'.chainl q' f)
  | traced {p p' : Parser} (name : String) : Unwraps p p' → Unwraps (p.traced name) (p'.traced name)
  | removed {p p' : Parser} (name : String) : Unwraps p p' → Unwraps (p.traced name) p'

/-- The second table defines the same forwards, without some of their traces. -/
def Forwards.Unwraps (fs fs' : Forwards) : Prop :=
  List.Forall₂ (Option.Rel Parser.Unwraps) fs.slots.toList fs'.slots.toList

/-! ## Marks -/

structure Marking where
  /-- The name that is shown. -/
  name : String → String
  /-- Is the trace one that is removed? -/
  removed : String → Bool

namespace Marking

def all (M : Marking) (label : String) : Option String := some (M.name label)

def kept (M : Marking) (label : String) : Option String :=
  if M.removed label then none else some (M.name label)

def shown (M : Marking) (r : Record) : Record := { r with name := M.name r.name }

/-- The parser is written by hand only where no removed label is traced. -/
def Spares (M : Marking) : Parser → Prop :=
  Parser.MadeWith (fun run => ∀ c, ∀ r ∈ (run.run c).trace, M.removed r.name = false)
    (fun _ => True) (fun _ => True) fun _ => True

/-- The marked parser `q` and table `gs` are `p` and `fs` with labels for names, and `p'` and
`fs'` with labels for names and with the removed traces. -/
structure Marks (M : Marking) (q : Parser) (gs : Forwards) (p p' : Parser) (fs fs' : Forwards) :
    Prop where
  parser : q.relabel M.all = p
  table : gs.relabel M.all = fs
  unwrapped : q.relabel M.kept = p'
  unwrappedTable : gs.relabel M.kept = fs'
  /-- Lines with a removed label are written by the removed traces only. -/
  spares : M.Spares q ∧ ∀ id body, gs.target? id = some body → M.Spares body

variable {M : Marking}

theorem filterMap_all (M : Marking) (trace : List Record) :
    trace.filterMap (Record.relabel? M.all) = trace.map M.shown :=
  congrFun List.filterMap_eq_map trace

theorem filterMap_kept (M : Marking) (trace : List Record) :
    trace.filterMap (Record.relabel? M.kept) =
      (trace.filter fun r => !M.removed r.name).map M.shown := by
  induction trace with
  | nil => rfl
  | cons r rest ih =>
    cases h : M.removed r.name with
    | true => simp [Record.relabel?, kept, h, ih]
    | false => simp [Record.relabel?, kept, h, ih, shown]

/-! ### Marks for every pair -/

/-- Labels with a sign in front of the name: a minus where the trace is removed. -/
def signed : Marking where
  name label := String.ofList (label.toList.drop 1)
  removed label := label.toList.head? = some '-'

def label (sign : Char) (name : String) : String := String.ofList (sign :: name.toList)

theorem all_label (sign : Char) (name : String) : signed.all (label sign name) = some name := by
  have hname : signed.name (label sign name) = name := by
    show String.ofList ((String.ofList (sign :: name.toList)).toList.drop 1) = name
    rw [String.toList_ofList]
    exact String.ofList_toList
  rw [all, hname]

theorem removed_label (sign : Char) (name : String) :
    signed.removed (label sign name) = decide (sign = '-') := by
  show decide ((String.ofList (sign :: name.toList)).toList.head? = some '-') = _
  rw [String.toList_ofList]
  simp

theorem kept_label (sign : Char) (name : String) :
    signed.kept (label sign name) = if sign = '-' then none else some name := by
  have hname := all_label sign name
  rw [all] at hname
  rw [kept, removed_label, hname]
  simp

/-- Signed names lose their signs again. -/
theorem relabel_plus {f : String → Option String} (h : ∀ name, f (label '+' name) = some name)
    (run : Matcher) : (run.relabel fun name => some (label '+' name)).relabel f = run := by
  have hrecord : (fun r : Record => (r.relabel? fun name => some (label '+' name)).bind
      (Record.relabel? f)) = some := by
    funext r
    simp [Record.relabel?, h]
  ext1
  funext c
  refine Outcome.ext rfl rfl ?_
  show List.filterMap _ (List.filterMap _ (run.run c).trace) = (run.run c).trace
  rw [List.filterMap_filterMap, hrecord, List.filterMap_some]

/-- A parser without some of its traces has the marks that say which. -/
theorem exists_marked {p p' : Parser} (h : p.Unwraps p') :
    ∃ q : Parser, q.relabel signed.all = p ∧ q.relabel signed.kept = p' ∧ signed.Spares q := by
  have hkept (name : String) : signed.kept (label '+' name) = some name := by
    rw [kept_label, if_neg (by decide)]
  have hgone (name : String) : signed.kept (label '-' name) = none := by
    rw [kept_label, if_pos rfl]
  induction h with
  | primitive leaf => exact ⟨.primitive leaf, rfl, rfl, trivial⟩
  | native run =>
    refine ⟨.native (run.relabel fun name => some (label '+' name)), ?_, ?_, ?_⟩
    · rw [Parser.relabel, relabel_plus (all_label '+')]
    · rw [Parser.relabel, relabel_plus hkept]
    · intro c r hr
      obtain ⟨r', _, hname⟩ := List.mem_filterMap.mp hr
      cases hname
      exact removed_label '+' r'.name
  | forward id => exact ⟨.forward id, rfl, rfl, trivial⟩
  | replace v _ ih =>
    obtain ⟨q, rfl, rfl, hq⟩ := ih
    exact ⟨q.replace v, rfl, rfl, hq⟩
  | map f _ ih =>
    obtain ⟨q, rfl, rfl, hq⟩ := ih
    exact ⟨q.map f, rfl, rfl, hq⟩
  | withDefault default _ ih =>
    obtain ⟨q, rfl, rfl, hq⟩ := ih
    exact ⟨q.withDefault default, rfl, rfl, hq⟩
  | filter accepts _ ih =>
    obtain ⟨q, rfl, rfl, hq⟩ := ih
    exact ⟨q.filter accepts, rfl, rfl, hq⟩
  | atLeast n _ ih =>
    obtain ⟨q, rfl, rfl, hq⟩ := ih
    exact ⟨q.atLeast n, rfl, rfl, hq⟩
  | many _ ih =>
    obtain ⟨q, rfl, rfl, hq⟩ := ih
    exact ⟨q.many, rfl, rfl, hq⟩
  | manyChars _ ih =>
    obtain ⟨q, rfl, rfl, hq⟩ := ih
    exact ⟨q.manyChars, rfl, rfl, hq⟩
  | butNot _ _ ihp ihq =>
    obtain ⟨p, rfl, rfl, hp⟩ := ihp
    obtain ⟨q, rfl, rfl, hq⟩ := ihq
    exact ⟨p.butNot q, rfl, rfl, hp, hq⟩
  | seqLeft _ _ ihp ihq =>
    obtain ⟨p, rfl, rfl, hp⟩ := ihp
    obtain ⟨q, rfl, rfl, hq⟩ := ihq
    exact ⟨p.seqLeft q, rfl, rfl, hp, hq⟩
  | seqRight _ _ ihp ihq =>
    obtain ⟨p, rfl, rfl, hp⟩ := ihp
    obtain ⟨q, rfl, rfl, hq⟩ := ihq
    exact ⟨p.seqRight q, rfl, rfl, hp, hq⟩
  | pair _ _ ihp ihq =>
    obtain ⟨p, rfl, rfl, hp⟩ := ihp
    obtain ⟨q, rfl, rfl, hq⟩ := ihq
    exact ⟨p.pair q, rfl, rfl, hp, hq⟩
  | orElse _ _ ihp ihq =>
    obtain ⟨p, rfl, rfl, hp⟩ := ihp
    obtain ⟨q, rfl, rfl, hq⟩ := ihq
    exact ⟨p.orElse q, rfl, rfl, hp, hq⟩
  | branch chars _ _ ihp ihq =>
    obtain ⟨p, rfl, rfl, hp⟩ := ihp
    obtain ⟨q, rfl, rfl, hq⟩ := ihq
    exact ⟨.branch chars p q, rfl, rfl, hp, hq⟩
  | chainl f _ _ ihp ihq =>
    obtain ⟨p, rfl, rfl, hp⟩ := ihp
    obtain ⟨q, rfl, rfl, hq⟩ := ihq
    exact ⟨p.chainl q f, rfl, rfl, hp, hq⟩
  | enclosed _ _ _ ihp ihq iht =>
    obtain ⟨p, rfl, rfl, hp⟩ := ihp
    obtain ⟨q, rfl, rfl, hq⟩ := ihq
    obtain ⟨t, rfl, rfl, ht⟩ := iht
    exact ⟨p.enclosed q t, rfl, rfl, hp, hq, ht⟩
  | triple _ _ _ ihp ihq iht =>
    obtain ⟨p, rfl, rfl, hp⟩ := ihp
    obtain ⟨q, rfl, rfl, hq⟩ := ihq
    obtain ⟨t, rfl, rfl, ht⟩ := iht
    exact ⟨p.triple q t, rfl, rfl, hp, hq, ht⟩
  | traced name _ ih =>
    obtain ⟨q, rfl, rfl, hq⟩ := ih
    refine ⟨q.traced (label '+' name), ?_, ?_, trivial, hq⟩
    · simp only [Parser.relabel, all_label]
    · simp only [Parser.relabel, hkept]
  | removed name _ ih =>
    obtain ⟨q, rfl, rfl, hq⟩ := ih
    refine ⟨q.traced (label '-' name), ?_, ?_, trivial, hq⟩
    · simp only [Parser.relabel, all_label]
    · simp only [Parser.relabel, hgone]

theorem exists_marked_slots {slots slots' : List (Option Parser)}
    (h : List.Forall₂ (Option.Rel Parser.Unwraps) slots slots') :
    ∃ marked : List (Option Parser), marked.map (Option.map (Parser.relabel signed.all)) = slots ∧
      marked.map (Option.map (Parser.relabel signed.kept)) = slots' ∧
      ∀ body, some body ∈ marked → signed.Spares body := by
  induction h with
  | nil => exact ⟨[], rfl, rfl, nofun⟩
  | cons hslot _ ih =>
    obtain ⟨marked, rfl, rfl, hspares⟩ := ih
    cases hslot with
    | none =>
      refine ⟨none :: marked, rfl, rfl, fun body hbody => hspares body ?_⟩
      simpa using hbody
    | some hbody =>
      obtain ⟨q, rfl, rfl, hq⟩ := exists_marked hbody
      refine ⟨some q :: marked, rfl, rfl, fun body hbody => ?_⟩
      rcases List.mem_cons.mp hbody with hfirst | hrest
      · cases hfirst
        exact hq
      · exact hspares body hrest

theorem exists_marks {p p' : Parser} {fs fs' : Forwards} (hp : p.Unwraps p')
    (hfs : fs.Unwraps fs') : ∃ (q : Parser) (gs : Forwards), signed.Marks q gs p p' fs fs' := by
  obtain ⟨q, hall, hkept, hq⟩ := exists_marked hp
  obtain ⟨marked, hslots, hslots', hspares⟩ := exists_marked_slots hfs
  have htable {f : String → Option String} {hs : Forwards}
      (h : marked.map (Option.map (Parser.relabel f)) = hs.slots.toList) :
      Forwards.relabel f ⟨marked.toArray⟩ = hs := by
    rw [Forwards.relabel, List.map_toArray, h]
  refine ⟨q, ⟨marked.toArray⟩, hall, htable hslots, hkept, htable hslots', hq, ?_⟩
  intro id body hbody
  refine hspares body ?_
  rw [Forwards.target?, List.getElem?_toArray] at hbody
  exact List.mem_of_getElem? (Option.join_eq_some_iff.mp hbody)

end Marking

/-! ## Runs with and without traces -/

/-- Both runs are relabelled from that of the marked parser. -/
theorem Marking.Marks.runs {M : Marking} {q p p' : Parser} {gs fs fs' : Forwards}
    (h : M.Marks q gs p p' fs fs') {budget budget' : Budget} {c : Cursor}
    (hrun : ¬ (p.run fs budget c).Exhausted) (hrun' : ¬ (p'.run fs' budget' c).Exhausted) :
    p.run fs budget c = (q.run gs (budget.max budget') c).relabel M.all ∧
    p'.run fs' budget' c = (q.run gs (budget.max budget') c).relabel M.kept := by
  rw [← Parser.run_relabel, ← Parser.run_relabel, h.parser, h.table, h.unwrapped,
    h.unwrappedTable]
  obtain ⟨hdepth, hrounds⟩ := budget.le_max_left budget'
  obtain ⟨hdepth', hrounds'⟩ := budget.le_max_right budget'
  exact ⟨(Parser.run_eq_of_not_exhausted hdepth hrounds hrun).symm,
    (Parser.run_eq_of_not_exhausted hdepth' hrounds' hrun').symm⟩

/-- A parser runs without some of its traces as it does with them, and leaves its trace
without the lines of those, under any two budgets that do not cut the runs short. Marks that
tell these lines from others can always be made. -/
theorem tracing_transparent {p p' : Parser} {fs fs' : Forwards} (hp : p.Unwraps p')
    (hfs : fs.Unwraps fs') :
    (∃ (M : Marking) (q : Parser) (gs : Forwards), M.Marks q gs p p' fs fs') ∧
    ∀ (budget budget' : Budget) (c : Cursor), ¬ (p.run fs budget c).Exhausted →
      ¬ (p'.run fs' budget' c).Exhausted →
      (p'.run fs' budget' c).exit = (p.run fs budget c).exit ∧
      (p'.run fs' budget' c).cursor = (p.run fs budget c).cursor ∧
      ∀ (M : Marking) (q : Parser) (gs : Forwards), M.Marks q gs p p' fs fs' →
        (p.run fs budget c).trace = (q.run gs (budget.max budget') c).trace.map M.shown ∧
        (p'.run fs' budget' c).trace =
          ((q.run gs (budget.max budget') c).trace.filter fun r => !M.removed r.name).map
            M.shown := by
  obtain ⟨q, gs, hmarks⟩ := Marking.exists_marks hp hfs
  refine ⟨⟨_, q, gs, hmarks⟩, fun budget budget' c hrun hrun' => ?_⟩
  obtain ⟨hall, hkept⟩ := hmarks.runs hrun hrun'
  refine ⟨by rw [hall, hkept]; rfl, by rw [hall, hkept]; rfl, fun M q gs h => ?_⟩
  obtain ⟨hall, hkept⟩ := h.runs hrun hrun'
  rw [hall, hkept, ← M.filterMap_all, ← M.filterMap_kept]
  exact ⟨rfl, rfl⟩

/-- Fails with a value and a position of its own, from a place it has moved to, and traces
under a name that others use. -/
def stray : Matcher := ⟨fun c => ⟨.ok ⟨false, .int 7, 40⟩, c.forward 1, [⟨"inner", .failed, 3⟩]⟩⟩

/-- A grammar that calls itself and ends in `stray` loses one of two traces of one name. -/
theorem tracing_transparent_stray :
    let body (leaf : Parser) : Parser :=
      .branch ['('] ((Parser.literal "(").seqRight ((Parser.forward 0).traced "inner")) leaf
    let fs : Forwards := ⟨#[some (body ((Parser.native stray).traced "inner"))]⟩
    let fs' : Forwards := ⟨#[some (body (.native stray))]⟩
    let outer : Parser := (Parser.forward 0).traced "outer"
    ((Parser.forward 0).run fs' ⟨4, 1⟩ (.ofText "(x")).exit =
        (outer.run fs ⟨5, 2⟩ (.ofText "(x")).exit ∧
      ((Parser.forward 0).run fs' ⟨4, 1⟩ (.ofText "(x")).cursor =
        (outer.run fs ⟨5, 2⟩ (.ofText "(x")).cursor := by
  intro body fs fs' outer
  have hbody : (body ((Parser.native stray).traced "inner")).Unwraps (body (.native stray)) :=
    .branch _ (.seqRight (.primitive _) (.traced _ (.forward 0))) (.removed _ (.native stray))
  have hfs : fs.Unwraps fs' := .cons (.some hbody) .nil
  obtain ⟨hexit, hcursor, _⟩ := (tracing_transparent (.removed "outer" (.forward 0)) hfs).2 ⟨5, 2⟩
    ⟨4, 1⟩ (.ofText "(x") (Outcome.not_exhausted_of_ok (a := ⟨false, .null, 0⟩) rfl)
    (Outcome.not_exhausted_of_ok (a := ⟨false, .null, 0⟩) rfl)
  exact ⟨hexit, hcursor⟩

end Parlance
