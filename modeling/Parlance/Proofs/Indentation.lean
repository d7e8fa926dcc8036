import Parlance.Proofs.Termination

/-! # Levels of indentation

A mark remembers place and level together, so an attempt that is undone leaves neither behind.
A parser in which nothing sets the level stays on it, also where a fault ends the run half-way.
If nothing looks at the level either, its run is the same on every level. Two runs on two levels
are followed side by side for both facts at once: on one and the same level primitives may look
at it, and what is left to say is that the level stays. The grammars of expressions are such
parsers. Of a parser that stays on its level, a block that is entered one level deeper keeps the
value and the place, and returns to its own level. -/
namespace Parlance

/-! ## Cursors on other levels -/

def Cursor.onLevel (c : Cursor) (level : Int) : Cursor := { c with indent := level }

@[simp]
theorem Cursor.position_onLevel (c : Cursor) (level : Int) :
    (c.onLevel level).position = c.position := rfl

@[simp]
theorem Cursor.indent_onLevel (c : Cursor) (level : Int) : (c.onLevel level).indent = level := rfl

def Outcome.onLevel {α : Type} (o : Outcome α) (level : Int) : Outcome α :=
  ⟨o.exit, o.cursor.onLevel level, o.trace⟩

namespace Primitive

def setsLevel : Primitive → Bool
  | indent | dedent => true
  | _ => false

/-- Does the primitive look at the level without setting it? -/
def readsLevel : Primitive → Bool
  | leadingTabs => true
  | _ => false

def KeepsLevel (leaf : Primitive) : Prop := leaf.setsLevel = false

def IgnoresLevel (leaf : Primitive) : Prop := (leaf.setsLevel || leaf.readsLevel) = false

end Primitive

/-! ## Runs on two levels -/

/-- From the same place, the first action on level `d` and the second on level `d'` stay on
their levels and do the same otherwise. -/
def SameOnLevels {α : Type} (d d' : Int) (Q : α → α → Prop) (m m' : Action α) : Prop :=
  ∀ c : Cursor,
    ExitsAlike Q (m.run (c.onLevel d)).exit (m'.run (c.onLevel d')).exit ∧
    (∃ c₁ : Cursor, (m.run (c.onLevel d)).cursor = c₁.onLevel d ∧
      (m'.run (c.onLevel d')).cursor = c₁.onLevel d') ∧
    (m.run (c.onLevel d)).trace = (m'.run (c.onLevel d')).trace

namespace SameOnLevels

variable {α β : Type} {d d' : Int} {Q : α → α → Prop} {Q' : β → β → Prop}

theorem bind {m m' : Action α} {f f' : α → Action β} (hm : SameOnLevels d d' Q m m')
    (hf : ∀ a a', Q a a' → SameOnLevels d d' Q' (f a) (f' a')) :
    SameOnLevels d d' Q' (m >>= f) (m' >>= f') := by
  intro c
  rw [Action.run_bind, Action.run_bind]
  have hc := hm c
  rcases ho : m.run (c.onLevel d) with ⟨exit, c₁, trace⟩
  rcases ho' : m'.run (c.onLevel d') with ⟨exit', c₁', trace'⟩
  rw [ho, ho'] at hc
  obtain ⟨hexit, ⟨c₂, rfl, rfl⟩, rfl⟩ := hc
  cases hexit with
  | error fault => exact ⟨.error fault, ⟨c₂, rfl, rfl⟩, rfl⟩
  | ok hQ =>
    obtain ⟨hexit, hcursor, htrace⟩ := hf _ _ hQ c₂
    exact ⟨hexit, hcursor, congrArg (trace ++ ·) htrace⟩

/-- A look at what is the same on both levels. -/
theorem look {view : Cursor → α} (hQ : ∀ c : Cursor, Q (view (c.onLevel d)) (view (c.onLevel d'))) :
    SameOnLevels d d' Q (Action.look view) (Action.look view) :=
  fun c => ⟨.ok (hQ c), ⟨c, rfl, rfl⟩, rfl⟩

/-- A step to a place that does not depend on the level. -/
theorem move {change change' : Cursor → Cursor} (step : Cursor → Cursor)
    (h : ∀ c : Cursor, change (c.onLevel d) = (step c).onLevel d)
    (h' : ∀ c : Cursor, change' (c.onLevel d') = (step c).onLevel d') :
    SameOnLevels d d' (fun _ _ => True) (Action.move change) (Action.move change') :=
  fun c => ⟨.ok trivial, ⟨step c, h c, h' c⟩, rfl⟩

theorem inText {m m' : Action α} (hm : SameOnLevels d d' Q m m') :
    SameOnLevels d d' Q (Action.inText m) (Action.inText m') := by
  intro c
  have hstart : ∀ level, (c.onLevel level).isBeforeStart = c.isBeforeStart := fun _ => rfl
  rw [Action.run_inText, Action.run_inText, hstart, hstart]
  split
  · exact ⟨.error _, ⟨c, rfl, rfl⟩, rfl⟩
  · exact hm c

theorem scan {pass : Cursor → Except Fault (α × Cursor)}
    (h : ∀ (c : Cursor) level,
      pass (c.onLevel level) = (pass c).map fun passed => (passed.1, passed.2.onLevel level)) :
    SameOnLevels d d' Eq (Matcher.scan pass) (Matcher.scan pass) := by
  refine inText fun c => ?_
  dsimp only
  rw [h c d, h c d']
  cases pass c with
  | error fault => exact ⟨.error fault, ⟨c, rfl, rfl⟩, rfl⟩
  | ok passed => exact ⟨.ok rfl, ⟨passed.2, rfl, rfl⟩, rfl⟩

theorem takeRun (check : CharCheck) :
    SameOnLevels d d' Eq (Matcher.takeRun check) (Matcher.takeRun check) := by
  refine scan fun c level => ?_
  have hscan : (c.onLevel level).scanEnd check = c.scanEnd check := rfl
  rw [Cursor.takeRun, Cursor.takeRun, hscan]
  cases c.scanEnd check with
  | error fault => rfl
  | ok stop => rfl

theorem skipRun (check : CharCheck) :
    SameOnLevels d d' Eq (Matcher.skipRun check) (Matcher.skipRun check) := by
  refine scan fun c level => ?_
  have hscan : (c.onLevel level).scanEnd check = c.scanEnd check := rfl
  rw [Cursor.skipRun, Cursor.skipRun, hscan]
  cases c.scanEnd check with
  | error fault => rfl
  | ok stop => rfl

/-- The small actions agree. The primitives are put together from them. -/
def smallSteps (d d' : Int) : Agreement where
  Agree := SameOnLevels d d'
  Marks m m' := m.position = m'.position ∧ m.indent = d ∧ m'.indent = d'
  Leaf _ := False
  Name _ := True
  shift := 0
  position_eq h := by rw [h.1, Int.add_zero]
  pure h := fun c => ⟨.ok h, ⟨c, rfl, rfl⟩, rfl⟩
  bind := bind
  raise fault := fun c => ⟨.error fault, ⟨c, rfl, rfl⟩, rfl⟩
  mark := look fun _ => ⟨rfl, rfl, rfl⟩
  rewind {m m'} h := by
    obtain ⟨hposition, rfl, rfl⟩ := h
    refine move (fun c => { c with position := m.position }) (fun _ => rfl) fun c => ?_
    rw [hposition]
    rfl
  peek := inText (look fun _ => rfl)
  record _ _ := fun c => ⟨.ok trivial, ⟨c, rfl, rfl⟩, rfl⟩
  leaf h := h.elim

theorem consume (v : Value) :
    (smallSteps d d').Match (Matcher.consume v) (Matcher.consume v) :=
  bind (move (·.forward 1) (fun _ => rfl) fun _ => rfl) fun _ _ _ =>
    (smallSteps d d').succeed v

/-- A primitive that sets no level, and looks at none unless both are the same. -/
theorem leaf {leaf : Primitive} (hsets : leaf.setsLevel = false)
    (hreads : leaf.readsLevel = true → d = d') :
    (smallSteps d d').Match leaf.matcher leaf.matcher := by
  have hpeek : SameOnLevels d d' Eq Action.peek Action.peek := (smallSteps d d').peek
  have hsucceed (v : Value) : (smallSteps d d').Match (Matcher.succeed v) (Matcher.succeed v) :=
    Agreement.succeed v
  have hfail : (smallSteps d d').Match Matcher.fail Matcher.fail := Agreement.fail
  cases leaf with
  | success v => exact hsucceed v
  | failure => exact hfail
  | anyChar =>
    refine bind hpeek ?_
    rintro next _ rfl
    cases next with
    | none => exact hfail
    | some c => exact consume _
  | oneOf chars table =>
    refine bind hpeek ?_
    rintro next _ rfl
    split
    · exact hfail
    · refine bind (move (·.forward 1) (fun _ => rfl) fun _ => rfl) fun _ _ _ => ?_
      refine bind (Agreement.lift (A := smallSteps d d') _) ?_
      rintro v _ rfl
      exact hsucceed v
  | oneOfMapped chars entries =>
    refine bind hpeek ?_
    rintro next _ rfl
    split
    · exact hfail
    · exact consume _
  | satisfy check =>
    refine bind hpeek ?_
    rintro next _ rfl
    cases next with
    | none => exact hfail
    | some c =>
      refine bind (Agreement.lift (A := smallSteps d d') _) ?_
      rintro passes _ rfl
      exact Agreement.ite Iff.rfl (consume _) hfail
  | takeWhile check =>
    refine bind (takeRun check) ?_
    rintro chars _ rfl
    exact hsucceed _
  | skipWhile check =>
    refine bind (skipRun check) ?_
    rintro count _ rfl
    exact hsucceed _
  | literal chars =>
    refine bind (smallSteps d d').mark fun start start' hstart => bind (skipRun _) ?_
    rintro count _ rfl
    exact Agreement.ite Iff.rfl (hsucceed _) (Agreement.failAt hstart)
  | endOfText =>
    refine bind (look (Q := Eq) fun _ => rfl) ?_
    rintro atEnd _ rfl
    exact Agreement.ite Iff.rfl (hsucceed _) hfail
  | endOfLine =>
    refine bind hpeek ?_
    rintro next _ rfl
    cases next with
    | none => exact hsucceed _
    | some c =>
      refine Agreement.ite Iff.rfl (consume _) (Agreement.ite Iff.rfl ?_ hfail)
      refine bind (move (·.forward 1) (fun _ => rfl) fun _ => rfl) fun _ _ _ => bind hpeek ?_
      rintro next _ rfl
      cases next with
      | none => exact hsucceed _
      | some c' => exact Agreement.ite Iff.rfl (consume _) (hsucceed _)
  | indent => cases hsets
  | dedent => cases hsets
  | leadingTabs =>
    obtain rfl := hreads rfl
    refine bind (smallSteps d d).mark fun start start' hstart => ?_
    have hlevel : start'.indent = start.indent := hstart.2.2.trans hstart.2.1.symm
    rw [hlevel]
    refine Agreement.ite Iff.rfl (hsucceed _) (bind (skipRun _) ?_)
    rintro count _ rfl
    exact Agreement.ite Iff.rfl (hsucceed _) (Agreement.failAt hstart)

def agreement (d d' : Int) (Leaf : Primitive → Prop)
    (h : ∀ leaf, Leaf leaf → leaf.setsLevel = false ∧ (leaf.readsLevel = true → d = d')) :
    Agreement :=
  { smallSteps d d' with
    Leaf := Leaf
    leaf := fun {leaf} hleaf => SameOnLevels.leaf (h leaf hleaf).1 (h leaf hleaf).2 }

end SameOnLevels

/-! ## Parsers that stay on their level -/

namespace Parser

variable {fs : Forwards} {Id : Nat → Prop} {p : Parser}

theorem run_sameOnLevels {Leaf : Primitive → Prop} {d d' : Int}
    (h : ∀ leaf, Leaf leaf → leaf.setsLevel = false ∧ (leaf.readsLevel = true → d = d'))
    (hfs : fs.Closed Leaf (fun _ => True) Id) (hp : p.MadeOf Leaf (fun _ => True) Id)
    (budget : Budget) :
    SameOnLevels d d' (Reply.Shifted 0)
      (p.matcher budget.rounds (fs.call budget.rounds budget.depth))
      (p.matcher budget.rounds (fs.call budget.rounds budget.depth)) :=
  let A := SameOnLevels.agreement d d' Leaf h
  A.matcher (A.call hfs budget.rounds budget.depth) (.refl budget.rounds) p hp

theorem indent_run (hfs : fs.Closed Primitive.KeepsLevel (fun _ => True) Id)
    (hp : p.MadeOf Primitive.KeepsLevel (fun _ => True) Id) (budget : Budget) (c : Cursor) :
    (p.run fs budget c).cursor.indent = c.indent := by
  have hlevels : ∀ leaf : Primitive, leaf.KeepsLevel →
      leaf.setsLevel = false ∧ (leaf.readsLevel = true → c.indent = c.indent) :=
    fun _ hleaf => ⟨hleaf, fun _ => rfl⟩
  obtain ⟨_, ⟨c₁, hcursor, _⟩, _⟩ := run_sameOnLevels hlevels hfs hp budget c
  have hstays : (p.run fs budget c).cursor = c₁.onLevel c.indent := hcursor
  rw [hstays, Cursor.indent_onLevel]

theorem run_onLevel (hfs : fs.Closed Primitive.IgnoresLevel (fun _ => True) Id)
    (hp : p.MadeOf Primitive.IgnoresLevel (fun _ => True) Id) (budget : Budget) (c : Cursor)
    (level : Int) : p.run fs budget (c.onLevel level) = (p.run fs budget c).onLevel level := by
  have hlevels : ∀ leaf : Primitive, leaf.IgnoresLevel →
      leaf.setsLevel = false ∧ (leaf.readsLevel = true → level = c.indent) := by
    intro leaf hleaf
    obtain ⟨hsets, hreads⟩ := Bool.or_eq_false_iff.mp hleaf
    exact ⟨hsets, fun hlooks => by rw [hreads] at hlooks; cases hlooks⟩
  obtain ⟨hexit, ⟨c₁, hcursor, hcursor'⟩, htrace⟩ := run_sameOnLevels hlevels hfs hp budget c
  refine Outcome.ext hexit.eq_of_shifted_zero ?_ htrace
  show (p.run fs budget (c.onLevel level)).cursor = (p.run fs budget c).cursor.onLevel level
  have hplace : (p.run fs budget c).cursor = c₁.onLevel c.indent := hcursor'
  rw [hplace]
  exact hcursor

/-- The parser has no part in levels: it stays on every level, and apart from that runs alike
on all of them. -/
structure LevelFree (p : Parser) (fs : Forwards) : Prop where
  stays : ∀ budget c, (p.run fs budget c).cursor.indent = c.indent
  alike : ∀ budget (c : Cursor) level,
    p.run fs budget (c.onLevel level) = (p.run fs budget c).onLevel level

theorem levelFree (hfs : fs.Closed Primitive.IgnoresLevel (fun _ => True) Id)
    (hp : p.MadeOf Primitive.IgnoresLevel (fun _ => True) Id) : p.LevelFree fs where
  stays budget c := congrArg (·.cursor.indent) (run_onLevel hfs hp budget c c.indent)
  alike := run_onLevel hfs hp

/-! ## Blocks -/

/-- The parser one level deeper. -/
def indented (p : Parser) : Parser := (indent.seqRight p).seqLeft dedent

/-- A reply leaves the level as it was. -/
def KeepsLevel (p : Parser) (fs : Forwards) : Prop :=
  ∀ (budget : Budget) (c : Cursor) (reply : Reply), (p.run fs budget c).exit = .ok reply →
    (p.run fs budget c).cursor.indent = c.indent

end Parser

def Outcome.Succeeds (o : Outcome Reply) (v : Value) (position : Int) : Prop :=
  ∃ reply, o.exit = .ok reply ∧ reply.success = true ∧ reply.value = v ∧
    o.cursor.position = position

namespace Parser

variable {fs : Forwards} {p : Parser} {budget : Budget} {c c' : Cursor} {trace : List Record}

/-- A fault inside a block is that of the block. -/
theorem run_indented_fault {fault : Fault}
    (h : p.run fs budget (c.onLevel (c.indent + 1)) = ⟨.error fault, c', trace⟩) :
    p.indented.run fs budget c = ⟨.error fault, c', trace⟩ := by
  have hinner : (p.matcher budget.rounds (fs.call budget.rounds budget.depth)).run
      c.increaseIndent = ⟨.error fault, c', trace⟩ := h
  simp [run, indented, indent, matcher, Primitive.matcher, Matcher.seqLeft, Matcher.seqRight,
    Matcher.indent, hinner]

/-- A reply inside a block: its success ends one level up, and its failure where the block
began. -/
theorem run_indented_reply {reply : Reply} (hlevel : 0 ≤ c.indent)
    (h : p.run fs budget (c.onLevel (c.indent + 1)) = ⟨.ok reply, c', trace⟩)
    (hkeeps : c'.indent = c.indent + 1) :
    p.indented.run fs budget c =
      if reply.success then
        ⟨.ok ⟨true, reply.value, c'.position⟩, c'.onLevel c.indent, trace⟩
      else ⟨.ok ⟨false, .null, c.position⟩, c'.rewind c.mark, trace⟩ := by
  have hinner : (p.matcher budget.rounds (fs.call budget.rounds budget.depth)).run
      c.increaseIndent = ⟨.ok reply, c', trace⟩ := h
  have hlower : c'.decreaseIndent? = some (c'.onLevel c.indent) := by
    rw [Cursor.decreaseIndent?, if_neg (by omega), hkeeps, Int.add_sub_cancel]
    rfl
  cases hsuccess : reply.success with
  | true =>
    simp [run, indented, indent, dedent, matcher, Primitive.matcher, Matcher.seqLeft,
      Matcher.seqRight, Matcher.indent, Matcher.dedent, hinner, hsuccess, hlower]
  | false =>
    simp [run, indented, indent, matcher, Primitive.matcher, Matcher.seqLeft, Matcher.seqRight,
      Matcher.indent, hinner, hsuccess]

/-- A block succeeds as its parser does one level deeper, and is back on its level. -/
theorem indented_iff (hp : p.KeepsLevel fs) (budget : Budget) (hlevel : 0 ≤ c.indent) :
    (∀ v position, (p.indented.run fs budget c).Succeeds v position ↔
      (p.run fs budget (c.onLevel (c.indent + 1))).Succeeds v position) ∧
    ∀ reply, (p.indented.run fs budget c).exit = .ok reply →
      reply.position = (p.indented.run fs budget c).cursor.position ∧
      (p.indented.run fs budget c).cursor.indent = c.indent := by
  have hkeeps := hp budget (c.onLevel (c.indent + 1))
  rcases ho : p.run fs budget (c.onLevel (c.indent + 1)) with ⟨fault | reply, c', trace⟩
  · rw [run_indented_fault ho]
    refine ⟨fun v position => ⟨?_, ?_⟩, nofun⟩
    · rintro ⟨_, hexit, _⟩
      cases hexit
    · rintro ⟨_, hexit, _⟩
      cases hexit
  · rw [ho] at hkeeps
    rw [run_indented_reply hlevel ho (hkeeps reply rfl)]
    cases hsuccess : reply.success with
    | true =>
      refine ⟨fun v position => ⟨?_, ?_⟩, fun reply' hexit => ?_⟩
      · rintro ⟨_, hexit, _, hvalue, hposition⟩
        cases hexit
        exact ⟨reply, rfl, hsuccess, hvalue, hposition⟩
      · rintro ⟨_, hexit, _, hvalue, hposition⟩
        cases hexit
        exact ⟨_, rfl, rfl, hvalue, hposition⟩
      · cases hexit
        exact ⟨rfl, rfl⟩
    | false =>
      refine ⟨fun v position => ⟨?_, ?_⟩, fun reply' hexit => ?_⟩
      · rintro ⟨_, hexit, hsuccess', _⟩
        cases hexit
        cases hsuccess'
      · rintro ⟨_, hexit, hsuccess', _⟩
        cases hexit
        rw [hsuccess] at hsuccess'
        cases hsuccess'
      · cases hexit
        exact ⟨rfl, rfl⟩

end Parser

/-! ## The grammars of expressions -/

namespace Grammar

open Parlance.Parser (forward)

/-- A grammar holds no forward but the one between its parentheses. -/
theorem ignoresLevel_top (comparisons : Bool) (id : Nat) :
    (top comparisons (forward id)).MadeOf Primitive.IgnoresLevel (fun _ => True) (· = id) := by
  have hterm : (term (forward id)).MadeOf Primitive.IgnoresLevel (fun _ => True) (· = id) :=
    ⟨⟨rfl, rfl⟩, ⟨rfl, rfl⟩, ⟨⟨⟨rfl, rfl⟩, rfl, rfl⟩, rfl⟩, rfl⟩
  have hsums : (sums (forward id)).MadeOf Primitive.IgnoresLevel (fun _ => True) (· = id) :=
    ⟨⟨hterm, rfl, rfl⟩, rfl, rfl⟩
  cases comparisons with
  | false => exact hsums
  | true => exact ⟨hsums, ⟨rfl, rfl, rfl⟩, rfl⟩

theorem Holds.ignoresLevel {fs : Forwards} {id : Nat} {comparisons : Bool}
    (h : Holds fs id comparisons) :
    fs.Closed Primitive.IgnoresLevel (fun _ => True) (· = id) := by
  rintro _ body rfl htarget
  rw [h] at htarget
  cases htarget
  exact ignoresLevel_top comparisons _

theorem ignoresLevel_selected (opts : Options) :
    (selected opts).MadeOf Primitive.IgnoresLevel (fun _ => True)
      (· = builtinId opts.comparisons) := by
  unfold selected
  split
  · exact ⟨ignoresLevel_top _ _, rfl⟩
  · exact ignoresLevel_top _ _

end Grammar

/-- A parser without parts that set the level stays on its level, however it ends. If no part
looks at the level either, it runs alike on all levels; the grammars of expressions, selected
or built anew, are such parsers. A block of a parser that stays on its level succeeds where
this does one level deeper, with the same value at the same place, and ends on its level
whether it succeeds or fails. -/
theorem indentation_framed :
    (∀ (fs : Forwards) (Id : Nat → Prop) (p : Parser),
      fs.Closed Primitive.KeepsLevel (fun _ => True) Id →
      p.MadeOf Primitive.KeepsLevel (fun _ => True) Id →
      ∀ budget c, (p.run fs budget c).cursor.indent = c.indent) ∧
    (∀ (fs : Forwards) (Id : Nat → Prop) (p : Parser),
      fs.Closed Primitive.IgnoresLevel (fun _ => True) Id →
      p.MadeOf Primitive.IgnoresLevel (fun _ => True) Id → p.LevelFree fs) ∧
    (∀ opts, (Grammar.selected opts).LevelFree Grammar.builtin) ∧
    (∀ fs comparisons,
      (Grammar.build fs comparisons).1.LevelFree (Grammar.build fs comparisons).2) ∧
    ∀ (fs : Forwards) (p : Parser), p.KeepsLevel fs → ∀ budget (c : Cursor), 0 ≤ c.indent →
      (∀ v position, (p.indented.run fs budget c).Succeeds v position ↔
        (p.run fs budget (c.onLevel (c.indent + 1))).Succeeds v position) ∧
      ∀ reply, (p.indented.run fs budget c).exit = .ok reply →
        reply.position = (p.indented.run fs budget c).cursor.position ∧
        (p.indented.run fs budget c).cursor.indent = c.indent := by
  refine ⟨fun fs Id p hfs hp => Parser.indent_run hfs hp,
    fun fs Id p hfs hp => Parser.levelFree hfs hp, fun opts => ?_, fun fs comparisons => ?_,
    fun fs p hp budget c hlevel => Parser.indented_iff hp budget hlevel⟩
  · exact Parser.levelFree (Grammar.builtin_holds opts.comparisons).ignoresLevel
      (Grammar.ignoresLevel_selected opts)
  · obtain ⟨hparser, hholds⟩ := Grammar.build_holds fs comparisons
    rw [hparser]
    exact Parser.levelFree hholds.ignoresLevel (Grammar.ignoresLevel_top comparisons _)

/-- An item behind as many tabs as the level asks for, in a block on level zero: it is one tab
that the item needs. -/
theorem indentation_framed_tab :
    let item := (Parser.leadingTabs.seqRight .anyChar).traced "item"
    let fs : Forwards := ⟨#[some item]⟩
    let c : Cursor := ⟨#['\t', 'x'], 0, 0⟩
    (Parser.forward 0).KeepsLevel fs ∧
      (∃ v, v.toInt? = some 120 ∧
        ((Parser.forward 0).indented.run fs ⟨1, 0⟩ c).Succeeds v 2) ∧
      ((Parser.anyChar.many).LevelFree fs) := by
  intro item fs c
  have hfs : fs.Closed Primitive.KeepsLevel (fun _ => True) (· = 0) := by
    rintro _ body rfl htarget
    cases htarget
    exact ⟨trivial, rfl, rfl⟩
  have hkeeps : (Parser.forward 0).KeepsLevel fs := fun budget c _ _ =>
    indentation_framed.1 fs (· = 0) (.forward 0) hfs rfl budget c
  have hblock := indentation_framed.2.2.2.2 fs (.forward 0) hkeeps ⟨1, 0⟩ c (by decide)
  have hfree : (Parser.anyChar.many).LevelFree fs :=
    indentation_framed.2.1 fs (fun _ => False) Parser.anyChar.many (fun _ _ h => h.elim) rfl
  -- what the item does on level one
  let o := (Parser.forward 0).run fs ⟨1, 0⟩ (c.onLevel (c.indent + 1))
  have hitem : o.exit.toOption.map (fun r => (r.success, r.value.toInt?)) =
      some (true, some 120) := by decide +kernel
  have hplace : o.cursor.position = 2 := by decide +kernel
  cases hexit : o.exit with
  | error fault => rw [hexit] at hitem; cases hitem
  | ok reply =>
    rw [hexit] at hitem
    simp only [Except.toOption, Option.map_some, Option.some.injEq, Prod.mk.injEq] at hitem
    exact ⟨hkeeps, ⟨reply.value, hitem.2, (hblock.1 reply.value 2).mpr
      ⟨reply, hexit, hitem.1, rfl, hplace⟩⟩, hfree⟩

end Parlance
