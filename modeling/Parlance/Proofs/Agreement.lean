import Parlance.Proofs.Backtracking

/-! # Two runs side by side

Most of what is said about all parsers compares two runs: the same parser on two
cursors, under two budgets, or under two tables of forwards. Every combinator is put
together from a few actions (taking a mark and returning to it, looking at the next
character, raising a fault, writing a trace, one action after another), so two runs
that agree on these agree on every parser. An `Agreement` is a relation between
actions that is closed in this way, and `Agreement.matcher` is the one induction over
parsers and their loops; what a theorem adds is its relation and the primitives.

A statement about single runs is an agreement as well, one that does not look at the
second run. -/
namespace Parlance

/-- The replies say the same, with the position of the first so far ahead. -/
def Reply.Shifted (shift : Int) (r r' : Reply) : Prop :=
  r.success = r'.success ∧ r.value = r'.value ∧ r.position = r'.position + shift

/-- Both exits are results, related like this, or the same fault. -/
inductive ExitsAlike {α : Type} (Q : α → α → Prop) : Except Fault α → Except Fault α → Prop
  | ok {a a' : α} : Q a a' → ExitsAlike Q (.ok a) (.ok a')
  | error (fault : Fault) : ExitsAlike Q (.error fault) (.error fault)

/-- A relation between actions that combinators respect. `Leaf` and `Name` limit the
primitives and the names of traces that parsers may hold. -/
structure Agreement where
  Agree : {α : Type} → (α → α → Prop) → Action α → Action α → Prop
  Marks : Mark → Mark → Prop
  Leaf : Primitive → Prop
  Name : String → Prop
  shift : Int
  position_eq : ∀ {m m' : Mark}, Marks m m' → m.position = m'.position + shift
  pure : ∀ {α : Type} {Q : α → α → Prop} {a a' : α}, Q a a' → Agree Q (pure a) (pure a')
  bind : ∀ {α β : Type} {Q : α → α → Prop} {Q' : β → β → Prop} {m m' : Action α}
    {f f' : α → Action β}, Agree Q m m' → (∀ a a', Q a a' → Agree Q' (f a) (f' a')) →
      Agree Q' (m >>= f) (m' >>= f')
  raise : ∀ {α : Type} {Q : α → α → Prop} (fault : Fault),
    Agree Q (Action.raise fault) (Action.raise fault)
  mark : Agree Marks (Action.look Cursor.mark) (Action.look Cursor.mark)
  rewind : ∀ {m m' : Mark}, Marks m m' →
    Agree (fun _ _ => True) (Action.move (·.rewind m)) (Action.move (·.rewind m'))
  peek : Agree Eq Action.peek Action.peek
  record : ∀ {name : String} (phase : Phase), Name name →
    Agree (fun _ _ => True) (Action.record name phase) (Action.record name phase)
  leaf : ∀ {leaf : Primitive}, Leaf leaf → Agree (Reply.Shifted shift) leaf.matcher leaf.matcher

/-- The parser holds these hand-written parts, primitives, names of traces and forwards
only. -/
def Parser.MadeWith (Native : Matcher → Prop) (Leaf : Primitive → Prop) (Name : String → Prop)
    (Id : Nat → Prop) : Parser → Prop
  | primitive leaf => Leaf leaf
  | native run => Native run
  | forward id => Id id
  | traced p name => Name name ∧ p.MadeWith Native Leaf Name Id
  | replace p _ | map p _ | withDefault p _ | filter p _ | atLeast p _ | many p
  | manyChars p => p.MadeWith Native Leaf Name Id
  | butNot p q | seqLeft p q | seqRight p q | pair p q | orElse p q | branch _ p q
  | chainl p q _ => p.MadeWith Native Leaf Name Id ∧ q.MadeWith Native Leaf Name Id
  | enclosed p q t | triple p q t =>
    p.MadeWith Native Leaf Name Id ∧ q.MadeWith Native Leaf Name Id ∧
      t.MadeWith Native Leaf Name Id

theorem Parser.madeWith_of_forall {Native : Matcher → Prop} {Leaf : Primitive → Prop}
    {Name : String → Prop} {Id : Nat → Prop} (hnative : ∀ run, Native run)
    (hleaf : ∀ leaf, Leaf leaf) (hname : ∀ name, Name name) (hid : ∀ id, Id id) (p : Parser) :
    p.MadeWith Native Leaf Name Id := by
  induction p <;> simp_all [MadeWith]

/-- The parser holds these primitives, names of traces and forwards only, and nothing
hand-written. -/
def Parser.MadeOf (Leaf : Primitive → Prop) (Name : String → Prop) (Id : Nat → Prop)
    (p : Parser) : Prop :=
  p.MadeWith (fun _ => False) Leaf Name Id

section MadeOf

variable {Leaf : Primitive → Prop} {Name : String → Prop} {Id : Nat → Prop}

theorem Parser.madeOf_of_isComposed (hleaf : ∀ leaf, Leaf leaf) (hname : ∀ name, Name name)
    (hid : ∀ id, Id id) : ∀ p : Parser, p.isComposed = true → p.MadeOf Leaf Name Id
  | primitive leaf, _ => hleaf leaf
  | forward id, _ => hid id
  | traced p name, h => ⟨hname name, madeOf_of_isComposed hleaf hname hid p h⟩
  | replace p _, h | map p _, h | withDefault p _, h | filter p _, h | atLeast p _, h
  | many p, h | manyChars p, h => madeOf_of_isComposed hleaf hname hid p h
  | butNot p q, h | seqLeft p q, h | seqRight p q, h | pair p q, h | orElse p q, h
  | branch _ p q, h | chainl p q _, h => by
    obtain ⟨hp, hq⟩ := Bool.and_eq_true_iff.mp h
    exact ⟨madeOf_of_isComposed hleaf hname hid p hp, madeOf_of_isComposed hleaf hname hid q hq⟩
  | enclosed p q t, h | triple p q t, h => by
    obtain ⟨hpq, ht⟩ := Bool.and_eq_true_iff.mp h
    obtain ⟨hp, hq⟩ := Bool.and_eq_true_iff.mp hpq
    exact ⟨madeOf_of_isComposed hleaf hname hid p hp, madeOf_of_isComposed hleaf hname hid q hq,
      madeOf_of_isComposed hleaf hname hid t ht⟩

theorem Parser.isComposed_of_madeOf {p : Parser} (h : p.MadeOf Leaf Name Id) :
    p.isComposed = true := by
  unfold MadeOf at h
  induction p <;> simp_all [MadeWith, isComposed]

/-- The forwards are defined, if at all, by parsers that hold such forwards again. -/
def Forwards.Closed (fs : Forwards) (Leaf : Primitive → Prop) (Name : String → Prop)
    (Id : Nat → Prop) : Prop :=
  ∀ id body, Id id → fs.target? id = some body → body.MadeOf Leaf Name Id

theorem Forwards.closed_of_isComposed {fs : Forwards} (hleaf : ∀ leaf, Leaf leaf)
    (hname : ∀ name, Name name)
    (hfs : ∀ id body, fs.target? id = some body → body.isComposed = true) :
    fs.Closed Leaf Name fun _ => True := by
  intro id body _ h
  exact Parser.madeOf_of_isComposed hleaf hname (fun _ => trivial) body (hfs id body h)

end MadeOf

namespace Agreement

open Parlance.Matcher (succeed fail failAt succeedAt)

def Match (A : Agreement) (p p' : Matcher) : Prop := A.Agree (Reply.Shifted A.shift) p p'

/-- The rounds that loops of the two runs may take: as many in both, or more in the
second, if a first run that gives up agrees with everything. -/
def Rounds (A : Agreement) (n n' : Nat) : Prop :=
  n = n' ∨ (n ≤ n' ∧ ∀ {α : Type} (Q : α → α → Prop) (m' : Action α),
    A.Agree Q (Action.raise .endless) m')

variable {A : Agreement} {p p' q q' t t' : Matcher} {m m' : Mark}

/-! ## Small actions -/

theorem ite {α : Type} {Q : α → α → Prop} {b b' : Prop} [Decidable b] [Decidable b']
    {x x' y y' : Action α} (hb : b ↔ b') (hx : A.Agree Q x x') (hy : A.Agree Q y y') :
    A.Agree Q (if b then x else y) (if b' then x' else y') := by
  by_cases h : b
  · rw [if_pos h, if_pos (hb.mp h)]
    exact hx
  · rw [if_neg h, if_neg fun h' => h (hb.mpr h')]
    exact hy

theorem onSuccess {α : Type} {Q : α → α → Prop} {r r' : Reply} {x x' y y' : Action α}
    (h : r.Shifted A.shift r') (hx : A.Agree Q x x') (hy : A.Agree Q y y') :
    A.Agree Q (if r.success then x else y) (if r'.success then x' else y') :=
  ite (by rw [h.1]) hx hy

theorem lift {α : Type} (result : Except Fault α) :
    A.Agree Eq (Action.lift result) (Action.lift result) := by
  cases result with
  | error fault => exact A.raise fault
  | ok a => exact A.pure rfl

theorem position : A.Agree (fun x x' => x = x' + A.shift) (Action.look Cursor.position)
    (Action.look Cursor.position) := by
  have hlook : Action.look Cursor.position =
      Action.look Cursor.mark >>= fun m => Pure.pure m.position := rfl
  rw [hlook]
  exact A.bind A.mark fun _ _ hm => A.pure (A.position_eq hm)

theorem succeed (v : Value) : A.Match (succeed v) (succeed v) :=
  A.bind A.position fun _ _ hposition => A.pure ⟨rfl, rfl, hposition⟩

theorem fail : A.Match fail fail :=
  A.bind A.position fun _ _ hposition => A.pure ⟨rfl, rfl, hposition⟩

theorem failAt (hm : A.Marks m m') : A.Match (failAt m) (failAt m') :=
  A.bind (A.rewind hm) fun _ _ _ => A.fail

theorem succeedAt (hm : A.Marks m m') (v : Value) : A.Match (succeedAt m v) (succeedAt m' v) :=
  A.bind (A.rewind hm) fun _ _ _ => A.succeed v

/-! ## Combinators -/

theorem replace (hp : A.Match p p') (v : Value) : A.Match (p.replace v) (p'.replace v) :=
  A.bind hp fun _ _ hr => onSuccess hr (A.succeed v) A.fail

theorem map (hp : A.Match p p') (f : Value → Except Fault Value) :
    A.Match (p.map f) (p'.map f) := by
  refine A.bind hp fun r r' hr => onSuccess hr ?_ A.fail
  rw [hr.2.1]
  refine A.bind (A.lift (f r'.value)) ?_
  rintro v _ rfl
  exact A.succeed v

theorem withDefault (hp : A.Match p p') (default : Value) :
    A.Match (p.withDefault default) (p'.withDefault default) := by
  refine A.bind hp fun r r' hr => onSuccess hr ?_ (A.succeed default)
  rw [hr.2.1]
  exact A.succeed r'.value

/-- A mark, a first part, and what is done with both behind its success. -/
theorem marked {next next' : Mark → Reply → Matcher} (hp : A.Match p p')
    (hnext : ∀ m m' r r', A.Marks m m' → r.Shifted A.shift r' →
      A.Match (next m r) (next' m' r')) :
    A.Match
      (do
        let start ← Action.look Cursor.mark
        let r ← p
        if r.success then next start r else Matcher.fail)
      (do
        let start ← Action.look Cursor.mark
        let r ← p'
        if r.success then next' start r else Matcher.fail) :=
  A.bind A.mark fun start start' hstart => A.bind hp fun r r' hr =>
    onSuccess hr (hnext start start' r r' hstart hr) A.fail

theorem filter (hp : A.Match p p') (accepts : Value → Except Fault Bool) :
    A.Match (p.filter accepts) (p'.filter accepts) := by
  refine marked hp fun m m' r r' hm hr => ?_
  rw [hr.2.1]
  refine A.bind (A.lift (accepts r'.value)) ?_
  rintro accepted _ rfl
  exact ite Iff.rfl (A.succeed r'.value) (failAt hm)

theorem atLeast (hp : A.Match p p') (n : Int) : A.Match (p.atLeast n) (p'.atLeast n) := by
  refine marked hp fun m m' r r' hm hr => ?_
  refine A.bind A.position fun stop stop' hstop => ?_
  have hstart := A.position_eq hm
  rw [hr.2.1]
  exact ite (by omega) (failAt hm) (A.succeed r'.value)

/-- The last part of a sequence. -/
theorem last {value value' : Reply → Value} (hq : A.Match q q') (hm : A.Marks m m')
    (hvalue : ∀ s s' : Reply, s.value = s'.value → value s = value' s') :
    A.Match
      (do
        let s ← q
        if s.success then Matcher.succeed (value s) else Matcher.failAt m)
      (do
        let s ← q'
        if s.success then Matcher.succeed (value' s) else Matcher.failAt m') := by
  refine A.bind hq fun s s' hs => onSuccess hs ?_ (failAt hm)
  rw [hvalue s s' hs.2.1]
  exact A.succeed (value' s')

theorem seqLeft (hp : A.Match p p') (hq : A.Match q q') :
    A.Match (p.seqLeft q) (p'.seqLeft q') :=
  marked hp fun _ _ _ _ hm hr => last hq hm fun _ _ _ => hr.2.1

theorem seqRight (hp : A.Match p p') (hq : A.Match q q') :
    A.Match (p.seqRight q) (p'.seqRight q') :=
  marked hp fun _ _ _ _ hm _ => last hq hm fun _ _ hs => hs

theorem pair (hp : A.Match p p') (hq : A.Match q q') : A.Match (p.pair q) (p'.pair q') :=
  marked hp fun _ _ r r' hm hr => last hq hm fun s s' hs => by rw [hr.2.1, hs]

theorem enclosed (hp : A.Match p p') (hq : A.Match q q') (ht : A.Match t t') :
    A.Match (p.enclosed q t) (p'.enclosed q' t') :=
  marked hq fun _ _ _ _ hm _ => A.bind hp fun _ _ hr =>
    onSuccess hr (last ht hm fun _ _ _ => hr.2.1) (failAt hm)

theorem triple (hp : A.Match p p') (hq : A.Match q q') (ht : A.Match t t') :
    A.Match (p.triple q t) (p'.triple q' t') :=
  marked hp fun _ _ r r' hm hr => A.bind hq fun s s' hs =>
    onSuccess hs (last ht hm fun u u' hu => by rw [hr.2.1, hs.2.1, hu]) (failAt hm)

/-- The reply of a last alternative, answered anew. -/
theorem answered (hp : A.Match p p') :
    A.Match
      (do
        let r ← p
        if r.success then Matcher.succeed r.value else Matcher.fail)
      (do
        let r ← p'
        if r.success then Matcher.succeed r.value else Matcher.fail) := by
  refine A.bind hp fun r r' hr => onSuccess hr ?_ A.fail
  rw [hr.2.1]
  exact A.succeed r'.value

theorem butNot (hp : A.Match p p') (hq : A.Match q q') : A.Match (p.butNot q) (p'.butNot q') :=
  A.bind A.mark fun _ _ hm => A.bind hq fun _ _ he => onSuccess he (failAt hm) (answered hp)

theorem orElse (hp : A.Match p p') (hq : A.Match q q') : A.Match (p.orElse q) (p'.orElse q') := by
  refine A.bind hp fun r r' hr => onSuccess hr ?_ (answered hq)
  rw [hr.2.1]
  exact A.succeed r'.value

theorem branch (chars : List Char) (hp : A.Match p p') (hq : A.Match q q') :
    A.Match (Matcher.branch chars p q) (Matcher.branch chars p' q') := by
  refine A.bind A.peek ?_
  rintro next _ rfl
  cases next with
  | none => exact hq
  | some c => exact ite Iff.rfl hp hq

theorem traced (hp : A.Match p p') {name : String} (hname : A.Name name) :
    A.Match (p.traced name) (p'.traced name) := by
  refine A.bind (A.record .entered hname) fun _ _ _ => A.bind hp fun r r' hr => ?_
  rw [hr.1]
  exact A.bind (A.record _ hname) fun _ _ _ => A.pure hr

/-! ## Loops -/

theorem Rounds.refl (n : Nat) : A.Rounds n n := Or.inl rfl

theorem Rounds.succ {n n' : Nat} (h : A.Rounds (n + 1) n') : ∃ k, n' = k + 1 ∧ A.Rounds n k := by
  rcases h with rfl | ⟨hle, hall⟩
  · exact ⟨n, rfl, Rounds.refl n⟩
  · exact ⟨n' - 1, by omega, Or.inr ⟨by omega, hall⟩⟩

theorem collect (repetition : Repetition) (hp : A.Match p p') {n n' : Nat} (hn : A.Rounds n n') :
    A.Agree Eq (Matcher.collect repetition p n) (Matcher.collect repetition p' n') := by
  induction n generalizing n' with
  | zero =>
    rcases hn with rfl | ⟨_, hall⟩
    · exact A.raise .endless
    · exact hall _ _
  | succ n ih =>
    obtain ⟨k, rfl, hk⟩ := hn.succ
    refine A.bind A.position fun before before' hbefore => A.bind hp fun r r' hr => ?_
    refine onSuccess hr ?_ (A.pure rfl)
    -- the guard compares positions of one run, and both lie equally far apart
    refine A.bind A.position fun after after' hafter => ite (by omega) (A.raise _) ?_
    refine A.bind (ih hk) ?_
    rintro values _ rfl
    exact A.pure (by rw [hr.2.1])

theorem many (hp : A.Match p p') {n n' : Nat} (hn : A.Rounds n n') :
    A.Match (p.many n) (p'.many n') := by
  refine A.bind (collect .many hp hn) ?_
  rintro values _ rfl
  exact A.succeed (.list values)

theorem manyChars (hp : A.Match p p') {n n' : Nat} (hn : A.Rounds n n') :
    A.Match (p.manyChars n) (p'.manyChars n') := by
  refine A.bind (collect .manyChars hp hn) ?_
  rintro values _ rfl
  refine A.bind (A.lift (Matcher.joinCodes values)) ?_
  rintro codes _ rfl
  exact A.succeed (.text codes)

theorem chainFrom (hp : A.Match p p') (hq : A.Match q q')
    (f : Value → Value → Value → Except Fault Value) {n n' : Nat} (hn : A.Rounds n n')
    (value : Value) (hm : A.Marks m m') :
    A.Match (p.chainFrom q f n value m) (p'.chainFrom q' f n' value m') := by
  induction n generalizing n' value m m' with
  | zero =>
    rcases hn with rfl | ⟨_, hall⟩
    · exact A.raise .endless
    · exact hall _ _
  | succ n ih =>
    obtain ⟨k, rfl, hk⟩ := hn.succ
    refine A.bind hq fun s s' hs => onSuccess hs ?_ (succeedAt hm value)
    refine A.bind hp fun r r' hr => onSuccess hr ?_ (succeedAt hm value)
    rw [hs.2.1, hr.2.1]
    refine A.bind (A.lift (f value s'.value r'.value)) ?_
    rintro value' _ rfl
    exact A.bind A.mark fun here here' hhere => ih hk value' hhere

theorem chainl (hp : A.Match p p') (hq : A.Match q q')
    (f : Value → Value → Value → Except Fault Value) {n n' : Nat} (hn : A.Rounds n n') :
    A.Match (p.chainl q f n) (p'.chainl q' f n') := by
  refine A.bind hp fun r r' hr => onSuccess hr ?_ A.fail
  refine A.bind A.mark fun here here' hhere => ?_
  rw [hr.2.1]
  exact chainFrom hp hq f hn r'.value hhere

/-! ## Parsers -/

/-- The induction over parsers. Traces may be dealt with in a way of their own, from what
is known of the parser that is traced. -/
theorem matcherTracing {Native : Matcher → Prop} {Name : String → Prop}
    {call call' : Nat → Matcher} {rounds rounds' : Nat} {Id : Nat → Prop}
    (hnative : ∀ run, Native run → A.Match run run)
    (hcall : ∀ id, Id id → A.Match (call id) (call' id)) (hrounds : A.Rounds rounds rounds')
    (htraced : ∀ (p : Parser) (name : String), Name name → p.MadeWith Native A.Leaf Name Id →
      A.Match (p.matcher rounds call) (p.matcher rounds' call') →
      A.Match ((p.matcher rounds call).traced name) ((p.matcher rounds' call').traced name)) :
    ∀ p : Parser, p.MadeWith Native A.Leaf Name Id →
      A.Match (p.matcher rounds call) (p.matcher rounds' call')
  | .primitive _, h => A.leaf h
  | .native run, h => hnative run h
  | .forward id, h => hcall id h
  | .replace p v, h => replace (matcherTracing hnative hcall hrounds htraced p h) v
  | .map p f, h => map (matcherTracing hnative hcall hrounds htraced p h) f
  | .withDefault p default, h => withDefault (matcherTracing hnative hcall hrounds htraced p h) default
  | .filter p accepts, h => filter (matcherTracing hnative hcall hrounds htraced p h) accepts
  | .atLeast p n, h => atLeast (matcherTracing hnative hcall hrounds htraced p h) n
  | .butNot p q, h =>
    butNot (matcherTracing hnative hcall hrounds htraced p h.1) (matcherTracing hnative hcall hrounds htraced q h.2)
  | .seqLeft p q, h =>
    seqLeft (matcherTracing hnative hcall hrounds htraced p h.1) (matcherTracing hnative hcall hrounds htraced q h.2)
  | .seqRight p q, h =>
    seqRight (matcherTracing hnative hcall hrounds htraced p h.1) (matcherTracing hnative hcall hrounds htraced q h.2)
  | .enclosed p q t, h =>
    enclosed (matcherTracing hnative hcall hrounds htraced p h.1) (matcherTracing hnative hcall hrounds htraced q h.2.1)
      (matcherTracing hnative hcall hrounds htraced t h.2.2)
  | .pair p q, h =>
    pair (matcherTracing hnative hcall hrounds htraced p h.1) (matcherTracing hnative hcall hrounds htraced q h.2)
  | .triple p q t, h =>
    triple (matcherTracing hnative hcall hrounds htraced p h.1) (matcherTracing hnative hcall hrounds htraced q h.2.1)
      (matcherTracing hnative hcall hrounds htraced t h.2.2)
  | .orElse p q, h =>
    orElse (matcherTracing hnative hcall hrounds htraced p h.1) (matcherTracing hnative hcall hrounds htraced q h.2)
  | .branch chars p q, h =>
    branch chars (matcherTracing hnative hcall hrounds htraced p h.1) (matcherTracing hnative hcall hrounds htraced q h.2)
  | .many p, h => many (matcherTracing hnative hcall hrounds htraced p h) hrounds
  | .manyChars p, h => manyChars (matcherTracing hnative hcall hrounds htraced p h) hrounds
  | .chainl p q f, h =>
    chainl (matcherTracing hnative hcall hrounds htraced p h.1) (matcherTracing hnative hcall hrounds htraced q h.2) f
      hrounds
  | .traced p name, h =>
    htraced p name h.1 h.2 (matcherTracing hnative hcall hrounds htraced p h.2)

theorem matcherWith {Native : Matcher → Prop} {call call' : Nat → Matcher} {rounds rounds' : Nat}
    {Id : Nat → Prop} (hnative : ∀ run, Native run → A.Match run run)
    (hcall : ∀ id, Id id → A.Match (call id) (call' id)) (hrounds : A.Rounds rounds rounds')
    (p : Parser) (hp : p.MadeWith Native A.Leaf A.Name Id) :
    A.Match (p.matcher rounds call) (p.matcher rounds' call') :=
  matcherTracing hnative hcall hrounds (fun _ _ hname _ hp => traced hp hname) p hp

theorem matcher {call call' : Nat → Matcher} {rounds rounds' : Nat} {Id : Nat → Prop}
    (hcall : ∀ id, Id id → A.Match (call id) (call' id)) (hrounds : A.Rounds rounds rounds')
    (p : Parser) (hp : p.MadeOf A.Leaf A.Name Id) :
    A.Match (p.matcher rounds call) (p.matcher rounds' call') :=
  matcherWith (fun _ h => h.elim) hcall hrounds p hp

/-- Forwards agree with themselves. -/
theorem call {fs : Forwards} {Id : Nat → Prop} (hfs : fs.Closed A.Leaf A.Name Id)
    (rounds depth : Nat) :
    ∀ id, Id id → A.Match (fs.call rounds depth id) (fs.call rounds depth id) :=
  Forwards.call_induction (fun m => A.Match m m) Id (fun fault => A.raise fault)
    (fun _ ih id body hid h => matcher ih (Rounds.refl rounds) body (hfs id body hid h)) depth

end Agreement
end Parlance
