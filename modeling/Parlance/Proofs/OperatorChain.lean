import Parlance.Proofs.GuardedRecursion

/-! # Chains by repetition

A chain of operands is a loop of its own, with one mark that it returns to when the loop
is over. Put together from smaller parts it is an operand, a repetition of separator and
operand, and a fold of the values from the left. The two loops undo an attempt in
different places: the repetition relies on its body, a pair, which returns to where it
began when the operand fails, and on the separator, which has to be safe for that; the
chain returns to the end of the last pair whatever its parts have done. Where the
separator is safe and no pair ends where it began, the runs are the same, under every
budget: exit, cursor and trace. -/
namespace Parlance

/-! ## What a chain computes -/

def foldStep (f : Value → Value → Value → Value) (left : Value) : Value → Value
  | .tuple [separator, right] => f left separator right
  | _ => left

/-- Folds pairs from the left, starting with the first operand. -/
def foldPairs (f : Value → Value → Value → Value) : Value → Value
  | .tuple [first, .list pairs] => pairs.foldl (foldStep f) first
  | v => v

namespace Matcher

open Parlance.Action

/-- Separator and operand match in a row, again and again, with these values. -/
inductive Pairs (separator p : Matcher) : Cursor → List (Value × Value) → Cursor → Prop
  | none (c : Cursor) : Pairs separator p c [] c
  | more {c c' c'' stop : Cursor} {s r : Reply} {pairs : List (Value × Value)}
      (hs : separator.Returns c s c') (hsuccess : s.success = true) (hr : p.Returns c' r c'')
      (hsuccess' : r.success = true) (hrest : Pairs separator p c'' pairs stop) :
      Pairs separator p c ((s.value, r.value) :: pairs) stop

/-- No pair matches here: the separator fails, or the operand behind it does. The attempt
leaves the second cursor. -/
def NoPair (separator p : Matcher) (c left : Cursor) : Prop :=
  (∃ s, separator.Returns c s left ∧ s.success = false) ∨
    ∃ s c' r, separator.Returns c s c' ∧ s.success = true ∧ p.Returns c' r left ∧ r.success = false

/-- No pair ends where it began. -/
def PairsMove (separator p : Matcher) : Prop :=
  ∀ c s c' r c'', separator.Returns c s c' → s.success = true → p.Returns c' r c'' →
    r.success = true → c''.position ≠ c.position

variable {p separator : Matcher} {f : Value → Value → Value → Value} {c c' : Cursor} {r : Reply}

/-! ## The two loops -/

/-- The loop of a chain is that of a repetition, with a fold behind it. -/
theorem run_chainFrom_eq (hs : separator.Safe) (hmove : PairsMove separator p) (rounds : Nat)
    (value : Value) (c : Cursor) :
    (p.chainFrom separator (fun left s right => .ok (f left s right)) rounds value c.mark).run c =
      ((collect .many (separator.pair p) rounds).run c).andThen fun pairs =>
        succeed (pairs.foldl (foldStep f) value) := by
  induction rounds generalizing value c with
  | zero => simp [chainFrom, collect]
  | succ rounds ih =>
    -- the two loops take their rounds side by side
    rcases hsep : separator.run c with ⟨fault | s, c₁, trace⟩
    · simp [chainFrom, collect, pair, hsep]
    have hreturns : separator.Returns c s c₁ := ⟨by rw [hsep], by rw [hsep]⟩
    cases hsuccess : s.success with
    | false =>
      have hmark : c₁.mark = c.mark := hs c s c₁ hreturns hsuccess
      simp [chainFrom, collect, pair, hsep, hsuccess, ← hmark]
    | true =>
      rcases hoperand : p.run c₁ with ⟨fault | r, c₂, trace'⟩
      · simp [chainFrom, collect, pair, hsep, hsuccess, hoperand]
      have hreturns' : p.Returns c₁ r c₂ := ⟨by rw [hoperand], by rw [hoperand]⟩
      cases hsuccess' : r.success with
      | false => simp [chainFrom, collect, pair, hsep, hsuccess, hoperand, hsuccess']
      | true =>
        have hmoved : c₂.position ≠ c.position :=
          hmove c s c₁ r c₂ hreturns hsuccess hreturns' hsuccess'
        have hpair : (separator.pair p).run c =
            ⟨.ok ⟨true, .tuple [s.value, r.value], c₂.position⟩, c₂, trace ++ trace'⟩ := by
          simp [pair, hsep, hsuccess, hoperand, hsuccess']
        simp only [chainFrom, collect, run_bind, run_look, run_lift, hsep, hsuccess, hoperand,
          hsuccess', hpair, hmoved, ih, Outcome.andThen_ok, Outcome.after_nil, if_true, if_false]
        rcases (collect .many (separator.pair p) rounds).run c₂ with ⟨fault | pairs, c₃, trace''⟩
        · simp
        · simp [foldStep]

/-- A chain and what it is put together from run alike. -/
theorem run_chainl_eq (hs : separator.Safe) (hmove : PairsMove separator p) (rounds : Nat)
    (c : Cursor) :
    (p.chainl separator (fun left s right => .ok (f left s right)) rounds).run c =
      ((p.pair ((separator.pair p).many rounds)).map fun v => .ok (foldPairs f v)).run c := by
  rcases hfirst : p.run c with ⟨fault | r, c₁, trace⟩
  · simp [chainl, Matcher.map, pair, hfirst]
  cases hsuccess : r.success with
  | false => simp [chainl, Matcher.map, pair, hfirst, hsuccess]
  | true =>
    simp only [chainl, run_bind, hfirst, Outcome.andThen_ok, hsuccess, if_true, run_look,
      run_chainFrom_eq hs hmove, Outcome.after_nil]
    have hmany : ((separator.pair p).many rounds).run c₁ =
        ((collect .many (separator.pair p) rounds).run c₁).andThen fun pairs =>
          succeed (.list pairs) := rfl
    generalize (separator.pair p).many rounds = repetition at hmany ⊢
    rcases hloop : (collect .many (separator.pair p) rounds).run c₁ with
      ⟨fault | pairs, c₂, trace'⟩ <;> rw [hloop] at hmany
    · simp [Matcher.map, pair, hfirst, hsuccess, hmany]
    · simp [Matcher.map, pair, hfirst, hsuccess, hmany, foldPairs]

/-! ## Where a chain ends -/

theorem returns_lift_ok {α : Type} {a b : α} :
    (Action.lift (.ok a)).Returns c b c' ↔ a = b ∧ c = c' := by
  simp [Returns]

theorem returns_succeedAt {m : Mark} {v : Value} :
    (succeedAt m v).Returns c r c' ↔ ⟨true, v, m.position⟩ = r ∧ c.rewind m = c' := by
  simp [Returns]

/-- The loop takes pairs as long as they match, and returns to the end of the last. -/
theorem returns_chainFrom (rounds : Nat) (value : Value) (c : Cursor)
    (h : (p.chainFrom separator (fun left s right => .ok (f left s right)) rounds value
      c.mark).Returns c r c') :
    ∃ pairs stop left, Pairs separator p c pairs stop ∧ NoPair separator p stop left ∧
      r = ⟨true, pairs.foldl (fun v pair => f v pair.1 pair.2) value, stop.position⟩ ∧
      c' = left.rewind stop.mark := by
  induction rounds generalizing value c with
  | zero => exact absurd h returns_raise
  | succ rounds ih =>
    obtain ⟨s, c₁, hsep, h⟩ := returns_bind.mp h
    cases hsuccess : s.success with
    | false =>
      rw [hsuccess] at h
      obtain ⟨hreply, hcursor⟩ := returns_succeedAt.mp h
      exact ⟨[], c, c₁, .none c, .inl ⟨s, hsep, hsuccess⟩, hreply.symm, hcursor.symm⟩
    | true =>
      rw [hsuccess] at h
      obtain ⟨r', c₂, hoperand, h⟩ := returns_bind.mp h
      cases hsuccess' : r'.success with
      | false =>
        rw [hsuccess'] at h
        obtain ⟨hreply, hcursor⟩ := returns_succeedAt.mp h
        exact ⟨[], c, c₂, .none c, .inr ⟨s, c₁, r', hsep, hsuccess, hoperand, hsuccess'⟩,
          hreply.symm, hcursor.symm⟩
      | true =>
        rw [hsuccess'] at h
        obtain ⟨value', c₃, hlift, h⟩ := returns_bind.mp h
        obtain ⟨rfl, rfl⟩ := returns_lift_ok.mp hlift
        obtain ⟨m, c₃, hlook, h⟩ := returns_bind.mp h
        obtain ⟨rfl, rfl⟩ := returns_look.mp hlook
        obtain ⟨pairs, stop, left, hpairs, hstop, hreply, hcursor⟩ := ih _ c₂ h
        exact ⟨_, stop, left, .more hsep hsuccess hoperand hsuccess' hpairs, hstop, hreply, hcursor⟩

/-- A chain fails with its first operand, and else ends behind its last pair. -/
theorem returns_chainl {rounds : Nat}
    (h : (p.chainl separator (fun left s right => .ok (f left s right)) rounds).Returns c r c') :
    ∃ first c₀, p.Returns c first c₀ ∧
      ((first.success = false ∧ r.success = false ∧ c' = c₀) ∨
        (first.success = true ∧ ∃ pairs stop left, Pairs separator p c₀ pairs stop ∧
          NoPair separator p stop left ∧
          r = ⟨true, pairs.foldl (fun v pair => f v pair.1 pair.2) first.value, stop.position⟩ ∧
          c' = left.rewind stop.mark)) := by
  obtain ⟨first, c₀, hfirst, h⟩ := returns_bind.mp h
  refine ⟨first, c₀, hfirst, ?_⟩
  cases hsuccess : first.success with
  | false =>
    rw [hsuccess] at h
    obtain ⟨rfl, rfl⟩ := returns_fail.mp h
    exact .inl ⟨rfl, rfl, rfl⟩
  | true =>
    rw [hsuccess] at h
    obtain ⟨m, c₁, hlook, h⟩ := returns_bind.mp h
    obtain ⟨rfl, rfl⟩ := returns_look.mp hlook
    exact .inr ⟨rfl, returns_chainFrom rounds first.value c₀ h⟩

end Matcher

/-! ## Parsers -/

namespace Parser

open Parlance.Matcher

variable {fs : Forwards} {Id : Nat → Prop} {p separator : Parser} {c c' : Cursor}

/-- Separator and operand, where both match, end farther on in the text and not past its
end. -/
def PairsAdvance (fs : Forwards) (separator p : Parser) : Prop :=
  ∀ budget c s c' r c'', (separator.meaning fs budget).Returns c s c' → s.success = true →
    (p.meaning fs budget).Returns c' r c'' → r.success = true →
    c.position < c''.position ∧ c''.position ≤ c.text.size

/-- The parser leaves the text alone. Only a hand-written matcher could do otherwise. -/
def KeepsText (fs : Forwards) (p : Parser) : Prop :=
  ∀ budget c, (p.run fs budget c).cursor.text = c.text

theorem WellBuilt.keepsText (hfs : Family fs Id) (hp : p.WellBuilt fs Id) : KeepsText fs p :=
  fun budget c => (reaches_run hfs.closed hp.madeOf budget c).text_eq

theorem KeepsText.of_returns (h : KeepsText fs p) {b : Budget} {r : Reply}
    (hreturns : (p.meaning fs b).Returns c r c') : c'.text = c.text :=
  hreturns.2 ▸ h b c

/-- Parsers that are put together from primitives end farther on, if one of them consumes. -/
theorem pairsAdvance (hfs : Family fs Id) (hp : p.WellBuilt fs Id)
    (hs : separator.WellBuilt fs Id) (h : ¬ p.Stays fs ∨ ¬ separator.Stays fs) :
    PairsAdvance fs separator p := by
  intro budget c s c' r c'' hsep hsuccess hoperand hsuccess'
  have hreach := reaches_of_returns hfs hs hsep
  have hreach' := reaches_of_returns hfs hp hoperand
  have hlower := hreach.lower
  have hlower' := hreach'.lower
  have hless : c.position < c''.position := by
    rcases h with hmoves | hmoves
    · have hmoved := mt (stays_of_returns hoperand hsuccess') hmoves
      omega
    · have hmoved := mt (stays_of_returns hsep hsuccess) hmoves
      omega
  have hupper := (hreach.trans hreach').upper
  exact ⟨hless, by omega⟩

/-- A larger budget changes no run that returns. -/
theorem returns_of_le {b b' : Budget} {r : Reply} (hle : b ≤ b')
    (h : (p.meaning fs b).Returns c r c') : (p.meaning fs b').Returns c r c' := by
  have hsame : (p.meaning fs b').run c = (p.meaning fs b).run c :=
    run_eq_of_not_exhausted hle.1 hle.2 (Outcome.not_exhausted_of_ok h.1)
  rwa [Action.Returns, hsame]

theorem PairsAdvance.settles {f : Value → Value → Value → Except Fault Value}
    (h : PairsAdvance fs separator p) (hf : ∀ v w, Harmless (f v w))
    (hp : ∀ c, Settles (p.meaning fs) c) (hs : ∀ c, Settles (separator.meaning fs) c)
    (htext : KeepsText fs p) (htext' : KeepsText fs separator) (c : Cursor) :
    Settles ((p.chainl separator f).meaning fs) c := by
  refine Settles.first (hp c) fun _ first c₁ _ _ => Settles.marked ?_
  refine Settles.chainFrom hf (fun _ => True) (fun c' _ => hs c') (fun _ _ _ c' _ _ _ => hp c') ?_
    0 first.value c₁.mark trivial
  intro b b' c s c' r c'' _ hsep hsuccess hoperand hsuccess'
  -- one budget for the two of them
  obtain ⟨hless, hend⟩ := h (b.max b') c s c' r c''
    (returns_of_le (b.le_max_left b') hsep) hsuccess
    (returns_of_le (b.le_max_right b') hoperand) hsuccess'
  refine ⟨trivial, ?_⟩
  rw [Cursor.remaining, Cursor.remaining, htext.of_returns hoperand, htext'.of_returns hsep]
  omega

/-- A chain runs as an operand and a repetition of separator and operand do, with a fold
of the values from the left. It ends where its parts do; it fails only where the first
operand does, and else stops behind the last pair, with place and level as they were
there. -/
theorem chainl_eq_fold_many (fs : Forwards) (p separator : Parser)
    (f : Value → Value → Value → Value) (hp : p.Safe fs) (hs : separator.Safe fs)
    (hadvance : PairsAdvance fs separator p) :
    let chain := p.chainl separator fun left s right => .ok (f left s right)
    (∀ budget c, chain.run fs budget c =
      ((p.pair (separator.pair p).many).map fun v => .ok (foldPairs f v)).run fs budget c) ∧
    ((∀ c, Settles (p.meaning fs) c) → (∀ c, Settles (separator.meaning fs) c) →
      KeepsText fs p → KeepsText fs separator → ∀ c, Settles (chain.meaning fs) c) ∧
    (∀ budget c r c', (chain.meaning fs budget).Returns c r c' →
      ∃ first c₀, (p.meaning fs budget).Returns c first c₀ ∧
        ((first.success = false ∧ r.success = false ∧ c'.mark = c.mark) ∨
          (first.success = true ∧ ∃ pairs stop left,
            Pairs (separator.meaning fs budget) (p.meaning fs budget) c₀ pairs stop ∧
            NoPair (separator.meaning fs budget) (p.meaning fs budget) stop left ∧
            r = ⟨true, pairs.foldl (fun v pair => f v pair.1 pair.2) first.value,
              stop.position⟩ ∧
            c'.mark = stop.mark))) := by
  intro chain
  have hf : ∀ v w, Harmless fun u => (.ok (f v w u) : Except Fault Value) :=
    fun _ _ _ _ hfault => by cases hfault
  refine ⟨fun budget c => ?_, hadvance.settles hf, fun budget c r c' h => ?_⟩
  · have hmove : PairsMove (separator.meaning fs budget) (p.meaning fs budget) :=
      fun c s c' r c'' hsep hsuccess hoperand hsuccess' =>
        Int.ne_of_gt (hadvance budget c s c' r c'' hsep hsuccess hoperand hsuccess').1
    exact run_chainl_eq (safe_iff.mp hs budget.rounds budget.depth) hmove budget.rounds c
  · obtain ⟨first, c₀, hfirst, ⟨hfails, hr, rfl⟩ |
      ⟨hmatches, pairs, stop, left, hpairs, hstop, hr, rfl⟩⟩ := returns_chainl h
    · have hmark := safe_iff.mp hp budget.rounds budget.depth c first c' hfirst hfails
      exact ⟨first, c', hfirst, .inl ⟨hfails, hr, hmark⟩⟩
    · exact ⟨first, c₀, hfirst, .inr ⟨hmatches, pairs, stop, left, hpairs, hstop, hr, rfl⟩⟩

/-- Digits with a dash between them, which leads one level deeper, taken from each other: the
dash that no digit follows is left, and so is its level. -/
theorem chainl_eq_fold_many_dangling :
    let p := oneOf "0123456789"
    let separator := (literal "-").seqLeft indent
    let f := fun left _ right => Value.int (left.toInt?.getD 0 - right.toInt?.getD 0)
    let chain := p.chainl separator fun left s right => .ok (f left s right)
    let folded := (p.pair (separator.pair p).many).map fun v => .ok (foldPairs f v)
    let c := Cursor.ofText "7-4-1-x"
    p.Safe .empty ∧ separator.Safe .empty ∧ PairsAdvance .empty separator p ∧
      (∀ c, Settles (p.meaning .empty) c) ∧ (∀ c, Settles (separator.meaning .empty) c) ∧
      KeepsText .empty p ∧ KeepsText .empty separator ∧ Settles (chain.meaning .empty) c ∧
      chain.run .empty ⟨0, 9⟩ c = folded.run .empty ⟨0, 9⟩ c ∧
      (chain.run .empty ⟨0, 9⟩ c).exit.toOption.map (fun r => (r.success, r.value.toInt?,
        r.position)) = some (true, some 2, 5) ∧
      (chain.run .empty ⟨0, 9⟩ c).cursor.mark = ⟨5, 2⟩ := by
  intro p separator f chain folded c
  have hfs : Family .empty fun _ => False := fun _ _ hid _ => hid.elim
  have hp : p.WellBuilt .empty fun _ => False := fun _ _ hfault => by cases hfault
  have hs : separator.WellBuilt .empty fun _ => False := ⟨trivial, trivial⟩
  have hbound : StayBound .empty (fun _ => false) fun _ => False := fun _ _ hid => hid.elim
  have hconsumes : ¬ p.Stays .empty := not_stays hfs.closed hbound hp.madeOf rfl
  have hadvance : PairsAdvance .empty separator p := pairsAdvance hfs hp hs (.inl hconsumes)
  have hsettles : ∀ q : Parser, q.WellBuilt .empty (fun _ => False) →
      ∀ c, Settles (q.meaning .empty) c :=
    fun q hq => settles hfs (fun _ hid => hid.elim) hq
  have hsafe : p.Safe .empty := safe_of_isComposed nofun rfl
  have hsafe' : separator.Safe .empty := safe_of_isComposed nofun rfl
  obtain ⟨hsame, hends, -⟩ := chainl_eq_fold_many .empty p separator f hsafe hsafe' hadvance
  have hchain : Settles (chain.meaning .empty) c := hends (hsettles p hp) (hsettles separator hs)
    (hp.keepsText hfs) (hs.keepsText hfs) c
  refine ⟨hsafe, hsafe', hadvance, hsettles p hp, hsettles separator hs, hp.keepsText hfs,
    hs.keepsText hfs, hchain, hsame ⟨0, 9⟩ c, by decide +kernel, by decide +kernel⟩

end Parser
end Parlance
