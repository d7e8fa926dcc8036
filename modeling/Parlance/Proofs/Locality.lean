import Parlance.Proofs.Agreement
import Parlance.Proofs.Effect

/-! # Parsers see what is ahead

A run on a place in a text does what a run on the rest of the text does: the text in
front of the cursor has no influence, and a cursor past the end is as good as one at
the end. Positions are kept in marks, compared by guards, written to traces and left
behind by faults, so the two runs are followed side by side. The relation between
them also says where the second run can be, and on the diagonal, where both runs are
the same one, this is the invariant of cursors. -/
namespace Parlance

/-! ## Cursors that a run can lead to -/

/-- The cursor is not in front of `s`, nor behind both `s` and the end of the text, and
not below level zero if `s` is not. -/
structure Cursor.Reaches (s c : Cursor) : Prop where
  text_eq : c.text = s.text
  lower : s.position ≤ c.position
  upper : c.position ≤ max s.position s.text.size
  level : 0 ≤ s.indent → 0 ≤ c.indent

/-- The place in a text of which `k` characters more lie in front. -/
def Cursor.within (c : Cursor) (text : Array Char) (k : Nat) : Cursor :=
  ⟨text, c.position + k, c.indent⟩

def Record.shifted (shift : Int) (r : Record) : Record :=
  { r with position := r.position + shift }

namespace Cursor

variable {s c : Cursor} {ahead : List Char}

theorem reaches_self (s : Cursor) : s.Reaches s :=
  ⟨rfl, Int.le_refl _, Int.le_max_left _ _, id⟩

theorem Reaches.faces (h : s.Reaches c) (hs : 0 ≤ s.position) : c.Faces c.rest :=
  ⟨Int.le_trans hs h.lower, rfl⟩

/-- In the longer text the same characters are ahead. -/
theorem Faces.within {text : Array Char} {k : Nat} (h : c.Faces ahead)
    (htext : c.text.toList = text.toList.drop k) : (c.within text k).Faces ahead := by
  obtain ⟨n, hn, hdrop⟩ := h.exists_position
  have hplace : (c.within text k).position = ((k + n : Nat) : Int) := by
    simp only [Cursor.within, hn]
    omega
  refine ⟨by omega, ?_⟩
  rw [rest, offset, hplace, offsetOf_natCast, ← hdrop, htext, List.drop_drop]
  rfl

/-- Consuming characters that are ahead stays within reach. -/
theorem Reaches.consume (h : s.Reaches c) (hfaces : c.Faces ahead) {n : Nat}
    (hn : n ≤ ahead.length) {level : Int} (hlevel : 0 ≤ c.indent → 0 ≤ level) :
    s.Reaches ⟨c.text, c.position + n, level⟩ := by
  have hremaining := hfaces.remaining_eq
  have hlower := h.lower
  have hupper := h.upper
  rw [remaining, h.text_eq] at hremaining
  refine ⟨h.text_eq, ?_, ?_, fun hs => hlevel (h.level hs)⟩
  · change s.position ≤ c.position + n
    omega
  · change c.position + n ≤ max s.position s.text.size
    omega

end Cursor

/-! ## Two texts with the same rest -/

/-- Runs from cursors within reach of `s`, and the same runs in a longer text. -/
def SameAhead {α : Type} (text : Array Char) (k : Nat) (s : Cursor) (Q : α → α → Prop)
    (m m' : Action α) : Prop :=
  ∀ c, s.Reaches c →
    ExitsAlike Q (m.run (c.within text k)).exit (m'.run c).exit ∧
    (m.run (c.within text k)).cursor = (m'.run c).cursor.within text k ∧
    (m.run (c.within text k)).trace = (m'.run c).trace.map (Record.shifted k) ∧
    s.Reaches (m'.run c).cursor

namespace SameAhead

variable {α β : Type} {text : Array Char} {k : Nat} {s : Cursor} {Q : α → α → Prop}
  {Q' : β → β → Prop}

/-- An action that returns and leaves the cursor. -/
theorem of_stays {m m' : Action α} (a a' : Cursor → α)
    (hm : ∀ c, s.Reaches c → m.run (c.within text k) = ⟨.ok (a c), c.within text k, []⟩)
    (hm' : ∀ c, s.Reaches c → m'.run c = ⟨.ok (a' c), c, []⟩)
    (hQ : ∀ c, s.Reaches c → Q (a c) (a' c)) : SameAhead text k s Q m m' := by
  intro c hc
  rw [hm c hc, hm' c hc]
  exact ⟨.ok (hQ c hc), rfl, rfl, hc⟩

theorem bind {m m' : Action α} {f f' : α → Action β} (hm : SameAhead text k s Q m m')
    (hf : ∀ a a', Q a a' → SameAhead text k s Q' (f a) (f' a')) :
    SameAhead text k s Q' (m >>= f) (m' >>= f') := by
  intro c hc
  obtain ⟨hexit, hcursor, htrace, hreach⟩ := hm c hc
  rw [Action.run_bind, Action.run_bind]
  rcases ho : m.run (c.within text k) with ⟨exit, c₁, trace⟩
  rcases ho' : m'.run c with ⟨exit', c₁', trace'⟩
  rw [ho, ho'] at hexit hcursor htrace
  rw [ho'] at hreach
  cases hexit with
  | error fault => exact ⟨.error fault, hcursor, htrace, hreach⟩
  | ok hQ =>
    obtain ⟨hexit, hcursor₂, htrace₂, hreach₂⟩ := hf _ _ hQ c₁' hreach
    dsimp only at hcursor htrace
    rw [← hcursor] at hexit hcursor₂ htrace₂
    refine ⟨hexit, hcursor₂, ?_, hreach₂⟩
    simp only [Outcome.andThen_ok, Outcome.after, htrace, htrace₂, List.map_append]

theorem leaf (hs : 0 ≤ s.position) (htext : s.text.toList = text.toList.drop k)
    (leaf : Primitive) :
    SameAhead text k s (Reply.Shifted k) leaf.matcher leaf.matcher := by
  intro c hc
  have hfaces := hc.faces hs
  have hwithin : (c.within text k).Faces c.rest := hfaces.within (by rw [hc.text_eq, htext])
  have hindent : (c.within text k).indent = c.indent := rfl
  rw [leaf.run_matcher hfaces, leaf.run_matcher hwithin, hindent]
  have hconsumed := leaf.consumed_effect_le c.rest c.indent
  have hlevel := leaf.indent_effect_nonneg c.rest c.indent
  generalize leaf.effect c.rest c.indent = effect at hconsumed hlevel
  refine ⟨?_, ?_, rfl, hc.consume hfaces hconsumed hlevel⟩
  · rcases effect with ⟨_ | ⟨success, v⟩, n, level⟩
    · exact .error _
    · exact .ok ⟨rfl, rfl, Int.add_right_comm _ _ _⟩
  · simp only [Effect.outcome, Cursor.within, Int.add_right_comm]

theorem peek (hs : 0 ≤ s.position) (htext : s.text.toList = text.toList.drop k) :
    SameAhead text k s Eq Action.peek Action.peek := by
  refine of_stays (fun c => c.rest.head?) (fun c => c.rest.head?) ?_ ?_ fun _ _ => rfl
  · intro c hc
    have hwithin : (c.within text k).Faces c.rest :=
      (hc.faces hs).within (by rw [hc.text_eq, htext])
    rw [Action.run_peek, hwithin.isBeforeStart_eq, hwithin.next?_eq]
    rfl
  · intro c hc
    rw [Action.run_peek, (hc.faces hs).isBeforeStart_eq, (hc.faces hs).next?_eq]
    rfl

def agreement (text : Array Char) (k : Nat) (s : Cursor) (hs : 0 ≤ s.position)
    (htext : s.text.toList = text.toList.drop k) : Agreement where
  Agree := SameAhead text k s
  Marks m m' := m = ⟨m'.position + k, m'.indent⟩ ∧ s.Reaches (s.rewind m')
  Leaf _ := True
  Name _ := True
  shift := k
  position_eq h := by rw [h.1]
  pure h := of_stays _ _ (fun _ _ => rfl) (fun _ _ => rfl) fun _ _ => h
  bind := bind
  raise fault := fun _ hc => ⟨.error fault, rfl, rfl, hc⟩
  mark := of_stays _ _ (fun _ _ => rfl) (fun _ _ => rfl) fun c hc =>
    ⟨rfl, rfl, hc.lower, hc.upper, hc.level⟩
  rewind h := by
    rintro c hc
    rw [h.1]
    exact ⟨.ok trivial, rfl, rfl, hc.text_eq, h.2.lower, h.2.upper, h.2.level⟩
  peek := peek hs htext
  record _ _ := fun _ hc => ⟨.ok trivial, rfl, rfl, hc⟩
  leaf _ := leaf hs htext _

end SameAhead

namespace Parser

variable {fs : Forwards} {p : Parser}

theorem run_sameAhead (hfs : ∀ id body, fs.target? id = some body → body.isComposed = true)
    (hp : p.isComposed = true) (budget : Budget) {text : Array Char} {k : Nat} {s : Cursor}
    (hs : 0 ≤ s.position) (htext : s.text.toList = text.toList.drop k) :
    SameAhead text k s (Reply.Shifted k)
      (p.matcher budget.rounds (fs.call budget.rounds budget.depth))
      (p.matcher budget.rounds (fs.call budget.rounds budget.depth)) := by
  let A := SameAhead.agreement text k s hs htext
  have hclosed : fs.Closed A.Leaf A.Name fun _ => True :=
    Forwards.closed_of_isComposed (fun _ => trivial) (fun _ => trivial) hfs
  exact A.matcher (A.call hclosed _ _) (Agreement.Rounds.refl _) p
    (madeOf_of_isComposed (fun _ => trivial) (fun _ => trivial) (fun _ => trivial) p hp)

/-! ## The rest of a text -/

theorem toList_drop (text : Array Char) (k : Nat) : (text.drop k).toList = text.toList.drop k := by
  rw [Array.drop_eq_extract, Array.toList_extract, List.extract_eq_take_drop,
    List.take_of_length_le]
  simp

/-- The outcomes are of the same kind, and the positions of the first are so far
ahead of those of the second. -/
structure Shifted (shift : Int) (o o' : Outcome Reply) : Prop where
  exit : ExitsAlike (Reply.Shifted shift) o.exit o'.exit
  position : o.cursor.position = o'.cursor.position + shift
  indent : o.cursor.indent = o'.cursor.indent
  trace : o.trace = o'.trace.map (Record.shifted shift)

theorem Shifted.of_common {o o₁ o₂ : Outcome Reply} {shift₁ shift₂ : Int}
    (h₁ : Shifted shift₁ o₁ o) (h₂ : Shifted shift₂ o₂ o) : Shifted (shift₁ - shift₂) o₁ o₂ where
  exit := by
    rcases o with ⟨_, _, _⟩
    rcases o₁ with ⟨_, _, _⟩
    rcases o₂ with ⟨_, _, _⟩
    have hexit₁ := h₁.exit
    have hexit₂ := h₂.exit
    dsimp only at hexit₁ hexit₂ ⊢
    cases hexit₁ with
    | error fault => cases hexit₂; exact .error fault
    | ok hr₁ =>
      cases hexit₂ with
      | ok hr₂ =>
        obtain ⟨hsuccess₁, hvalue₁, hposition₁⟩ := hr₁
        obtain ⟨hsuccess₂, hvalue₂, hposition₂⟩ := hr₂
        exact .ok ⟨hsuccess₁.trans hsuccess₂.symm, hvalue₁.trans hvalue₂.symm, by omega⟩
  position := by
    rw [h₁.position, h₂.position]
    omega
  indent := h₁.indent.trans h₂.indent.symm
  trace := by
    have hrecord : ∀ r : Record,
        (r.shifted shift₂).shifted (shift₁ - shift₂) = r.shifted shift₁ := by
      intro r
      simp only [Record.shifted, Record.mk.injEq, true_and]
      omega
    simp only [h₁.trace, h₂.trace, List.map_map, Function.comp_def, hrecord]

theorem run_shifted (hfs : ∀ id body, fs.target? id = some body → body.isComposed = true)
    (hp : p.isComposed = true) (budget : Budget) (text : Array Char) (k : Nat) (indent : Int) :
    Shifted k (p.run fs budget ⟨text, k, indent⟩)
      (p.run fs budget ⟨text.drop k, 0, indent⟩) := by
  let s : Cursor := ⟨text.drop k, 0, indent⟩
  have htext : s.text.toList = text.toList.drop k := toList_drop text k
  have hplace : s.within text k = ⟨text, k, indent⟩ := by
    simp [s, Cursor.within]
  obtain ⟨hexit, hcursor, htrace, _⟩ :=
    run_sameAhead hfs hp budget (Int.le_refl 0) htext s (Cursor.reaches_self s)
  rw [hplace] at hexit hcursor htrace
  have hposition := congrArg Cursor.position hcursor
  have hindent := congrArg Cursor.indent hcursor
  exact ⟨hexit, hposition, hindent, htrace⟩

/-- A run on a place in a text and a run on the rest of the text are the same but for
the offset of the positions. So two runs with the same characters ahead are, whatever
lies behind them, and past the end of the text all cursors do alike. -/
theorem run_depends_on_rest
    (hfs : ∀ id body, fs.target? id = some body → body.isComposed = true)
    (hp : p.isComposed = true) (budget : Budget) (text : Array Char) (k : Nat) (indent : Int) :
    Shifted k (p.run fs budget ⟨text, k, indent⟩)
      (p.run fs budget ⟨text.drop k, 0, indent⟩) ∧
    (∀ (text' : Array Char) (k' : Nat), text.toList.drop k = text'.toList.drop k' →
      Shifted ((k : Int) - k') (p.run fs budget ⟨text, k, indent⟩)
        (p.run fs budget ⟨text', k', indent⟩)) ∧
    (text.size ≤ k → Shifted ((k : Int) - text.size) (p.run fs budget ⟨text, k, indent⟩)
      (p.run fs budget ⟨text, text.size, indent⟩)) := by
  have hsame : ∀ (text' : Array Char) (k' : Nat), text.toList.drop k = text'.toList.drop k' →
      Shifted ((k : Int) - k') (p.run fs budget ⟨text, k, indent⟩)
        (p.run fs budget ⟨text', k', indent⟩) := by
    intro text' k' hrest
    have hdrop : text.drop k = text'.drop k' := by
      rw [← Array.toList_inj, toList_drop, toList_drop, hrest]
    have hshifted := run_shifted hfs hp budget text k indent
    rw [hdrop] at hshifted
    exact hshifted.of_common (run_shifted hfs hp budget text' k' indent)
  refine ⟨run_shifted hfs hp budget text k indent, hsame, fun hend => hsame text text.size ?_⟩
  rw [List.drop_eq_nil_of_le (by simpa using hend), List.drop_eq_nil_of_le (by simp)]

/-- A recursive parser that traces itself, behind one character and without it. -/
theorem run_depends_on_rest_nested :
    let nested := (((literal "(").seqRight (.forward 0)).orElse .anyChar).traced "nested"
    let o := (Parser.forward 0).run ⟨#[some nested]⟩ ⟨2, 1⟩ ⟨#['a', '(', 'x'], 1, 0⟩
    let o' := (Parser.forward 0).run ⟨#[some nested]⟩ ⟨2, 1⟩ ⟨#['(', 'x'], 0, 0⟩
    o.trace = [⟨"nested", .entered, 1⟩, ⟨"nested", .entered, 2⟩, ⟨"nested", .succeeded, 3⟩,
      ⟨"nested", .succeeded, 3⟩] ∧ Shifted 1 o o' := by
  refine ⟨rfl, (run_depends_on_rest ?_ rfl _ #['a', '(', 'x'] 1 0).1⟩
  intro id body h
  match id with
  | 0 => cases h; rfl
  | id + 1 => cases h

end Parser
end Parlance
