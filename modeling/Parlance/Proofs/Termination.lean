import Parlance.Proofs.Soundness
import Parlance.Proofs.Budget

/-! # Runs of the grammars end

A grammar of expressions refers to itself through its forward, and its chains have no
guard of their own, so that its runs end is a matter of what they read. The forward is
entered only behind an opening parenthesis that has been read since the start, and
every round of a chain reads a sign and an operand: with as much depth as there are
characters left, and one round more, a run ends with a reply, and a larger budget
gives the same run. The entries are found in the trace of the run under a table that
watches its forwards. -/
namespace Parlance.Grammar

open Parlance.Parser (forward whitespace literal)

/-! ## Grammars built anew -/

/-- Building a grammar leaves a table that holds it. -/
theorem build_holds (fs : Forwards) (comparisons : Bool) :
    (build fs comparisons).1 = top comparisons (forward fs.slots.size) ∧
      Holds (build fs comparisons).2 fs.slots.size comparisons := by
  refine ⟨rfl, ?_⟩
  -- the new forward is not defined yet, and an expression is not the forward itself
  have hundefined : (fs.create.2).isDefined fs.create.1 = false := by
    simp [Forwards.isDefined, Forwards.target?, Forwards.create]
  have hother : Forwards.isForward fs.create.1 (top comparisons (forward fs.create.1)) = false := by
    cases comparisons <;> rfl
  have hdefine : fs.create.2.define fs.create.1 (top comparisons (forward fs.create.1)) =
      .ok ⟨(fs.slots.push none).setIfInBounds fs.slots.size
        (some (top comparisons (forward fs.slots.size)))⟩ := by
    rw [Forwards.define, hundefined, hother]
    rfl
  simp [Holds, build, hdefine, Forwards.target?]

section Parts

variable (Name : String → Prop)

theorem madeOf_joiner (Id : Nat → Prop) (k : Nat) :
    (joiner k).MadeOf (fun _ => True) Name Id := by
  match k with
  | 0 | 1 => exact ⟨trivial, trivial⟩
  | 2 => exact ⟨⟨trivial, trivial, trivial⟩, trivial⟩
  | k + 3 => exact trivial

/-- A level holds no forward but the one between its parentheses, and traces nothing. -/
theorem madeOf_level (id k : Nat) :
    (level (forward id) k).MadeOf (fun _ => True) Name (· = id) := by
  induction k with
  | zero =>
    have hparens : (parenthesized (forward id)).MadeOf (fun _ => True) Name (· = id) :=
      ⟨⟨⟨trivial, rfl⟩, trivial, trivial⟩, trivial⟩
    exact ⟨⟨trivial, trivial⟩, ⟨trivial, trivial⟩, hparens, trivial⟩
  | succ k ih => exact ⟨ih, madeOf_joiner Name _ k⟩

theorem Holds.closed {fs : Forwards} {id : Nat} {comparisons : Bool}
    (h : Holds fs id comparisons) : fs.Closed (fun _ => True) Name (· = id) := by
  rintro _ body rfl htarget
  rw [h] at htarget
  cases htarget
  rw [top_eq_level]
  exact madeOf_level Name _ _

end Parts

/-! ## Entries of the forward -/

/-- The place stands behind an opening parenthesis and white space, and the parenthesis
not before `low`. -/
def BehindOpening (text : List Char) (low : Nat) (place : Int) : Prop :=
  ∃ front blanks rest, text = front ++ '(' :: (blanks ++ rest) ∧ low ≤ front.length ∧
    (∀ d ∈ blanks, isSpace d = true) ∧ place = (front.length + 1 + blanks.length : Nat)

theorem behindOpening_of_faces {c : Cursor} {low : Nat} {blanks rest : List Char}
    (h : c.Faces ('(' :: (blanks ++ rest))) (hlow : low ≤ c.position)
    (hblanks : ∀ d ∈ blanks, isSpace d = true) :
    BehindOpening c.text.toList low (c.forward (1 + blanks.length)).position := by
  obtain ⟨n, hn, hdrop⟩ := h.exists_position
  have hlength : (c.text.toList.take n).length = n := by
    have hahead := congrArg List.length hdrop
    rw [List.length_drop, List.length_cons] at hahead
    rw [List.length_take]
    omega
  refine ⟨c.text.toList.take n, blanks, rest, ?_, by omega, hblanks, ?_⟩
  · rw [← hdrop, List.take_append_drop]
  · rw [Cursor.position_forward, hlength, hn]
    push_cast
    omega

/-- A run that stays in its text and not before `low`, and has entered forwards behind
opening parentheses only. -/
structure Entered {α : Type} (text : Array Char) (low : Nat) (P : α → Prop) (o : Outcome α) :
    Prop where
  text_eq : o.cursor.text = text
  inside : low ≤ o.cursor.position
  entered : ∀ r ∈ o.trace, r.phase = .entered → BehindOpening text.toList low r.position
  result : ∀ a, o.exit = .ok a → P a

def EntersFrom (text : Array Char) (low : Nat) (p : Matcher) (c : Cursor) : Prop :=
  Entered text low (fun r => ∃ r', Reply.Shifted 0 r r') (p.run c)

namespace Entered

variable {α β : Type} {text : Array Char} {low : Nat} {P : α → Prop} {P' : β → Prop}

theorem of_silent {o : Outcome α} (htext : o.cursor.text = text) (hinside : low ≤ o.cursor.position)
    (htrace : o.trace = []) (hresult : ∀ a, o.exit = .ok a → P a) : Entered text low P o := by
  refine ⟨htext, hinside, ?_, hresult⟩
  rw [htrace]
  exact fun r hr => nomatch hr

theorem after {o : Outcome α} {trace : List Record} (h : Entered text low P o)
    (htrace : ∀ r ∈ trace, r.phase = .entered → BehindOpening text.toList low r.position) :
    Entered text low P (o.after trace) := by
  refine ⟨h.text_eq, h.inside, fun r hr => ?_, h.result⟩
  rcases List.mem_append.mp hr with hr | hr
  · exact htrace r hr
  · exact h.entered r hr

theorem andThen {o : Outcome α} {f : α → Action β} (h : Entered text low P o)
    (hf : ∀ a, P a → ∀ c : Cursor, c.text = text → low ≤ c.position →
      Entered text low P' ((f a).run c)) :
    Entered text low P' (o.andThen f) := by
  rcases o with ⟨fault | a, c, trace⟩
  · exact ⟨h.text_eq, h.inside, h.entered, fun _ hexit => by cases hexit⟩
  · exact (hf a (h.result a rfl) c h.text_eq h.inside).after h.entered

theorem reply_beside (r : Reply) : ∃ r', r.Shifted 0 r' := ⟨r, rfl, rfl, by simp⟩

theorem leaf (leaf : Primitive) {c : Cursor} (htext : c.text = text) (hlow : low ≤ c.position) :
    EntersFrom text low leaf.matcher c := by
  have hfaces : c.Faces c.rest := ⟨by omega, rfl⟩
  rw [EntersFrom, Primitive.run_matcher _ hfaces]
  refine of_silent htext ?_ rfl fun r _ => reply_beside r
  simp only [Effect.outcome]
  omega

def agreement (text : Array Char) (low : Nat) : Agreement where
  Agree Q m _ := ∀ c : Cursor, c.text = text → low ≤ c.position →
    Entered text low (fun a => ∃ a', Q a a') (m.run c)
  Marks m m' := m = m' ∧ low ≤ m.position
  Leaf _ := True
  Name _ := False
  shift := 0
  position_eq h := by simp [h.1]
  pure h _ htext hlow := of_silent htext hlow rfl fun _ hexit => by cases hexit; exact ⟨_, h⟩
  bind hm hf c htext hlow := (hm c htext hlow).andThen fun a ⟨a', ha⟩ => hf a a' ha
  raise _ _ htext hlow := of_silent htext hlow rfl nofun
  mark c htext hlow := of_silent htext hlow rfl fun _ hexit => by cases hexit; exact ⟨_, rfl, hlow⟩
  rewind h _ htext _ := of_silent htext h.2 rfl fun _ _ => ⟨(), trivial⟩
  peek c htext hlow := by
    rw [Action.run_peek]
    split
    · exact of_silent htext hlow rfl nofun
    · exact of_silent htext hlow rfl fun a _ => ⟨a, rfl⟩
  record _ h := h.elim
  leaf {leaf} _ _ htext hlow := Entered.leaf leaf htext hlow

end Entered

section Entries

variable {text : Array Char} {low : Nat} {rounds : Nat} {call : Nat → Matcher} {id : Nat}

/-- A parser without forwards enters none. -/
theorem enters_of_madeOf (p : Parser)
    (hp : p.MadeOf (fun _ => True) (fun _ => False) fun _ => False) :
    (Entered.agreement text low).Match (p.matcher rounds call) (p.matcher rounds call) :=
  (Entered.agreement text low).matcher (fun _ h => h.elim) (Agreement.Rounds.refl rounds) p hp

theorem enters_parenthesized
    (hcall : ∀ c : Cursor, c.text = text → BehindOpening text.toList low c.position →
      EntersFrom text low (call id) c) :
    (Entered.agreement text low).Match ((parenthesized (forward id)).matcher rounds call)
      ((parenthesized (forward id)).matcher rounds call) := by
  have hblank : (Entered.agreement text low).Match (whitespace.matcher rounds call)
      (whitespace.matcher rounds call) := enters_of_madeOf whitespace trivial
  have hclosing : (Entered.agreement text low).Match ((literal ")").matcher rounds call)
      ((literal ")").matcher rounds call) := enters_of_madeOf (literal ")") trivial
  refine Agreement.seqLeft ?_ hblank
  intro c htext hlow
  have hfaces : c.Faces c.rest := ⟨by omega, rfl⟩
  by_cases hopening : c.rest.head? = some '('
  · obtain ⟨ahead, hrest⟩ : ∃ ahead, c.rest = '(' :: ahead := List.head?_eq_some_iff.mp hopening
    rw [hrest, ← List.takeWhile_append_dropWhile (p := isSpace) (l := ahead)] at hfaces
    have hblanks : ∀ d ∈ ahead.takeWhile isSpace, isSpace d = true :=
      List.all_eq_true.mp List.all_takeWhile
    -- the two parts in front of the forward are taken, and it is entered behind them
    have hbefore : (whitespace.matcher rounds call).Takes (c.forward 1) _ _ :=
      takes_before hfaces hblanks (head?_dropWhile_eq_false ahead)
    have hplace := behindOpening_of_faces hfaces hlow hblanks
    rw [htext] at hplace
    have hinner : EntersFrom text low ((whitespace.seqRight (forward id)).matcher rounds call)
        (c.forward 1) := by
      rw [EntersFrom, Parser.matcher, Matcher.run_seqRight_of_left hbefore, Cursor.forward_forward]
      refine (hcall (c.forward _) htext hplace).andThen fun s _ => ?_
      have hmark : (Entered.agreement text low).Marks (c.forward 1).mark (c.forward 1).mark := by
        refine ⟨rfl, ?_⟩
        simp only [Cursor.position_mark, Cursor.position_forward]
        omega
      exact Agreement.ite Iff.rfl (Agreement.succeed s.value) (Agreement.failAt hmark)
    rw [Parser.matcher, Matcher.run_enclosed_of_opening (takes_opening hfaces)]
    refine hinner.andThen fun r _ => ?_
    have hmark : (Entered.agreement text low).Marks c.mark c.mark := ⟨rfl, hlow⟩
    exact Agreement.ite Iff.rfl (Agreement.last hclosing hmark fun _ _ _ => rfl)
      (Agreement.failAt hmark)
  · have hrefuses : (((whitespace.seqRight (forward id)).enclosed (literal "(") (literal ")")).matcher
        rounds call).Refuses c := by
      refine Matcher.refuses_enclosed (Matcher.refuses_literal hfaces ?_)
      rintro ⟨rest, hrest⟩
      rw [← hrest] at hopening
      exact hopening rfl
    rw [hrefuses.run_eq]
    exact Entered.of_silent htext hlow rfl fun r _ => Entered.reply_beside r

theorem enters_level
    (hcall : ∀ c : Cursor, c.text = text → BehindOpening text.toList low c.position →
      EntersFrom text low (call id) c) (rounds k : Nat) :
    (Entered.agreement text low).Match ((level (forward id) k).matcher rounds call)
      ((level (forward id) k).matcher rounds call) := by
  induction k with
  | zero =>
    exact Agreement.orElse (enters_of_madeOf number ⟨trivial, trivial⟩) (Agreement.orElse
      (enters_of_madeOf identifier ⟨trivial, trivial⟩) (Agreement.orElse
        (enters_parenthesized hcall) Agreement.fail))
  | succ k ih =>
    have hjoiner : (Entered.agreement text low).Match ((joiner k).matcher rounds call)
        ((joiner k).matcher rounds call) := enters_of_madeOf (joiner k) (madeOf_joiner _ _ k)
    exact Agreement.chainl ih hjoiner _ (Agreement.Rounds.refl rounds)

theorem BehindOpening.low_le {place : Int} (h : BehindOpening text.toList low place) :
    low ≤ place := by
  obtain ⟨front, blanks, rest, _, hlow, _, rfl⟩ := h
  omega

/-- Under a table that watches its forwards, the entry itself is behind the parenthesis,
and so are those of the runs inside. The induction is on how many may still be opened. -/
theorem enters_call {fs : Forwards} {comparisons : Bool} (hfs : Holds fs id comparisons)
    (name : String) (rounds depth : Nat) : ∀ c : Cursor, c.text = text →
      BehindOpening text.toList low c.position →
        EntersFrom text low ((fs.watched name).call rounds depth id) c := by
  have htarget : (fs.watched name).target? id =
      some ((top comparisons (forward id)).traced name) := by
    rw [Forwards.target?_watched, hfs]
    rfl
  induction depth with
  | zero =>
    intro c htext hplace
    rw [Forwards.call_zero htarget]
    exact Entered.of_silent htext hplace.low_le rfl nofun
  | succ depth ih =>
    intro c htext hplace
    rw [Forwards.call_succ htarget]
    have hbody := enters_level ih rounds (topLevel comparisons)
    rw [← top_eq_level] at hbody
    have hentry : ∀ r ∈ [(⟨name, .entered, c.position⟩ : Record)], r.phase = .entered →
        BehindOpening text.toList low r.position := by
      intro r hr _
      rw [List.mem_singleton.mp hr]
      exact hplace
    refine Entered.after (Entered.andThen (hbody c htext hplace.low_le) fun r hr c' htext' hlow' => ?_)
      hentry
    refine ⟨htext', hlow', fun r' hr' hphase => ?_, fun a hexit => ?_⟩
    · -- the line at the end of the run is no entry
      simp only [Action.run_bind, Action.run_record, Outcome.andThen_ok, Action.run_pure,
        Outcome.after_mk, List.append_nil, List.mem_singleton] at hr'
      subst hr'
      simp only at hphase
      split at hphase <;> cases hphase
    · exact Entered.reply_beside a

end Entries

/-! ## Every run ends -/

theorem reader_replies {fs : Forwards} {id rounds depth : Nat} {comparisons : Bool} {c : Cursor}
    {ahead : List Char} (hfs : Holds fs id comparisons) (k : Nat) (h : c.Faces ahead)
    (hdepth : ahead.length ≤ depth) (hrounds : ahead.length < rounds) :
    ∃ reply, ((reader fs id rounds depth k).run c).exit = .ok reply := by
  cases reader_ends hfs depth k c ahead h hrounds with
  | takes taken rest _ _ htakes =>
    rw [htakes.run_eq]
    exact ⟨_, rfl⟩
  | refuses hrefuses =>
    rw [hrefuses.run_eq]
    exact ⟨_, rfl⟩
  | sinks _ hcount =>
    -- each parenthesis that is open has been read
    have hle := List.count_le_length (a := '(') (l := ahead)
    omega

def builtRun (fs : Forwards) (comparisons : Bool) (budget : Budget) (c : Cursor) : Outcome Reply :=
  (build fs comparisons).1.run (build fs comparisons).2 budget c

/-- The same run under a table that watches its forwards. -/
def watchedRun (fs : Forwards) (comparisons : Bool) (name : String) (budget : Budget) (c : Cursor) :
    Outcome Reply :=
  (build fs comparisons).1.run ((build fs comparisons).2.watched name) budget c

section Built

variable (fs : Forwards) (comparisons : Bool)

theorem madeOf_build (Name : String → Prop) :
    (build fs comparisons).1.MadeOf (fun _ => True) Name (· = fs.slots.size) := by
  rw [(build_holds fs comparisons).1, top_eq_level]
  exact madeOf_level Name _ _

theorem builtRun_replies (text : Array Char) (position : Nat) (indent : Int) :
    ∃ reply, (builtRun fs comparisons ⟨text.size - position, text.size - position + 1⟩
      ⟨text, position, indent⟩).exit = .ok reply := by
  obtain ⟨hparser, hholds⟩ := build_holds fs comparisons
  let c : Cursor := ⟨text, position, indent⟩
  have hfaces : c.Faces c.rest := ⟨Int.natCast_nonneg position, rfl⟩
  have hlength : c.rest.length = text.size - position := by
    rw [← hfaces.remaining_eq]
    simp only [Cursor.remaining, c]
    omega
  rw [builtRun, Parser.run, hparser, top_eq_level]
  exact reader_replies hholds _ hfaces (Nat.le_of_eq hlength)
    (Nat.lt_succ_of_le (Nat.le_of_eq hlength))

theorem watchedRun_entered (name : String) (budget : Budget) (text : Array Char) (position : Nat)
    (indent : Int) :
    ∀ r ∈ (watchedRun fs comparisons name budget ⟨text, position, indent⟩).trace,
      r.phase = .entered → BehindOpening text.toList position r.position := by
  obtain ⟨hparser, hholds⟩ := build_holds fs comparisons
  have hcall : ∀ c : Cursor, c.text = text → BehindOpening text.toList position c.position →
      EntersFrom text position (((build fs comparisons).2.watched name).call budget.rounds
        budget.depth fs.slots.size) c := enters_call hholds name budget.rounds budget.depth
  have hentries := enters_level hcall budget.rounds (topLevel comparisons)
  rw [← top_eq_level, ← hparser] at hentries
  exact (hentries ⟨text, position, indent⟩ rfl (Int.le_refl _)).entered

end Built

/-- From every place that a cursor in order may have, and from past the end too, a
grammar that has just been built ends with one and the same reply and no fault under
every budget that has as much depth as there are characters left, and one round more.
Under any budget it enters its forward only behind an opening parenthesis that it has
read. -/
theorem build_run_ends (fs : Forwards) (comparisons : Bool) (text : Array Char) (position : Nat)
    (indent : Int) :
    (∃ o reply, o.exit = .ok reply ∧ ∀ budget : Budget, text.size - position ≤ budget.depth →
      text.size - position < budget.rounds →
        builtRun fs comparisons budget ⟨text, position, indent⟩ = o ∧ ∀ name,
          (watchedRun fs comparisons name budget ⟨text, position, indent⟩).exit = .ok reply) ∧
    ∀ (name : String) (budget : Budget),
      ∀ r ∈ (watchedRun fs comparisons name budget ⟨text, position, indent⟩).trace,
        r.phase = .entered → BehindOpening text.toList position r.position := by
  obtain ⟨reply, hreply⟩ := builtRun_replies fs comparisons text position indent
  have hclosed := fun Name => (build_holds fs comparisons).2.closed Name
  have hmade := madeOf_build fs comparisons
  -- the least budget decides, and all others agree with it
  have hsame : ∀ budget : Budget, text.size - position ≤ budget.depth →
      text.size - position < budget.rounds →
        builtRun fs comparisons budget ⟨text, position, indent⟩ = builtRun fs comparisons
          ⟨text.size - position, text.size - position + 1⟩ ⟨text, position, indent⟩ :=
    fun budget hdepth hrounds => Parser.run_eq_of_not_exhausted hdepth hrounds
      (Outcome.not_exhausted_of_ok hreply)
  refine ⟨⟨_, reply, hreply, fun budget hdepth hrounds => ⟨hsame budget hdepth hrounds, ?_⟩⟩, ?_⟩
  · intro name
    have hleast : (builtRun fs comparisons ⟨text.size - position, budget.rounds⟩
        ⟨text, position, indent⟩).exit = .ok reply := by
      rw [hsame ⟨_, budget.rounds⟩ (Nat.le_refl _) hrounds, hreply]
    exact (Parser.run_watched_of_ok (hclosed _) (hmade _) name hdepth (Int.natCast_nonneg position)
      hleast).1
  · exact fun name budget => watchedRun_entered fs comparisons name budget text position indent

end Parlance.Grammar
