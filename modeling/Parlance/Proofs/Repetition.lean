import Parlance.Proofs.OperatorChain

/-! # Greedy repetition

A repetition has no bound of its own. Its body is run as long as it succeeds and ends
farther on; such a success is a stride. Strides from a cursor form one row, because a run
is determined by where it starts, and the row is finite, because each stride leaves less of
the text. So the longest row exists, and the repetition follows it: what the body does at
the end of the row decides how the repetition ends. The guard of the loop looks at the
position only; a body that succeeds in the same place is a fault of the grammar even if it
has changed the level. -/
namespace Parlance

/-! ## Values as code points -/

namespace Value

/-- The value counts as the number of a code point, surrogates included. -/
def IsCode (v : Value) : Prop := ∃ i, v.toInt? = some i ∧ 0 ≤ i ∧ i ≤ 0x10ffff

/-- The value counts as the number of this code point. -/
def HasCode (v : Value) (p : CodePoint) : Prop := v.toInt? = some (p.val : Int)

theorem IsCode.exists_hasCode {v : Value} (h : v.IsCode) : ∃ p, v.HasCode p := by
  obtain ⟨i, hi, hlow, hhigh⟩ := h
  have hbound : i.toNat < 0x110000 := by omega
  refine ⟨⟨i.toNat, hbound⟩, ?_⟩
  unfold HasCode
  rw [hi, Int.toNat_of_nonneg hlow]

theorem exists_codes {values : List Value} (h : ∀ v ∈ values, v.IsCode) :
    ∃ codes, List.Forall₂ HasCode values codes := by
  induction values with
  | nil => exact ⟨[], .nil⟩
  | cons v rest ih =>
    obtain ⟨p, hp⟩ := (h v (List.mem_cons_self ..)).exists_hasCode
    obtain ⟨codes, hcodes⟩ := ih fun w hw => h w (List.mem_cons_of_mem v hw)
    exact ⟨p :: codes, .cons hp hcodes⟩

end Value

namespace Matcher

open Parlance.Action

theorem codeOf_val (p : CodePoint) : codeOf p.val = .ok p := by
  have hbound : p.val < 0x110000 := p.isLt
  have hrange : (0 : Int) ≤ p.val ∧ (p.val : Int) < 0x110000 := by omega
  unfold codeOf
  rw [dif_pos hrange]
  exact congrArg Except.ok (CodePoint.ext (Int.toNat_natCast p.val))

/-- Values are joined to the code points they count as, one for each. -/
theorem joinCodes_of_hasCode {values : List Value} {codes : List CodePoint}
    (h : List.Forall₂ Value.HasCode values codes) : joinCodes values = .ok codes := by
  induction h with
  | nil => rfl
  | @cons v p values codes hcode _ ih =>
    have hv : v.toInt? = some (p.val : Int) := hcode
    rw [joinCodes, hv]
    show (codeOf p.val >>= fun p => joinCodes values >>= fun ps => pure (p :: ps)) = _
    rw [codeOf_val, ih]
    rfl

/-! ## Rows of strides -/

/-- Successes of `p` in a row, each of which ends farther on, with these values. -/
inductive Strides (p : Matcher) : Cursor → List Value → Cursor → Prop
  | none (c : Cursor) : Strides p c [] c
  | more {c c' stop : Cursor} {r : Reply} {values : List Value} (hr : p.Returns c r c')
      (hsuccess : r.success = true) (hless : c.position < c'.position)
      (hrest : Strides p c' values stop) : Strides p c (r.value :: values) stop

/-- The longest row from a cursor: every other is a front of it. -/
structure LongestStrides (p : Matcher) (c : Cursor) (values : List Value) (stop : Cursor) :
    Prop where
  strides : Strides p c values stop
  longest : ∀ values' stop', Strides p c values' stop' → values' <+: values

/-- A success leaves the text, and ends between its start and the end of the text. -/
def Advances (p : Matcher) : Prop :=
  ∀ c r c', p.Returns c r c' → r.success = true →
    c'.text = c.text ∧ c.position ≤ c'.position ∧ c'.position ≤ max c.position c.text.size

variable {p : Matcher} {c c' stop stop' : Cursor} {r r' : Reply} {values values' : List Value}

/-- A stride leaves less of the text. -/
theorem Advances.remaining_lt (hp : p.Advances) (hr : p.Returns c r c')
    (hsuccess : r.success = true) (hmoved : c'.position ≠ c.position) :
    c'.remaining < c.remaining := by
  obtain ⟨htext, hlower, hupper⟩ := hp c r c' hr hsuccess
  unfold Cursor.remaining
  rw [htext]
  omega

theorem Strides.length_le (hp : p.Advances) (h : Strides p c values stop) :
    values.length ≤ c.remaining := by
  induction h with
  | none c => exact Nat.zero_le _
  | more hr hsuccess hless _ ih =>
    have hleft := hp.remaining_lt hr hsuccess (Int.ne_of_gt hless)
    rw [List.length_cons]
    omega

theorem Strides.append (h : Strides p c values stop) (h' : Strides p stop values' stop') :
    Strides p c (values ++ values') stop' := by
  induction h with
  | none c => exact h'
  | more hr hsuccess hless _ ih => exact .more hr hsuccess hless (ih h')

/-- A row that cannot go on is the longest. -/
theorem Strides.longestStrides (h : Strides p c values stop)
    (hstop : ∀ r c', p.Returns stop r c' → r.success = true → ¬ stop.position < c'.position) :
    LongestStrides p c values stop := by
  refine ⟨h, ?_⟩
  induction h with
  | none c =>
    intro values' stop' h'
    cases h' with
    | none => exact List.prefix_refl _
    | more hr hsuccess hless _ => exact absurd hless (hstop _ _ hr hsuccess)
  | more hr _ _ _ ih =>
    intro values' stop' h'
    cases h' with
    | none => exact List.nil_prefix
    | more hr' _ _ hrest' =>
      obtain ⟨rfl, rfl⟩ := hr.unique hr'
      exact List.cons_prefix_cons.mpr ⟨rfl, ih hstop _ _ hrest'⟩

/-- At the end of the longest row a success goes no farther. -/
theorem LongestStrides.not_less (h : LongestStrides p c values stop) (hr : p.Returns stop r c')
    (hsuccess : r.success = true) : ¬ stop.position < c'.position := by
  intro hless
  have hlonger := h.longest _ _ (h.strides.append (.more hr hsuccess hless (.none c')))
  have hlength := hlonger.length_le
  rw [List.length_append, List.length_singleton] at hlength
  omega

theorem exists_longestStrides (hp : p.Advances) (c : Cursor) :
    ∃ values stop, LongestStrides p c values stop := by
  induction hn : c.remaining using Nat.strongRecOn generalizing c with
  | ind n ih =>
    subst hn
    by_cases hstride : ∃ r c', p.Returns c r c' ∧ r.success = true ∧ c.position < c'.position
    · obtain ⟨r, c', hr, hsuccess, hless⟩ := hstride
      have hleft := hp.remaining_lt hr hsuccess (Int.ne_of_gt hless)
      obtain ⟨values, stop, hlongest⟩ := ih _ hleft c' rfl
      exact ⟨_, stop, (Strides.more hr hsuccess hless hlongest.strides).longestStrides
        fun _ _ => hlongest.not_less⟩
    · exact ⟨[], c, (Strides.none c).longestStrides fun r c' hr hsuccess hless =>
        hstride ⟨r, c', hr, hsuccess, hless⟩⟩

/-! ## The loop -/

section Loop

variable {repetition : Repetition} {rounds : Nat} {trace : List Record} {fault : Fault}

theorem run_collect_of_stride (h : p.run c = ⟨.ok r, c', trace⟩) (hsuccess : r.success = true)
    (hmoved : c'.position ≠ c.position) :
    (collect repetition p (rounds + 1)).run c =
      (((collect repetition p rounds).run c').andThen fun rest => pure (r.value :: rest)).after
        trace := by
  simp only [collect, run_bind, run_look, h, Outcome.andThen_ok, Outcome.after_nil, hsuccess, if_true,
    hmoved, if_false]

theorem run_collect_of_failure (h : p.run c = ⟨.ok r, c', trace⟩) (hfailure : r.success = false) :
    (collect repetition p (rounds + 1)).run c = ⟨.ok [], c', trace⟩ := by
  simp [collect, h, hfailure]

theorem run_collect_of_stay (h : p.run c = ⟨.ok r, c', trace⟩) (hsuccess : r.success = true)
    (hstay : c'.position = c.position) :
    (collect repetition p (rounds + 1)).run c =
      ⟨.error (.grammar (.notConsuming repetition)), c', trace⟩ := by
  simp [collect, h, hsuccess, hstay]

theorem run_collect_of_fault (h : p.run c = ⟨.error fault, c', trace⟩) :
    (collect repetition p (rounds + 1)).run c = ⟨.error fault, c', trace⟩ := by
  simp [collect, h]

/-- The loop follows a row of strides, one round for each. -/
theorem run_collect_of_strides (repetition : Repetition) (rounds : Nat)
    (h : Strides p c values stop) : ∃ trace, (collect repetition p (values.length + rounds)).run c =
      (((collect repetition p rounds).run stop).andThen fun rest => pure (values ++ rest)).after
        trace := by
  induction h with
  | none c =>
    refine ⟨[], ?_⟩
    rw [List.length_nil, Nat.zero_add, Outcome.after_nil]
    rcases (collect repetition p rounds).run c with ⟨_ | _, _, _⟩ <;> simp
  | @more c c' stop r values hr hsuccess hless _ ih =>
    obtain ⟨trace, hrun⟩ := hr.exists_run
    obtain ⟨trace', hrest⟩ := ih
    refine ⟨trace ++ trace', ?_⟩
    rw [List.length_cons, Nat.add_right_comm, run_collect_of_stride hrun hsuccess
      (Int.ne_of_gt hless), hrest]
    rcases (collect repetition p rounds).run stop with ⟨_ | _, _, _⟩ <;> simp

end Loop

/-! ## How a repetition ends -/

section Ends

variable {repetition : Repetition} {rounds : Nat} {fault : Fault}

/-- With a round to spare, the loop comes to the end of the row and runs its body there. -/
theorem exists_run_collect (repetition : Repetition) (h : Strides p c values stop)
    (hrounds : values.length < rounds) :
    ∃ k trace, (collect repetition p rounds).run c =
      (((collect repetition p (k + 1)).run stop).andThen fun rest => pure (values ++ rest)).after
        trace := by
  obtain ⟨k, rfl⟩ := Nat.exists_eq_add_of_lt hrounds
  exact ⟨k, run_collect_of_strides repetition (k + 1) h⟩

theorem collect_of_failure (h : Strides p c values stop) (hrounds : values.length < rounds)
    (hr : p.Returns stop r c') (hfailure : r.success = false) :
    (collect repetition p rounds).Returns c values c' := by
  obtain ⟨trace, hrun⟩ := hr.exists_run
  obtain ⟨k, trace', hloop⟩ := exists_run_collect repetition h hrounds
  rw [Returns, hloop, run_collect_of_failure hrun hfailure]
  simp

theorem exit_collect_of_stay (h : Strides p c values stop) (hrounds : values.length < rounds)
    (hr : p.Returns stop r c') (hsuccess : r.success = true) (hstay : c'.position = stop.position) :
    ((collect repetition p rounds).run c).exit = .error (.grammar (.notConsuming repetition)) := by
  obtain ⟨trace, hrun⟩ := hr.exists_run
  obtain ⟨k, trace', hloop⟩ := exists_run_collect repetition h hrounds
  rw [hloop, run_collect_of_stay hrun hsuccess hstay]
  rfl

theorem exit_collect_of_fault (h : Strides p c values stop) (hrounds : values.length < rounds)
    (hfault : (p.run stop).exit = .error fault) :
    ((collect repetition p rounds).run c).exit = .error fault := by
  obtain ⟨c', trace, hrun⟩ := exists_run_of_fault hfault
  obtain ⟨k, trace', hloop⟩ := exists_run_collect repetition h hrounds
  rw [hloop, run_collect_of_fault hrun]
  rfl

theorem many_of_failure (h : Strides p c values stop) (hrounds : values.length < rounds)
    (hr : p.Returns stop r c') (hfailure : r.success = false) :
    (p.many rounds).Returns c ⟨true, .list values, c'.position⟩ c' :=
  returns_bind.mpr ⟨values, c', collect_of_failure h hrounds hr hfailure,
    returns_succeed.mpr ⟨rfl, rfl⟩⟩

theorem manyChars_of_failure (h : Strides p c values stop) (hrounds : values.length < rounds)
    (hr : p.Returns stop r c') (hfailure : r.success = false) {codes : List CodePoint}
    (hcodes : List.Forall₂ Value.HasCode values codes) :
    (p.manyChars rounds).Returns c ⟨true, .text codes, c'.position⟩ c' := by
  refine returns_bind.mpr ⟨values, c', collect_of_failure h hrounds hr hfailure, ?_⟩
  rw [joinCodes_of_hasCode hcodes]
  exact returns_bind.mpr ⟨codes, c', returns_lift_ok.mpr ⟨rfl, rfl⟩, returns_succeed.mpr ⟨rfl, rfl⟩⟩

theorem neverFails_many (p : Matcher) (rounds : Nat) : (p.many rounds).NeverFails :=
  neverFails_bind fun values => neverFails_succeed (.list values)

theorem neverFails_manyChars (p : Matcher) (rounds : Nat) : (p.manyChars rounds).NeverFails :=
  neverFails_bind fun _ => neverFails_bind fun codes => neverFails_succeed (.text codes)

end Ends
end Matcher

/-! ## Parsers -/

namespace Parser

open Parlance.Matcher

variable {fs : Forwards} {p : Parser} {c : Cursor}

/-- Under every budget a success leaves the text, and ends between its start and the end of
the text. -/
def Advances (fs : Forwards) (p : Parser) : Prop := ∀ budget, (p.meaning fs budget).Advances

/-- Parsers without hand-written parts lead onward. -/
theorem advances_of_isComposed
    (hfs : ∀ id body, fs.target? id = some body → body.isComposed = true)
    (hp : p.isComposed = true) : p.Advances fs := by
  intro budget c r c' hr _
  have hreach : c.Reaches c' := hr.2 ▸ reaches_run_of_isComposed hfs hp budget c
  exact ⟨hreach.text_eq, hreach.lower, hreach.upper⟩

/-- A round of a repetition that moves leaves less of the text: a failure does not move. -/
theorem remaining_lt_of_moved (hsafe : p.Safe fs) (hp : p.Advances fs) {b : Budget} {r : Reply}
    {c' : Cursor} (hr : (p.meaning fs b).Returns c r c') (hmoved : c'.position ≠ c.position) :
    c'.remaining < c.remaining := by
  cases hsuccess : r.success with
  | true => exact (hp b).remaining_lt hr hsuccess hmoved
  | false =>
    have hmark : c'.mark = c.mark := safe_iff.mp hsafe b.rounds b.depth c r c' hr hsuccess
    exact absurd (congrArg Mark.position hmark) hmoved

/-- What the two repetitions of `p` do from `c`, where `stop` is the end of the longest row
of strides: the body fails there, or succeeds in the same place, or ends in a fault. -/
structure Repeats (fs : Forwards) (p : Parser) (budget : Budget) (c : Cursor)
    (values : List Value) (stop : Cursor) : Prop where
  fails : ∀ r c', (p.meaning fs budget).Returns stop r c' → r.success = false →
    c'.mark = stop.mark ∧
    (p.many.meaning fs budget).Returns c ⟨true, .list values, stop.position⟩ c' ∧
    ((∀ v ∈ values, v.IsCode) → ∃ codes, List.Forall₂ Value.HasCode values codes ∧
      (p.manyChars.meaning fs budget).Returns c ⟨true, .text codes, stop.position⟩ c')
  stays : ∀ r c', (p.meaning fs budget).Returns stop r c' → r.success = true →
    c'.position = stop.position ∧
    (p.many.run fs budget c).exit = .error (.grammar (.notConsuming .many)) ∧
    (p.manyChars.run fs budget c).exit = .error (.grammar (.notConsuming .manyChars))
  raises : ∀ fault, (p.run fs budget stop).exit = .error fault →
    (p.many.run fs budget c).exit = .error fault ∧
    (p.manyChars.run fs budget c).exit = .error fault

theorem repeats (hsafe : p.Safe fs) (hp : p.Advances fs) {budget : Budget}
    (hrounds : c.remaining < budget.rounds) {values : List Value} {stop : Cursor}
    (h : LongestStrides (p.meaning fs budget) c values stop) : Repeats fs p budget c values stop := by
  have henough : values.length < budget.rounds :=
    Nat.lt_of_le_of_lt (h.strides.length_le (hp budget)) hrounds
  refine ⟨fun r c' hr hfailure => ?_, fun r c' hr hsuccess => ?_, fun fault hfault => ?_⟩
  · have hmark : c'.mark = stop.mark :=
      safe_iff.mp hsafe budget.rounds budget.depth stop r c' hr hfailure
    have hposition : c'.position = stop.position := congrArg Mark.position hmark
    rw [← hposition]
    refine ⟨hmark, many_of_failure h.strides henough hr hfailure, fun hvalues => ?_⟩
    obtain ⟨codes, hcodes⟩ := Value.exists_codes hvalues
    exact ⟨codes, hcodes, manyChars_of_failure h.strides henough hr hfailure hcodes⟩
  · have hlower := (hp budget stop r c' hr hsuccess).2.1
    have hstay : c'.position = stop.position := by
      have hnot := h.not_less hr hsuccess
      omega
    exact ⟨hstay, Action.exit_bind_of_fault (exit_collect_of_stay h.strides henough hr hsuccess hstay),
      Action.exit_bind_of_fault (exit_collect_of_stay h.strides henough hr hsuccess hstay)⟩
  · exact ⟨Action.exit_bind_of_fault (exit_collect_of_fault h.strides henough hfault),
      Action.exit_bind_of_fault (exit_collect_of_fault h.strides henough hfault)⟩

/-- A repetition takes the longest row of strides of its body, which is no longer than what
is left of the text, and ends as the body does behind it. It never fails, and ends if its
body does. Parsers without hand-written parts are such bodies. -/
theorem many_takes_longest (fs : Forwards) :
    ((∀ id body, fs.target? id = some body → body.isComposed = true) →
      ∀ p : Parser, p.isComposed = true → p.Safe fs ∧ p.Advances fs) ∧
    ∀ p : Parser, p.Safe fs → p.Advances fs → ∀ c : Cursor,
      (∀ budget, ∃ values stop, LongestStrides (p.meaning fs budget) c values stop ∧
        values.length ≤ c.remaining) ∧
      (∀ budget, c.remaining < budget.rounds → ∀ values stop,
        LongestStrides (p.meaning fs budget) c values stop → Repeats fs p budget c values stop) ∧
      (∀ budget r, (p.many.run fs budget c).exit = .ok r → r.success = true) ∧
      (∀ budget r, (p.manyChars.run fs budget c).exit = .ok r → r.success = true) ∧
      ((∀ c', Settles (p.meaning fs) c') →
        Settles (p.many.meaning fs) c ∧ Settles (p.manyChars.meaning fs) c) := by
  refine ⟨fun hfs p hp => ⟨safe_of_isComposed hfs hp, advances_of_isComposed hfs hp⟩,
    fun p hsafe hp c => ⟨fun budget => ?_, fun budget hrounds values stop => repeats hsafe hp hrounds,
      fun budget r hexit => ?_, fun budget r hexit => ?_, fun hends => ?_⟩⟩
  · obtain ⟨values, stop, hlongest⟩ := exists_longestStrides (hp budget) c
    exact ⟨values, stop, hlongest, hlongest.strides.length_le (hp budget)⟩
  · exact neverFails_many _ budget.rounds c r _ ⟨hexit, rfl⟩
  · exact neverFails_manyChars _ budget.rounds c r _ ⟨hexit, rfl⟩
  · have hnext : ∀ b c r c', True → (p.meaning fs b).Returns c r c' → c'.position ≠ c.position →
        True ∧ c'.remaining < c.remaining :=
      fun b c r c' _ hr hmoved => ⟨trivial, remaining_lt_of_moved hsafe hp hr hmoved⟩
    exact ⟨Settles.many (fun _ => True) (fun c' _ => hends c') hnext trivial,
      Settles.manyChars (fun _ => True) (fun c' _ => hends c') hnext trivial⟩

/-- Digits, each of which leads one level deeper: the two behind the letter are taken, and
the levels are kept. Line ends: behind the first the text is over, where a line ends too, and
that is a fault. -/
theorem many_takes_longest_levels :
    let digit := (satisfy fun code _ => CodePoint.isDigit code).seqLeft indent
    let c : Cursor := ⟨#['a', '1', '2', 'b'], 1, 0⟩
    let stop : Cursor := ⟨#['a', '1', '2', 'b'], 3, 2⟩
    digit.Safe .empty ∧ digit.Advances .empty ∧
      LongestStrides (digit.meaning .empty ⟨0, 4⟩) c [.int 49, .int 50] stop ∧
      (digit.many.meaning .empty ⟨0, 4⟩).Returns c ⟨true, .list [.int 49, .int 50], 3⟩ stop ∧
      (∃ codes, List.Forall₂ Value.HasCode [.int 49, .int 50] codes ∧
        (digit.manyChars.meaning .empty ⟨0, 4⟩).Returns c ⟨true, .text codes, 3⟩ stop) ∧
      LongestStrides (endOfLine.meaning .empty ⟨0, 2⟩) (.ofText "\n") [.null] ⟨#['\n'], 1, 0⟩ ∧
      (endOfLine.many.run .empty ⟨0, 2⟩ (.ofText "\n")).exit =
        .error (.grammar (.notConsuming .many)) := by
  intro digit c stop
  obtain ⟨hbodies, hrepeats⟩ := many_takes_longest .empty
  obtain ⟨hsafe, hadvances⟩ := hbodies nofun digit rfl
  obtain ⟨hsafe', hadvances'⟩ := hbodies nofun endOfLine rfl
  -- no digit follows
  have hfails : (digit.meaning .empty ⟨0, 4⟩).Returns stop ⟨false, .null, 3⟩ stop := ⟨rfl, rfl⟩
  have hdigits : LongestStrides (digit.meaning .empty ⟨0, 4⟩) c [.int 49, .int 50] stop := by
    have hone : (digit.meaning .empty ⟨0, 4⟩).Returns c ⟨true, .int 49, 2⟩
        ⟨#['a', '1', '2', 'b'], 2, 1⟩ := ⟨rfl, rfl⟩
    have htwo : (digit.meaning .empty ⟨0, 4⟩).Returns ⟨#['a', '1', '2', 'b'], 2, 1⟩
        ⟨true, .int 50, 3⟩ stop := ⟨rfl, rfl⟩
    refine Strides.longestStrides
      (.more hone rfl (by decide) (.more htwo rfl (by decide) (.none stop))) ?_
    intro r c' hr hsuccess
    obtain ⟨rfl, rfl⟩ := hfails.unique hr
    cases hsuccess
  -- the end of the text is the end of a line
  have hstays : (endOfLine.meaning .empty ⟨0, 2⟩).Returns ⟨#['\n'], 1, 0⟩ ⟨true, .null, 1⟩
      ⟨#['\n'], 1, 0⟩ := ⟨rfl, rfl⟩
  have hlines : LongestStrides (endOfLine.meaning .empty ⟨0, 2⟩) (.ofText "\n") [.null]
      ⟨#['\n'], 1, 0⟩ := by
    have hone : (endOfLine.meaning .empty ⟨0, 2⟩).Returns (.ofText "\n") ⟨true, .null, 1⟩
        ⟨#['\n'], 1, 0⟩ := ⟨rfl, rfl⟩
    refine Strides.longestStrides (.more hone rfl (by decide) (.none _)) ?_
    intro r c' hr _
    obtain ⟨rfl, rfl⟩ := hstays.unique hr
    decide
  have hdigitRepeats := (hrepeats digit hsafe hadvances c).2.1 ⟨0, 4⟩ (by decide) _ _ hdigits
  have hlineRepeats := (hrepeats endOfLine hsafe' hadvances' (.ofText "\n")).2.1 ⟨0, 2⟩ (by decide)
    _ _ hlines
  obtain ⟨-, hmany, hchars⟩ := hdigitRepeats.fails _ _ hfails rfl
  refine ⟨hsafe, hadvances, hdigits, hmany, hchars ?_, hlines, (hlineRepeats.stays _ _ hstays rfl).2.1⟩
  intro v hv
  rcases List.mem_pair.mp hv with rfl | rfl
  · exact ⟨49, rfl, by decide, by decide⟩
  · exact ⟨50, rfl, by decide, by decide⟩

/-- A surrogate is joined as itself. -/
example : ((anyChar.replace (.int 0xd800)).manyChars.run .empty ⟨0, 2⟩ (.ofText "a")).exit =
    .ok ⟨true, .text [⟨0xd800, by decide⟩], 1⟩ := rfl

end Parser
end Parlance
