import Parlance.Proofs.Termination
import Parlance.Proofs.Recognition
import Parlance.Proofs.Lookahead

/-! # The limit on nesting

What parsing a text with the limit has to do with the run without it. The run without
a limit always ends with a reply; `nestingPeak` is the largest number of expressions in
parentheses that it has open at once, read off its trace under watch. A limit of at
least that much changes nothing, and a lower one makes the text fail at its start.
Parentheses that are opened on trial count although the run goes back on them, those
that it never comes to do not: of what stands behind the place where a partial parse
stops, only an operand looked for behind a sign counts. -/
namespace Parlance.Grammar

open Parlance.Parser (forward)

variable {comparisons requireEnd : Bool} {depth k : Nat} {text : String} {opts : Options}
  {reply : Reply} {e : Expression}

/-! ## The run without a limit -/

/-- The run of the selected parser on a text under watch, with as much budget as it can
use. -/
def freeRun (text : String) (opts : Options) : Outcome Reply :=
  (selected opts).run (builtin.watched "nested") ⟨text.length, text.length + 1⟩ (.ofText text)

/-- The largest number of expressions in parentheses that are open at once in it. -/
def nestingPeak (text : String) (opts : Options) : Nat := (openPeak (freeRun text opts).trace).toNat

theorem madeOf_selected (Name : String → Prop) (opts : Options) :
    (selected opts).MadeOf (fun _ => True) Name (· = builtinId opts.comparisons) := by
  have hexpression : (expression opts.comparisons).MadeOf (fun _ => True) Name
      (· = builtinId opts.comparisons) := by
    rw [expression, top_eq_level]
    exact madeOf_level Name _ _
  unfold selected
  split
  · exact ⟨hexpression, trivial⟩
  · exact hexpression

theorem count_opening_le (text : String) : text.toList.count '(' ≤ text.length := by
  rw [← String.length_toList]
  exact List.count_le_length

theorem exists_free_reply (text : String) (opts : Options) :
    ∃ reply, (attempt text.length text opts).exit = .ok reply := by
  rcases attempt_cases text.length text opts with ⟨hreply, _⟩ | ⟨_, _, hcount⟩
  · exact hreply
  · have hle := count_opening_le text
    omega

/-- The peak is the depth from which on the run ends with its reply. -/
theorem exit_attempt (h : (attempt text.length text opts).exit = .ok reply) (depth : Nat) :
    (attempt depth text opts).exit =
      if nestingPeak text opts ≤ depth then .ok reply else .error .tooDeep :=
  Parser.exit_of_depth (fun Name => (builtin_holds opts.comparisons).closed Name)
    (fun Name => madeOf_selected Name opts) "nested" (Int.le_refl 0) h depth

theorem nestingPeak_le_iff :
    nestingPeak text opts ≤ depth ↔
      ¬ (textReader opts.comparisons depth text).Sinks (.ofText text) := by
  obtain ⟨reply, hfree⟩ := exists_free_reply text opts
  have hexit := exit_attempt hfree depth
  constructor
  · intro hle hsinks
    rw [if_pos hle, exit_of_sinks hsinks] at hexit
    cases hexit
  · intro hsinks
    rcases attempt_cases depth text opts with ⟨⟨reply', hreply'⟩, _⟩ | ⟨_, hsinks', _⟩
    · rw [hreply'] at hexit
      split at hexit
      · assumption
      · cases hexit
    · exact absurd hsinks' hsinks

theorem nestingPeak_le_count : nestingPeak text opts ≤ text.toList.count '(' := by
  rw [nestingPeak_le_iff]
  intro hsinks
  rcases attempt_cases (text.toList.count '(') text opts with ⟨_, hnot⟩ | ⟨_, _, hcount⟩
  · exact hnot hsinks
  · omega

theorem nestingPeak_le_length : nestingPeak text opts ≤ text.length :=
  Nat.le_trans nestingPeak_le_count (count_opening_le text)

/-! ## The place where a partial parse stops -/

/-- Where the run with a success stops, it stops with every depth that is enough, and what
it has taken derives within that depth. -/
theorem exists_derives_of_stop (hfree : (attempt text.length text opts).exit = .ok reply)
    (hsuccess : reply.success = true) {part rest : List Char} (htext : text.toList = part ++ rest)
    (hposition : reply.position = part.length) (depth : Nat)
    (hdepth : nestingPeak text opts ≤ depth) :
    ∃ e, Derives opts.comparisons depth (topLevel opts.comparisons) part e ∧
      (textReader opts.comparisons depth text).Takes (.ofText text) part.length (.expression e) := by
  have hexit := exit_attempt hfree depth
  rw [if_pos hdepth] at hexit
  rcases opts with ⟨comparisons, requireEnd⟩
  cases textReader_ends comparisons depth text with
  | refuses hrefuses =>
    rw [exit_of_refuses hrefuses] at hexit
    cases hexit
    cases hsuccess
  | sinks hsinks _ =>
    rw [exit_of_sinks hsinks] at hexit
    cases hexit
  | @takes taken rest' e htext' hderives htakes =>
    have hlength : taken.length = part.length := by
      cases requireEnd with
      | false =>
        rw [exit_partial_of_takes htakes] at hexit
        cases hexit
        simp only at hposition
        omega
      | true =>
        by_cases hrest : rest' = []
        · rw [hrest, List.append_nil] at htext'
          rw [← htext', String.length_toList] at htakes
          rw [exit_of_takes_whole htakes] at hexit
          cases hexit
          rw [← htext', String.length_toList]
          simp only at hposition
          omega
        · rw [exit_complete_of_takes htext' hrest htakes] at hexit
          cases hexit
          cases hsuccess
    obtain ⟨rfl, _⟩ := List.append_inj (htext'.symm.trans htext) hlength
    exact ⟨e, hderives, htakes⟩

/-- The peak of an expression is the least depth at which it derives. -/
theorem nestingPeak_le_iff_derives {depth' : Nat} {part : String}
    (h : Derives opts.comparisons depth' (topLevel opts.comparisons) part.toList e) :
    nestingPeak part opts ≤ depth ↔
      ∃ f, Derives opts.comparisons depth (topLevel opts.comparisons) part.toList f := by
  constructor
  · intro hdepth
    obtain ⟨reply, hfree⟩ := exists_free_reply part opts
    -- with enough depth the whole is taken, and with this depth the reply is the same
    have hmore : nestingPeak part opts ≤ max depth depth' := by omega
    have hexit := exit_attempt hfree (max depth depth')
    rw [if_pos hmore, exit_of_takes_whole (textReader_takes (h.mono (Nat.le_max_right _ _)))] at hexit
    cases hexit
    have hwhole : part.toList = part.toList ++ [] := (List.append_nil _).symm
    obtain ⟨f, hderives, _⟩ := exists_derives_of_stop hfree rfl hwhole
      (by rw [String.length_toList]) depth hdepth
    exact ⟨f, hderives⟩
  · rintro ⟨f, hf⟩
    exact nestingPeak_le_iff.mpr (textReader_takes hf).not_sinks

/-- Where no sign follows, nothing that follows counts. -/
theorem nestingPeak_eq_of_no_sign (hfree : (attempt text.length text opts).exit = .ok reply)
    (hsuccess : reply.success = true) {part : String} {rest : List Char}
    (htext : text.toList = part.toList ++ rest) (hposition : reply.position = part.toList.length)
    (hsigns : ∀ j < topLevel opts.comparisons, ∀ s ∈ signs j, ¬ s.1 <+: rest) :
    nestingPeak text opts = nestingPeak part opts := by
  have hstop := exists_derives_of_stop hfree hsuccess htext hposition
  have hfaces := Cursor.faces_ofText text
  have hrounds := length_lt_rounds text
  rw [htext] at hfaces hrounds
  obtain ⟨e, hpart, htakes⟩ := hstop text.length nestingPeak_le_length
  have hapart : Apart part.toList rest :=
    hpart.apart_of_takes (builtin_holds opts.comparisons) hfaces hrounds htakes
  have hiff : ∀ depth, nestingPeak text opts ≤ depth ↔ nestingPeak part opts ≤ depth := by
    intro depth
    rw [nestingPeak_le_iff_derives hpart]
    constructor
    · intro hdepth
      obtain ⟨f, hderives, _⟩ := hstop depth hdepth
      exact ⟨f, hderives⟩
    · rintro ⟨f, hderives⟩
      obtain ⟨_, _, htakes'⟩ := hderives.takes_apart (builtin_holds opts.comparisons) hapart hsigns
        hfaces hrounds
      exact nestingPeak_le_iff.mpr htakes'.not_sinks
  exact Nat.le_antisymm ((hiff _).mpr (Nat.le_refl _)) ((hiff _).mp (Nat.le_refl _))

/-- The largest number of expressions in parentheses that are open at once in the look
for a phrase of level `k` from a place of a text. -/
def lookPeak (comparisons : Bool) (text : String) (k place : Nat) : Nat :=
  (openPeak ((level (forward (builtinId comparisons)) k).run (builtin.watched "nested")
    ⟨text.length, text.length + 1⟩ ((Cursor.ofText text).forward place)).trace).toNat

/-- A look for a phrase that finds none even without a limit refuses with the depth that
it needs, and with less it sinks. -/
theorem lookPeak_cases {place : Nat} {ahead : List Char}
    (hfaces : ((Cursor.ofText text).forward place).Faces ahead) (hlength : ahead.length ≤ text.length)
    (hnone : ∀ n v, ¬ (reader builtin (builtinId comparisons) (text.length + 1) text.length k).Takes
      ((Cursor.ofText text).forward place) n v) (depth : Nat) :
    (lookPeak comparisons text k place ≤ depth ∧
      (reader builtin (builtinId comparisons) (text.length + 1) depth k).Refuses
        ((Cursor.ofText text).forward place)) ∨
    (depth < lookPeak comparisons text k place ∧
      (reader builtin (builtinId comparisons) (text.length + 1) depth k).Sinks
        ((Cursor.ofText text).forward place)) := by
  have hends := fun depth => reader_ends (builtin_holds comparisons) depth k _ ahead hfaces
    (Nat.lt_succ_of_le hlength)
  obtain ⟨reply, hreply⟩ := reader_replies (builtin_holds comparisons) k hfaces hlength
    (Nat.lt_succ_of_le hlength)
  have hfailure : reply.success = false := by
    cases hends text.length with
    | takes taken rest _ _ htakes => exact absurd htakes (hnone _ _)
    | refuses hrefuses =>
      rw [hrefuses.run_eq] at hreply
      cases hreply
      rfl
    | sinks hsinks _ =>
      obtain ⟨c', hrun⟩ := hsinks
      rw [hrun] at hreply
      cases hreply
  have hexit : ((reader builtin (builtinId comparisons) (text.length + 1) depth k).run
      ((Cursor.ofText text).forward place)).exit =
        if lookPeak comparisons text k place ≤ depth then .ok reply else .error .tooDeep :=
    Parser.exit_of_depth (fun Name => (builtin_holds comparisons).closed Name)
      (fun Name => madeOf_level Name (builtinId comparisons) k) "nested" hfaces.inside hreply depth
  cases hends depth with
  | takes taken rest _ _ htakes =>
    rw [htakes.run_eq] at hexit
    split at hexit
    · cases hexit
      cases hfailure
    · cases hexit
  | refuses hrefuses =>
    refine Or.inl ⟨?_, hrefuses⟩
    rw [hrefuses.run_eq] at hexit
    split at hexit
    · assumption
    · cases hexit
  | sinks hsinks _ =>
    refine Or.inr ⟨?_, hsinks⟩
    obtain ⟨c', hrun⟩ := hsinks
    rw [hrun] at hexit
    split at hexit
    · cases hexit
    · omega

/-- A look opens nothing unless it stands before a parenthesis: before a word it would
find a phrase. -/
theorem lookPeak_eq_zero {place : Nat} {ahead : List Char}
    (hfaces : ((Cursor.ofText text).forward place).Faces ahead) (hlength : ahead.length ≤ text.length)
    (hnone : ∀ n v, ¬ (reader builtin (builtinId comparisons) (text.length + 1) text.length k).Takes
      ((Cursor.ofText text).forward place) n v) (hopening : ahead.head? ≠ some '(') :
    lookPeak comparisons text k place = 0 := by
  have hstart : ∀ d, ahead.head? = some d → isStart d = false := by
    intro d hd
    rw [← Bool.not_eq_true]
    intro hstart
    have hword : ∃ holds ∈ wordClasses, holds d.toNat = true := by
      simp only [isStart, Bool.or_eq_true, decide_eq_true_eq] at hstart
      rcases hstart with (hdigit | hletter) | rfl
      · exact ⟨CodePoint.isDigit, by simp [wordClasses], hdigit⟩
      · exact ⟨CodePoint.isLetter, by simp [wordClasses], hletter⟩
      · exact absurd hd hopening
    obtain ⟨holds, hclass, hholds⟩ := hword
    obtain ⟨tail, rfl⟩ : ∃ tail, ahead = d :: tail := List.head?_eq_some_iff.mp hd
    rcases reader_readsOn_word (builtin_holds comparisons) hclass hholds hfaces
        (Nat.lt_succ_of_le hlength) k with ⟨n, v, _, htakes⟩ | hsinks
    · exact hnone n v htakes
    · obtain ⟨reply, hreply⟩ := reader_replies (builtin_holds comparisons) k hfaces hlength
        (Nat.lt_succ_of_le hlength)
      obtain ⟨c', hrun⟩ := hsinks
      rw [hrun] at hreply
      cases hreply
  rcases lookPeak_cases hfaces hlength hnone 0 with ⟨hle, _⟩ | ⟨_, hsinks⟩
  · omega
  · exact absurd hsinks (reader_refuses hfaces hstart k).not_sinks

section Dangling

variable {part : String} {blanks operand : List Char} {s : List Char × Operator}

/-- Behind a sign where the run stops, there is no operand even without a limit. -/
theorem no_operand_of_stop (hfree : (attempt text.length text opts).exit = .ok reply)
    (hsuccess : reply.success = true)
    (htext : text.toList = part.toList ++ (s.1 ++ (blanks ++ operand)))
    (hposition : reply.position = part.toList.length) (hk : k < topLevel opts.comparisons)
    (hs : s ∈ signs k) (hblanks : ∀ d ∈ blanks, isSpace d = true)
    (hstop : ∀ d, operand.head? = some d → isSpace d = false) :
    ∀ n v, ¬ (reader builtin (builtinId opts.comparisons) (text.length + 1) text.length k).Takes
      ((Cursor.ofText text).forward (part.toList.length + (s.1 ++ blanks).length)) n v := by
  intro n v hoperand
  have hfaces := Cursor.faces_ofText text
  have hrounds := length_lt_rounds text
  rw [htext] at hfaces hrounds
  obtain ⟨e, hpart, htakes⟩ := exists_derives_of_stop hfree hsuccess htext hposition text.length
    nestingPeak_le_length
  have hdangles := hpart.dangling (builtin_holds opts.comparisons) hk hs hblanks hstop hfaces hrounds
  rcases hdangles.taken n v hoperand with ⟨m, w, hm, htakes'⟩ | hsinks
  · rw [(htakes'.unique htakes).1] at hm
    omega
  · exact htakes.not_sinks hsinks

theorem faces_operand (htext : text.toList = part.toList ++ (s.1 ++ (blanks ++ operand))) :
    ((Cursor.ofText text).forward (part.toList.length + (s.1 ++ blanks).length)).Faces operand ∧
      operand.length ≤ text.length := by
  have hfaces := Cursor.faces_ofText text
  have hlength := String.length_toList (s := text)
  rw [htext] at hfaces hlength
  rw [← List.append_assoc s.1] at hfaces
  constructor
  · rw [← Cursor.forward_forward]
    exact hfaces.forward.forward
  · simp only [List.length_append] at hlength
    omega

/-- Where a sign follows, the operand that is looked for behind it counts too. -/
theorem nestingPeak_eq_of_dangling (hfree : (attempt text.length text opts).exit = .ok reply)
    (hsuccess : reply.success = true)
    (htext : text.toList = part.toList ++ (s.1 ++ (blanks ++ operand)))
    (hposition : reply.position = part.toList.length) (hk : k < topLevel opts.comparisons)
    (hs : s ∈ signs k) (hblanks : ∀ d ∈ blanks, isSpace d = true)
    (hstop : ∀ d, operand.head? = some d → isSpace d = false) :
    nestingPeak text opts = max (nestingPeak part opts)
      (lookPeak opts.comparisons text k (part.toList.length + (s.1 ++ blanks).length)) := by
  have hderives := exists_derives_of_stop hfree hsuccess htext hposition
  obtain ⟨hplace, hlength⟩ := faces_operand htext
  have hlook := lookPeak_cases hplace hlength
    (no_operand_of_stop hfree hsuccess htext hposition hk hs hblanks hstop)
  have hfaces := Cursor.faces_ofText text
  have hrounds := length_lt_rounds text
  rw [htext] at hfaces hrounds
  obtain ⟨e, hpart, _⟩ := hderives text.length nestingPeak_le_length
  have hiff : ∀ depth, nestingPeak text opts ≤ depth ↔ nestingPeak part opts ≤ depth ∧
      lookPeak opts.comparisons text k (part.toList.length + (s.1 ++ blanks).length) ≤ depth := by
    intro depth
    rw [nestingPeak_le_iff_derives hpart]
    constructor
    · intro hdepth
      obtain ⟨f, hf, htakes⟩ := hderives depth hdepth
      refine ⟨⟨f, hf⟩, ?_⟩
      rcases hlook depth with ⟨hle, _⟩ | ⟨_, hsinks⟩
      · exact hle
      · have hdangles := hf.dangling (builtin_holds opts.comparisons) hk hs hblanks hstop hfaces
          hrounds
        exact absurd (hdangles.sunk hsinks) htakes.not_sinks
    · rintro ⟨⟨f, hf⟩, hle⟩
      rcases hlook depth with ⟨_, hrefuses⟩ | ⟨hlt, _⟩
      · have hdangles := hf.dangling (builtin_holds opts.comparisons) hk hs hblanks hstop hfaces
          hrounds
        obtain ⟨v, htakes⟩ := hdangles.refused hrefuses
        exact nestingPeak_le_iff.mpr htakes.not_sinks
      · omega
  apply Nat.le_antisymm
  · exact (hiff _).mpr ⟨Nat.le_max_left _ _, Nat.le_max_right _ _⟩
  · obtain ⟨hleft, hright⟩ := (hiff _).mp (Nat.le_refl _)
    exact Nat.max_le.mpr ⟨hleft, hright⟩

end Dangling

/-- Nothing that follows counts, unless it begins with a sign and a parenthesis. -/
theorem nestingPeak_eq_of_stop (hfree : (attempt text.length text opts).exit = .ok reply)
    (hsuccess : reply.success = true) {part : String} {rest : List Char}
    (htext : text.toList = part.toList ++ rest) (hposition : reply.position = part.toList.length)
    (hopening : ∀ j < topLevel opts.comparisons, ∀ s ∈ signs j, ∀ blanks : List Char,
      (∀ d ∈ blanks, isSpace d = true) → ¬ s.1 ++ (blanks ++ ['(']) <+: rest) :
    nestingPeak text opts = nestingPeak part opts := by
  by_cases hsign : ∃ j < topLevel opts.comparisons, ∃ s ∈ signs j, s.1 <+: rest
  · obtain ⟨j, hj, s, hs, behind, rfl⟩ := hsign
    obtain ⟨blanks, operand, rfl, hblanks, hstop⟩ : ∃ blanks operand, behind = blanks ++ operand ∧
        (∀ d ∈ blanks, isSpace d = true) ∧ ∀ d, operand.head? = some d → isSpace d = false :=
      ⟨behind.takeWhile isSpace, behind.dropWhile isSpace, List.takeWhile_append_dropWhile.symm,
        List.all_eq_true.mp List.all_takeWhile, head?_dropWhile_eq_false behind⟩
    have hnot : operand.head? ≠ some '(' := by
      intro hhead
      obtain ⟨tail, rfl⟩ : ∃ tail, operand = '(' :: tail := List.head?_eq_some_iff.mp hhead
      exact hopening j hj s hs blanks hblanks ⟨tail, by simp⟩
    obtain ⟨hplace, hlength⟩ := faces_operand htext
    rw [nestingPeak_eq_of_dangling hfree hsuccess htext hposition hj hs hblanks hstop,
      lookPeak_eq_zero hplace hlength
        (no_operand_of_stop hfree hsuccess htext hposition hj hs hblanks hstop) hnot,
      Nat.max_zero]
  · refine nestingPeak_eq_of_no_sign hfree hsuccess htext hposition fun j hj s hs hprefix => ?_
    exact hsign ⟨j, hj, s, hs, hprefix⟩

/-! ## Parsing with the limit -/

/-- How parsing a text relates to the reply of the run without a limit. -/
structure Limited (text : String) (opts : Options) (reply : Reply) : Prop where
  -- the run without a limit, which no larger budget changes
  free : ∀ budget : Budget, text.length ≤ budget.depth → text.length < budget.rounds →
    ((selected opts).run builtin budget (.ofText text)).exit = .ok reply ∧
    (selected opts).run (builtin.watched "nested") budget (.ofText text) = freeRun text opts
  watched : (freeRun text opts).exit = .ok reply
  -- with a limit it is that run or fails, and raises nothing
  attempts : ∀ depth, (attempt depth text opts).exit =
    if nestingPeak text opts ≤ depth then .ok reply else .error .tooDeep
  replied : replyOrFault text opts = .ok (parse text opts)
  parsed : parse text opts = reply ∨ parse text opts = ⟨false, .null, 0⟩
  shallow : nestingPeak text opts ≤ 450 → parse text opts = reply
  deep : 1200 ≤ nestingPeak text opts → parse text opts = ⟨false, .null, 0⟩
  -- what counts, and what does not
  counted : nestingPeak text opts ≤ text.toList.count '('
  few : text.toList.count '(' ≤ 450 → parse text opts = reply
  -- behind the place where a partial parse stops nothing counts, unless it stands before
  -- a sign and a parenthesis; then what counts is the operand that it has looked for
  stopped : reply.success = true → ∀ (part : String) (rest : List Char),
    text.toList = part.toList ++ rest → reply.position = part.length →
      (∀ k < topLevel opts.comparisons, ∀ s ∈ signs k, ∀ blanks : List Char,
        (∀ d ∈ blanks, isSpace d = true) → ¬ s.1 ++ (blanks ++ ['(']) <+: rest) →
          nestingPeak text opts = nestingPeak part opts
  dangling : reply.success = true → ∀ (part : String) (blanks operand : List Char),
    ∀ k < topLevel opts.comparisons, ∀ s ∈ signs k,
      text.toList = part.toList ++ (s.1 ++ (blanks ++ operand)) → reply.position = part.length →
        (∀ d ∈ blanks, isSpace d = true) → (∀ d, operand.head? = some d → isSpace d = false) →
          nestingPeak text opts = max (nestingPeak part opts)
            (lookPeak opts.comparisons text k (part.length + (s.1 ++ blanks).length))

theorem parse_of_nestingPeak (hfree : (attempt text.length text opts).exit = .ok reply) :
    parse text opts =
      if nestingPeak text opts ≤ nestingLimit opts.comparisons then reply else rejected := by
  have hexit := exit_attempt hfree (nestingLimit opts.comparisons)
  split
  · next hle =>
    rw [if_pos hle] at hexit
    exact parse_of_exit hexit
  · next hle =>
    rw [if_neg hle] at hexit
    exact parse_of_tooDeep hexit

theorem exit_freeRun (hfree : (attempt text.length text opts).exit = .ok reply) :
    (freeRun text opts).exit = .ok reply :=
  (Parser.run_watched_of_ok ((builtin_holds opts.comparisons).closed _) (madeOf_selected _ opts)
    "nested" (Nat.le_refl _) (Int.le_refl 0) hfree).1

/-- A larger budget changes neither the run nor what is seen of it. -/
theorem run_selected_of_budget (hfree : (attempt text.length text opts).exit = .ok reply)
    {budget : Budget} (hdepth : text.length ≤ budget.depth) (hrounds : text.length < budget.rounds) :
    ((selected opts).run builtin budget (.ofText text)).exit = .ok reply ∧
      (selected opts).run (builtin.watched "nested") budget (.ofText text) = freeRun text opts := by
  have hsame : (selected opts).run builtin budget (.ofText text) = attempt text.length text opts :=
    Parser.run_eq_of_not_exhausted hdepth hrounds (Outcome.not_exhausted_of_ok hfree)
  refine ⟨by rw [hsame, hfree], ?_⟩
  exact Parser.run_eq_of_not_exhausted hdepth hrounds
    (Outcome.not_exhausted_of_ok (exit_freeRun hfree))

/-- Parsing departs from the run without a limit only where more expressions in
parentheses are open at once than the limit allows, and then fails at the start of the
text. -/
theorem parse_departs_only_by_nesting (text : String) (opts : Options) :
    ∃ reply, Limited text opts reply := by
  obtain ⟨reply, hfree⟩ := exists_free_reply text opts
  have hparse := parse_of_nestingPeak hfree
  have hcount : nestingPeak text opts ≤ text.toList.count '(' := nestingPeak_le_count
  obtain ⟨hleast, hmost⟩ := nestingLimit_bounds opts.comparisons
  refine ⟨reply, ?_⟩
  exact {
    free := fun _ hdepth hrounds => run_selected_of_budget hfree hdepth hrounds
    watched := exit_freeRun hfree
    attempts := exit_attempt hfree
    replied := replyOrFault_eq_ok text opts
    parsed := by
      rw [hparse]
      split
      · exact Or.inl rfl
      · exact Or.inr rfl
    shallow := fun hle => by rw [hparse, if_pos (by omega)]
    deep := fun hle => by rw [hparse, if_neg (by omega)]; rfl
    counted := hcount
    few := fun hle => by rw [hparse, if_pos (by omega)]
    stopped := fun hsuccess part rest htext hposition hopening =>
      nestingPeak_eq_of_stop hfree hsuccess htext (by rwa [String.length_toList]) hopening
    dangling := fun hsuccess part blanks operand k hk s hs htext hposition hblanks hstop => by
      rw [← String.length_toList] at hposition ⊢
      exact nestingPeak_eq_of_dangling hfree hsuccess htext hposition hk hs hblanks hstop }

end Parlance.Grammar
