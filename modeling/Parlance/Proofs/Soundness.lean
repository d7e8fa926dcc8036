import Parlance.Proofs.Token

/-! # What the parser takes is a phrase

The parser of expressions is a parser of terms and a chain for each level above. A
run of it ends in one of three ways (`Ends`): it takes a phrase of `Derives`, or
refuses, or sinks, and it sinks only if more parentheses lie ahead than may be open.
No other end is possible, so a run raises no fault but that one. The proof goes
through the loop of a chain pair by pair, then through the levels, then through the
nesting. -/
namespace Parlance.Grammar

open Parlance.Parser (forward)

/-! ## Levels of the parser -/

/-- The parser of a level, with `nested` between parentheses. -/
def level (nested : Parser) : Nat → Parser
  | 0 => term nested
  | k + 1 => layer (level nested k) (joiner k)

theorem top_eq_level (comparisons : Bool) (nested : Parser) :
    top comparisons nested = level nested (topLevel comparisons) := by
  cases comparisons <;> rfl

/-- The matcher of a level when `depth` more forwards may be opened. -/
def reader (fs : Forwards) (id rounds depth k : Nat) : Matcher :=
  (level (forward id) k).matcher rounds (fs.call rounds depth)

/-- The table holds the grammar under this number: its forward is defined as an
expression whose parentheses hold that forward. -/
def Holds (fs : Forwards) (id : Nat) (comparisons : Bool) : Prop :=
  fs.target? id = some (top comparisons (forward id))

theorem builtin_holds (comparisons : Bool) :
    Holds builtin (builtinId comparisons) comparisons := by
  cases comparisons <;> rfl

def fold (left op right : Value) : Except Fault Value := .ok (Value.combine left op right)

/-- The loop of a chain of level `k + 1`, at the end `c` of a complete phrase with the
tree `e`, with `left` rounds left. -/
def loop (fs : Forwards) (id rounds depth k left : Nat) (e : Expression) (c : Cursor) : Matcher :=
  (reader fs id rounds depth k).chainFrom ((joiner k).matcher rounds (fs.call rounds depth))
    fold left (.expression e) c.mark

section Levels

variable {fs : Forwards} {id rounds depth k : Nat} {comparisons : Bool} {c : Cursor}

theorem run_reader_succ {n : Nat} {e : Expression}
    (h : (reader fs id rounds depth k).Takes c n (.expression e)) :
    (reader fs id rounds depth (k + 1)).run c =
      (loop fs id rounds depth k rounds e (c.forward n)).run (c.forward n) :=
  Matcher.run_chainl h

/-- One round of the loop: a sign and an operand behind it. -/
theorem run_loop_succ {left n m : Nat} {e f : Expression} {op : Operator}
    (hsign : ((joiner k).matcher rounds (fs.call rounds depth)).Takes c n (.operator op))
    (hoperand : (reader fs id rounds depth k).Takes (c.forward n) m (.expression f)) :
    (loop fs id rounds depth k (left + 1) e c).run c =
      (loop fs id rounds depth k left (.binary op e f) (c.forward (n + m))).run
        (c.forward (n + m)) :=
  Matcher.run_chainFrom_of_pair hsign hoperand rfl

/-- With no forward left to open, the inner expression sinks. -/
theorem sinks_forward_zero (hfs : Holds fs id comparisons) :
    ((forward id).matcher rounds (fs.call rounds 0)).Sinks c := by
  rw [Parser.matcher, Forwards.call_zero hfs]
  exact ⟨c, rfl⟩

theorem forward_succ (hfs : Holds fs id comparisons) :
    (forward id).matcher rounds (fs.call rounds (depth + 1)) =
      reader fs id rounds depth (topLevel comparisons) := by
  rw [Parser.matcher, Forwards.call_succ hfs, reader, ← top_eq_level]

/-- A term is a number, else an identifier, else an expression in parentheses. -/
theorem reader_zero : reader fs id rounds depth 0 =
    (number.matcher rounds (fs.call rounds depth)).orElse
      ((identifier.matcher rounds (fs.call rounds depth)).orElse
        (((parenthesized (forward id)).matcher rounds (fs.call rounds depth)).orElse
          Matcher.fail)) := rfl

/-! ## Terms -/

variable {ahead taken : List Char} {n : Nat} {v : Value}

theorem term_takes_number (h : c.Faces (taken ++ ahead)) (hne : taken ≠ [])
    (htaken : ∀ d ∈ taken, CodePoint.isDigit d.toNat = true)
    (hstop : ∀ d, ahead.head? = some d → CodePoint.isDigit d.toNat = false) :
    (reader fs id rounds depth 0).Takes c (taken ++ ahead.takeWhile isSpace).length
      (.expression (.number (Double.ofDigits taken))) := by
  rw [reader_zero]
  exact Matcher.takes_orElse (takes_number h hne htaken hstop)

theorem isDigit_eq_false_of_isLetter {code : Nat} (h : CodePoint.isLetter code = true) :
    CodePoint.isDigit code = false := by
  simp only [CodePoint.isLetter, Bool.or_eq_true, Bool.and_eq_true, decide_eq_true_eq] at h
  simp only [CodePoint.isDigit, Bool.and_eq_false_iff, decide_eq_false_iff_not]
  omega

theorem term_takes_identifier (h : c.Faces (taken ++ ahead)) (hne : taken ≠ [])
    (htaken : ∀ d ∈ taken, CodePoint.isLetter d.toNat = true)
    (hstop : ∀ d, ahead.head? = some d → CodePoint.isLetter d.toNat = false) :
    (reader fs id rounds depth 0).Takes c (taken ++ ahead.takeWhile isSpace).length
      (.expression (.identifier (String.ofList taken))) := by
  have hnumber : (number.matcher rounds (fs.call rounds depth)).Refuses c := by
    apply refuses_number h
    obtain ⟨d, tail, rfl⟩ := List.exists_cons_of_ne_nil hne
    intro d' hd'
    cases hd'
    exact isDigit_eq_false_of_isLetter (htaken d (by simp))
  rw [reader_zero]
  exact Matcher.takes_orElse_of_right hnumber
    (Matcher.takes_orElse (takes_identifier h hne htaken hstop))

/-- Before a parenthesis the words refuse, so that the term is what stands in it. -/
theorem words_refuse (h : c.Faces ('(' :: ahead)) :
    (number.matcher rounds (fs.call rounds depth)).Refuses c ∧
      (identifier.matcher rounds (fs.call rounds depth)).Refuses c :=
  ⟨refuses_number h fun d hd => by cases hd; rfl,
    refuses_identifier h fun d hd => by cases hd; rfl⟩

theorem term_takes_parenthesized (h : c.Faces ('(' :: ahead))
    (hp : ((parenthesized (forward id)).matcher rounds (fs.call rounds depth)).Takes c n v) :
    (reader fs id rounds depth 0).Takes c n v := by
  obtain ⟨hnumber, hidentifier⟩ := words_refuse h
  rw [reader_zero]
  exact Matcher.takes_orElse_of_right hnumber
    (Matcher.takes_orElse_of_right hidentifier (Matcher.takes_orElse hp))

theorem term_refuses_parenthesized (h : c.Faces ('(' :: ahead))
    (hp : ((parenthesized (forward id)).matcher rounds (fs.call rounds depth)).Refuses c) :
    (reader fs id rounds depth 0).Refuses c := by
  obtain ⟨hnumber, hidentifier⟩ := words_refuse h
  rw [reader_zero]
  exact Matcher.refuses_orElse hnumber
    (Matcher.refuses_orElse hidentifier (Matcher.refuses_orElse hp (Matcher.run_fail c)))

theorem term_sinks_parenthesized (h : c.Faces ('(' :: ahead))
    (hp : ((parenthesized (forward id)).matcher rounds (fs.call rounds depth)).Sinks c) :
    (reader fs id rounds depth 0).Sinks c := by
  obtain ⟨hnumber, hidentifier⟩ := words_refuse h
  rw [reader_zero]
  exact Matcher.sinks_orElse_of_right hnumber
    (Matcher.sinks_orElse_of_right hidentifier (Matcher.sinks_orElse hp))

theorem term_refuses (h : c.Faces ahead) (hstart : ∀ d, ahead.head? = some d → isStart d = false) :
    (reader fs id rounds depth 0).Refuses c := by
  have hclasses : ∀ d, ahead.head? = some d → CodePoint.isDigit d.toNat = false ∧
      CodePoint.isLetter d.toNat = false ∧ d ≠ '(' := by
    intro d hd
    simpa [isStart, and_assoc] using hstart d hd
  rw [reader_zero]
  refine Matcher.refuses_orElse (refuses_number h fun d hd => (hclasses d hd).1)
    (Matcher.refuses_orElse (refuses_identifier h fun d hd => (hclasses d hd).2.1)
      (Matcher.refuses_orElse (refuses_parenthesized h ?_) (Matcher.run_fail c)))
  intro hopening
  exact (hclasses '(' hopening).2.2 rfl

end Levels

/-! ## Soundness -/

/-- The ways in which a run of level `k` may end: it takes a phrase of the level, or
refuses, or sinks below more parentheses than may be open. -/
inductive Ends (comparisons : Bool) (depth k : Nat) (m : Matcher) (c : Cursor)
    (ahead : List Char) : Prop
  | takes (taken rest : List Char) {e : Expression} : ahead = taken ++ rest →
      Derives comparisons depth k taken e → m.Takes c taken.length (.expression e) →
      Ends comparisons depth k m c ahead
  | refuses : m.Refuses c → Ends comparisons depth k m c ahead
  | sinks : m.Sinks c → depth < ahead.count '(' → Ends comparisons depth k m c ahead

/-- A text that starts in a class of characters starts with a whole word of it. -/
theorem exists_word {holds : Nat → Bool} {d : Char} {tail : List Char}
    (hd : holds d.toNat = true) :
    ∃ taken blanks rest, d :: tail = taken ++ (blanks ++ rest) ∧ taken ≠ [] ∧
      (∀ c ∈ taken, holds c.toNat = true) ∧ (∀ c ∈ blanks, isSpace c = true) ∧
      (∀ c, (blanks ++ rest).head? = some c → holds c.toNat = false) ∧
      (blanks ++ rest).takeWhile isSpace = blanks := by
  let behind := (d :: tail).dropWhile fun c => holds c.toNat
  refine ⟨(d :: tail).takeWhile fun c => holds c.toNat, behind.takeWhile isSpace,
    behind.dropWhile isSpace, ?_, ?_, ?_, ?_, ?_, ?_⟩
  · rw [List.takeWhile_append_dropWhile, List.takeWhile_append_dropWhile]
  · simp [hd]
  · exact List.all_eq_true.mp List.all_takeWhile
  · exact List.all_eq_true.mp List.all_takeWhile
  · rw [List.takeWhile_append_dropWhile]
    exact head?_dropWhile_eq_false (d :: tail)
  · rw [List.takeWhile_append_dropWhile]

section Soundness

variable {fs : Forwards} {id rounds depth k : Nat} {comparisons : Bool} {c : Cursor}
  {ahead : List Char}

/-- A run of the parser in parentheses, from the runs of the parser inside. -/
theorem parenthesized_ends (hfs : Holds fs id comparisons)
    (hinner : ∀ inside, depth = inside + 1 → ∀ c ahead, Cursor.Faces c ahead →
      ahead.length < rounds → Ends comparisons inside (topLevel comparisons)
        (reader fs id rounds inside (topLevel comparisons)) c ahead)
    (h : c.Faces ('(' :: ahead)) (hrounds : ahead.length < rounds) :
    Ends comparisons depth 0 ((parenthesized (forward id)).matcher rounds (fs.call rounds depth))
      c ('(' :: ahead) := by
  -- the white space behind the parenthesis, and what the inner parser faces
  obtain ⟨before, inner, rfl, hbefore, hstop⟩ : ∃ before inner, ahead = before ++ inner ∧
      (∀ d ∈ before, isSpace d = true) ∧ ∀ d, inner.head? = some d → isSpace d = false :=
    ⟨ahead.takeWhile isSpace, ahead.dropWhile isSpace, List.takeWhile_append_dropWhile.symm,
      List.all_eq_true.mp List.all_takeWhile, head?_dropWhile_eq_false ahead⟩
  have hlength : inner.length < rounds := by
    rw [List.length_append] at hrounds
    omega
  have hcount : ('(' :: (before ++ inner)).count '(' = before.count '(' + inner.count '(' + 1 := by
    rw [List.count_cons_self, List.count_append]
  cases depth with
  | zero =>
    exact Ends.sinks (sinks_parenthesized h hbefore hstop (sinks_forward_zero hfs)) (by omega)
  | succ depth =>
    have hends := hinner depth rfl _ inner (faces_inner h) hlength
    rw [← forward_succ hfs] at hends
    cases hends with
    | refuses hrefuses =>
      exact Ends.refuses (refuses_parenthesized_of_inner h hbefore hstop hrefuses)
    | sinks hsinks hdepth =>
      exact Ends.sinks (sinks_parenthesized h hbefore hstop hsinks) (by omega)
    | takes taken rest hinner hderives htakes =>
      subst hinner
      by_cases hclosing : rest.head? = some ')'
      · obtain ⟨behind, rfl⟩ : ∃ behind, rest = ')' :: behind := by
          cases rest with
          | nil => cases hclosing
          | cons d behind => cases hclosing; exact ⟨behind, rfl⟩
        refine Ends.takes _ (behind.dropWhile isSpace) ?_
          (Derives.parens hbefore hderives (List.all_eq_true.mp List.all_takeWhile))
          (takes_parenthesized h hbefore hstop htakes)
        simp only [List.cons_append, List.append_assoc, List.takeWhile_append_dropWhile]
      · exact Ends.refuses (refuses_parenthesized_of_closing h hbefore hstop htakes hclosing)

/-- A run of the parser of terms. -/
theorem term_ends (hfs : Holds fs id comparisons)
    (hinner : ∀ inside, depth = inside + 1 → ∀ c ahead, Cursor.Faces c ahead →
      ahead.length < rounds → Ends comparisons inside (topLevel comparisons)
        (reader fs id rounds inside (topLevel comparisons)) c ahead)
    (h : c.Faces ahead) (hrounds : ahead.length < rounds) :
    Ends comparisons depth 0 (reader fs id rounds depth 0) c ahead := by
  by_cases hstart : ∃ d tail, ahead = d :: tail ∧ isStart d = true
  · obtain ⟨d, tail, rfl, hd⟩ := hstart
    simp only [isStart, Bool.or_eq_true, decide_eq_true_eq] at hd
    rcases hd with (hd | hd) | rfl
    · obtain ⟨digits, blanks, rest, htext, hne, hdigits, hblanks, hstop, hspaces⟩ := exists_word hd
      rw [htext] at h
      refine Ends.takes (digits ++ blanks) rest (by rw [htext, List.append_assoc])
        (Derives.number hne hdigits hblanks) ?_
      rw [← hspaces]
      exact term_takes_number h hne hdigits hstop
    · obtain ⟨letters, blanks, rest, htext, hne, hletters, hblanks, hstop, hspaces⟩ :=
        exists_word hd
      rw [htext] at h
      refine Ends.takes (letters ++ blanks) rest (by rw [htext, List.append_assoc])
        (Derives.identifier hne hletters hblanks) ?_
      rw [← hspaces]
      exact term_takes_identifier h hne hletters hstop
    · cases parenthesized_ends hfs hinner h (by simp at hrounds; omega) with
      | takes taken rest htext hderives htakes =>
        exact Ends.takes taken rest htext hderives (term_takes_parenthesized h htakes)
      | refuses hrefuses => exact Ends.refuses (term_refuses_parenthesized h hrefuses)
      | sinks hsinks hdepth => exact Ends.sinks (term_sinks_parenthesized h hsinks) hdepth
  · refine Ends.refuses (term_refuses h fun d hd => ?_)
    cases ahead with
    | nil => cases hd
    | cons d' tail =>
      cases hd
      rw [← Bool.not_eq_true]
      exact fun hd => hstart ⟨d, tail, rfl, hd⟩

/-- The loop of a chain, behind a complete phrase: it takes what makes a longer
phrase of it, or sinks. -/
theorem loop_ends
    (hoperand : ∀ c ahead, Cursor.Faces c ahead → ahead.length < rounds →
      Ends comparisons depth k (reader fs id rounds depth k) c ahead) :
    ∀ (left : Nat) (c : Cursor) (ahead text : List Char) (e : Expression), c.Faces ahead →
      ahead.length < left → ahead.length < rounds → Derives comparisons depth (k + 1) text e →
      (∃ more rest e', ahead = more ++ rest ∧ Derives comparisons depth (k + 1) (text ++ more) e' ∧
        (loop fs id rounds depth k left e c).Takes c more.length (.expression e')) ∨
      ((loop fs id rounds depth k left e c).Sinks c ∧ depth < ahead.count '(') := by
  intro left
  induction left with
  | zero => intro c ahead text e _ hleft; omega
  | succ left ih =>
    intro c ahead text e h hleft hrounds htext
    -- the loop ends here unless a sign stands ahead and an operand behind it
    have hstays : Derives comparisons depth (k + 1) (text ++ []) e := by rwa [List.append_nil]
    by_cases hsign : ∃ s ∈ signs k, s.1 <+: ahead
    · obtain ⟨s, hs, behind, rfl⟩ := hsign
      obtain ⟨blanks, operand, hbehind, hblanks, hspaces⟩ : ∃ blanks operand,
          behind = blanks ++ operand ∧ (∀ d ∈ blanks, isSpace d = true) ∧
            behind.takeWhile isSpace = blanks :=
        ⟨behind.takeWhile isSpace, behind.dropWhile isSpace,
          List.takeWhile_append_dropWhile.symm, List.all_eq_true.mp List.all_takeWhile, rfl⟩
      have hseparator : ((joiner k).matcher rounds (fs.call rounds depth)).Takes c
          (s.1 ++ blanks).length (.operator s.2) := by
        rw [← hspaces]
        exact takes_joiner hs h
      subst hbehind
      rw [← List.append_assoc] at h hleft hrounds ⊢
      have hlength : operand.length < rounds := by
        rw [List.length_append] at hrounds
        omega
      have hcount : ((s.1 ++ blanks) ++ operand).count '(' =
          (s.1 ++ blanks).count '(' + operand.count '(' := List.count_append
      cases hoperand _ operand h.forward hlength with
      | refuses hrefuses =>
        exact Or.inl ⟨[], _, e, rfl, hstays,
          Matcher.takes_chainFrom_of_operand hseparator hrefuses⟩
      | sinks hsinks hdepth =>
        exact Or.inr ⟨Matcher.sinks_chainFrom_of_operand hseparator hsinks, by omega⟩
      | @takes taken rest f htaken hderives htakes =>
        subst htaken
        have hnext : (c.forward ((s.1 ++ blanks).length + taken.length)).Faces rest := by
          rw [← Cursor.forward_forward]
          exact h.forward.forward
        have hjoined := Derives.joined htext hs hblanks hderives
        obtain ⟨d, tail, hd, _⟩ := hderives.exists_start
        have hshorter : rest.length < left ∧ rest.length < rounds := by
          rw [hd] at hleft hlength
          simp only [List.length_append, List.length_cons] at hleft hlength
          omega
        have hrun : (loop fs id rounds depth k (left + 1) e c).run c = _ :=
          run_loop_succ hseparator htakes
        rcases ih _ rest _ _ hnext hshorter.1 hshorter.2 hjoined with
          ⟨more, rest', e', rfl, hmore, hloop⟩ | ⟨hsinks, hdepth⟩
        · refine Or.inl ⟨s.1 ++ blanks ++ taken ++ more, rest', e', by simp, by simpa using hmore, ?_⟩
          rw [List.length_append, List.length_append]
          exact Matcher.Takes.of_run hrun hloop
        · have hinside : (taken ++ rest).count '(' = taken.count '(' + rest.count '(' :=
            List.count_append
          exact Or.inr ⟨Matcher.Sinks.of_run hrun hsinks, by omega⟩
    · have hseparator : ((joiner k).matcher rounds (fs.call rounds depth)).Refuses c :=
        refuses_joiner h fun s hs hprefix => hsign ⟨s, hs, hprefix⟩
      exact Or.inl ⟨[], ahead, e, rfl, hstays, Matcher.takes_chainFrom_of_separator hseparator⟩

/-- A run of the parser of a level, from the runs of the level below. -/
theorem layer_ends
    (hoperand : ∀ c ahead, Cursor.Faces c ahead → ahead.length < rounds →
      Ends comparisons depth k (reader fs id rounds depth k) c ahead)
    (h : c.Faces ahead) (hrounds : ahead.length < rounds) :
    Ends comparisons depth (k + 1) (reader fs id rounds depth (k + 1)) c ahead := by
  cases hoperand c ahead h hrounds with
  | refuses hrefuses => exact Ends.refuses (Matcher.refuses_chainl hrefuses)
  | sinks hsinks hdepth => exact Ends.sinks (Matcher.sinks_chainl hsinks) hdepth
  | takes taken rest htext hderives htakes =>
    subst htext
    have hrun := run_reader_succ htakes
    have hlength : rest.length < rounds := by
      rw [List.length_append] at hrounds
      omega
    rcases loop_ends hoperand rounds _ rest taken _ h.forward hlength hlength
        (Derives.operand hderives) with ⟨more, rest', e', rfl, hmore, hloop⟩ | ⟨hsinks, hdepth⟩
    · refine Ends.takes (taken ++ more) rest' (by simp) hmore ?_
      rw [List.length_append]
      exact Matcher.Takes.of_run hrun hloop
    · refine Ends.sinks (Matcher.Sinks.of_run hrun hsinks) ?_
      rw [List.count_append]
      omega

/-- Every run of every level ends in one of the three ways. The induction is on the
number of forwards that may still be opened, and within it on the level. -/
theorem reader_ends (hfs : Holds fs id comparisons) (depth : Nat) : ∀ (k : Nat) (c : Cursor)
    (ahead : List Char), c.Faces ahead → ahead.length < rounds →
      Ends comparisons depth k (reader fs id rounds depth k) c ahead := by
  induction depth with
  | zero =>
    intro k
    induction k with
    | zero => exact fun c ahead => term_ends hfs fun inside hinside => by omega
    | succ k ih => exact fun c ahead => layer_ends ih
  | succ depth ihdepth =>
    intro k
    induction k with
    | zero =>
      refine fun c ahead => term_ends hfs fun inside hinside => ?_
      cases hinside
      exact ihdepth (topLevel comparisons)
    | succ k ih => exact fun c ahead => layer_ends ih

end Soundness

end Parlance.Grammar
