import Parlance.Proofs.Phrase
import Parlance.Proofs.Reading

/-! # Tokens

How the tokens of the grammar run on the characters ahead. Every token takes as
much as it can and then the white space behind it, so each rule for a success names
the text taken and asks that what follows does not go on with it. -/
namespace Parlance.Grammar

open Parlance.Parser (whitespace literal takeWhile)

/-- The run at the front stops where the first character fails the test. -/
theorem takeWhile_append_of_stop {holds : Char → Bool} {taken ahead : List Char}
    (htaken : ∀ c ∈ taken, holds c = true)
    (hstop : ∀ c, ahead.head? = some c → holds c = false) :
    (taken ++ ahead).takeWhile holds = taken := by
  rw [List.takeWhile_append_of_pos htaken]
  cases ahead with
  | nil => simp
  | cons c rest => simp [hstop c rfl]

/-- A text can be split behind the run at its front in one way only. -/
theorem run_unique {holds : Char → Bool} {taken taken' ahead ahead' : List Char}
    (htaken : ∀ c ∈ taken, holds c = true) (htaken' : ∀ c ∈ taken', holds c = true)
    (hstop : ∀ c, ahead.head? = some c → holds c = false)
    (hstop' : ∀ c, ahead'.head? = some c → holds c = false)
    (h : taken ++ ahead = taken' ++ ahead') : taken = taken' ∧ ahead = ahead' := by
  have hsplit := congrArg (List.takeWhile holds) h
  rw [takeWhile_append_of_stop htaken hstop, takeWhile_append_of_stop htaken' hstop'] at hsplit
  subst hsplit
  exact ⟨rfl, List.append_cancel_left h⟩

theorem head?_dropWhile_eq_false {holds : Char → Bool} (ahead : List Char) :
    ∀ c, (ahead.dropWhile holds).head? = some c → holds c = false := by
  intro c hc
  have hnot := List.head?_dropWhile_not holds ahead
  rw [hc] at hnot
  exact hnot

variable {rounds : Nat} {call : Nat → Matcher} {c : Cursor} {ahead taken : List Char} {v : Value}

/-! ## White space behind a token -/

theorem takes_whitespace (h : c.Faces ahead) :
    (whitespace.matcher rounds call).Takes c (ahead.takeWhile isSpace).length
      (.int (ahead.takeWhile isSpace).length) := by
  have hrun := Matcher.takes_skipWhile h fun code _ => CodePoint.isWhitespace code
  rw [Cursor.runOf_eq_takeWhile] at hrun
  exact hrun

theorem takes_token {p : Parser} (h : c.Faces (taken ++ ahead))
    (hp : (p.matcher rounds call).Takes c taken.length v) :
    ((token p).matcher rounds call).Takes c (taken ++ ahead.takeWhile isSpace).length v := by
  rw [List.length_append]
  exact Matcher.takes_seqLeft hp (takes_whitespace h.forward)

theorem refuses_token {p : Parser} (hp : (p.matcher rounds call).Refuses c) :
    ((token p).matcher rounds call).Refuses c :=
  Matcher.refuses_seqLeft hp

theorem sinks_token {p : Parser} (hp : (p.matcher rounds call).Sinks c) :
    ((token p).matcher rounds call).Sinks c :=
  Matcher.sinks_seqLeft hp

/-! ## Words

A number and an identifier are read alike: a non-empty run of one class of
characters, then a callback. -/

/-- A non-empty run of a class of code points, and the white space behind it. -/
def word (holds : Nat → Bool) : Parser := token ((takeWhile fun code _ => holds code).atLeast 1)

theorem takes_word {holds : Nat → Bool} (h : c.Faces (taken ++ ahead)) (hne : taken ≠ [])
    (htaken : ∀ d ∈ taken, holds d.toNat = true)
    (hstop : ∀ d, ahead.head? = some d → holds d.toNat = false) :
    ((word holds).matcher rounds call).Takes c (taken ++ ahead.takeWhile isSpace).length
      (.ofChars taken) := by
  have hrun := Matcher.takes_takeWhile h fun code _ => holds code
  rw [Cursor.runOf_eq_takeWhile, takeWhile_append_of_stop htaken hstop] at hrun
  have hlength : (1 : Int) ≤ taken.length := by
    have hpos := List.length_pos_iff.mpr hne
    omega
  exact takes_token h (Matcher.takes_atLeast hrun hlength)

theorem refuses_word {holds : Nat → Bool} (h : c.Faces ahead)
    (hstop : ∀ d, ahead.head? = some d → holds d.toNat = false) :
    ((word holds).matcher rounds call).Refuses c := by
  have hrun := Matcher.takes_takeWhile h fun code _ => holds code
  have hempty : ([] ++ ahead).takeWhile (fun d : Char => holds d.toNat) = [] :=
    takeWhile_append_of_stop (by simp) hstop
  rw [List.nil_append] at hempty
  rw [Cursor.runOf_eq_takeWhile, hempty] at hrun
  exact refuses_token (Matcher.refuses_atLeast hrun (by simp))

/-- The ten digits, by their characters and by their code points. -/
theorem any_digits_eq (code : Nat) :
    ("0123456789".toList.any fun c => c.toNat = code) = CodePoint.isDigit code := by
  rw [Bool.eq_iff_iff]
  simp [CodePoint.isDigit]
  omega

theorem takes_number (h : c.Faces (taken ++ ahead)) (hne : taken ≠ [])
    (htaken : ∀ d ∈ taken, CodePoint.isDigit d.toNat = true)
    (hstop : ∀ d, ahead.head? = some d → CodePoint.isDigit d.toNat = false) :
    (number.matcher rounds call).Takes c (taken ++ ahead.takeWhile isSpace).length
      (.expression (.number (Double.ofDigits taken))) := by
  simp only [← any_digits_eq] at htaken hstop
  exact Matcher.takes_map (takes_word h hne htaken hstop) (by simp [numberOf, hne])

theorem refuses_number (h : c.Faces ahead)
    (hstop : ∀ d, ahead.head? = some d → CodePoint.isDigit d.toNat = false) :
    (number.matcher rounds call).Refuses c := by
  simp only [← any_digits_eq] at hstop
  exact Matcher.refuses_map (refuses_word h hstop)

theorem takes_identifier (h : c.Faces (taken ++ ahead)) (hne : taken ≠ [])
    (htaken : ∀ d ∈ taken, CodePoint.isLetter d.toNat = true)
    (hstop : ∀ d, ahead.head? = some d → CodePoint.isLetter d.toNat = false) :
    (identifier.matcher rounds call).Takes c (taken ++ ahead.takeWhile isSpace).length
      (.expression (.identifier (String.ofList taken))) :=
  Matcher.takes_map (takes_word h hne htaken hstop) (by simp [identifierOf])

theorem refuses_identifier (h : c.Faces ahead)
    (hstop : ∀ d, ahead.head? = some d → CodePoint.isLetter d.toNat = false) :
    (identifier.matcher rounds call).Refuses c :=
  Matcher.refuses_map (refuses_word h hstop)

/-! ## Signs -/

/-- The parser of the signs of a level. -/
def joiner : Nat → Parser
  | 0 => productOperator
  | 1 => sumOperator
  | 2 => comparisonOperator
  | _ => .failure

theorem takes_joiner {k : Nat} {s : List Char × Operator} (hs : s ∈ signs k)
    (h : c.Faces (s.1 ++ ahead)) :
    ((joiner k).matcher rounds call).Takes c (s.1 ++ ahead.takeWhile isSpace).length
      (.operator s.2) := by
  match k with
  | 0 | 1 =>
    -- one character that the table of the token holds
    simp only [signs, List.mem_cons, List.not_mem_nil, or_false] at hs
    rcases hs with rfl | rfl <;> exact takes_token h (Matcher.takes_oneOfMapped h rfl)
  | 2 =>
    simp only [signs, List.mem_cons, List.not_mem_nil, or_false] at hs
    apply takes_token h
    rcases hs with rfl | rfl
    · exact Matcher.takes_orElse (Matcher.takes_replace (Matcher.takes_literal h))
    · have hequal : (Matcher.literal ['=']).Refuses c :=
        Matcher.refuses_literal h (by simp [List.cons_prefix_cons])
      exact Matcher.takes_orElse_of_right (Matcher.refuses_replace hequal)
        (Matcher.takes_orElse (Matcher.takes_replace (Matcher.takes_literal h)))
  | k + 3 => simp [signs] at hs

theorem refuses_joiner {k : Nat} (h : c.Faces ahead) (hnone : ∀ s ∈ signs k, ¬ s.1 <+: ahead) :
    ((joiner k).matcher rounds call).Refuses c := by
  match k with
  | 0 | 1 =>
    refine refuses_token (Matcher.refuses_oneOfMapped h ?_)
    cases ahead with
    | nil => rfl
    | cons d rest =>
      simp [signs, List.cons_prefix_cons] at hnone
      simp [List.idxOf?_cons, hnone.1, hnone.2]
  | 2 =>
    have hliteral : ∀ s ∈ signs 2, (Matcher.literal s.1).Refuses c := fun s hs =>
      Matcher.refuses_literal h (hnone s hs)
    exact refuses_token (Matcher.refuses_orElse
      (Matcher.refuses_replace (hliteral (['='], .equalTo) (by simp [signs])))
      (Matcher.refuses_orElse
        (Matcher.refuses_replace (hliteral (['<', '>'], .notEqualTo) (by simp [signs])))
        (Matcher.run_fail c)))
  | k + 3 => exact Matcher.run_fail c

/-! ## Parentheses

Behind the opening parenthesis and white space stands the inner parser; how it ends
there decides how the whole ends. -/

section Parentheses

variable {p : Parser} {before : List Char} {n : Nat}

theorem takes_opening (h : c.Faces ('(' :: ahead)) :
    ((literal "(").matcher rounds call).Takes c 1 .null := by
  have hopening : c.Faces (['('] ++ ahead) := h
  exact Matcher.takes_literal hopening

theorem faces_inner (h : c.Faces ('(' :: (before ++ ahead))) :
    (c.forward (1 + before.length)).Faces ahead := by
  have hinner : (c.forward ('(' :: before).length).Faces ahead := Cursor.Faces.forward h
  rwa [List.length_cons, Nat.add_comm] at hinner

/-- The white space behind the opening parenthesis is taken whole. -/
theorem takes_before (h : c.Faces ('(' :: (before ++ ahead)))
    (hbefore : ∀ d ∈ before, isSpace d = true)
    (hstop : ∀ d, ahead.head? = some d → isSpace d = false) :
    (whitespace.matcher rounds call).Takes (c.forward 1) before.length (.int before.length) := by
  have hopening : c.Faces (['('] ++ (before ++ ahead)) := h
  have hrun : (whitespace.matcher rounds call).Takes (c.forward 1)
      ((before ++ ahead).takeWhile isSpace).length
      (.int ((before ++ ahead).takeWhile isSpace).length) := takes_whitespace hopening.forward
  rwa [takeWhile_append_of_stop hbefore hstop] at hrun

theorem refuses_parenthesized (h : c.Faces ahead) (hopening : ahead.head? ≠ some '(') :
    ((parenthesized p).matcher rounds call).Refuses c := by
  refine refuses_token (Matcher.refuses_enclosed (Matcher.refuses_literal h ?_))
  rintro ⟨rest, rfl⟩
  exact hopening rfl

theorem refuses_parenthesized_of_inner (h : c.Faces ('(' :: (before ++ ahead)))
    (hbefore : ∀ d ∈ before, isSpace d = true)
    (hstop : ∀ d, ahead.head? = some d → isSpace d = false)
    (hp : (p.matcher rounds call).Refuses (c.forward (1 + before.length))) :
    ((parenthesized p).matcher rounds call).Refuses c := by
  rw [← Cursor.forward_forward] at hp
  exact refuses_token (Matcher.refuses_enclosed_of_inner (takes_opening h)
    (Matcher.refuses_seqRight_of_right (takes_before h hbefore hstop) hp))

theorem sinks_parenthesized (h : c.Faces ('(' :: (before ++ ahead)))
    (hbefore : ∀ d ∈ before, isSpace d = true)
    (hstop : ∀ d, ahead.head? = some d → isSpace d = false)
    (hp : (p.matcher rounds call).Sinks (c.forward (1 + before.length))) :
    ((parenthesized p).matcher rounds call).Sinks c := by
  rw [← Cursor.forward_forward] at hp
  exact sinks_token (Matcher.sinks_enclosed_of_inner (takes_opening h)
    (Matcher.sinks_seqRight_of_right (takes_before h hbefore hstop) hp))

theorem refuses_parenthesized_of_closing (h : c.Faces ('(' :: (before ++ (taken ++ ahead))))
    (hbefore : ∀ d ∈ before, isSpace d = true)
    (hstop : ∀ d, (taken ++ ahead).head? = some d → isSpace d = false)
    (hp : (p.matcher rounds call).Takes (c.forward (1 + before.length)) taken.length v)
    (hclosing : ahead.head? ≠ some ')') :
    ((parenthesized p).matcher rounds call).Refuses c := by
  have hend : (c.forward (1 + before.length + taken.length)).Faces ahead := by
    rw [← Cursor.forward_forward]
    exact (faces_inner h).forward
  have hliteral : ((literal ")").matcher rounds call).Refuses
      (c.forward (1 + (before.length + taken.length))) := by
    rw [← Nat.add_assoc]
    refine Matcher.refuses_literal hend ?_
    rintro ⟨rest, rfl⟩
    exact hclosing rfl
  rw [← Cursor.forward_forward] at hp
  exact refuses_token (Matcher.refuses_enclosed_of_closing (takes_opening h)
    (Matcher.takes_seqRight (takes_before h hbefore hstop) hp) hliteral)

theorem takes_parenthesized (h : c.Faces ('(' :: (before ++ (taken ++ ')' :: ahead))))
    (hbefore : ∀ d ∈ before, isSpace d = true)
    (hstop : ∀ d, (taken ++ ')' :: ahead).head? = some d → isSpace d = false)
    (hp : (p.matcher rounds call).Takes (c.forward (1 + before.length)) taken.length v) :
    ((parenthesized p).matcher rounds call).Takes c
      ('(' :: (before ++ (taken ++ ')' :: ahead.takeWhile isSpace))).length v := by
  have hend : (c.forward (1 + before.length + taken.length)).Faces ([')'] ++ ahead) := by
    rw [← Cursor.forward_forward]
    exact (faces_inner h).forward
  have hliteral : ((literal ")").matcher rounds call).Takes
      (c.forward (1 + (before.length + taken.length))) 1 .null := by
    rw [← Nat.add_assoc]
    exact Matcher.takes_literal hend
  rw [← Cursor.forward_forward] at hp
  have hbody : (((whitespace.seqRight p).enclosed (literal "(") (literal ")")).matcher
      rounds call).Takes c (1 + (before.length + taken.length) + 1) v :=
    Matcher.takes_enclosed (takes_opening h)
      (Matcher.takes_seqRight (takes_before h hbefore hstop) hp) hliteral
  have hlength : 1 + (before.length + taken.length) + 1
      = ('(' :: (before ++ (taken ++ [')']))).length := by
    simp only [List.length_cons, List.length_append, List.length_nil]
    omega
  rw [hlength] at hbody
  have hrun : ((parenthesized p).matcher rounds call).Takes c
      (('(' :: (before ++ (taken ++ [')']))) ++ ahead.takeWhile isSpace).length v :=
    takes_token (by simpa using h) hbody
  simpa using hrun

end Parentheses

end Parlance.Grammar
