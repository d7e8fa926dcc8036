import Parlance.Proofs.Completeness

/-! # Parsing a text recognizes the grammar

A text is parsed to a tree exactly when the whole of it derives the tree with no
more parentheses open than the limit allows. Everything about `parse` and `attempt`
follows from the run of one reader on the start of the text, so the lemmas first
say what the options make of the three ways in which that run can end. -/
namespace Parlance.Grammar

/-- The matcher of the outermost level in a run on a text. -/
def textReader (comparisons : Bool) (depth : Nat) (text : String) : Matcher :=
  reader builtin (builtinId comparisons) (text.length + 1) depth (topLevel comparisons)

variable {comparisons requireEnd : Bool} {depth n : Nat} {text : String} {v : Value}
  {e : Expression}

theorem attempt_partial (comparisons : Bool) (depth : Nat) (text : String) :
    attempt depth text ⟨comparisons, false⟩ =
      (textReader comparisons depth text).run (.ofText text) := by
  cases comparisons <;> rfl

theorem attempt_complete (comparisons : Bool) (depth : Nat) (text : String) :
    attempt depth text ⟨comparisons, true⟩ =
      ((textReader comparisons depth text).seqLeft Matcher.endOfText).run (.ofText text) := by
  cases comparisons <;> rfl

/-- A loop has a round for each character and one more. -/
theorem length_lt_rounds (text : String) : text.toList.length < text.length + 1 := by
  rw [String.length_toList]
  exact Nat.lt_succ_self _

theorem faces_ofText_nil (text : String) : (Cursor.ofText text).Faces (text.toList ++ []) := by
  rw [List.append_nil]
  exact Cursor.faces_ofText text

theorem textReader_ends (comparisons : Bool) (depth : Nat) (text : String) :
    Ends comparisons depth (topLevel comparisons) (textReader comparisons depth text)
      (.ofText text) text.toList :=
  reader_ends (builtin_holds comparisons) depth _ _ _ (Cursor.faces_ofText text)
    (length_lt_rounds text)

theorem textReader_takes (h : Derives comparisons depth (topLevel comparisons) text.toList e) :
    (textReader comparisons depth text).Takes (.ofText text) text.length (.expression e) := by
  have hrounds : (text.toList ++ []).length < text.length + 1 := by
    rw [List.append_nil]
    exact length_lt_rounds text
  rw [← String.length_toList]
  exact h.takes (builtin_holds comparisons) (faces_ofText_nil text) hrounds (follows_nil _)

/-! ## What the options make of the run -/

theorem exit_of_takes_whole
    (h : (textReader comparisons depth text).Takes (.ofText text) text.length v) :
    (attempt depth text ⟨comparisons, requireEnd⟩).exit = .ok ⟨true, v, text.length⟩ := by
  cases requireEnd with
  | false =>
    rw [attempt_partial, h.run_eq]
    simp [Cursor.ofText]
  | true =>
    have hend : ((Cursor.ofText text).forward text.length).Faces [] := by
      rw [← String.length_toList]
      exact (faces_ofText_nil text).forward
    rw [attempt_complete, (Matcher.takes_seqLeft h (Matcher.takes_endOfText hend)).run_eq]
    simp [Cursor.ofText]

theorem exit_partial_of_takes (h : (textReader comparisons depth text).Takes (.ofText text) n v) :
    (attempt depth text ⟨comparisons, false⟩).exit = .ok ⟨true, v, n⟩ := by
  rw [attempt_partial, h.run_eq]
  simp [Cursor.ofText]

/-- A run that stops before the end of the text is refused as a whole. -/
theorem exit_complete_of_takes {taken rest : List Char} (htext : text.toList = taken ++ rest)
    (hrest : rest ≠ [])
    (h : (textReader comparisons depth text).Takes (.ofText text) taken.length v) :
    (attempt depth text ⟨comparisons, true⟩).exit = .ok rejected := by
  have hfaces := Cursor.faces_ofText text
  rw [htext] at hfaces
  rw [attempt_complete, (Matcher.refuses_seqLeft_of_right h
    (Matcher.refuses_endOfText hfaces.forward hrest)).run_eq]
  rfl

theorem exit_of_refuses (h : (textReader comparisons depth text).Refuses (.ofText text)) :
    (attempt depth text ⟨comparisons, requireEnd⟩).exit = .ok rejected := by
  cases requireEnd with
  | false => rw [attempt_partial, h.run_eq]; rfl
  | true => rw [attempt_complete, (Matcher.refuses_seqLeft h).run_eq]; rfl

theorem exit_of_sinks (h : (textReader comparisons depth text).Sinks (.ofText text)) :
    (attempt depth text ⟨comparisons, requireEnd⟩).exit = .error .tooDeep := by
  cases requireEnd with
  | false =>
    obtain ⟨c', hrun⟩ := h
    rw [attempt_partial, hrun]
  | true =>
    obtain ⟨c', hrun⟩ := Matcher.sinks_seqLeft (q := Matcher.endOfText) h
    rw [attempt_complete, hrun]

/-- A whole text is taken, refused or too deep, and it is taken with a tree that it
derives. -/
theorem attempt_complete_cases (comparisons : Bool) (depth : Nat) (text : String) :
    (∃ e, Derives comparisons depth (topLevel comparisons) text.toList e ∧
      (attempt depth text ⟨comparisons, true⟩).exit = .ok ⟨true, .expression e, text.length⟩) ∨
    (attempt depth text ⟨comparisons, true⟩).exit = .ok rejected ∨
    (attempt depth text ⟨comparisons, true⟩).exit = .error .tooDeep := by
  cases textReader_ends comparisons depth text with
  | takes taken rest htext hderives htakes =>
    by_cases hrest : rest = []
    · rw [hrest, List.append_nil] at htext
      rw [← htext] at hderives htakes
      rw [String.length_toList] at htakes
      exact Or.inl ⟨_, hderives, exit_of_takes_whole htakes⟩
    · exact Or.inr (Or.inl (exit_complete_of_takes htext hrest htakes))
  | refuses hrefuses => exact Or.inr (Or.inl (exit_of_refuses hrefuses))
  | sinks hsinks _ => exact Or.inr (Or.inr (exit_of_sinks hsinks))

/-- With any depth the run ends with a reply, or sinks below too many parentheses; no other
fault arises. -/
theorem attempt_cases (depth : Nat) (text : String) (opts : Options) :
    ((∃ reply, (attempt depth text opts).exit = .ok reply) ∧
      ¬ (textReader opts.comparisons depth text).Sinks (.ofText text)) ∨
    ((attempt depth text opts).exit = .error .tooDeep ∧
      (textReader opts.comparisons depth text).Sinks (.ofText text) ∧
      depth < text.toList.count '(') := by
  rcases opts with ⟨comparisons, requireEnd⟩
  cases textReader_ends comparisons depth text with
  | takes taken rest htext hderives htakes =>
    refine Or.inl ⟨?_, htakes.not_sinks⟩
    cases requireEnd with
    | false => exact ⟨_, exit_partial_of_takes htakes⟩
    | true =>
      by_cases hrest : rest = []
      · rw [hrest, List.append_nil] at htext
        rw [← htext, String.length_toList] at htakes
        exact ⟨_, exit_of_takes_whole htakes⟩
      · exact ⟨_, exit_complete_of_takes htext hrest htakes⟩
  | refuses hrefuses => exact Or.inl ⟨⟨_, exit_of_refuses hrefuses⟩, hrefuses.not_sinks⟩
  | sinks hsinks hcount => exact Or.inr ⟨exit_of_sinks hsinks, hsinks, hcount⟩

/-- The grammar is unambiguous: a text derives at most one tree. -/
theorem Derives.tree_unique {depth' : Nat} {e' : Expression} {cs : List Char}
    (h : Derives comparisons depth (topLevel comparisons) cs e)
    (h' : Derives comparisons depth' (topLevel comparisons) cs e') : e = e' := by
  rw [← String.toList_ofList (l := cs)] at h h'
  have htakes := textReader_takes (h.mono (Nat.le_max_left depth depth'))
  have htakes' := textReader_takes (h'.mono (Nat.le_max_right depth depth'))
  exact Value.expression.inj (htakes.unique htakes').2

/-! ## Replies -/

/-- All that is used of how large the limit is. -/
theorem nestingLimit_bounds (comparisons : Bool) :
    450 ≤ nestingLimit comparisons ∧ nestingLimit comparisons < 1200 := by
  cases comparisons <;> decide

section Replies

variable {opts : Options} {reply : Reply}

theorem replyOrFault_of_exit
    (h : (attempt (nestingLimit opts.comparisons) text opts).exit = .ok reply) :
    replyOrFault text opts = .ok reply := by
  rw [replyOrFault, h]

theorem replyOrFault_of_tooDeep
    (h : (attempt (nestingLimit opts.comparisons) text opts).exit = .error .tooDeep) :
    replyOrFault text opts = .ok rejected := by
  rw [replyOrFault, h]

theorem parse_of_exit
    (h : (attempt (nestingLimit opts.comparisons) text opts).exit = .ok reply) :
    parse text opts = reply := by
  rw [parse, replyOrFault_of_exit h]
  rfl

theorem parse_of_tooDeep
    (h : (attempt (nestingLimit opts.comparisons) text opts).exit = .error .tooDeep) :
    parse text opts = rejected := by
  rw [parse, replyOrFault_of_tooDeep h]
  rfl

/-- No fault escapes. -/
theorem replyOrFault_eq_ok (text : String) (opts : Options) :
    replyOrFault text opts = .ok (parse text opts) := by
  rcases attempt_cases (nestingLimit opts.comparisons) text opts with
    ⟨⟨reply, hexit⟩, -⟩ | ⟨hexit, -⟩
  · rw [replyOrFault_of_exit hexit, parse_of_exit hexit]
  · rw [replyOrFault_of_tooDeep hexit, parse_of_tooDeep hexit]

end Replies

/-- A whole text has a tree that it derives, or is rejected. -/
theorem parse_complete_cases (comparisons : Bool) (text : String) :
    (∃ e, Derives comparisons (nestingLimit comparisons) (topLevel comparisons) text.toList e ∧
      parse text ⟨comparisons, true⟩ = ⟨true, .expression e, text.length⟩) ∨
    parse text ⟨comparisons, true⟩ = rejected := by
  rcases attempt_complete_cases comparisons (nestingLimit comparisons) text with
    ⟨e, hderives, hexit⟩ | hexit | hexit
  · exact Or.inl ⟨e, hderives, parse_of_exit hexit⟩
  · exact Or.inr (parse_of_exit hexit)
  · exact Or.inr (parse_of_tooDeep hexit)

theorem parse_of_derives
    (h : Derives comparisons (nestingLimit comparisons) (topLevel comparisons) text.toList e) :
    parse text ⟨comparisons, requireEnd⟩ = ⟨true, .expression e, text.length⟩ :=
  parse_of_exit (exit_of_takes_whole (textReader_takes h))

/-- Parsing a whole text finds a tree exactly if the text derives it within the limit
on nesting; it then ends behind the text, and otherwise fails at its start. No text
derives two trees. -/
theorem parse_tree_iff_derives (comparisons : Bool) (text : String) :
    (∀ e, tree? (parse text ⟨comparisons, true⟩) = some e ↔
      Derives comparisons (nestingLimit comparisons) (topLevel comparisons) text.toList e) ∧
    ((parse text ⟨comparisons, true⟩).success = true →
      (∃ e, (parse text ⟨comparisons, true⟩).value = .expression e) ∧
        (parse text ⟨comparisons, true⟩).position = text.length) ∧
    ((parse text ⟨comparisons, true⟩).success = false →
      (parse text ⟨comparisons, true⟩).value = .null ∧
        (parse text ⟨comparisons, true⟩).position = 0) ∧
    ∀ depth depth' e e', Derives comparisons depth (topLevel comparisons) text.toList e →
      Derives comparisons depth' (topLevel comparisons) text.toList e' → e = e' := by
  refine ⟨fun e => ⟨fun htree => ?_, fun hderives => ?_⟩, ?_, ?_, ?_⟩
  · rcases parse_complete_cases comparisons text with ⟨e', hderives, hparse⟩ | hparse
    · rw [hparse] at htree
      cases htree
      exact hderives
    · rw [hparse] at htree
      cases htree
  · rw [parse_of_derives hderives]
    rfl
  · rcases parse_complete_cases comparisons text with ⟨e, _, hparse⟩ | hparse <;> rw [hparse]
    · exact fun _ => ⟨⟨e, rfl⟩, rfl⟩
    · exact fun hsuccess => by cases hsuccess
  · rcases parse_complete_cases comparisons text with ⟨e, _, hparse⟩ | hparse <;> rw [hparse]
    · exact fun hfailure => by cases hfailure
    · exact fun _ => ⟨rfl, rfl⟩
  · exact fun _ _ _ _ h h' => h.tree_unique h'

end Parlance.Grammar
