import Parlance.Proofs.Recognition

/-! # A partial parse takes the longest prefix

Without the demand that the whole text be an expression, parsing stops behind the
longest prefix that would be accepted on its own. The run commits at every choice
and every chain, so this needs that it reads at least as far as any prefix that
derives a tree: `Derives.takes_more`. The only thing that can come between is the
limit on nesting, which a part of the text behind that prefix may reach. -/
namespace Parlance.Grammar

variable {comparisons : Bool} {text : String} {e : Expression}

def HitsLimit (comparisons : Bool) (text : String) : Prop :=
  (attempt (nestingLimit comparisons) text ⟨comparisons, false⟩).exit = .error .tooDeep

/-- A prefix of the text that is an expression on its own. -/
def AcceptedPrefix (comparisons : Bool) (text part : String) : Prop :=
  part.toList <+: text.toList ∧ (parse part ⟨comparisons, true⟩).success = true

theorem AcceptedPrefix.exists_derives {part : String} (h : AcceptedPrefix comparisons text part) :
    ∃ e, Derives comparisons (nestingLimit comparisons) (topLevel comparisons) part.toList e := by
  rcases parse_complete_cases comparisons part with ⟨e, hderives, _⟩ | hrejected
  · exact ⟨e, hderives⟩
  · have hsuccess := h.2
    rw [hrejected] at hsuccess
    cases hsuccess

/-- The run on the whole text reads at least an accepted prefix, or sinks. -/
theorem AcceptedPrefix.readsOn {part : String} (h : AcceptedPrefix comparisons text part) :
    ReadsOn (textReader comparisons (nestingLimit comparisons) text) (.ofText text)
      part.length := by
  obtain ⟨e, hderives⟩ := h.exists_derives
  obtain ⟨rest, hrest⟩ := h.1
  have hfaces := Cursor.faces_ofText text
  have hrounds := length_lt_rounds text
  rw [← hrest] at hfaces hrounds
  rw [← String.length_toList]
  exact hderives.takes_more (builtin_holds comparisons) hfaces hrounds

/-- A text with few enough parentheses stays below the limit. -/
theorem not_hitsLimit_of_count (h : text.toList.count '(' ≤ 450) : ¬ HitsLimit comparisons text := by
  intro hlimit
  obtain ⟨hleast, -⟩ := nestingLimit_bounds comparisons
  rcases attempt_cases (nestingLimit comparisons) text ⟨comparisons, false⟩ with
    ⟨⟨reply, hexit⟩, -⟩ | ⟨-, -, hcount⟩
  · rw [HitsLimit, hexit] at hlimit
    cases hlimit
  · omega

/-- What a run that takes something has taken is an accepted prefix, and the longest. -/
theorem acceptedPrefix_of_takes {taken rest : List Char} (htext : text.toList = taken ++ rest)
    (hderives : Derives comparisons (nestingLimit comparisons) (topLevel comparisons) taken e)
    (htakes : (textReader comparisons (nestingLimit comparisons) text).Takes (.ofText text)
      taken.length (.expression e)) :
    AcceptedPrefix comparisons text (String.ofList taken) ∧
      ∀ part, AcceptedPrefix comparisons text part → part.length ≤ taken.length := by
  constructor
  · refine ⟨by rw [String.toList_ofList, htext]; exact List.prefix_append _ _, ?_⟩
    rw [parse_of_derives (by rwa [String.toList_ofList])]
  · intro part hpart
    rcases hpart.readsOn with ⟨n, v, hn, htakes'⟩ | hsinks
    · rwa [(htakes'.unique htakes).1] at hn
    · exact absurd hsinks htakes.not_sinks

/-- Behind the longest prefix stands no white space, which would belong to it. -/
theorem not_space_of_longest {taken rest : List Char} (htext : text.toList = taken ++ rest)
    (hderives : Derives comparisons (nestingLimit comparisons) (topLevel comparisons) taken e)
    (hlongest : ∀ part, AcceptedPrefix comparisons text part → part.length ≤ taken.length) :
    ∀ c, text.toList[taken.length]? = some c → isSpace c = false := by
  intro c hc
  rw [htext, List.getElem?_append_right (Nat.le_refl _), Nat.sub_self] at hc
  rw [← Bool.not_eq_true]
  intro hspace
  obtain ⟨rest, rfl⟩ : ∃ tail, rest = c :: tail := by
    cases rest with
    | nil => cases hc
    | cons d tail => cases hc; exact ⟨tail, rfl⟩
  have hlonger : Derives comparisons (nestingLimit comparisons) (topLevel comparisons)
      (taken ++ [c]) e :=
    hderives.append_blanks (by simpa using hspace)
  have haccepted : AcceptedPrefix comparisons text (String.ofList (taken ++ [c])) := by
    refine ⟨⟨rest, by rw [String.toList_ofList, htext]; simp⟩, ?_⟩
    rw [parse_of_derives (by rwa [String.toList_ofList])]
  have hlength := hlongest _ haccepted
  rw [String.length_ofList, List.length_append, List.length_singleton] at hlength
  omega

/-- The demand for the end of the text asks the run to have got there. -/
theorem complete_of_takes {taken rest : List Char} (htext : text.toList = taken ++ rest)
    (htakes : (textReader comparisons (nestingLimit comparisons) text).Takes (.ofText text)
      taken.length (.expression e)) :
    parse text ⟨comparisons, true⟩ =
      if taken.length = text.length then ⟨true, .expression e, taken.length⟩ else rejected := by
  have hlength : text.length = taken.length + rest.length := by
    rw [← String.length_toList, htext, List.length_append]
  split
  · next hend =>
    rw [hend] at htakes ⊢
    exact parse_of_exit (exit_of_takes_whole htakes)
  · next hend =>
    have hrest : rest ≠ [] := by
      rintro rfl
      exact hend (by rw [hlength]; rfl)
    exact parse_of_exit (exit_complete_of_takes htext hrest htakes)

/-- A partial parse of a text on which the limit on nesting is not hit (it is not if
there are at most 450 opening parentheses) succeeds exactly if some prefix is
accepted as a whole. It then stops behind the longest such prefix, with the tree of
that prefix and no white space ahead, and the whole text is accepted, with the same
tree, exactly if it stops at the end. -/
theorem parse_partial_longest_prefix (comparisons : Bool) (text : String) :
    (text.toList.count '(' ≤ 450 → ¬ HitsLimit comparisons text) ∧
    (¬ HitsLimit comparisons text →
      ((parse text ⟨comparisons, false⟩).success = true ↔
        ∃ part, AcceptedPrefix comparisons text part) ∧
      ((parse text ⟨comparisons, false⟩).success = true → ∃ (part : String) (e : Expression),
        AcceptedPrefix comparisons text part ∧
        (∀ other, AcceptedPrefix comparisons text other → other.length ≤ part.length) ∧
        parse text ⟨comparisons, false⟩ = ⟨true, .expression e, part.length⟩ ∧
        parse part ⟨comparisons, true⟩ = ⟨true, .expression e, part.length⟩ ∧
        (∀ c, text.toList[part.length]? = some c → isSpace c = false)) ∧
      ((parse text ⟨comparisons, true⟩).success = true ↔
        (parse text ⟨comparisons, false⟩).success = true ∧
          (parse text ⟨comparisons, false⟩).position = text.length) ∧
      ((parse text ⟨comparisons, true⟩).success = true →
        parse text ⟨comparisons, true⟩ = parse text ⟨comparisons, false⟩)) := by
  refine ⟨not_hitsLimit_of_count, fun hlimit => ?_⟩
  cases textReader_ends comparisons (nestingLimit comparisons) text with
  | sinks hsinks _ => exact absurd (exit_of_sinks hsinks) hlimit
  | refuses hrefuses =>
    have hpartial : parse text ⟨comparisons, false⟩ = rejected :=
      parse_of_exit (exit_of_refuses hrefuses)
    have hcomplete : parse text ⟨comparisons, true⟩ = rejected :=
      parse_of_exit (exit_of_refuses hrefuses)
    rw [hpartial, hcomplete]
    have hfailed : ¬ rejected.success = true := by decide
    refine ⟨⟨fun h => absurd h hfailed, ?_⟩, fun h => absurd h hfailed,
      ⟨fun h => absurd h hfailed, fun h => absurd h.1 hfailed⟩, fun _ => rfl⟩
    rintro ⟨part, hpart⟩
    rcases hpart.readsOn with ⟨n, v, _, htakes⟩ | hsinks
    · exact absurd hrefuses htakes.not_refuses
    · exact absurd hsinks hrefuses.not_sinks
  | @takes taken rest e htext hderives htakes =>
    have hpartial : parse text ⟨comparisons, false⟩ = ⟨true, .expression e, taken.length⟩ :=
      parse_of_exit (exit_partial_of_takes htakes)
    obtain ⟨haccepted, hlongest⟩ := acceptedPrefix_of_takes htext hderives htakes
    have hpart : parse (String.ofList taken) ⟨comparisons, true⟩ =
        ⟨true, .expression e, (String.ofList taken).length⟩ :=
      parse_of_derives (by rwa [String.toList_ofList])
    have hcomplete := complete_of_takes htext htakes
    rw [hpartial]
    refine ⟨⟨fun _ => ⟨_, haccepted⟩, fun _ => rfl⟩, fun _ => ⟨String.ofList taken, e, haccepted, ?_,
      ?_, hpart, ?_⟩, ?_, ?_⟩
    · rwa [String.length_ofList]
    · rw [String.length_ofList]
    · rw [String.length_ofList]
      exact not_space_of_longest htext hderives hlongest
    · rw [hcomplete]
      by_cases hend : taken.length = text.length
      · simp [hend]
      · have hposition : ¬ (taken.length : Int) = text.length := by omega
        simp [hend, hposition, rejected]
    · rw [hcomplete]
      by_cases hend : taken.length = text.length
      · rw [if_pos hend]
        exact fun _ => rfl
      · rw [if_neg hend]
        exact fun h => by cases h

end Parlance.Grammar
