import Parlance.Proofs.Recognition
import Parlance.Proofs.Rounding

/-! # Printing and parsing

The trees that parsing can return are the well-formed ones: numbers that a run of
digits denotes, names made of letters, and no unknown operator. A well-formed tree
is printed to a text that derives it, as one term: each operation stands in its own
parentheses, so the text needs as many open at once as the tree is high. Parsing the
text therefore gives the tree back, bit for bit, if that many may be open, and sinks
if not. -/
namespace Parlance

namespace Expression

/-- The trees that can be written down: every number is infinite or whole and has no
sign, every name is a word of letters, every operator is known. -/
def WellFormed : Expression → Prop
  | number value => value.IsNatural
  | identifier name => name ≠ "" ∧ ∀ c ∈ name.toList, CodePoint.isLetter c.toNat = true
  | binary op left right => op ≠ .unknown ∧ left.WellFormed ∧ right.WellFormed

def hasComparison : Expression → Bool
  | number _ => false
  | identifier _ => false
  | binary op left right => op.isComparison || left.hasComparison || right.hasComparison

/-! ## The printed text -/

theorem partsThen_eq (e : Expression) (after : List String) :
    e.partsThen after = e.parts ++ after := by
  induction e generalizing after with
  | number value => rfl
  | identifier name => rfl
  | binary op left right ihleft ihright =>
    rw [parts, partsThen, partsThen, ihleft, ihright, ihleft (_ :: _), ihright [")"]]
    simp only [List.cons_append, List.append_assoc, List.nil_append]

theorem toText_number (value : Double) : (number value).toText = value.literal := by
  rw [toText, parts, partsThen, String.join_cons, String.join_nil, String.append_empty]

theorem toText_identifier (name : String) : (identifier name).toText = name := by
  rw [toText, parts, partsThen, String.join_cons, String.join_nil, String.append_empty]

/-- An operation is printed in parentheses, with a space on either side of its sign. -/
theorem toList_toText_binary (op : Operator) (left right : Expression) :
    (binary op left right).toText.toList =
      '(' :: (left.toText.toList ++ [' '] ++ (op.symbol.toList ++
        ([' '] ++ right.toText.toList)) ++ [')']) := by
  simp only [toText, parts, partsThen]
  rw [partsThen_eq left, partsThen_eq right]
  simp [String.join_cons, String.join_append, parts]

end Expression

namespace Grammar

variable {comparisons : Bool} {depth k : Nat} {text : List Char} {e : Expression}

/-! ## Parsed trees are well-formed -/

theorem ne_unknown_of_mem_signs {s : List Char × Operator} (hs : s ∈ signs k) :
    s.2 ≠ .unknown := by
  match k with
  | 0 | 1 | 2 =>
    simp only [signs, List.mem_cons, List.not_mem_nil, or_false] at hs
    rcases hs with rfl | rfl <;> decide
  | k + 3 => simp [signs] at hs

theorem isComparison_of_mem_signs {s : List Char × Operator} (hs : s ∈ signs k) (hk : k < 2) :
    s.2.isComparison = false := by
  match k, hk with
  | 0, _ | 1, _ =>
    simp only [signs, List.mem_cons, List.not_mem_nil, or_false] at hs
    rcases hs with rfl | rfl <;> rfl

theorem Derives.wellFormed (h : Derives comparisons depth k text e) : e.WellFormed := by
  induction h with
  | number _ _ _ => exact Double.isNatural_ofNat _
  | @identifier _ letters _ hne hletters _ =>
    refine ⟨?_, by rwa [String.toList_ofList]⟩
    intro hempty
    exact hne (by rw [← String.toList_ofList (l := letters), hempty]; rfl)
  | parens _ _ _ ih => exact ih
  | operand _ ih => exact ih
  | joined _ hsign _ _ ihleft ihright => exact ⟨ne_unknown_of_mem_signs hsign, ihleft, ihright⟩

/-- Below the level of comparisons nothing is compared, in parentheses neither. -/
theorem Derives.hasComparison_eq_false (h : Derives false depth k text e) (hk : k ≤ 2) :
    e.hasComparison = false := by
  induction h with
  | number _ _ _ => rfl
  | identifier _ _ _ => rfl
  | parens _ _ _ ih => exact ih (Nat.le_refl 2)
  | operand _ ih => exact ih (by omega)
  | joined _ hsign _ _ ihleft ihright =>
    rw [Expression.hasComparison, ihleft hk, ihright (by omega),
      isComparison_of_mem_signs hsign (by omega)]
    rfl

/-- A success under any options stands for a prefix of the text that derives the tree. -/
theorem derives_of_exit {text : String} {opts : Options} {reply : Reply}
    (h : (attempt depth text opts).exit = .ok reply) (hsuccess : reply.success = true) :
    ∃ taken e, taken <+: text.toList ∧ reply.value = .expression e ∧
      Derives opts.comparisons depth (topLevel opts.comparisons) taken e := by
  obtain ⟨comparisons, requireEnd⟩ := opts
  cases requireEnd with
  | true =>
    rcases attempt_complete_cases comparisons depth text with ⟨e, hderives, hexit⟩ | hexit | hexit
    · rw [hexit] at h
      cases h
      exact ⟨text.toList, e, List.prefix_refl _, rfl, hderives⟩
    · rw [hexit] at h
      cases h
      cases hsuccess
    · rw [hexit] at h
      cases h
  | false =>
    cases textReader_ends comparisons depth text with
    | takes taken rest htext hderives htakes =>
      rw [exit_partial_of_takes htakes] at h
      cases h
      exact ⟨taken, _, ⟨rest, htext.symm⟩, rfl, hderives⟩
    | refuses hrefuses =>
      rw [exit_of_refuses hrefuses] at h
      cases h
      cases hsuccess
    | sinks hsinks _ =>
      rw [exit_of_sinks hsinks] at h
      cases h

theorem exit_of_parse_success {text : String} {opts : Options}
    (h : (parse text opts).success = true) :
    (attempt (nestingLimit opts.comparisons) text opts).exit = .ok (parse text opts) := by
  rcases attempt_cases (nestingLimit opts.comparisons) text opts with
    ⟨⟨reply, hexit⟩, -⟩ | ⟨hexit, -⟩
  · rw [hexit, parse_of_exit hexit]
  · rw [parse_of_tooDeep hexit] at h
    cases h

/-! ## Printed trees derive themselves -/

/-- A known operator has its sign on one of the three levels. -/
theorem exists_mem_signs {op : Operator} (h : op ≠ .unknown) :
    ∃ k < 3, (op.symbol.toList, op) ∈ signs k := by
  cases op with
  | unknown => exact absurd rfl h
  | multiply => exact ⟨0, by decide, by decide⟩
  | divide => exact ⟨0, by decide, by decide⟩
  | add => exact ⟨1, by decide, by decide⟩
  | subtract => exact ⟨1, by decide, by decide⟩
  | equalTo => exact ⟨2, by decide, by decide⟩
  | notEqualTo => exact ⟨2, by decide, by decide⟩

theorem space_blank : ∀ c ∈ [' '], isSpace c = true := by
  intro c hc
  rw [List.mem_singleton.mp hc]
  rfl

/-- A printed tree is a term, with no more parentheses open than the tree is high. -/
theorem derives_toText (h : e.WellFormed) : Derives true e.height 0 e.toText.toList e := by
  induction e with
  | number value =>
    obtain ⟨digits, hliteral, hne, hdigits, hvalue⟩ := Double.IsNatural.literal h
    have hnumber : Derives true 0 0 (digits ++ []) (.number (Double.ofDigits digits)) :=
      Derives.number hne hdigits (by simp)
    rw [List.append_nil, hvalue] at hnumber
    rwa [Expression.toText_number, hliteral, String.toList_ofList]
  | identifier name =>
    have hword : Derives true 0 0 (name.toList ++ []) (.identifier (String.ofList name.toList)) :=
      Derives.identifier (by simpa using h.1) h.2 (by simp)
    rw [List.append_nil, String.ofList_toList] at hword
    rwa [Expression.toText_identifier]
  | binary op left right ihleft ihright =>
    obtain ⟨hop, hleft, hright⟩ := h
    obtain ⟨k, hk, hsign⟩ := exists_mem_signs hop
    -- both operands are terms, hence phrases of whatever level the sign needs
    have hl := ((ihleft hleft).mono (Nat.le_max_left left.height right.height)).lift
      (Nat.zero_le (k + 1))
    have hr := ((ihright hright).mono (Nat.le_max_right left.height right.height)).lift
      (Nat.zero_le k)
    have hinner := (Derives.joined (hl.append_blanks space_blank) hsign space_blank hr).lift
      (show k + 1 ≤ topLevel true by rw [topLevel, if_pos rfl]; omega)
    have hparens : Derives true (max left.height right.height + 1) 0 ('(' :: ([] ++ (_ ++ [')']))) _ :=
      Derives.parens (by simp) hinner (by simp)
    rw [Expression.toList_toText_binary]
    exact hparens

/-! ## Trees that are too high -/

section Depth

variable {fs : Forwards} {id rounds : Nat} {c : Cursor}

/-- A chain sinks if its first operand does. -/
theorem sinks_lift {j : Nat} (h : (reader fs id rounds depth k).Sinks c) (hle : k ≤ j) :
    (reader fs id rounds depth j).Sinks c := by
  induction hle with
  | refl => exact h
  | step _ ih => exact Matcher.sinks_chainl ih

/-- With fewer parentheses to open than the tree is high, the parser sinks in its
text: in the left operand if that is too high, else behind the sign. -/
theorem toText_sinks (hfs : Holds fs id true) (h : e.WellFormed) :
    ∀ {depth : Nat} {c : Cursor} {rest : List Char} (k : Nat), depth < e.height →
      c.Faces (e.toText.toList ++ rest) → (e.toText.toList ++ rest).length < rounds →
      (reader fs id rounds depth k).Sinks c := by
  induction e with
  | number value => exact fun _ hdepth => absurd hdepth (Nat.not_lt_zero _)
  | identifier name => exact fun _ hdepth => absurd hdepth (Nat.not_lt_zero _)
  | binary op left right ihleft ihright =>
    intro depth c rest k hdepth hfaces hrounds
    obtain ⟨hop, hleft, hright⟩ := h
    obtain ⟨j, hj, hsign⟩ := exists_mem_signs hop
    have htext : (Expression.binary op left right).toText.toList ++ rest =
        '(' :: ([] ++ (left.toText.toList ++ [' '] ++ (op.symbol.toList ++ ([' '] ++
          (right.toText.toList ++ ')' :: rest))))) := by
      rw [Expression.toList_toText_binary]
      simp
    rw [htext] at hfaces hrounds
    have hinner := faces_inner hfaces
    have hlength := Nat.lt_of_succ_lt hrounds
    have hstop := ((derives_toText hleft).append_blanks space_blank).head_not_space
      (op.symbol.toList ++ ([' '] ++ (right.toText.toList ++ ')' :: rest)))
    refine sinks_lift (term_sinks_parenthesized hfaces
      (sinks_parenthesized hfaces (by simp) hstop ?_)) (Nat.zero_le k)
    -- the parenthesis is open; what sinks is the expression inside
    cases depth with
    | zero => exact sinks_forward_zero hfs
    | succ depth =>
      rw [forward_succ hfs]
      have hheight : depth < left.height ∨ depth < right.height := by
        rw [Expression.height] at hdepth
        omega
      rcases Nat.lt_or_ge depth left.height with hhigh | hlow
      · rw [List.append_assoc] at hinner hlength
        exact ihleft hleft _ hhigh hinner hlength
      · have hphrase := (((derives_toText hleft).mono hlow).lift (Nat.zero_le (j + 1))).append_blanks
          space_blank
        obtain ⟨m, _, hrun, hseparator, hbehind⟩ := (hphrase.reads hfs).sign hsign space_blank
          ((derives_toText hright).head_not_space (')' :: rest)) hinner hlength
        have hoperand : (right.toText.toList ++ ')' :: rest).length < rounds := by
          simp only [List.length_append, List.length_cons] at hlength ⊢
          omega
        have hsinks := ihright hright j (hheight.resolve_left (Nat.not_lt.mpr hlow)) hbehind hoperand
        exact sinks_lift (Matcher.Sinks.of_run hrun
          (Matcher.sinks_chainFrom_of_operand hseparator hsinks)) hj

end Depth

/-! ## The round trip -/

/-- The parser without a limit on nesting gives a printed tree back, and does so
exactly if the tree is no higher than the parentheses that may be open. -/
theorem exit_toText (h : e.WellFormed) (depth : Nat) (requireEnd : Bool) :
    (attempt depth e.toText ⟨true, requireEnd⟩).exit =
      if e.height ≤ depth then .ok ⟨true, .expression e, e.toText.length⟩
      else .error .tooDeep := by
  split
  · next hdepth =>
    exact exit_of_takes_whole (textReader_takes (((derives_toText h).mono hdepth).lift
      (Nat.zero_le _)))
  · next hdepth =>
    have hrounds : (e.toText.toList ++ []).length < e.toText.length + 1 := by
      rw [List.append_nil]
      exact length_lt_rounds e.toText
    exact exit_of_sinks (toText_sinks (builtin_holds true) h _ (Nat.lt_of_not_le hdepth)
      (faces_ofText_nil e.toText) hrounds)

/-- What becomes of a tree that is printed and parsed again. -/
structure ReadsBack (e : Expression) : Prop where
  /-- With `depth` parentheses that may be open, the text is taken whole and gives the
  tree if that is no higher. -/
  unlimited : ∀ depth requireEnd, (attempt depth e.toText ⟨true, requireEnd⟩).exit =
    if e.height ≤ depth then .ok ⟨true, .expression e, e.toText.length⟩ else .error .tooDeep
  shallow : e.height ≤ 450 → parse e.toText = ⟨true, .expression e, e.toText.length⟩
  deep : 1200 ≤ e.height → parse e.toText = ⟨false, .null, 0⟩

theorem readsBack (h : e.WellFormed) : ReadsBack e where
  unlimited := exit_toText h
  shallow hheight := by
    have hexit := exit_toText h (nestingLimit true) true
    rw [if_pos (Nat.le_trans hheight (nestingLimit_bounds true).1)] at hexit
    exact parse_of_exit hexit
  deep hheight := by
    have hexit := exit_toText h (nestingLimit true) true
    rw [if_neg (Nat.not_le.mpr (Nat.lt_of_lt_of_le (nestingLimit_bounds true).2 hheight))] at hexit
    exact parse_of_tooDeep hexit

/-- The tree of a success, under any options. -/
theorem wellFormed_of_exit {text : String} {opts : Options} {reply : Reply}
    (h : (attempt depth text opts).exit = .ok reply) (hsuccess : reply.success = true) :
    ∃ e, reply.value = .expression e ∧ e.WellFormed ∧
      (opts.comparisons = false → e.hasComparison = false) := by
  obtain ⟨taken, e, _, hvalue, hderives⟩ := derives_of_exit h hsuccess
  refine ⟨e, hvalue, hderives.wellFormed, fun hcomparisons => ?_⟩
  rw [hcomparisons] at hderives
  exact hderives.hasComparison_eq_false (Nat.le_refl 2)

theorem wellFormed_of_tree {text : String} {opts : Options}
    (h : tree? (parse text opts) = some e) : e.WellFormed := by
  have hsuccess : (parse text opts).success = true := by
    rw [tree?] at h
    split at h
    · assumption
    · cases h
  obtain ⟨e', hvalue, hwellFormed, _⟩ := wellFormed_of_exit (exit_of_parse_success hsuccess) hsuccess
  rw [tree?, if_pos hsuccess, hvalue] at h
  cases h
  exact hwellFormed

/-- Parsing returns well-formed trees only, and every one of them if no limit is set
on nesting. A well-formed tree is read back from its printed text, so printing what
was read back gives the same text again. -/
theorem parse_toText_inverse :
    (∀ (text : String) (opts : Options), (parse text opts).success = true →
      ∃ e, (parse text opts).value = .expression e ∧ e.WellFormed ∧
        (opts.comparisons = false → e.hasComparison = false)) ∧
    (∀ e : Expression, e.WellFormed ↔ ∃ depth text opts position,
      (attempt depth text opts).exit = .ok ⟨true, .expression e, position⟩) ∧
    (∀ e : Expression, e.WellFormed → ReadsBack e) ∧
    (∀ (text : String) (opts : Options) (e : Expression), tree? (parse text opts) = some e →
      e.height ≤ 450 → (tree? (parse e.toText)).map Expression.toText = some e.toText) := by
  refine ⟨?_, fun e => ⟨?_, ?_⟩, fun e => readsBack, ?_⟩
  · intro text opts hsuccess
    exact wellFormed_of_exit (exit_of_parse_success hsuccess) hsuccess
  · intro hwellFormed
    have hexit := exit_toText hwellFormed e.height true
    rw [if_pos (Nat.le_refl _)] at hexit
    exact ⟨_, _, _, _, hexit⟩
  · rintro ⟨depth, text, opts, position, hexit⟩
    obtain ⟨e', hvalue, hwellFormed, _⟩ := wellFormed_of_exit hexit rfl
    cases hvalue
    exact hwellFormed
  · intro text opts e htree hheight
    rw [(readsBack (wellFormed_of_tree htree)).shallow hheight]
    rfl

end Grammar
end Parlance
