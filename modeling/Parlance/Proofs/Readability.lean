import Parlance.Proofs.DoubleText
import Parlance.Proofs.RoundTrip

/-! # Unique readability

A printed tree can be read in one way only, and this needs no parser: the trees may hold
numbers and operators that no parser accepts. The text of a leaf is a word, free of spaces
and parentheses, and the text of an operation opens with a parenthesis. Wherever a tree is
printed inside another, a space or a parenthesis follows, so a text that starts with a
printed tree shows where the tree ends. Since literals tell numbers apart by value, so do
texts: they are equal for the trees that are `Expression.same`, and for no others. -/
namespace Parlance

/-! ## Words -/

def isWordChar (c : Char) : Bool := c ∉ [' ', '(', ')']

/-- Characters without a space or a parenthesis among them. -/
structure IsWord (text : List Char) : Prop where
  ne_nil : text ≠ []
  chars : ∀ c ∈ text, isWordChar c = true

/-- The end of a text, or a character that ends a word. -/
def EndsWord (text : List Char) : Prop := ∀ c, text.head? = some c → isWordChar c = false

theorem endsWord_cons {c : Char} (hc : isWordChar c = false) (rest : List Char) :
    EndsWord (c :: rest) := by
  rintro d ⟨rfl⟩
  exact hc

theorem isWordChar_iff {c : Char} : isWordChar c = true ↔ c ≠ ' ' ∧ c ≠ '(' ∧ c ≠ ')' := by
  simp [isWordChar]

namespace IsWord

variable {word word' rest rest' : List Char}

/-- A text shows where the word that it starts with ends. -/
theorem unique (hword : IsWord word) (hword' : IsWord word') (hrest : EndsWord rest)
    (hrest' : EndsWord rest') (h : word ++ rest = word' ++ rest') : word = word' ∧ rest = rest' :=
  Grammar.run_unique hword.chars hword'.chars hrest hrest' h

/-- No word opens a parenthesis. -/
theorem append_ne_opening (hword : IsWord word) : word ++ rest ≠ '(' :: rest' := by
  obtain ⟨c, tail, rfl⟩ := List.exists_cons_of_ne_nil hword.ne_nil
  intro h
  have hc := hword.chars c List.mem_cons_self
  rw [(List.cons.inj h).1] at hc
  cases hc

end IsWord

theorem Operator.isWord_symbol (op : Operator) : IsWord op.symbol.toList := by
  have hchars : op.symbol.toList.all isWordChar = true := by
    cases op <;> rfl
  refine ⟨?_, List.all_eq_true.mp hchars⟩
  cases op <;> exact List.cons_ne_nil _ _

theorem Operator.symbol_inj {op op' : Operator} (h : op.symbol = op'.symbol) : op = op' := by
  revert h
  cases op <;> cases op' <;> decide

/-! ## Leaves -/

theorem Double.isWord_literal {value : Double} (h : value.isNaN = false) :
    IsWord value.literal.toList := by
  obtain ⟨magnitude, htext, hunsigned, _⟩ := exists_literalHas h
  obtain ⟨d, tail, hmagnitude, _⟩ := hunsigned.begins
  have hnumeral : ∀ c, isNumeral c = true → isWordChar c = true := by
    intro c hc
    refine isWordChar_iff.mpr ⟨?_, ?_, ?_⟩ <;> (rintro rfl; cases hc)
  rw [htext]
  refine ⟨List.append_ne_nil_of_right_ne_nil _ (by simp [hmagnitude]), fun c hc => hnumeral c ?_⟩
  rcases List.mem_append.mp hc with hsign | hdigits
  · have hminus : c = '-' := by
      rw [signChars] at hsign
      split at hsign <;> simp_all
    rw [hminus]
    rfl
  · exact hunsigned.chars c hdigits

/-- A literal does not begin like a name, though it may hold a letter further on. -/
theorem Double.literal_begins {value : Double} (h : value.isNaN = false) :
    ∃ c rest, value.literal.toList = c :: rest ∧ CodePoint.isLetter c.toNat = false := by
  obtain ⟨magnitude, htext, hunsigned, _⟩ := exists_literalHas h
  obtain ⟨c, rest, rfl, hdigit⟩ := hunsigned.begins
  rw [htext, signChars]
  split
  · exact ⟨'-', c :: rest, rfl, rfl⟩
  · refine ⟨c, rest, rfl, Bool.eq_false_iff.mpr fun hletter => ?_⟩
    have hnot := Grammar.isDigit_eq_false_of_isLetter hletter
    rw [isDigit_of_char hdigit] at hnot
    cases hnot

namespace Expression

/-- The trees whose text can be read: each number is one, each name is a word of letters.
The operators are arbitrary. -/
def Legible : Expression → Prop
  | number value => value.isNaN = false
  | identifier name => name ≠ "" ∧ ∀ c ∈ name.toList, CodePoint.isLetter c.toNat = true
  | binary _ left right => left.Legible ∧ right.Legible

variable {value : Double} {name : String}

theorem isWord_name (h : (identifier name).Legible) : IsWord name.toList := by
  refine ⟨by simpa using h.1, fun c hc => ?_⟩
  have hletter := h.2 c hc
  refine isWordChar_iff.mpr ⟨?_, ?_, ?_⟩ <;> (rintro rfl; cases hletter)

theorem literal_ne_name (hvalue : (number value).Legible) (hname : (identifier name).Legible) :
    value.literal ≠ name := by
  rintro rfl
  obtain ⟨c, rest, htext, hletter⟩ := Double.literal_begins hvalue
  rw [hname.2 c (by rw [htext]; exact List.mem_cons_self)] at hletter
  cases hletter

/-! ## Trees -/

theorem toText_binary_append (op : Operator) (left right : Expression) (rest : List Char) :
    (binary op left right).toText.toList ++ rest =
      '(' :: (left.toText.toList ++ ' ' :: (op.symbol.toList ++ ' ' :: (right.toText.toList ++
        ')' :: rest))) := by
  rw [toList_toText_binary]
  simp

/-- A text shows which tree it starts with, and where the tree ends. -/
theorem toText_unique {a b : Expression} (ha : a.Legible) (hb : b.Legible) {rest rest' : List Char}
    (hrest : EndsWord rest) (hrest' : EndsWord rest')
    (h : a.toText.toList ++ rest = b.toText.toList ++ rest') : a.same b = true ∧ rest = rest' := by
  induction a generalizing b rest rest' with
  | number value =>
    have hword := Double.isWord_literal ha
    rw [toText_number] at h
    cases b with
    | number value' =>
      rw [toText_number] at h
      obtain ⟨hliteral, hend⟩ := hword.unique (Double.isWord_literal hb) hrest hrest' h
      exact ⟨(Double.numEq_iff_literal_eq ha hb).mpr (String.toList_inj.mp hliteral), hend⟩
    | identifier name =>
      rw [toText_identifier] at h
      have hname := (hword.unique (isWord_name hb) hrest hrest' h).1
      exact absurd (String.toList_inj.mp hname) (literal_ne_name ha hb)
    | binary op left right =>
      rw [toText_binary_append] at h
      exact absurd h hword.append_ne_opening
  | identifier name =>
    have hword := isWord_name ha
    rw [toText_identifier] at h
    cases b with
    | number value =>
      rw [toText_number] at h
      have hliteral := (hword.unique (Double.isWord_literal hb) hrest hrest' h).1
      exact absurd (String.toList_inj.mp hliteral).symm (literal_ne_name hb ha)
    | identifier name' =>
      rw [toText_identifier] at h
      obtain ⟨hname, hend⟩ := hword.unique (isWord_name hb) hrest hrest' h
      exact ⟨decide_eq_true (String.toList_inj.mp hname), hend⟩
    | binary op left right =>
      rw [toText_binary_append] at h
      exact absurd h hword.append_ne_opening
  | binary op left right ihleft ihright =>
    rw [toText_binary_append] at h
    cases b with
    | number value =>
      rw [toText_number] at h
      exact absurd h.symm (Double.isWord_literal hb).append_ne_opening
    | identifier name =>
      rw [toText_identifier] at h
      exact absurd h.symm (isWord_name hb).append_ne_opening
    | binary op' left' right' =>
      rw [toText_binary_append] at h
      have hspace := endsWord_cons (c := ' ') rfl
      have hclosing := endsWord_cons (c := ')') rfl
      -- the left operands end together, then the signs, then the right operands
      obtain ⟨hleft, hsign⟩ := ihleft ha.1 hb.1 (hspace _) (hspace _) (List.cons.inj h).2
      obtain ⟨hsymbol, hbehind⟩ := op.isWord_symbol.unique op'.isWord_symbol (hspace _) (hspace _)
        (List.cons.inj hsign).2
      obtain ⟨hright, hend⟩ := ihright ha.2 hb.2 (hclosing _) (hclosing _)
        (List.cons.inj hbehind).2
      have hop := Operator.symbol_inj (String.toList_inj.mp hsymbol)
      refine ⟨?_, (List.cons.inj hend).2⟩
      rw [same, hop, hleft, hright, decide_eq_true rfl]
      rfl

theorem toText_eq_of_same {a b : Expression} (ha : a.Legible) (hb : b.Legible)
    (h : a.same b = true) : a.toText = b.toText := by
  induction a generalizing b with
  | number value =>
    cases b with
    | number value' =>
      rw [toText_number, toText_number]
      exact (Double.numEq_iff_literal_eq ha hb).mp h
    | identifier name => cases h
    | binary op left right => cases h
  | identifier name =>
    cases b with
    | number value => cases h
    | identifier name' => rw [of_decide_eq_true h]
    | binary op left right => cases h
  | binary op left right ihleft ihright =>
    cases b with
    | number value => cases h
    | identifier name => cases h
    | binary op' left' right' =>
      simp only [same, Bool.and_eq_true, decide_eq_true_eq] at h
      obtain ⟨⟨rfl, hleft⟩, hright⟩ := h
      apply String.toList_inj.mp
      rw [toList_toText_binary, toList_toText_binary, ihleft ha.1 hb.1 hleft,
        ihright ha.2 hb.2 hright]

/-- Trees are the same exactly if they print the same. -/
theorem same_iff_toText_eq {a b : Expression} (ha : a.Legible) (hb : b.Legible) :
    a.same b = true ↔ a.toText = b.toText := by
  refine ⟨toText_eq_of_same ha hb, fun h => ?_⟩
  have hnothing : EndsWord [] := nofun
  exact (toText_unique ha hb hnothing hnothing (by rw [h])).1

/-- The two zeros print the same, beside a fraction and under an operator that no text
denotes. -/
theorem same_iff_toText_eq_zeros :
    let tree (zero : Double) :=
      binary .unknown (number zero) (binary .divide (number ⟨0xbfe0000000000000⟩) (identifier "x"))
    ((tree ⟨0⟩).same (tree ⟨0x8000000000000000⟩) = true ∧ tree ⟨0⟩ ≠ tree ⟨0x8000000000000000⟩) ∧
      ((tree ⟨0⟩).same (tree ⟨0x8000000000000000⟩) = true ↔
        (tree ⟨0⟩).toText = (tree ⟨0x8000000000000000⟩).toText) := by
  have hname : ("x" : String) ≠ "" ∧ ∀ c ∈ "x".toList, CodePoint.isLetter c.toNat = true :=
    ⟨by decide, List.all_eq_true.mp rfl⟩
  exact ⟨by decide, same_iff_toText_eq ⟨rfl, rfl, hname⟩ ⟨rfl, rfl, hname⟩⟩

end Expression
end Parlance
