import Parlance.Outline
import Parlance.Proofs.DoubleText
import Parlance.Proofs.Stream
import Parlance.Proofs.Token

/-! # Outlines tell trees apart

At a depth of zero or less the indentation of an outline says little about the tree, and
below zero nothing. The order of the lines says it all: the first line of a node names its
kind, the kind fixes which lines follow, and each operand ends where its own lines do. A
line ends where it should, whatever a name holds, since names are quoted and quoted text has
no line breaks. -/
namespace Parlance

/-! ## Lines -/

/-- The characters at which some reader of texts may break a line. -/
def lineBreaks : List Char :=
  ['\n', '\x0b', '\x0c', '\r', '\x1c', '\x1d', '\x1e', '\u0085', '\u2028', '\u2029']

def isLineBreak (c : Char) : Bool := lineBreaks.contains c

open Text (Printable)

theorem isLineBreak_of_isPrintable {c : Char} (h : Text.isPrintable c = true) :
    isLineBreak c = false := by
  have hbreaks : lineBreaks.all (fun c => !Text.isPrintable c) = true := by decide +kernel
  refine Bool.eq_false_iff.mpr fun hbreak => ?_
  have hc := List.all_eq_true.mp hbreaks c (List.contains_iff_mem.mp hbreak)
  rw [h] at hc
  cases hc

section Lines

variable {lines lines' : List String}

theorem toList_linesText_cons (line : String) (rest : List String) :
    (linesText (line :: rest)).toList = line.toList ++ '\n' :: (linesText rest).toList := by
  rw [linesText, List.map_cons, String.join_cons, String.toList_append, String.toList_append,
    List.append_assoc]
  rfl

/-- A text of printable lines shows where each of them ends. -/
theorem linesText_inj (h : ∀ line ∈ lines, Printable line.toList)
    (h' : ∀ line ∈ lines', Printable line.toList) (heq : linesText lines = linesText lines') :
    lines = lines' := by
  have hnil (line : String) (rest : List String) : linesText [] ≠ linesText (line :: rest) := by
    intro hempty
    have hlist := congrArg String.toList hempty
    rw [toList_linesText_cons] at hlist
    exact List.cons_ne_nil _ _ (List.append_eq_nil_iff.mp hlist.symm).2
  induction lines generalizing lines' with
  | nil =>
    cases lines' with
    | nil => rfl
    | cons line' rest' => exact absurd heq (hnil line' rest')
  | cons line rest ih =>
    cases lines' with
    | nil => exact absurd heq.symm (hnil line rest)
    | cons line' rest' =>
      have hchars := congrArg String.toList heq
      rw [toList_linesText_cons, toList_linesText_cons] at hchars
      have hend (tail : List Char) : ∀ c, ('\n' :: tail).head? = some c →
          Text.isPrintable c = false := by
        rintro c ⟨rfl⟩
        rfl
      obtain ⟨hline, hrest⟩ := Grammar.run_unique (h line List.mem_cons_self)
        (h' line' List.mem_cons_self) (hend _) (hend _) hchars
      have htail := ih (fun l hl => h l (List.mem_cons_of_mem _ hl))
        (fun l hl => h' l (List.mem_cons_of_mem _ hl))
        (String.toList_inj.mp (List.cons.inj hrest).2)
      rw [String.toList_inj.mp hline, htail]

/-- A test that only line ends pass is passed once for each printable line. -/
theorem countP_linesText {p : Char → Bool} (hend : p '\n' = true)
    (hp : ∀ c, Text.isPrintable c = true → p c = false)
    (h : ∀ line ∈ lines, Printable line.toList) :
    (linesText lines).toList.countP p = lines.length := by
  induction lines with
  | nil => rfl
  | cons line rest ih =>
    have hline : line.toList.countP p = 0 := by
      rw [List.countP_eq_zero]
      intro c hc
      rw [hp c (h line List.mem_cons_self c hc)]
      exact Bool.false_ne_true
    rw [toList_linesText_cons, List.countP_append, hline, List.countP_cons_of_pos hend,
      ih fun l hl => h l (List.mem_cons_of_mem _ hl), List.length_cons, Nat.zero_add]

theorem not_mem_linesText {c : Char} (hend : c ≠ '\n') (hc : Text.isPrintable c = false)
    (h : ∀ line ∈ lines, Printable line.toList) : c ∉ (linesText lines).toList := by
  induction lines with
  | nil => exact List.not_mem_nil
  | cons line rest ih =>
    rw [toList_linesText_cons, List.mem_append, List.mem_cons]
    rintro (hline | hnewline | hrest)
    · exact (h line List.mem_cons_self).not_mem hc hline
    · exact hend hnewline
    · exact ih (fun l hl => h l (List.mem_cons_of_mem _ hl)) hrest

theorem getLast?_linesText (h : lines ≠ []) : (linesText lines).toList.getLast? = some '\n' := by
  obtain ⟨front, line, rfl⟩ := (List.eq_nil_or_concat lines).resolve_left h
  rw [List.concat_eq_append]
  simp [linesText, String.join_append, List.getLast?_append]

end Lines

/-! ## Lines of a tree -/

theorem isAscii_of_isNumeral {c : Char} (h : isNumeral c = true) : Text.isAscii c = true := by
  rw [isNumeral, Bool.or_eq_true, decide_eq_true_iff] at h
  rcases h with hdigit | hmark
  · simp only [Char.isDigit, Bool.and_eq_true, decide_eq_true_eq] at hdigit
    have hlow : 48 ≤ c.toNat := hdigit.1
    have hhigh : c.toNat ≤ 57 := hdigit.2
    rw [Text.isAscii, Bool.and_eq_true, decide_eq_true_iff, decide_eq_true_iff]
    omega
  · simp only [List.mem_cons, List.not_mem_nil, or_false] at hmark
    rcases hmark with rfl | rfl | rfl | rfl <;> rfl

theorem Double.printable_toText (d : Double) : Printable d.toText.toList := by
  have hsign : Printable (signChars d.isNegative) := by
    cases d.isNegative <;> exact .of_ascii rfl
  cases hnan : d.isNaN with
  | true =>
    rw [toText, if_pos hnan]
    exact .of_ascii rfl
  | false =>
    rw [toList_toText hnan]
    refine hsign.append ?_
    split
    · exact .of_ascii rfl
    · have hunsigned := Layout.isUnsigned_write Layout.standard d.shortest
      exact fun c hc => Text.isPrintable_of_isAscii (isAscii_of_isNumeral (hunsigned.chars c hc))

theorem Operator.printable_label (op : Operator) : Printable op.label.toList := by
  cases op <;> exact .of_ascii rfl

theorem Operator.label_inj {op op' : Operator} (h : op.label = op'.label) : op = op' := by
  revert h
  cases op <;> cases op' <;> decide

theorem printable_indentation (depth : Int) : Printable (indentation depth).toList := by
  rw [indentation, String.toList_ofList]
  intro c hc
  rw [List.eq_of_mem_replicate hc]
  exact Text.isPrintable_of_isAscii rfl

namespace Expression

def NaNFree : Expression → Prop
  | number value => value.isNaN = false
  | identifier _ => True
  | binary _ left right => left.NaNFree ∧ right.NaNFree

def leaves : Expression → Nat
  | number _ => 1
  | identifier _ => 1
  | binary _ left right => left.leaves + right.leaves

/-- The number of binary nodes. -/
def operations : Expression → Nat
  | number _ => 0
  | identifier _ => 0
  | binary _ left right => left.operations + right.operations + 1

theorem length_outlineThen (e : Expression) (depth : Int) (after : List String) :
    (e.outlineThen depth after).length = 2 * e.leaves + 4 * e.operations + after.length := by
  induction e generalizing depth after with
  | number value =>
    simp only [outlineThen, leaves, operations, List.length_cons]
    omega
  | identifier name =>
    simp only [outlineThen, leaves, operations, List.length_cons]
    omega
  | binary op left right ihleft ihright =>
    simp only [outlineThen, leaves, operations, List.length_cons, ihleft, ihright]
    omega

/-- A line whose own text is printable. -/
theorem printable_line {depth : Int} {head text : String}
    (hhead : head.toList.all Text.isAscii = true) (htext : Printable text.toList) :
    Printable (indentation depth ++ head ++ text).toList := by
  rw [String.toList_append, String.toList_append]
  exact ((printable_indentation depth).append (.of_ascii hhead)).append htext

theorem printable_outlineThen (e : Expression) (depth : Int) {after : List String}
    (h : ∀ line ∈ after, Printable line.toList) :
    ∀ line ∈ e.outlineThen depth after, Printable line.toList := by
  have hfixed {depth : Int} {head : String} (hhead : head.toList.all Text.isAscii = true) :
      Printable (indentation depth ++ head).toList := by
    rw [String.toList_append]
    exact (printable_indentation depth).append (.of_ascii hhead)
  induction e generalizing depth after with
  | number value =>
    refine List.forall_mem_cons.mpr ⟨hfixed rfl, List.forall_mem_cons.mpr ⟨?_, h⟩⟩
    exact printable_line rfl value.printable_toText
  | identifier name =>
    refine List.forall_mem_cons.mpr ⟨hfixed rfl, List.forall_mem_cons.mpr ⟨?_, h⟩⟩
    exact printable_line rfl (Text.printable_quoted name)
  | binary op left right ihleft ihright =>
    refine List.forall_mem_cons.mpr ⟨hfixed rfl, List.forall_mem_cons.mpr ⟨?_,
      List.forall_mem_cons.mpr ⟨hfixed rfl, ihleft _ (List.forall_mem_cons.mpr ⟨hfixed rfl,
        ihright _ h⟩)⟩⟩⟩
    exact printable_line rfl op.printable_label

/-- The first line of a tree names the kind of its root. -/
theorem kind_eq_of_outlineThen_eq {a b : Expression} {depth : Int} {after after' : List String}
    (h : a.outlineThen depth after = b.outlineThen depth after') :
    (Value.expression a).kind = (Value.expression b).kind := by
  have hfirst (e : Expression) (after : List String) : (e.outlineThen depth after).head? =
      some (indentation depth ++ (Value.expression e).kind) := by
    cases e <;> rfl
  have hhead := congrArg List.head? h
  rw [hfirst, hfirst] at hhead
  exact (String.append_right_inj _).mp (Option.some.inj hhead)

/-- Lines show which tree they start with, and where the lines of the tree end. -/
theorem outlineThen_unique {a b : Expression} (ha : a.NaNFree) (hb : b.NaNFree) {depth : Int}
    {after after' : List String} (h : a.outlineThen depth after = b.outlineThen depth after') :
    a = b ∧ after = after' := by
  induction a generalizing b depth after after' with
  | number value =>
    cases b with
    | number value' =>
      simp only [outlineThen, List.cons.injEq, String.append_right_inj, true_and] at h
      exact ⟨congrArg number (Double.toText_inj ha hb h.1), h.2⟩
    | identifier name | binary op left right =>
      have hkind := kind_eq_of_outlineThen_eq h
      simp [Value.kind] at hkind
  | identifier name =>
    cases b with
    | identifier name' =>
      simp only [outlineThen, List.cons.injEq, String.append_right_inj, true_and] at h
      exact ⟨congrArg identifier (Text.quoted_inj h.1), h.2⟩
    | number value | binary op left right =>
      have hkind := kind_eq_of_outlineThen_eq h
      simp [Value.kind] at hkind
  | binary op left right ihleft ihright =>
    cases b with
    | number value | identifier name =>
      have hkind := kind_eq_of_outlineThen_eq h
      simp [Value.kind] at hkind
    | binary op' left' right' =>
      simp only [outlineThen, List.cons.injEq, String.append_right_inj, true_and] at h
      obtain ⟨hop, hlines⟩ := h
      obtain ⟨rfl, hright⟩ := ihleft ha.1 hb.1 hlines
      obtain ⟨rfl, hafter⟩ := ihright ha.2 hb.2 (List.cons.inj hright).2
      exact ⟨by rw [Operator.label_inj hop], hafter⟩

theorem printable_outline (e : Expression) (depth : Int) :
    ∀ line ∈ (Value.expression e).outline depth, Printable line.toList :=
  printable_outlineThen e depth nofun

theorem outlineText_inj {a b : Expression} (ha : a.NaNFree) (hb : b.NaNFree) {depth : Int}
    (h : (Value.expression a).outlineText depth = (Value.expression b).outlineText depth) : a = b :=
  (outlineThen_unique ha hb
    (linesText_inj (printable_outline a depth) (printable_outline b depth) h)).1

/-! ## The text of an outline -/

/-- What can be said of an outline as a text, whatever the tree holds. -/
structure OutlineShape (e : Expression) (text : String) : Prop where
  /-- Two lines for a leaf and four for a binary node, however lines are told apart. -/
  breaks : text.toList.countP isLineBreak = 2 * e.leaves + 4 * e.operations
  lineEnds : text.toList.count '\n' = 2 * e.leaves + 4 * e.operations
  last : text.toList.getLast? = some '\n'
  /-- It is shown as it is, on every stream. -/
  shown : ∀ terminal, Text.written terminal text = text

theorem outlineText_shape (e : Expression) (depth : Int) :
    OutlineShape e ((Value.expression e).outlineText depth) := by
  have hprintable := printable_outline e depth
  have hlength : ((Value.expression e).outline depth).length = 2 * e.leaves + 4 * e.operations :=
    length_outlineThen e depth []
  refine ⟨?_, ?_, ?_, fun terminal => Text.written_self terminal ?_⟩
  · rw [← hlength]
    exact countP_linesText rfl (fun c => isLineBreak_of_isPrintable) hprintable
  · rw [← hlength]
    refine countP_linesText rfl (fun c hc => ?_) hprintable
    refine Bool.eq_false_iff.mpr fun hend => ?_
    rw [eq_of_beq hend] at hc
    cases hc
  · refine getLast?_linesText fun hnil => ?_
    cases e <;> cases hnil
  · exact not_mem_linesText (by decide) rfl hprintable

/-- Outlines tell trees apart, number by number bit for bit, and have as many lines as the
tree has fields, whatever characters its names hold. -/
theorem outlineText_faithful :
    (∀ (a b : Expression) (depth : Int), a.NaNFree → b.NaNFree →
      ((Value.expression a).outlineText depth = (Value.expression b).outlineText depth ↔ a = b)) ∧
    (∀ (e : Expression) (depth : Int), OutlineShape e ((Value.expression e).outlineText depth)) :=
  ⟨fun _ _ _ ha hb => ⟨outlineText_inj ha hb, fun h => by rw [h]⟩, outlineText_shape⟩

/-- The two zeros are told apart without indentation, behind a name that looks like lines. -/
theorem outlineText_faithful_zeros :
    let tree (zero : Double) :=
      binary .unknown (identifier "x'\nNumberLiteralExpression\n  value: 0.0") (number zero)
    (Value.expression (tree ⟨0⟩)).outlineText (-1) ≠
      (Value.expression (tree ⟨0x8000000000000000⟩)).outlineText (-1) := by
  intro tree h
  have hsame := (outlineText_faithful.1 (tree ⟨0⟩) (tree ⟨0x8000000000000000⟩) (-1)
    ⟨trivial, rfl⟩ ⟨trivial, rfl⟩).mp h
  exact absurd hsame (by decide)

end Expression
end Parlance
