import Parlance.Diagnostic
import Parlance.Proofs.Quotation
import Parlance.Text.Stream

/-! # What is shown on a stream

A text without escape characters is written as it is. A rendered diagnostic has escape
characters only in its colours, and each colour is one whole control sequence. So a
diagnostic rendered in colours is shown in colours on a terminal, and on any other stream
as if colours had been off. -/
namespace Parlance

/-! ## Control sequences -/

namespace Text

variable {text rest : List Char}

theorem plainChars_append (h : escapeMark ∉ text) :
    plainChars (text ++ rest) = text ++ plainChars rest := by
  induction text with
  | nil => rfl
  | cons c text ih =>
    obtain ⟨hc, htext⟩ := not_or.mp (mt List.mem_cons.mpr h)
    rw [List.cons_append, plainChars, if_neg (Ne.symm hc), ih htext]
    rfl

theorem plainChars_of_not_mem (h : escapeMark ∉ text) : plainChars text = text := by
  have happend : plainChars (text ++ []) = text ++ plainChars [] := plainChars_append h
  rwa [plainChars, List.append_nil] at happend

theorem plainChars_sequence (h : afterSequence? text = some rest) :
    plainChars (escapeMark :: text) = plainChars rest := by
  rw [plainChars, if_pos rfl]
  split
  · next behind heq =>
    rw [h] at heq
    cases heq
    rfl
  · next heq =>
    rw [h] at heq
    cases heq

theorem plain_eq (text : String) : plain text = String.ofList (plainChars text.toList) := by
  rw [plain]
  split
  · rfl
  · next h =>
    rw [plainChars_of_not_mem (by simpa using h), String.ofList_toList]

/-- A text with nothing to strip is written as it is. -/
theorem written_self (terminal : Bool) {text : String} (h : escapeMark ∉ text.toList) :
    written terminal text = text := by
  have hplain : plain text = text := if_neg (by simpa using h)
  rw [written, hplain, ite_self]

end Text

/-! ## Diagnostics -/

namespace Diagnostic

open Text (plainChars escapeMark Printable plainChars_append plainChars_sequence)

def palette : List String :=
  [Severity.error.color, Severity.warning.color, Severity.note.color, bold, blue, reset]

theorem color_mem_palette (s : Severity) : s.color ∈ palette := by
  cases s <;> decide

theorem plainChars_paint (color : Bool) {sequence : String} (h : sequence ∈ palette)
    (rest : List Char) : plainChars ((paint color sequence).toList ++ rest) = plainChars rest := by
  cases color with
  | false => rfl
  | true =>
    simp only [palette, List.mem_cons, List.not_mem_nil, or_false] at h
    rcases h with rfl | rfl | rfl | rfl | rfl | rfl
    all_goals exact plainChars_sequence rfl

def opening (d : Diagnostic) : List Char :=
  d.severity.label.toList ++ (['['] ++ (d.code.toList ++ [']']))

def body (d : Diagnostic) : List Char := [':', ' '] ++ d.message.toList

/-- A first line is two parts in their colours. -/
theorem toList_headLine (d : Diagnostic) (color : Bool) :
    (d.headLine color).toList = (paint color d.severity.color).toList ++ (d.opening ++
      ((paint color reset).toList ++ ((paint color bold).toList ++ (d.body ++
        (paint color reset).toList)))) := by
  simp [headLine, opening, body, String.toList_append]

theorem toList_headLine_false (d : Diagnostic) :
    (d.headLine false).toList = d.opening ++ d.body := by
  rw [toList_headLine, paint, paint, paint]
  simp

variable {d : Diagnostic}

/-- A diagnostic whose own texts are printable, without notes. -/
structure IsPlain (d : Diagnostic) : Prop where
  code : Printable d.code.toList
  message : Printable d.message.toList
  notes : d.notes = []

namespace IsPlain

theorem opening (h : d.IsPlain) : Printable d.opening := by
  have hlabel : Printable d.severity.label.toList := by
    cases d.severity <;> exact .of_ascii rfl
  have hopened : Printable ['['] := .of_ascii rfl
  have hclosed : Printable [']'] := .of_ascii rfl
  exact hlabel.append (hopened.append (h.code.append hclosed))

theorem body (h : d.IsPlain) : Printable d.body := by
  have hcolon : Printable [':', ' '] := .of_ascii rfl
  exact hcolon.append h.message

/-- Stripping the colours of a first line gives the line without colours. -/
theorem plainChars_headLine (h : d.IsPlain) (color : Bool) (rest : List Char) :
    plainChars ((d.headLine color).toList ++ rest) =
      (d.headLine false).toList ++ plainChars rest := by
  have hreset : reset ∈ palette := by decide
  have hbold : bold ∈ palette := by decide
  rw [toList_headLine, toList_headLine_false]
  simp only [List.append_assoc]
  rw [plainChars_paint color (color_mem_palette d.severity),
    plainChars_append (h.opening.not_mem rfl), plainChars_paint color hreset,
    plainChars_paint color hbold, plainChars_append (h.body.not_mem rfl),
    plainChars_paint color hreset]

theorem render_eq (h : d.IsPlain) (color : Bool) : d.render color = d.headLine color := by
  rw [render, h.notes]
  rfl

/-- A diagnostic is shown in colours if they are on and the stream is a terminal. -/
theorem written_render (h : d.IsPlain) (color terminal : Bool) :
    Text.written terminal (d.render color ++ "\n") = d.render (color && terminal) ++ "\n" := by
  rw [h.render_eq, h.render_eq]
  have hplain : Text.plain (d.headLine color ++ "\n") = d.headLine false ++ "\n" := by
    apply String.toList_inj.mp
    rw [Text.plain_eq, String.toList_ofList, String.toList_append, h.plainChars_headLine,
      Text.plainChars_of_not_mem (by decide), String.toList_append]
  rw [Text.written]
  cases terminal with
  | false =>
    rw [if_neg Bool.false_ne_true, Bool.and_false]
    exact hplain
  | true => rw [if_pos rfl, Bool.and_true]

end IsPlain
end Diagnostic
end Parlance
