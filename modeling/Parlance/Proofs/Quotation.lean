import Parlance.Text.Quoted
import Mathlib.Data.Nat.Digits.Defs

/-! # Quoted texts read back

Each character of a text stands between the quotes as itself or as an escape, and an escape
shows where it ends: a letter says how many digits follow, and there are always that many.
So quoted texts read back, character by character, and tell texts apart. All that stands
in a quoted text is printable; no line break is. -/
namespace Parlance.Text

/-! ## Hexadecimal digits -/

def hexValue (c : Char) : Nat := if c.isDigit then c.toNat - 48 else c.toNat - 87

/-- The number that hexadecimal digits stand for, in front of which `n` has been read. -/
def ofHex (n : Nat) (digits : List Char) : Nat :=
  digits.foldl (fun value c => 16 * value + hexValue c) n

theorem ofHex_append (n : Nat) (digits more : List Char) :
    ofHex n (digits ++ more) = ofHex (ofHex n digits) more := List.foldl_append

theorem hexValue_digitChar : ∀ d < 16, hexValue (Nat.digitChar d) = d := by decide

theorem ofHex_digitChar (n : Nat) {d : Nat} (h : d < 16) :
    ofHex n [Nat.digitChar d] = 16 * n + d := by
  rw [ofHex, List.foldl_cons, List.foldl_nil, hexValue_digitChar d h]

theorem ofHex_toDigits (n : Nat) : ofHex 0 (Nat.toDigits 16 n) = n := by
  induction n using Nat.strongRecOn with
  | ind n ih =>
    rw [Nat.toDigits_eq_if (by decide)]
    split
    · next hsmall => rw [ofHex_digitChar 0 hsmall, Nat.mul_zero, Nat.zero_add]
    · next hlarge =>
      rw [ofHex_append, ih (n / 16) (by omega), ofHex_digitChar _ (Nat.mod_lt n (by decide))]
      exact Nat.div_add_mod n 16

theorem ofHex_zeros (count : Nat) : ofHex 0 (List.replicate count '0') = 0 := by
  induction count with
  | zero => rfl
  | succ count ih => exact ih

theorem ofHex_hexPadded (width n : Nat) : ofHex 0 (hexPadded width n) = n := by
  rw [hexPadded, ofHex_append, ofHex_zeros, ofHex_toDigits]

theorem length_hexPadded {width n : Nat} (hwidth : 0 < width) (h : n < 16 ^ width) :
    (hexPadded width n).length = width := by
  have hlength := (Nat.length_toDigits_le_iff (by decide) hwidth).mpr h
  rw [hexPadded, List.length_append, List.length_replicate]
  omega

/-! ## Reading a character back -/

/-- The number of digits that an escape letter announces. -/
def escapeWidth? : Char → Option Nat
  | 'x' => some 2
  | 'u' => some 4
  | 'U' => some 8
  | _ => none

/-- What a character stands for behind a backslash, where no digits follow it. -/
def unescaped : Char → Char
  | 'n' => '\n'
  | 'r' => '\r'
  | 't' => '\t'
  | c => c

/-- The first character that is quoted, and what follows it. -/
def readChar? : List Char → Option (Char × List Char)
  | [] => none
  | '\\' :: letter :: rest =>
    match escapeWidth? letter with
    | some width => some (Char.ofNat (ofHex 0 (rest.take width)), rest.drop width)
    | none => some (unescaped letter, rest)
  | c :: rest => some (c, rest)

theorem readChar?_of_ne {c : Char} (h : c ≠ '\\') (rest : List Char) :
    readChar? (c :: rest) = some (c, rest) := by
  unfold readChar?
  split
  · next heq => cases heq
  · next heq =>
    cases heq
    exact absurd rfl h
  · next heq =>
    cases heq
    rfl

theorem readChar?_hex {letter : Char} {width : Nat} (hletter : escapeWidth? letter = some width)
    (hwidth : 0 < width) {c : Char} (hc : c.toNat < 16 ^ width) (rest : List Char) :
    readChar? ('\\' :: letter :: (hexPadded width c.toNat ++ rest)) = some (c, rest) := by
  have hlength := length_hexPadded hwidth hc
  have htake : (hexPadded width c.toNat ++ rest).take width = hexPadded width c.toNat :=
    List.take_left' hlength
  have hdrop : (hexPadded width c.toNat ++ rest).drop width = rest := List.drop_left' hlength
  simp only [readChar?, hletter]
  rw [htake, hdrop, ofHex_hexPadded, Char.ofNat_toNat]

variable {mark : Char}

theorem readChar?_escapeChar (hmark : mark ∈ ['\'', '"']) (c : Char) (rest : List Char) :
    readChar? (escapeChar mark c ++ rest) = some (c, rest) := by
  simp only [List.mem_cons, List.not_mem_nil, or_false] at hmark
  rw [escapeChar]
  split
  · next hplain => rcases hplain with rfl | rfl <;> rcases hmark with rfl | rfl <;> rfl
  · next hplain =>
    split
    · next hc =>
      rw [hc]
      rfl
    split
    · next hc =>
      rw [hc]
      rfl
    split
    · next hc =>
      rw [hc]
      rfl
    split
    · exact readChar?_of_ne (fun hc => hplain (Or.inr hc)) rest
    split
    · next hc => exact readChar?_hex rfl (by decide) hc rest
    split
    · next hc => exact readChar?_hex rfl (by decide) hc rest
    · have hmax : c.toNat < 16 ^ 8 := c.val.toNat_lt
      exact readChar?_hex rfl (by decide) hmax rest

theorem escapeChar_unique (hmark : mark ∈ ['\'', '"']) {c c' : Char} {rest rest' : List Char}
    (h : escapeChar mark c ++ rest = escapeChar mark c' ++ rest') : c = c' ∧ rest = rest' := by
  have hread := congrArg readChar? h
  rw [readChar?_escapeChar hmark, readChar?_escapeChar hmark] at hread
  cases hread
  exact ⟨rfl, rfl⟩

theorem escapeChar_ne_nil (hmark : mark ∈ ['\'', '"']) (c : Char) : escapeChar mark c ≠ [] := by
  intro hnil
  have hread := readChar?_escapeChar hmark c []
  rw [hnil] at hread
  cases hread

theorem flatMap_escapeChar_inj (hmark : mark ∈ ['\'', '"']) {text text' : List Char}
    (h : text.flatMap (escapeChar mark) = text'.flatMap (escapeChar mark)) : text = text' := by
  induction text generalizing text' with
  | nil =>
    cases text' with
    | nil => rfl
    | cons c rest =>
      exact absurd (List.append_eq_nil_iff.mp h.symm).1 (escapeChar_ne_nil hmark c)
  | cons c rest ih =>
    cases text' with
    | nil => exact absurd (List.append_eq_nil_iff.mp h).1 (escapeChar_ne_nil hmark c)
    | cons c' rest' =>
      obtain ⟨rfl, hrest⟩ := escapeChar_unique hmark h
      rw [ih hrest]

/-! ## Quotes -/

theorem quoteMark_mem (text : List Char) : quoteMark text ∈ ['\'', '"'] := by
  rw [quoteMark]
  split <;> decide

theorem quoteChars_inj {text text' : List Char} (h : quoteChars text = quoteChars text') :
    text = text' := by
  obtain ⟨hmark, hbehind⟩ := List.cons.inj h
  rw [← hmark] at hbehind
  exact flatMap_escapeChar_inj (quoteMark_mem text) (List.append_cancel_right hbehind)

/-- Quoted texts tell texts apart. -/
theorem quoted_inj {text text' : String} (h : quoted text = quoted text') : text = text' :=
  String.toList_inj.mp (quoteChars_inj (String.ofList_inj.mp h))

/-! ## Printable characters -/

/-- ASCII without its control characters. -/
def isAscii (c : Char) : Bool := 0x20 ≤ c.toNat && c.toNat < 0x7f

/-- Characters that may all stand in quoted text as they are. -/
def Printable (text : List Char) : Prop := ∀ c ∈ text, isPrintable c = true

theorem isPrintable_of_isAscii {c : Char} (h : isAscii c = true) : isPrintable c = true := by
  have hranges : ∀ range ∈ unprintableRanges, range.2 < 0x20 ∨ 0x7f ≤ range.1 := by decide +kernel
  simp only [isAscii, Bool.and_eq_true, decide_eq_true_eq] at h
  rw [isPrintable, Bool.not_eq_true', List.any_eq_false]
  intro range hrange hin
  simp only [Bool.and_eq_true, decide_eq_true_eq] at hin
  rcases hranges range hrange with hbelow | habove <;> omega

namespace Printable

variable {text more : List Char}

theorem of_ascii (h : text.all isAscii = true) : Printable text :=
  fun c hc => isPrintable_of_isAscii (List.all_eq_true.mp h c hc)

theorem append (h : Printable text) (hmore : Printable more) : Printable (text ++ more) :=
  List.forall_mem_append.mpr ⟨h, hmore⟩

theorem not_mem {c : Char} (h : Printable text) (hc : isPrintable c = false) : c ∉ text := by
  intro hmem
  rw [h c hmem] at hc
  cases hc

theorem flatMap {f : Char → List Char} (h : ∀ c, Printable (f c)) : Printable (text.flatMap f) := by
  intro d hd
  obtain ⟨c, _, hc⟩ := List.mem_flatMap.mp hd
  exact h c d hc

end Printable

theorem printable_toDigits (n : Nat) : Printable (Nat.toDigits 16 n) := by
  have hdigit : ∀ d < 16, [Nat.digitChar d].all isAscii = true := by decide
  induction n using Nat.strongRecOn with
  | ind n ih =>
    rw [Nat.toDigits_eq_if (by decide)]
    split
    · next hsmall => exact .of_ascii (hdigit n hsmall)
    · exact (ih (n / 16) (by omega)).append (.of_ascii (hdigit (n % 16) (Nat.mod_lt n (by decide))))

theorem printable_hexPadded (width n : Nat) : Printable (hexPadded width n) := by
  have hzeros : (List.replicate (width - (Nat.toDigits 16 n).length) '0').all isAscii = true := by
    rw [List.all_replicate]
    split <;> rfl
  exact (Printable.of_ascii hzeros).append (printable_toDigits n)

theorem printable_escapeChar (hmark : mark ∈ ['\'', '"']) (c : Char) :
    Printable (escapeChar mark c) := by
  have hhex : ∀ letter ∈ ['x', 'u', 'U'], ∀ width,
      Printable ('\\' :: letter :: hexPadded width c.toNat) := by
    intro letter hletter width
    have hopening : ['\\', letter].all isAscii = true := by
      simp only [List.mem_cons, List.not_mem_nil, or_false] at hletter
      rcases hletter with rfl | rfl | rfl <;> rfl
    exact (Printable.of_ascii hopening).append (printable_hexPadded width c.toNat)
  simp only [List.mem_cons, List.not_mem_nil, or_false] at hmark
  rw [escapeChar]
  split
  · next hplain =>
    rcases hplain with rfl | rfl
    · rcases hmark with rfl | rfl <;> exact .of_ascii rfl
    · exact .of_ascii rfl
  split
  · exact .of_ascii rfl
  split
  · exact .of_ascii rfl
  split
  · exact .of_ascii rfl
  split
  · next hprintable =>
    intro d hd
    rw [List.mem_singleton.mp hd]
    exact hprintable
  split
  · exact hhex 'x' (by decide) 2
  split
  · exact hhex 'u' (by decide) 4
  · exact hhex 'U' (by decide) 8

/-- All of a quoted text is printable. -/
theorem printable_quoted (text : String) : Printable (quoted text).toList := by
  have hmark := quoteMark_mem text.toList
  have hquote : [quoteMark text.toList].all isAscii = true := by
    rw [quoteMark]
    split <;> rfl
  rw [quoted, String.toList_ofList]
  exact (Printable.of_ascii hquote).append
    ((Printable.flatMap (printable_escapeChar hmark)).append (.of_ascii hquote))

end Parlance.Text
