import Parlance.Proofs.Rounding

/-! # Texts of decimals

A decimal is written positionally or with an exponent mark, as a layout says.
`Decimal.ofText` reads either form, and what is written reads back to a decimal of the same
value, which rounds to the same double (`toDouble_ofText_write`); the decimal itself may
come back with zeros moved between its digits and its exponent. A written decimal begins
with a digit and holds characters of numbers only. -/
namespace Parlance

theorem pow10_pos (n : Nat) : 0 < pow10 n := Nat.pow_pos (by decide)

theorem pow10_add (m n : Nat) : pow10 (m + n) = pow10 m * pow10 n := Nat.pow_add 10 m n

/-! ## Decimals -/

namespace Decimal

theorem magnitudeCode_toDouble (d : Decimal) :
    d.toDouble.magnitudeCode = Double.nearestCode d.num d.den :=
  Double.magnitudeCode_ofCode (Double.nearestCode_lt _ _) false

theorem den_pos (d : Decimal) : 0 < d.den := pow10_pos _

theorem toDouble_eq_of_value {d d' : Decimal} (h : d.num * d'.den = d'.num * d.den) :
    d.toDouble = d'.toDouble := by
  rw [toDouble, toDouble, Double.nearest, Double.nearest,
    Double.nearestCode_congr d.den_pos d'.den_pos h]

/-- Zeros at the end of the digits may as well be counted in the exponent. -/
theorem toDouble_shift (m k : Nat) (exponent : Int) :
    (⟨m * pow10 k, exponent⟩ : Decimal).toDouble = (⟨m, exponent + k⟩ : Decimal).toDouble := by
  refine toDouble_eq_of_value ?_
  have hexponents : k + exponent.toNat + (-(exponent + k)).toNat =
      (exponent + k).toNat + (-exponent).toNat := by omega
  simp only [num, den]
  rw [Nat.mul_assoc m, Nat.mul_assoc m, ← pow10_add, ← pow10_add, hexponents, pow10_add,
    Nat.mul_assoc m]

theorem toDouble_trim (fuel : Nat) (d : Decimal) : (d.trim fuel).toDouble = d.toDouble := by
  induction fuel generalizing d with
  | zero => rfl
  | succ fuel ih =>
    rw [trim]
    split
    · next htrailing =>
      have hdigits : d.digits / 10 * pow10 1 = d.digits :=
        Nat.div_mul_cancel (Nat.dvd_of_mod_eq_zero htrailing.1)
      calc (trim fuel ⟨d.digits / 10, d.exponent + 1⟩).toDouble
          = (⟨d.digits / 10, d.exponent + (1 : Nat)⟩ : Decimal).toDouble := ih _
        _ = (⟨d.digits / 10 * pow10 1, d.exponent⟩ : Decimal).toDouble :=
          (toDouble_shift _ 1 _).symm
        _ = d.toDouble := by rw [hdigits]
    · rfl

end Decimal

/-! ## Reading a decimal -/

namespace Decimal

/-- The exponent that an exponent mark stands for; zero without one. -/
def exponentOf : List Char → Int
  | 'e' :: '-' :: digits => -Nat.ofDigitChars 10 digits 0
  | 'e' :: '+' :: digits => Nat.ofDigitChars 10 digits 0
  | _ => 0

theorem exponentOf_nil : exponentOf [] = 0 := rfl

def fractionOf (mantissa : List Char) : List Char := (mantissa.dropWhile (· ≠ '.')).drop 1

/-- The decimal that a text of digits denotes, with or without a point among them and an
exponent mark behind them. -/
def ofText (text : List Char) : Decimal :=
  let mantissa := text.takeWhile (· ≠ 'e')
  ⟨Nat.ofDigitChars 10 (mantissa.filter (· ≠ '.')) 0,
    exponentOf (text.dropWhile (· ≠ 'e')) - (fractionOf mantissa).length⟩

theorem ofText_append {mantissa mark : List Char} (hmantissa : ∀ c ∈ mantissa, c ≠ 'e')
    (hmark : ∀ c, mark.head? = some c → c = 'e') :
    ofText (mantissa ++ mark) = ⟨Nat.ofDigitChars 10 (mantissa.filter (· ≠ '.')) 0,
      exponentOf mark - (fractionOf mantissa).length⟩ := by
  have hall : ∀ c ∈ mantissa, decide (c ≠ 'e') = true := fun c hc => decide_eq_true (hmantissa c hc)
  have htake : mark.takeWhile (· ≠ 'e') = [] := by
    cases mark with
    | nil => rfl
    | cons c rest => simp [hmark c rfl]
  have hdrop : mark.dropWhile (· ≠ 'e') = mark := by
    cases mark with
    | nil => rfl
    | cons c rest => simp [hmark c rfl]
  unfold ofText
  rw [List.takeWhile_append_of_pos hall, List.dropWhile_append_of_pos hall, htake, hdrop,
    List.append_nil]

theorem ne_of_isDigit {c : Char} (h : c.isDigit = true) : c ≠ 'e' ∧ c ≠ '.' ∧ c ≠ '-' := by
  refine ⟨?_, ?_, ?_⟩ <;> rintro rfl <;> cases h

section Digits

variable {whole fraction : List Char}

theorem filter_digits (h : ∀ c ∈ whole, c.isDigit = true) : whole.filter (· ≠ '.') = whole :=
  List.filter_eq_self.mpr fun c hc => decide_eq_true (ne_of_isDigit (h c hc)).2.1

theorem fractionOf_digits (h : ∀ c ∈ whole, c.isDigit = true) : fractionOf whole = [] := by
  have hall : ∀ c ∈ whole, decide (c ≠ '.') = true :=
    fun c hc => decide_eq_true (ne_of_isDigit (h c hc)).2.1
  have hdrop : whole.dropWhile (· ≠ '.') = [] := by
    rw [← List.append_nil whole, List.dropWhile_append_of_pos hall, List.dropWhile_nil]
  rw [fractionOf, hdrop, List.drop_nil]

theorem fractionOf_point (h : ∀ c ∈ whole, c.isDigit = true) :
    fractionOf (whole ++ '.' :: fraction) = fraction := by
  have hall : ∀ c ∈ whole, decide (c ≠ '.') = true :=
    fun c hc => decide_eq_true (ne_of_isDigit (h c hc)).2.1
  rw [fractionOf, List.dropWhile_append_of_pos hall]
  simp

/-- Digits without a point. -/
theorem ofText_whole (h : ∀ c ∈ whole, c.isDigit = true) {mark : List Char}
    (hmark : ∀ c, mark.head? = some c → c = 'e') :
    ofText (whole ++ mark) = ⟨Nat.ofDigitChars 10 whole 0, exponentOf mark⟩ := by
  rw [ofText_append (fun c hc => (ne_of_isDigit (h c hc)).1) hmark, filter_digits h,
    fractionOf_digits h, List.length_nil]
  simp

/-- Digits on either side of a point. -/
theorem ofText_point (hwhole : ∀ c ∈ whole, c.isDigit = true)
    (hfraction : ∀ c ∈ fraction, c.isDigit = true) {mark : List Char}
    (hmark : ∀ c, mark.head? = some c → c = 'e') :
    ofText (whole ++ '.' :: fraction ++ mark) =
      ⟨Nat.ofDigitChars 10 (whole ++ fraction) 0, exponentOf mark - fraction.length⟩ := by
  have hmantissa : ∀ c ∈ whole ++ '.' :: fraction, c ≠ 'e' := by
    intro c hc
    rcases List.mem_append.mp hc with hc | hc
    · exact (ne_of_isDigit (hwhole c hc)).1
    · rcases List.mem_cons.mp hc with rfl | hc
      · decide
      · exact (ne_of_isDigit (hfraction c hc)).1
  have hfilter : (whole ++ '.' :: fraction).filter (· ≠ '.') = whole ++ fraction := by
    rw [List.filter_append, filter_digits hwhole, List.filter_cons_of_neg (by simp),
      filter_digits hfraction]
  rw [ofText_append hmantissa hmark, hfilter, fractionOf_point hwhole]

end Digits

end Decimal

/-! ## Reading what is written -/

namespace Layout

open Parlance.Decimal

variable {digits : List Char}

theorem isDigit_of_mem_zeros {n : Nat} : ∀ c ∈ zeros n, c.isDigit = true := by
  intro c hc
  rw [List.eq_of_mem_replicate hc]
  rfl

theorem isDigit_of_mem_toDigits {n : Nat} : ∀ c ∈ Nat.toDigits 10 n, c.isDigit = true :=
  fun _ hc => Nat.isDigit_of_mem_toDigits (by decide) (by decide) hc

theorem isDigit_of_mem_append {xs ys : List Char} (hxs : ∀ c ∈ xs, c.isDigit = true)
    (hys : ∀ c ∈ ys, c.isDigit = true) : ∀ c ∈ xs ++ ys, c.isDigit = true := by
  intro c hc
  exact (List.mem_append.mp hc).elim (hxs c) (hys c)

theorem ofDigitChars_zeros_append (n : Nat) (digits : List Char) :
    Nat.ofDigitChars 10 (zeros n ++ digits) 0 = Nat.ofDigitChars 10 digits 0 := by
  rw [Nat.ofDigitChars_append, zeros, Nat.ofDigitChars_replicate_zero, Nat.mul_zero]

theorem ofDigitChars_append_zeros (digits : List Char) (n : Nat) :
    Nat.ofDigitChars 10 (digits ++ zeros n) 0 = Nat.ofDigitChars 10 digits 0 * pow10 n := by
  rw [Nat.ofDigitChars_append, zeros, Nat.ofDigitChars_replicate_zero, Nat.mul_comm]
  rfl

theorem exponentOf_exponentText (width : Nat) (exponent : Int) :
    exponentOf ('e' :: exponentText width exponent) = exponent := by
  have hdigits : ∀ n, Nat.ofDigitChars 10 (zeros n ++ Nat.toDigits 10 exponent.natAbs) 0 =
      exponent.natAbs := by
    intro n
    rw [ofDigitChars_zeros_append, Nat.ofDigitChars_ten_toDigits]
  unfold exponentText
  dsimp only
  by_cases hnegative : exponent < 0
  · rw [if_pos hnegative, exponentOf, hdigits]
    omega
  · rw [if_neg hnegative, exponentOf, hdigits]
    omega

section Positional

variable {point : Int}

/-- Digits on either side of a point, with no exponent mark behind them. -/
theorem ofText_pointed {whole fraction : List Char} (hwhole : ∀ c ∈ whole, c.isDigit = true)
    (hfraction : ∀ c ∈ fraction, c.isDigit = true) :
    ofText (whole ++ '.' :: fraction) =
      ⟨Nat.ofDigitChars 10 (whole ++ fraction) 0, -(fraction.length : Int)⟩ := by
  have hnone : ∀ c, ([] : List Char).head? = some c → c = 'e' := by simp
  have hread := ofText_point hwhole hfraction hnone
  rwa [List.append_nil, exponentOf_nil, Int.zero_sub] at hread

theorem ofText_positional_front (h : ∀ c ∈ digits, c.isDigit = true) (hpoint : point ≤ 0) :
    ofText (positional digits point) =
      ⟨Nat.ofDigitChars 10 digits 0, point - digits.length⟩ := by
  have hread := ofText_pointed (isDigit_of_mem_zeros (n := 1))
    (isDigit_of_mem_append (isDigit_of_mem_zeros (n := (-point).toNat)) h)
  rw [positional, if_pos hpoint]
  refine hread.trans ?_
  rw [← List.append_assoc, zeros, zeros, List.replicate_append_replicate]
  congr 1
  · exact ofDigitChars_zeros_append _ digits
  · rw [List.length_append, List.length_replicate]
    omega

theorem ofText_positional_among (h : ∀ c ∈ digits, c.isDigit = true) (hpoint : 0 < point)
    (hlt : point.toNat < digits.length) :
    ofText (positional digits point) =
      ⟨Nat.ofDigitChars 10 digits 0, point - digits.length⟩ := by
  have hrest : digits.drop point.toNat ≠ [] := by
    rw [Ne, List.drop_eq_nil_iff]
    omega
  have hpadding : zeros (point.toNat - digits.length) = [] := by
    rw [Nat.sub_eq_zero_of_le (Nat.le_of_lt hlt)]
    rfl
  have hread := ofText_pointed (fun c hc => h c (List.mem_of_mem_take (i := point.toNat) hc))
    (fun c hc => h c (List.mem_of_mem_drop (i := point.toNat) hc))
  rw [List.take_append_drop, List.length_drop] at hread
  rw [positional, if_neg (by omega)]
  dsimp only
  split
  · next hnil => exact absurd hnil hrest
  · rw [hpadding, List.append_nil, hread]
    congr 1
    omega

theorem ofText_positional_behind (h : ∀ c ∈ digits, c.isDigit = true) (hpoint : 0 < point)
    (hle : digits.length ≤ point.toNat) :
    ofText (positional digits point) =
      ⟨Nat.ofDigitChars 10 digits 0 * pow10 (point.toNat - digits.length + 1), -1⟩ := by
  have hread := ofText_pointed
    (isDigit_of_mem_append h (isDigit_of_mem_zeros (n := point.toNat - digits.length)))
    (isDigit_of_mem_zeros (n := 1))
  have hzeros : digits ++ zeros (point.toNat - digits.length) ++ zeros 1 =
      digits ++ zeros (point.toNat - digits.length + 1) := by
    rw [List.append_assoc, zeros, zeros, List.replicate_append_replicate]
    rfl
  rw [hzeros, ofDigitChars_append_zeros] at hread
  rw [positional, if_neg (by omega)]
  dsimp only
  rw [List.drop_of_length_le hle, List.take_of_length_le hle]
  exact hread

/-- The point may have been moved behind zeros that were put after the digits. -/
theorem ofText_positional (h : ∀ c ∈ digits, c.isDigit = true) (point : Int) :
    ∃ k : Nat, ofText (positional digits point) =
      ⟨Nat.ofDigitChars 10 digits 0 * pow10 k, point - digits.length - k⟩ := by
  have hplain : (⟨Nat.ofDigitChars 10 digits 0, point - digits.length⟩ : Decimal) =
      ⟨Nat.ofDigitChars 10 digits 0 * pow10 0, point - digits.length - (0 : Nat)⟩ := by
    rw [show pow10 0 = 1 from rfl, Nat.mul_one, Int.natCast_zero, Int.sub_zero]
  rcases Int.lt_or_le 0 point with hpoint | hpoint
  · rcases Nat.lt_or_ge point.toNat digits.length with hlt | hge
    · exact ⟨0, (ofText_positional_among h hpoint hlt).trans hplain⟩
    · refine ⟨point.toNat - digits.length + 1, (ofText_positional_behind h hpoint hge).trans ?_⟩
      congr 1
      omega
  · exact ⟨0, (ofText_positional_front h hpoint).trans hplain⟩

end Positional

theorem ofText_scientific (h : ∀ c ∈ digits, c.isDigit = true) (hne : digits ≠ []) (width : Nat)
    (exponent : Int) : ofText (scientific width digits exponent) =
      ⟨Nat.ofDigitChars 10 digits 0, exponent - digits.length + 1⟩ := by
  have hmark : ∀ c, ('e' :: exponentText width exponent).head? = some c → c = 'e' := by
    intro c hc
    cases hc
    rfl
  obtain _ | ⟨first, _ | ⟨second, rest⟩⟩ := digits
  · exact absurd rfl hne
  · refine (ofText_whole h hmark).trans ?_
    rw [exponentOf_exponentText, List.length_singleton]
    congr 1
    omega
  · obtain ⟨hdigit, hrest⟩ := List.forall_mem_cons.mp h
    refine (ofText_point (List.forall_mem_singleton.mpr hdigit) hrest hmark).trans ?_
    rw [exponentOf_exponentText]
    congr 1
    simp only [List.length_cons]
    omega

theorem toDouble_ofText_write (layout : Layout) (d : Decimal) :
    (ofText (layout.write d)).toDouble = d.toDouble := by
  unfold write
  dsimp only
  split
  · obtain ⟨k, hread⟩ := ofText_positional isDigit_of_mem_toDigits
      (d.exponent + (Nat.toDigits 10 d.digits).length - 1 + 1)
    rw [hread, toDouble_shift, Nat.ofDigitChars_ten_toDigits]
    congr 2
    omega
  · rw [ofText_scientific isDigit_of_mem_toDigits Nat.toDigits_ne_nil,
      Nat.ofDigitChars_ten_toDigits]
    congr 2
    omega

end Layout

/-! ## The characters of numbers -/

/-- A character of a number: a digit, a sign, a point or the letter of an exponent. -/
def isNumeral (c : Char) : Bool := c.isDigit || c ∈ ['.', 'e', '+', '-']

/-- The text begins with a digit and holds characters of numbers only. -/
structure IsUnsigned (text : List Char) : Prop where
  begins : ∃ c rest, text = c :: rest ∧ c.isDigit = true
  chars : ∀ c ∈ text, isNumeral c = true

theorem isNumeral_of_isDigit {c : Char} (h : c.isDigit = true) : isNumeral c = true := by
  rw [isNumeral, h, Bool.true_or]

namespace IsUnsigned

variable {text more : List Char}

theorem of_digits (h : ∀ c ∈ text, c.isDigit = true) (hne : text ≠ []) : IsUnsigned text where
  begins := by
    obtain ⟨c, rest, rfl⟩ := List.exists_cons_of_ne_nil hne
    exact ⟨c, rest, rfl, h c List.mem_cons_self⟩
  chars c hc := isNumeral_of_isDigit (h c hc)

theorem append (h : IsUnsigned text) (hmore : ∀ c ∈ more, isNumeral c = true) :
    IsUnsigned (text ++ more) where
  begins := by
    obtain ⟨c, rest, rfl, hdigit⟩ := h.begins
    exact ⟨c, rest ++ more, rfl, hdigit⟩
  chars c hc := (List.mem_append.mp hc).elim (h.chars c) (hmore c)

theorem head_ne {c : Char} (h : IsUnsigned text) (hc : c.isDigit = false) :
    text.head? ≠ some c := by
  obtain ⟨d, rest, rfl, hdigit⟩ := h.begins
  rintro ⟨rfl⟩
  rw [hc] at hdigit
  cases hdigit

end IsUnsigned

namespace Layout

variable {digits : List Char}

theorem isNumeral_cons {c : Char} {cs : List Char} (hc : isNumeral c = true)
    (hcs : ∀ d ∈ cs, isNumeral d = true) : ∀ d ∈ c :: cs, isNumeral d = true := by
  intro d hd
  rcases List.mem_cons.mp hd with rfl | hd
  · exact hc
  · exact hcs d hd

theorem isUnsigned_positional (h : ∀ c ∈ digits, c.isDigit = true) (hne : digits ≠ [])
    (point : Int) : IsUnsigned (positional digits point) := by
  unfold positional
  split
  · have hzero : IsUnsigned ['0'] := .of_digits (isDigit_of_mem_zeros (n := 1)) (by simp)
    exact hzero.append (isNumeral_cons rfl fun c hc =>
      isNumeral_of_isDigit (isDigit_of_mem_append isDigit_of_mem_zeros h c hc))
  · next hright =>
    have htaken : ∀ c ∈ digits.take point.toNat, c.isDigit = true :=
      fun c hc => h c (List.mem_of_mem_take hc)
    have hwhole : IsUnsigned (digits.take point.toNat ++ zeros (point.toNat - digits.length)) := by
      refine IsUnsigned.of_digits (isDigit_of_mem_append htaken isDigit_of_mem_zeros) ?_
      intro hempty
      rcases List.take_eq_nil_iff.mp (List.append_eq_nil_iff.mp hempty).1 with hzero | hnil
      · omega
      · exact hne hnil
    dsimp only
    split
    · exact hwhole.append (isNumeral_cons rfl (isNumeral_cons rfl (by simp)))
    · exact hwhole.append (isNumeral_cons rfl fun c hc =>
        isNumeral_of_isDigit (h c (List.mem_of_mem_drop hc)))

theorem isNumeral_exponentText (width : Nat) (exponent : Int) :
    ∀ c ∈ exponentText width exponent, isNumeral c = true := by
  refine isNumeral_cons ?_ fun c hc =>
    isNumeral_of_isDigit (isDigit_of_mem_append isDigit_of_mem_zeros isDigit_of_mem_toDigits c hc)
  split <;> rfl

theorem isUnsigned_scientific (h : ∀ c ∈ digits, c.isDigit = true) (hne : digits ≠ [])
    (width : Nat) (exponent : Int) : IsUnsigned (scientific width digits exponent) := by
  have hmark := isNumeral_cons (c := 'e') rfl (isNumeral_exponentText width exponent)
  obtain _ | ⟨first, _ | ⟨second, rest⟩⟩ := digits
  · exact absurd rfl hne
  · exact (IsUnsigned.of_digits h hne).append hmark
  · obtain ⟨hdigit, hdigits⟩ := List.forall_mem_cons.mp h
    have hfirst : IsUnsigned [first] :=
      .of_digits (List.forall_mem_singleton.mpr hdigit) (List.cons_ne_nil _ _)
    have hrest : ∀ c ∈ second :: rest, isNumeral c = true :=
      fun c hc => isNumeral_of_isDigit (hdigits c hc)
    have htext := (hfirst.append (isNumeral_cons (c := '.') rfl hrest)).append hmark
    simpa only [scientific, List.cons_append, List.nil_append, List.append_assoc] using htext

theorem isUnsigned_write (layout : Layout) (d : Decimal) : IsUnsigned (layout.write d) := by
  unfold write
  dsimp only
  split
  · exact isUnsigned_positional isDigit_of_mem_toDigits Nat.toDigits_ne_nil _
  · exact isUnsigned_scientific isDigit_of_mem_toDigits Nat.toDigits_ne_nil _ _

end Layout

end Parlance
