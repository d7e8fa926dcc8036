import Parlance.Proofs.DecimalText

/-! # Texts of doubles

`Double.ofText` reads the text of a double: a sign, and a decimal or the word for infinity.
What is written for a double reads back to it, bit for bit. Of the search for the shortest
decimal only this is needed, that it ends with a decimal that rounds to the double: one
that has passed this very test, or else the exact one. The literal of a double in an
expression reads back as well, but for the sign of zero, so literals tell those doubles
apart that are different as numbers. -/
namespace Parlance

namespace Double

/-! ## The search for the shortest decimal -/

/-- Units of a power of two are tens of a power of ten. -/
theorem exact_value (u n : Nat) :
    (⟨u * Nat.pow 5 n, -(n : Int)⟩ : Decimal).num * pow2 n =
      u * (⟨u * Nat.pow 5 n, -(n : Int)⟩ : Decimal).den := by
  have hnum : (-(n : Int)).toNat = 0 := by omega
  have hden : (-(-(n : Int))).toNat = n := by omega
  have hfactors : pow10 n = Nat.pow 5 n * pow2 n := Nat.mul_pow 5 2 n
  have hone : pow10 0 = 1 := rfl
  rw [Decimal.num, Decimal.den, hnum, hden, hfactors, hone, Nat.mul_one, Nat.mul_assoc]

theorem exactDecimal_readsBack {d : Double} (h : d.magnitudeCode < infinityCode) :
    (exactDecimal d.units).toDouble.magnitudeCode = d.magnitudeCode := by
  rw [Decimal.magnitudeCode_toDouble, ← nearestCode_units h]
  exact nearestCode_congr (Decimal.den_pos _) unitsPerOne_pos (exact_value d.units 1074)

/-- What is found has been tested to round to the magnitude. -/
theorem searchShortest_readsBack {code u : Nat}
    (hexact : (exactDecimal u).toDouble.magnitudeCode = code) (counts : Nat) (exponent : Int) :
    (searchShortest code u counts exponent).toDouble.magnitudeCode = code := by
  unfold searchShortest
  dsimp only
  cases hfound : (List.range counts).findSome? fun k : Nat =>
      (readable code u (exponent - k)).head? with
  | none => rwa [Option.getD_none]
  | some d =>
    obtain ⟨k, _, hhead⟩ := List.exists_of_findSome?_eq_some hfound
    have hmem : d ∈ readable code u (exponent - k) := List.mem_of_head? hhead
    rw [Option.getD_some]
    exact decide_eq_true_iff.mp (List.mem_filter.mp hmem).2

theorem shortest_readsBack {d : Double} (h : d.magnitudeCode < infinityCode) :
    d.shortest.toDouble.magnitudeCode = d.magnitudeCode := by
  rw [shortest]
  split
  · next hzero =>
    have hnum : (⟨0, 0⟩ : Decimal).num = 0 := Nat.zero_mul _
    rw [Decimal.magnitudeCode_toDouble, ← nearestCode_units h, hzero, hnum]
    exact nearestCode_congr (Decimal.den_pos _) unitsPerOne_pos (by rw [Nat.zero_mul, Nat.zero_mul])
  · rw [Decimal.toDouble_trim]
    exact searchShortest_readsBack (exactDecimal_readsBack h) _ _

/-! ## Reading a double -/

/-- The magnitude bits that a text without a sign stands for. -/
def magnitudeOfText (text : List Char) : Nat :=
  if text = ['i', 'n', 'f'] then infinityCode else (Decimal.ofText text).toDouble.magnitudeCode

def ofText : List Char → Double
  | '-' :: magnitude => ofCode (magnitudeOfText magnitude) true
  | magnitude => ofCode (magnitudeOfText magnitude) false

def signChars (negative : Bool) : List Char := if negative then ['-'] else []

theorem toList_sign (negative : Bool) :
    (if negative = true then "-" else "").toList = signChars negative := by
  cases negative <;> rfl

theorem ofText_signed (negative : Bool) {magnitude : List Char} (h : magnitude.head? ≠ some '-') :
    ofText (signChars negative ++ magnitude) = ofCode (magnitudeOfText magnitude) negative := by
  cases negative with
  | true => rfl
  | false =>
    show ofText magnitude = _
    unfold ofText
    split
    · exact absurd rfl h
    · rfl

theorem magnitudeOfText_unsigned {text : List Char} (h : IsUnsigned text) :
    magnitudeOfText text = (Decimal.ofText text).toDouble.magnitudeCode := by
  have hword : text ≠ ['i', 'n', 'f'] := by
    rintro rfl
    exact h.head_ne (c := 'i') rfl rfl
  rw [magnitudeOfText, if_neg hword]

theorem finite_or_infinite {d : Double} (h : d.isNaN = false) :
    d.magnitudeCode < infinityCode ∨ d.magnitudeCode = infinityCode := by
  rw [isNaN, decide_eq_false_iff_not] at h
  omega

theorem toList_toText {d : Double} (h : d.isNaN = false) :
    d.toText.toList = signChars d.isNegative ++
      if d.isInfinite then ['i', 'n', 'f'] else Layout.standard.write d.shortest := by
  rw [toText, if_neg (by rw [h]; exact Bool.false_ne_true)]
  dsimp only
  split
  · rw [String.toList_append, toList_sign]
    rfl
  · rw [String.toList_append, toList_sign, String.toList_ofList]

/-- The text of a double reads back to it, bit for bit. -/
theorem ofText_toText {d : Double} (h : d.isNaN = false) : ofText d.toText.toList = d := by
  have hparts := d.ofCode_magnitudeCode_isNegative
  rw [toList_toText h]
  rcases finite_or_infinite h with hfinite | hinfinite
  · rw [if_neg (by rw [isInfinite, decide_eq_true_iff]; omega)]
    have hunsigned := Layout.isUnsigned_write Layout.standard d.shortest
    rw [ofText_signed _ (hunsigned.head_ne rfl), magnitudeOfText_unsigned hunsigned,
      Layout.toDouble_ofText_write, shortest_readsBack hfinite, hparts]
  · rw [if_pos (by rw [isInfinite, decide_eq_true_iff, hinfinite]), ofText_signed _ (by simp),
      magnitudeOfText, if_pos rfl, ← hinfinite, hparts]

/-- Texts tell doubles apart, the two zeros included. -/
theorem toText_inj {a b : Double} (ha : a.isNaN = false) (hb : b.isNaN = false)
    (h : a.toText = b.toText) : a = b := by
  rw [← ofText_toText ha, ← ofText_toText hb, h]

/-! ## Literals -/

/-- Does the double have a sign that makes a difference as a number? -/
def isBelowZero (d : Double) : Bool := d.isNegative && d.magnitudeCode ≠ 0

theorem toDouble_ofText_digits {digits : List Char} (h : ∀ c ∈ digits, c.isDigit = true) :
    (Decimal.ofText digits).toDouble = ofDigits digits := by
  have hread : Decimal.ofText (digits ++ []) = _ := Decimal.ofText_whole h nofun
  rw [List.append_nil, Decimal.exponentOf_nil] at hread
  have hnum : (⟨Nat.ofDigitChars 10 digits 0, 0⟩ : Decimal).num = Nat.ofDigitChars 10 digits 0 :=
    Nat.mul_one _
  rw [hread, Decimal.toDouble, hnum]
  rfl

theorem units_of_zero {d : Double} (h : d.magnitudeCode = 0) : d.units = 0 := by
  rw [units, significand, exponentField, fraction, h]
  simp

theorem isIntegral_of_zero {d : Double} (h : d.magnitudeCode = 0) : d.isIntegral = true := by
  refine isIntegral_iff.mpr ⟨by rw [h]; decide, ?_⟩
  rw [units_of_zero h]
  exact Nat.dvd_zero _

theorem wholePart_eq_zero_iff {d : Double} (h : d.isIntegral = true) :
    d.wholePart = 0 ↔ d.magnitudeCode = 0 := by
  constructor
  · intro hzero
    rw [← nearestCode_wholePart h, hzero, nearestCode_one, Nat.zero_mul]
    rfl
  · intro hzero
    rw [wholePart, units_of_zero hzero, Nat.zero_div]

/-- The literal is a sign where it makes a difference, and a magnitude in digits that denotes
that of the double. -/
def LiteralHas (d : Double) (magnitude : List Char) : Prop :=
  d.literal.toList = signChars d.isBelowZero ++ magnitude ∧ IsUnsigned magnitude ∧
    (Decimal.ofText magnitude).toDouble.magnitudeCode = d.magnitudeCode

theorem literalHas_infinite {d : Double} (h : d.isInfinite = true) :
    d.LiteralHas ('1' :: List.replicate 309 '0') := by
  have hcode : d.magnitudeCode = infinityCode := by
    rwa [isInfinite, decide_eq_true_iff] at h
  have hdigits : ∀ c ∈ '1' :: List.replicate 309 '0', c.isDigit = true := by
    intro c hc
    rcases List.mem_cons.mp hc with rfl | hc
    · rfl
    · rw [List.eq_of_mem_replicate hc]
      rfl
  have hsign : d.isBelowZero = d.isNegative := by
    rw [isBelowZero, hcode]
    exact Bool.and_true _
  have hliteral : infinityLiteral.toList = '1' :: List.replicate 309 '0' := String.toList_ofList
  refine ⟨?_, .of_digits hdigits (List.cons_ne_nil _ _), ?_⟩
  · rw [literal, if_pos h, hsign, String.toList_append, toList_sign, hliteral]
  · rw [toDouble_ofText_digits hdigits, ofDigits_infinityLiteral, hcode]
    exact magnitudeCode_ofCode (by decide) false

theorem literalHas_whole {d : Double} (hfinite : ¬ d.isInfinite = true)
    (h : d.isIntegral = true) : d.LiteralHas (Nat.toDigits 10 d.wholePart) := by
  have hsign : (d.isNegative = true ∧ d.wholePart ≠ 0) ↔ d.isBelowZero = true := by
    rw [isBelowZero, Bool.and_eq_true, decide_eq_true_iff, Ne, wholePart_eq_zero_iff h]
  refine ⟨?_, .of_digits Layout.isDigit_of_mem_toDigits Nat.toDigits_ne_nil, ?_⟩
  · rw [literal, if_neg hfinite, if_pos h, integerLiteral, signChars]
    simp only [hsign]
    split
    · simp only [String.toList_append, Nat.repr_eq_ofList_toDigits, String.toList_ofList]
      rfl
    · simp only [Nat.repr_eq_ofList_toDigits, String.toList_ofList, List.nil_append]
  · rw [toDouble_ofText_digits Layout.isDigit_of_mem_toDigits, ofDigits,
      Nat.ofDigitChars_ten_toDigits, ofNat, nearest, magnitudeCode_ofCode (nearestCode_lt _ _),
      nearestCode_wholePart h]

theorem literalHas_fraction {d : Double} (h : d.isNaN = false) (hfinite : ¬ d.isInfinite = true)
    (hfraction : ¬ d.isIntegral = true) : d.LiteralHas (Layout.standard.write d.shortest) := by
  have hbelow : d.magnitudeCode < infinityCode := by
    rw [isInfinite, decide_eq_true_iff] at hfinite
    exact (finite_or_infinite h).resolve_right hfinite
  -- zero would be whole
  have hnonzero : d.magnitudeCode ≠ 0 := fun hzero => hfraction (isIntegral_of_zero hzero)
  have hsign : d.isBelowZero = d.isNegative := by
    rw [isBelowZero, decide_eq_true hnonzero, Bool.and_true]
  refine ⟨?_, Layout.isUnsigned_write _ _, ?_⟩
  · rw [literal, if_neg hfinite, if_neg hfraction, toList_toText h, if_neg hfinite, hsign]
  · rw [Layout.toDouble_ofText_write, shortest_readsBack hbelow]

theorem exists_literalHas {d : Double} (h : d.isNaN = false) :
    ∃ magnitude, d.LiteralHas magnitude := by
  by_cases hinfinite : d.isInfinite = true
  · exact ⟨_, literalHas_infinite hinfinite⟩
  · by_cases hintegral : d.isIntegral = true
    · exact ⟨_, literalHas_whole hinfinite hintegral⟩
    · exact ⟨_, literalHas_fraction h hinfinite hintegral⟩

theorem ofText_literal {d : Double} (h : d.isNaN = false) :
    ofText d.literal.toList = ofCode d.magnitudeCode d.isBelowZero := by
  obtain ⟨magnitude, htext, hunsigned, hcode⟩ := exists_literalHas h
  rw [htext, ofText_signed _ (hunsigned.head_ne rfl), magnitudeOfText_unsigned hunsigned, hcode]

theorem magnitudeCode_lt (d : Double) : d.magnitudeCode < pow2 63 := Nat.mod_lt _ (pow2_pos 63)

theorem literal_of_zero {d : Double} (h : d.magnitudeCode = 0) : d.literal = "0" := by
  have hintegral := isIntegral_of_zero h
  have hwhole := (wholePart_eq_zero_iff hintegral).mpr h
  rw [literal, if_neg (by rw [isInfinite, h]; decide), if_pos hintegral, integerLiteral, hwhole,
    if_neg (by simp)]
  rfl

/-- Literals tell doubles apart that are different as numbers. -/
theorem numEq_iff_literal_eq {a b : Double} (ha : a.isNaN = false) (hb : b.isNaN = false) :
    a.numEq b = true ↔ a.literal = b.literal := by
  have hnumEq : a.numEq b = true ↔ a = b ∨ a.magnitudeCode = 0 ∧ b.magnitudeCode = 0 := by
    rw [numEq, ha, hb]
    simp
  rw [hnumEq]
  constructor
  · rintro (rfl | ⟨hzero, hzero'⟩)
    · rfl
    · rw [literal_of_zero hzero, literal_of_zero hzero']
  · intro h
    have hcode : ofCode a.magnitudeCode a.isBelowZero = ofCode b.magnitudeCode b.isBelowZero := by
      rw [← ofText_literal ha, ← ofText_literal hb, h]
    have hmagnitude : a.magnitudeCode = b.magnitudeCode := by
      rw [← magnitudeCode_ofCode a.magnitudeCode_lt a.isBelowZero, hcode,
        magnitudeCode_ofCode b.magnitudeCode_lt]
    by_cases hzero : b.magnitudeCode = 0
    · exact Or.inr ⟨hmagnitude.trans hzero, hzero⟩
    · refine Or.inl ?_
      rw [isBelowZero, isBelowZero, hmagnitude, decide_eq_true hzero, Bool.and_true, Bool.and_true]
        at hcode
      rwa [← hmagnitude, ofCode_magnitudeCode_isNegative, hmagnitude,
        ofCode_magnitudeCode_isNegative] at hcode

end Double
end Parlance
