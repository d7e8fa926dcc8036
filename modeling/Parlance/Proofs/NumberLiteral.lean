import Parlance.Proofs.NearestDouble
import Parlance.Proofs.Token

/-! # Number literals

A run of digits, of any length and with any zeros in front, is read as the double nearest to
its integer, or as infinity. What is printed for that double is an integer again: the very
integer that the double is, or a one and 309 zeros for infinity. Reading the printed digits
is then exact, because a whole double is the one nearest to its own integer, and the literal
of infinity lies beyond all finite doubles. So nothing is lost after the first reading, and
the printed integers are in the order of the doubles. -/
namespace Parlance
namespace Double

/-! ## What a literal denotes -/

/-- The integer that the literal of a double is the decimal of. -/
def denoted (d : Double) : Nat := Nat.ofDigitChars 10 d.literal.toList 0

theorem denoted_of_isIntegral {d : Double} (hsign : d.isNegative = false)
    (h : d.isIntegral = true) : d.denoted = d.wholePart := by
  rw [denoted, literal_of_isIntegral hsign h, String.toList_ofList, Nat.ofDigitChars_ten_toDigits]

theorem wholePart_mul_unitsPerOne {d : Double} (h : d.isIntegral = true) :
    d.wholePart * unitsPerOne = d.units :=
  Nat.div_mul_cancel (isIntegral_iff.mp h).2

theorem wholePart_lt {d : Double} (h : d.isFinite = true) : d.wholePart < pow2 1024 := by
  have hunits := units_lt_of_isFinite h
  rw [pow2_2098] at hunits
  exact (Nat.div_lt_iff_lt_mul unitsPerOne_pos).mpr hunits

theorem toList_literal_infinity : infinity.literal.toList = '1' :: List.replicate 309 '0' := by
  rw [literal_infinity]
  exact String.toList_ofList

theorem pow2_1024_le_denoted_infinity : pow2 1024 ≤ infinity.denoted := by
  -- not `rw`, which would compare the two powers by unfolding them
  rewrite [denoted, toList_literal_infinity, Nat.ofDigitChars_cons,
    Nat.ofDigitChars_replicate_zero]
  decide +kernel

/-! ## The order of literals -/

/-- Less as numbers, of doubles without a sign: infinity is above all that are finite. -/
def Below (a b : Double) : Prop := a.isFinite = true ∧ (b.isFinite = true → a.units < b.units)

theorem isFinite_of_isIntegral {d : Double} (h : d.isIntegral = true) : d.isFinite = true :=
  decide_eq_true (isIntegral_iff.mp h).1

theorem not_isFinite_infinity : ¬ infinity.isFinite = true := by decide

theorem IsNatural.below_iff {a b : Double} (ha : a.IsNatural) (hb : b.IsNatural) :
    a.Below b ↔ a.denoted < b.denoted := by
  have hlarge := pow2_1024_le_denoted_infinity
  rcases ha with rfl | ⟨ha, hsign⟩
  · refine ⟨fun h => absurd h.1 not_isFinite_infinity, fun h => ?_⟩
    rcases hb with rfl | ⟨hb, hsign'⟩
    · exact absurd h (Nat.lt_irrefl _)
    · have hbound := wholePart_lt (isFinite_of_isIntegral hb)
      rw [denoted_of_isIntegral hsign' hb] at h
      omega
  · have hfinite := isFinite_of_isIntegral ha
    rw [denoted_of_isIntegral hsign ha]
    rcases hb with rfl | ⟨hb, hsign'⟩
    · have hbound := wholePart_lt hfinite
      have hless : a.wholePart < infinity.denoted := by omega
      exact ⟨fun _ => hless, fun _ => ⟨hfinite, fun h => absurd h not_isFinite_infinity⟩⟩
    · have hunits : a.units < b.units ↔ a.wholePart < b.wholePart := by
        rw [← wholePart_mul_unitsPerOne ha, ← wholePart_mul_unitsPerOne hb,
          Nat.mul_lt_mul_right unitsPerOne_pos]
      rw [denoted_of_isIntegral hsign' hb, ← hunits]
      exact ⟨fun h => h.2 (isFinite_of_isIntegral hb), fun h => ⟨hfinite, fun _ => h⟩⟩

/-! ## The digits of a literal -/

theorem head?_toDigits_ne_zero (n : Nat) (hn : n ≠ 0) : (Nat.toDigits 10 n).head? ≠ some '0' := by
  induction n using Nat.strongRecOn with
  | ind n ih =>
    by_cases hsmall : n < 10
    · rw [Nat.toDigits_of_lt_base hsmall]
      simpa using hn
    · have hquotient : n / 10 ≠ 0 := by omega
      have hfront := ih (n / 10) (by omega) hquotient
      rw [Nat.toDigits_of_base_le (by decide) (by omega)]
      cases hdigits : Nat.toDigits 10 (n / 10) with
      | nil => exact absurd hdigits Nat.toDigits_ne_nil
      | cons c rest =>
        rw [hdigits] at hfront
        exact hfront

/-- No zero stands in front of other digits. -/
theorem IsNatural.literal_eq_zero {d : Double} (h : d.IsNatural)
    (hzero : d.literal.toList.head? = some '0') : d.literal = "0" := by
  rcases h with rfl | ⟨hintegral, hsign⟩
  · rw [toList_literal_infinity, List.head?_cons] at hzero
    cases hzero
  · rw [literal_of_isIntegral hsign hintegral] at hzero ⊢
    rw [String.toList_ofList] at hzero
    have hwhole : d.wholePart = 0 :=
      Decidable.byContradiction fun hne => head?_toDigits_ne_zero _ hne hzero
    rw [hwhole]
    rfl

end Double

namespace Grammar

open Parlance.Double (IsNearest)

/-- The number parser takes the whole text and yields the double, under any forwards and any
budget. -/
def YieldsNumber (text : String) (d : Double) : Prop :=
  ∀ fs budget, number.run fs budget (.ofText text) =
    ⟨.ok ⟨true, .expression (.number d), text.length⟩, (Cursor.ofText text).forward text.length, []⟩

theorem yieldsNumber_ofDigits {digits : List Char} (hne : digits ≠ [])
    (hdigits : ∀ c ∈ digits, CodePoint.isDigit c.toNat = true) :
    YieldsNumber (String.ofList digits) (.ofDigits digits) := by
  intro fs budget
  have hfaces : (Cursor.ofText (String.ofList digits)).Faces (digits ++ []) := by
    have htext := Cursor.faces_ofText (String.ofList digits)
    rw [String.toList_ofList] at htext
    rwa [List.append_nil]
  have hrun : number.run fs budget (.ofText (String.ofList digits)) = _ :=
    (takes_number hfaces hne hdigits nofun).run_eq
  rw [hrun]
  simp [Cursor.ofText]

/-- A literal in digits, with no zero in front of others, that denotes the double exactly and
is read as it again. -/
structure ExactLiteral (d : Double) : Prop where
  nonempty : d.literal ≠ ""
  digits : ∀ c ∈ d.literal.toList, CodePoint.isDigit c.toNat = true
  leading : d.literal.toList.head? = some '0' → d.literal = "0"
  denotes : d.isFinite = true → d.denoted * Double.unitsPerOne = d.units
  readsBack : YieldsNumber d.literal d

theorem exactLiteral {d : Double} (h : d.IsNatural) : ExactLiteral d := by
  obtain ⟨digits, hliteral, hne, hdigits, hvalue⟩ := h.literal
  have hreads := yieldsNumber_ofDigits hne hdigits
  rw [← hliteral, hvalue] at hreads
  refine ⟨?_, ?_, h.literal_eq_zero, ?_, hreads⟩
  · rw [hliteral]
    exact fun hempty => hne (String.ofList_eq_empty_iff.mp hempty)
  · rw [hliteral, String.toList_ofList]
    exact hdigits
  · intro hfinite
    rcases h with rfl | ⟨hintegral, hsign⟩
    · exact absurd hfinite Double.not_isFinite_infinity
    · rw [Double.denoted_of_isIntegral hsign hintegral,
        Double.wholePart_mul_unitsPerOne hintegral]

/-- A run of digits is read as the double nearest to its integer, as infinity from halfway
beyond the last finite double on. The literal of that double, as of every other one that is
whole and without a sign, has the digits of its exact integer, and is read as the same double
again. Literals of larger doubles denote larger integers, up to that of infinity. -/
theorem number_literals_exact :
    (∀ digits : List Char, digits ≠ [] → (∀ c ∈ digits, CodePoint.isDigit c.toNat = true) →
      let n := Nat.ofDigitChars 10 digits 0
      let d := Double.ofDigits digits
      YieldsNumber (String.ofList digits) d ∧
        (d = .infinity ↔ pow2 1024 - pow2 970 ≤ n) ∧
        (n < pow2 1024 - pow2 970 →
          d.isIntegral = true ∧ d.isNegative = false ∧ IsNearest n d) ∧
        ExactLiteral d) ∧
    (∀ d : Double, d.isIntegral = true → d.isNegative = false → ExactLiteral d) ∧
    ∀ a b : Double, a.IsNatural → b.IsNatural → (a.Below b ↔ a.denoted < b.denoted) := by
  refine ⟨fun digits hne hdigits => ?_, fun d hintegral hsign => ?_, fun a b ha hb => ha.below_iff hb⟩
  · intro n d
    have hnatural : d.IsNatural := Double.isNatural_ofNat n
    have hinfinity : d = .infinity ↔ pow2 1024 - pow2 970 ≤ n := Double.ofNat_eq_infinity_iff n
    refine ⟨yieldsNumber_ofDigits hne hdigits, hinfinity, fun hn => ?_, exactLiteral hnatural⟩
    obtain ⟨hintegral, hsign⟩ := hnatural.resolve_left fun h => Nat.not_le.mpr hn (hinfinity.mp h)
    exact ⟨hintegral, hsign, Double.isNearest_ofNat hn⟩
  · exact exactLiteral (Or.inr ⟨hintegral, hsign⟩)

/-- With zeros in front, `2 ^ 53 + 1` lies halfway between two doubles and is read as the even
one, which is printed exactly. Infinity is read from the least integer that leads there, and
printed as a larger one. -/
theorem number_literals_exact_halfway :
    let digits := "009007199254740993".toList
    let beyond := Nat.toDigits 10 (pow2 1024 - pow2 970)
    let d : Double := ⟨0x4340000000000000⟩
    digits ≠ [] ∧ (∀ c ∈ digits, CodePoint.isDigit c.toNat = true) ∧
      YieldsNumber (String.ofList digits) d ∧ IsNearest 9007199254740993 d ∧
      ExactLiteral d ∧ d.literal = "9007199254740992" ∧
      YieldsNumber (String.ofList beyond) .infinity ∧ ExactLiteral .infinity ∧
      d.Below .infinity ∧ d.denoted < Double.infinity.denoted := by
  intro digits beyond d
  obtain ⟨hread, hwhole, horder⟩ := number_literals_exact
  have hne : digits ≠ [] := by decide +kernel
  have hdigits : ∀ c ∈ digits, CodePoint.isDigit c.toNat = true := List.all_eq_true.mp rfl
  have hvalue : Double.ofDigits digits = d := by decide +kernel
  have hinteger : Nat.ofDigitChars 10 digits 0 = 9007199254740993 := by decide +kernel
  obtain ⟨hyields, -, hnearest, -⟩ := hread digits hne hdigits
  rw [hvalue] at hyields hnearest
  rw [hinteger] at hnearest
  obtain ⟨hintegral, hsign, hnear⟩ := hnearest (by decide +kernel)
  have hbeyond : ∀ c ∈ beyond, CodePoint.isDigit c.toNat = true := fun c hc =>
    Double.isDigit_of_char (Nat.isDigit_of_mem_toDigits (by decide) (by decide) hc)
  obtain ⟨hyields', hinfinity, -, hexact⟩ := hread beyond Nat.toDigits_ne_nil hbeyond
  rw [Nat.ofDigitChars_ten_toDigits] at hinfinity
  rw [hinfinity.mpr (Nat.le_refl _)] at hyields' hexact
  have hbelow : d.Below .infinity :=
    ⟨Double.isFinite_of_isIntegral hintegral, fun h => absurd h Double.not_isFinite_infinity⟩
  exact ⟨hne, hdigits, hyields, hnear, hwhole d hintegral hsign, by decide +kernel, hyields',
    hexact, hbelow, (horder d .infinity (.inr ⟨hintegral, hsign⟩) (.inl rfl)).mp hbelow⟩

end Grammar
end Parlance
