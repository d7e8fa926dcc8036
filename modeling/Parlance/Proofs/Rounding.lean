import Parlance.Cursor
import Parlance.Expression.Printer

/-! # Whole doubles

A natural number is rounded to a double that is whole again, or infinite, and a
whole double is read back from its integer bit for bit. Both rest on one reading of
the bits: with `s` excess bits and a significand `q` from `2 ^ 52` to `2 ^ 53`, both
ends included, the magnitude bits `s * 2 ^ 52 + q` stand for `q * 2 ^ s` units. The
upper end is the carry of a significand that was rounded up. -/
namespace Parlance

theorem pow2_pos (n : Nat) : 0 < pow2 n := Nat.pow_pos (by decide)

theorem pow2_add (m n : Nat) : pow2 (m + n) = pow2 m * pow2 n := Nat.pow_add 2 m n

theorem pow2_succ (n : Nat) : pow2 (n + 1) = 2 * pow2 n := Nat.pow_succ'

theorem pow2_le_pow2 {m n : Nat} (h : m ≤ n) : pow2 m ≤ pow2 n :=
  Nat.pow_le_pow_right (by decide) h

theorem pow2_dvd_pow2 {m n : Nat} (h : m ≤ n) : pow2 m ∣ pow2 n := Nat.pow_dvd_pow 2 h

theorem log2_eq_iff {u n : Nat} (hu : u ≠ 0) :
    Nat.log2 u = n ↔ pow2 n ≤ u ∧ u < pow2 (n + 1) := Nat.log2_eq_iff hu

theorem pow2_52 : pow2 52 = 4503599627370496 := rfl

theorem pow2_53 : pow2 53 = 9007199254740992 := rfl

theorem pow2_63 : pow2 63 = 9223372036854775808 := rfl

namespace Double

/-! ## Bits and magnitudes -/

theorem unitsPerOne_pos : 0 < unitsPerOne := pow2_pos 1074

theorem infinityCode_eq : infinityCode = 9218868437227405312 := rfl

theorem code_ofCode {m : Nat} (h : m < pow2 63) (negative : Bool) :
    (ofCode m negative).code = if negative then pow2 63 + m else m := by
  rw [pow2_63] at h ⊢
  simp only [ofCode, code, pow2_63, UInt64.toNat_ofNat']
  split <;> omega

theorem magnitudeCode_ofCode {m : Nat} (h : m < pow2 63) (negative : Bool) :
    (ofCode m negative).magnitudeCode = m := by
  rw [magnitudeCode, code_ofCode h]
  split
  · rw [Nat.add_mod_left, Nat.mod_eq_of_lt h]
  · exact Nat.mod_eq_of_lt h

theorem magnitudeCode_infinity : infinity.magnitudeCode = infinityCode :=
  magnitudeCode_ofCode (by decide) false

theorem isNegative_ofCode {m : Nat} (h : m < pow2 63) (negative : Bool) :
    (ofCode m negative).isNegative = negative := by
  rw [isNegative, code_ofCode h]
  cases negative with
  | false => exact decide_eq_false (Nat.not_le.mpr h)
  | true => exact decide_eq_true (Nat.le_add_right _ _)

/-- A double is fixed by its magnitude bits and its sign. -/
theorem ofCode_magnitudeCode_isNegative (d : Double) :
    ofCode d.magnitudeCode d.isNegative = d := by
  have hbound : d.code < 18446744073709551616 := d.bits.toNat_lt
  have hcode : (if d.isNegative then pow2 63 + d.magnitudeCode else d.magnitudeCode) = d.code := by
    rw [magnitudeCode, pow2_63]
    split
    · next hsign =>
      rw [isNegative, decide_eq_true_iff, pow2_63] at hsign
      omega
    · next hsign =>
      rw [isNegative, decide_eq_true_iff, pow2_63] at hsign
      omega
  rw [ofCode, hcode, code, UInt64.ofNat_toNat]

theorem ofCode_magnitudeCode {d : Double} (h : d.isNegative = false) :
    ofCode d.magnitudeCode false = d := by
  have hparts := d.ofCode_magnitudeCode_isNegative
  rwa [h] at hparts

theorem units_of_magnitudeCode {d : Double} {s q : Nat} (h : d.magnitudeCode = s * pow2 52 + q)
    (hlow : pow2 52 ≤ q) (hhigh : q ≤ pow2 53) : d.units = q * pow2 s := by
  rw [pow2_52] at h hlow
  rw [pow2_53] at hhigh
  by_cases hcarry : q = 9007199254740992
  · have hfield : d.exponentField = s + 2 := by
      rw [exponentField, h, pow2_52]
      omega
    have hfraction : d.fraction = 0 := by
      rw [fraction, h, pow2_52]
      omega
    rw [units, significand, hfield, hfraction, if_neg (by omega), pow2_52,
      show s + 2 - 1 = s + 1 by omega, pow2_succ, hcarry, Nat.add_zero, ← Nat.mul_assoc]
  · have hfield : d.exponentField = s + 1 := by
      rw [exponentField, h, pow2_52]
      omega
    have hfraction : d.fraction = q - 4503599627370496 := by
      rw [fraction, h, pow2_52]
      omega
    rw [units, significand, hfield, hfraction, if_neg (by omega), pow2_52,
      show s + 1 - 1 = s by omega, Nat.add_sub_cancel' hlow]

/-! ## Rounding -/

theorem roundQuotient_bounds (num den : Nat) :
    num / den ≤ roundQuotient num den ∧ roundQuotient num den ≤ num / den + 1 := by
  unfold roundQuotient
  dsimp only
  split
  · omega
  · split
    · omega
    · have hparity := Nat.mod_lt (num / den) (show 0 < 2 by decide)
      omega

theorem roundQuotient_of_dvd {num den : Nat} (hden : 0 < den) (h : den ∣ num) :
    roundQuotient num den = num / den := by
  have hremainder : num % den = 0 := Nat.mod_eq_zero_of_dvd h
  unfold roundQuotient
  dsimp only
  rw [hremainder, if_pos (by omega)]

/-- Without its excess bits a magnitude of at least `2 ^ 52` units has 53 bits. -/
theorem excessBits_bounds {u : Nat} (hu : pow2 52 ≤ u) :
    pow2 52 * pow2 (excessBits u) ≤ u ∧ u < pow2 53 * pow2 (excessBits u) := by
  have hpositive : u ≠ 0 := by
    have hpos := pow2_pos 52
    omega
  have hleading : 52 ≤ Nat.log2 u := (Nat.le_log2 hpositive).mpr hu
  obtain ⟨hlow, hhigh⟩ := (log2_eq_iff hpositive).mp rfl
  have hbits : Nat.log2 u = 52 + excessBits u := by
    rw [excessBits]
    omega
  rw [hbits, pow2_add] at hlow
  rw [hbits, show 52 + excessBits u + 1 = 53 + excessBits u by omega, pow2_add] at hhigh
  exact ⟨hlow, hhigh⟩

/-- The rounded significand of a positive magnitude with at least 52 bits below its
leading one has 53 bits, or is the carry. -/
theorem roundQuotient_significand {u : Nat} (hu : pow2 52 ≤ u) :
    pow2 52 ≤ roundQuotient u (pow2 (excessBits u)) ∧
      roundQuotient u (pow2 (excessBits u)) ≤ pow2 53 := by
  obtain ⟨hlow, hhigh⟩ := excessBits_bounds hu
  have hfloor : pow2 52 ≤ u / pow2 (excessBits u) :=
    (Nat.le_div_iff_mul_le (pow2_pos _)).mpr hlow
  have hceiling : u / pow2 (excessBits u) < pow2 53 :=
    (Nat.div_lt_iff_lt_mul (pow2_pos _)).mpr hhigh
  have hround := roundQuotient_bounds u (pow2 (excessBits u))
  omega

theorem roundQuotient_mul {k : Nat} (hk : 0 < k) (num den : Nat) :
    roundQuotient (k * num) (k * den) = roundQuotient num den := by
  have hhalf : ∀ a b : Nat, 2 * (k * a) < k * b ↔ 2 * a < b := by
    intro a b
    rw [Nat.mul_left_comm]
    exact Nat.mul_lt_mul_left hk
  have hhalf' : ∀ a b : Nat, k * b < 2 * (k * a) ↔ b < 2 * a := by
    intro a b
    rw [Nat.mul_left_comm]
    exact Nat.mul_lt_mul_left hk
  unfold roundQuotient
  dsimp only
  rw [Nat.mul_div_mul_left num den hk, Nat.mul_mod_mul_left]
  simp only [hhalf, hhalf']

/-- A whole number of ones stays whole when its excess bits are rounded off: below
`2 ^ 1074` they are all zero, and from there on every step is a whole number. -/
theorem unitsPerOne_dvd_rounded {u : Nat} (h : unitsPerOne ∣ u) (s : Nat) :
    unitsPerOne ∣ roundQuotient u (pow2 s) * pow2 s := by
  rcases Nat.le_total s 1074 with hs | hs
  · have hexact : pow2 s ∣ u := Nat.dvd_trans (pow2_dvd_pow2 hs) h
    rw [roundQuotient_of_dvd (pow2_pos s) hexact, Nat.div_mul_cancel hexact]
    exact h
  · exact Nat.dvd_trans (pow2_dvd_pow2 hs) (Nat.dvd_mul_left _ _)

theorem nearestCode_one (n : Nat) :
    nearestCode n 1 = min (excessBits (n * unitsPerOne) * pow2 52 +
      roundQuotient (n * unitsPerOne) (pow2 (excessBits (n * unitsPerOne)))) infinityCode := by
  simp only [nearestCode, Nat.div_one, Nat.one_mul]

theorem nearestCode_lt (num den : Nat) : nearestCode num den < pow2 63 := by
  rw [nearestCode, infinityCode_eq, pow2_63]
  omega

theorem nearestCode_mul {k : Nat} (hk : 0 < k) (num den : Nat) :
    nearestCode (k * num) (k * den) = nearestCode num den := by
  unfold nearestCode
  dsimp only
  rw [Nat.mul_assoc, Nat.mul_div_mul_left _ _ hk, Nat.mul_assoc k den, roundQuotient_mul hk]

/-- Rounding looks at the quotient only. -/
theorem nearestCode_congr {num den num' den' : Nat} (hden : 0 < den) (hden' : 0 < den')
    (h : num * den' = num' * den) : nearestCode num den = nearestCode num' den' :=
  calc nearestCode num den = nearestCode (den' * num) (den' * den) :=
        (nearestCode_mul hden' ..).symm
    _ = nearestCode (den * num') (den * den') := by
      rw [Nat.mul_comm den' num, h, Nat.mul_comm num' den, Nat.mul_comm den' den]
    _ = nearestCode num' den' := nearestCode_mul hden ..

theorem pow2_52_le_units {n : Nat} (hn : n ≠ 0) : pow2 52 ≤ n * unitsPerOne :=
  calc pow2 52 ≤ unitsPerOne := Nat.le_of_dvd unitsPerOne_pos (pow2_dvd_pow2 (by decide))
    _ ≤ n * unitsPerOne := Nat.le_mul_of_pos_left _ (Nat.pos_of_ne_zero hn)

/-! ## Naturals as doubles -/

/-- Infinity, or whole and without a sign: the doubles that naturals are rounded to. -/
def IsNatural (d : Double) : Prop :=
  d = infinity ∨ d.isIntegral = true ∧ d.isNegative = false

theorem isIntegral_iff {d : Double} :
    d.isIntegral = true ↔ d.magnitudeCode < infinityCode ∧ unitsPerOne ∣ d.units := by
  rw [isIntegral, isFinite, Bool.and_eq_true, decide_eq_true_iff, decide_eq_true_iff,
    Nat.dvd_iff_mod_eq_zero]

theorem magnitudeCode_ofNat (n : Nat) : (ofNat n).magnitudeCode = nearestCode n 1 :=
  magnitudeCode_ofCode (nearestCode_lt n 1) false

theorem nearestCode_le (num den : Nat) : nearestCode num den ≤ infinityCode := Nat.min_le_right _ _

theorem ofNat_eq_infinity_iff_code {n : Nat} :
    ofNat n = infinity ↔ infinityCode ≤ nearestCode n 1 := by
  constructor
  · intro h
    exact Nat.le_of_eq (by rw [← magnitudeCode_ofNat, h, magnitudeCode_infinity])
  · intro h
    rw [ofNat, nearest, Nat.le_antisymm (nearestCode_le n 1) h]
    rfl

/-- The bits and the units of a positive number that is not too large. -/
theorem parts_ofNat {n : Nat} (hn : n ≠ 0) (h : nearestCode n 1 < infinityCode) :
    (ofNat n).magnitudeCode = excessBits (n * unitsPerOne) * pow2 52 +
        roundQuotient (n * unitsPerOne) (pow2 (excessBits (n * unitsPerOne))) ∧
      (ofNat n).units = roundQuotient (n * unitsPerOne) (pow2 (excessBits (n * unitsPerOne))) *
        pow2 (excessBits (n * unitsPerOne)) := by
  have hcode := magnitudeCode_ofNat n
  rw [nearestCode_one] at h hcode
  rw [Nat.min_eq_left (by omega)] at hcode
  obtain ⟨hlow, hhigh⟩ := roundQuotient_significand (pow2_52_le_units hn)
  exact ⟨hcode, units_of_magnitudeCode hcode hlow hhigh⟩

theorem isNatural_ofNat (n : Nat) : (ofNat n).IsNatural := by
  rcases Nat.eq_zero_or_pos n with rfl | hn
  · exact Or.inr (by decide +kernel)
  rcases Nat.lt_or_ge (nearestCode n 1) infinityCode with hfinite | hoverflow
  · obtain ⟨-, hunits⟩ := parts_ofNat (Nat.ne_of_gt hn) hfinite
    refine Or.inr ⟨isIntegral_iff.mpr ⟨?_, ?_⟩, isNegative_ofCode (nearestCode_lt n 1) false⟩
    · rwa [magnitudeCode_ofNat]
    · rw [hunits]
      exact unitsPerOne_dvd_rounded (Nat.dvd_mul_left _ _) _
  · exact Or.inl (ofNat_eq_infinity_iff_code.mpr hoverflow)

theorem excessBits_significand {m s : Nat} (hm : m < pow2 52) :
    excessBits ((pow2 52 + m) * pow2 s) = s := by
  have hlow : pow2 52 * pow2 s ≤ (pow2 52 + m) * pow2 s :=
    Nat.mul_le_mul_right _ (Nat.le_add_right _ _)
  have hhigh : (pow2 52 + m) * pow2 s < pow2 53 * pow2 s := by
    refine Nat.mul_lt_mul_of_pos_right ?_ (pow2_pos s)
    rw [pow2_52] at hm ⊢
    rw [pow2_53]
    omega
  have hlog : Nat.log2 ((pow2 52 + m) * pow2 s) = 52 + s := by
    refine (log2_eq_iff ?_).mpr ⟨?_, ?_⟩
    · have hpositive := Nat.mul_pos (pow2_pos 52) (pow2_pos s)
      omega
    · rwa [pow2_add]
    · rwa [show 52 + s + 1 = 53 + s by omega, pow2_add]
  rw [excessBits, hlog]
  omega

/-- A finite double is the one nearest to its own magnitude. -/
theorem nearestCode_units {d : Double} (h : d.magnitudeCode < infinityCode) :
    nearestCode d.units unitsPerOne = d.magnitudeCode := by
  have hfraction : d.fraction < pow2 52 := Nat.mod_lt _ (pow2_pos 52)
  have hcode : d.exponentField * pow2 52 + d.fraction = d.magnitudeCode := by
    rw [exponentField, fraction, Nat.mul_comm]
    exact Nat.div_add_mod _ _
  have hnearest : nearestCode d.units unitsPerOne = min (excessBits d.units * pow2 52 +
      roundQuotient d.units (pow2 (excessBits d.units))) infinityCode := by
    unfold nearestCode
    dsimp only
    rw [Nat.mul_div_cancel _ unitsPerOne_pos, Nat.mul_comm d.units,
      roundQuotient_mul unitsPerOne_pos]
  rw [hnearest]
  cases hfield : d.exponentField with
  | zero =>
    -- the units are the fraction, and none of its bits are in excess
    have hsmall : d.units = d.fraction := by
      rw [units, significand, if_pos hfield, hfield]
      exact Nat.mul_one _
    have hbits : excessBits d.fraction = 0 := by
      rw [excessBits]
      rcases Nat.eq_zero_or_pos d.fraction with hzero | hpositive
      · rw [hzero]
        rfl
      · have hlog := (Nat.log2_lt (Nat.ne_of_gt hpositive)).mpr hfraction
        omega
    rw [hfield] at hcode
    have hround : roundQuotient d.fraction (pow2 0) = d.fraction := by
      rw [roundQuotient_of_dvd (pow2_pos 0) (Nat.one_dvd _)]
      exact Nat.div_one _
    rw [hsmall, hbits, hround, hcode]
    exact Nat.min_eq_left (Nat.le_of_lt h)
  | succ s =>
    have hnormal : d.units = (pow2 52 + d.fraction) * pow2 s := by
      rw [units, significand, hfield, if_neg (Nat.succ_ne_zero s), Nat.add_sub_cancel]
    have hquotient : roundQuotient d.units (pow2 s) = pow2 52 + d.fraction := by
      rw [hnormal, roundQuotient_of_dvd (pow2_pos s) (Nat.dvd_mul_left _ _),
        Nat.mul_div_cancel _ (pow2_pos s)]
    have hbits : excessBits d.units = s := by
      rw [hnormal, excessBits_significand hfraction]
    rw [hbits, hquotient, ← Nat.add_assoc, ← Nat.succ_mul,
      show s.succ = d.exponentField from hfield.symm, hcode]
    exact Nat.min_eq_left (Nat.le_of_lt h)

/-- A whole double is the one nearest to its own integer. -/
theorem nearestCode_wholePart {d : Double} (h : d.isIntegral = true) :
    nearestCode d.wholePart 1 = d.magnitudeCode := by
  obtain ⟨hfinite, hwhole⟩ := isIntegral_iff.mp h
  have hunits : d.wholePart * unitsPerOne = d.units := Nat.div_mul_cancel hwhole
  rw [← nearestCode_units hfinite]
  exact nearestCode_congr Nat.one_pos unitsPerOne_pos (by rw [hunits, Nat.mul_one])

theorem ofNat_wholePart {d : Double} (hsign : d.isNegative = false) (h : d.isIntegral = true) :
    ofNat d.wholePart = d := by
  rw [ofNat, nearest, nearestCode_wholePart h, ofCode_magnitudeCode hsign]

/-! ## Literals -/

theorem isDigit_of_char {c : Char} (h : c.isDigit = true) : CodePoint.isDigit c.toNat = true := by
  simp only [Char.isDigit, Bool.and_eq_true, decide_eq_true_eq] at h
  simp only [CodePoint.isDigit, Bool.and_eq_true, decide_eq_true_eq]
  exact h

theorem ofDigits_infinityLiteral : ofDigits ('1' :: List.replicate 309 '0') = infinity := by
  rw [ofDigits, Nat.ofDigitChars_cons, Nat.ofDigitChars_replicate_zero]
  decide +kernel

theorem literal_infinity : infinity.literal = infinityLiteral := by
  rw [literal, if_pos (by decide), if_neg (by decide)]
  exact String.empty_append

theorem literal_of_isIntegral {d : Double} (hsign : d.isNegative = false)
    (h : d.isIntegral = true) : d.literal = String.ofList (Nat.toDigits 10 d.wholePart) := by
  have hfinite : ¬ d.isInfinite = true := by
    rw [isInfinite, decide_eq_true_iff]
    exact Nat.ne_of_lt (isIntegral_iff.mp h).1
  rw [literal, if_neg hfinite, if_pos h, integerLiteral, if_neg (by simp [hsign])]
  exact Nat.repr_eq_ofList_toDigits

/-- The literal of a natural double is a run of digits that denotes the double, bit for
bit. -/
theorem IsNatural.literal {d : Double} (h : d.IsNatural) :
    ∃ digits, d.literal = String.ofList digits ∧ digits ≠ [] ∧
      (∀ c ∈ digits, CodePoint.isDigit c.toNat = true) ∧ ofDigits digits = d := by
  rcases h with rfl | ⟨hintegral, hsign⟩
  · refine ⟨'1' :: List.replicate 309 '0', literal_infinity, List.cons_ne_nil _ _, ?_,
      ofDigits_infinityLiteral⟩
    intro c hc
    rcases List.mem_cons.mp hc with rfl | hc
    · decide
    · rw [List.eq_of_mem_replicate hc]
      decide
  · refine ⟨Nat.toDigits 10 d.wholePart, literal_of_isIntegral hsign hintegral,
      Nat.toDigits_ne_nil, ?_, ?_⟩
    · intro c hc
      exact isDigit_of_char (Nat.isDigit_of_mem_toDigits (by decide) (by decide) hc)
    · rw [ofDigits, Nat.ofDigitChars_ten_toDigits, ofNat_wholePart hsign hintegral]

end Double
end Parlance
