import Mathlib.Data.Nat.Dist
import Parlance.Proofs.Rounding

/-! # The nearest double

What rounding is for, said without how it is done: no finite double is nearer to the number,
and where another one is as near, the significand is even (`IsNearest`). The numbers beyond
the last finite double are rounded to it up to halfway to `2 ^ 1024`, and to infinity from
there on.

A magnitude with `s` excess bits is rounded to a multiple of `2 ^ s` units. The doubles that
are no such multiples have fewer bits than the magnitude, so they lie below `2 ^ 52 * 2 ^ s`,
which is a multiple itself and nearer than they are. -/
namespace Parlance
namespace Double

/-! ## The order of magnitudes -/

theorem significand_lt (d : Double) : d.significand < pow2 53 := by
  have hfraction : d.fraction < pow2 52 := Nat.mod_lt _ (pow2_pos 52)
  rw [pow2_52] at hfraction
  unfold significand
  rw [pow2_52, pow2_53]
  split <;> omega

theorem units_lt (d : Double) : d.units < pow2 52 * pow2 d.exponentField := by
  unfold units
  by_cases hfield : d.exponentField = 0
  · have hfraction : d.fraction < pow2 52 := Nat.mod_lt _ (pow2_pos 52)
    rw [significand, if_pos hfield, hfield]
    exact Nat.mul_lt_mul_of_pos_right hfraction (pow2_pos 0)
  · have hcarry : pow2 53 * pow2 (d.exponentField - 1) = pow2 52 * pow2 d.exponentField := by
      rw [← pow2_add, ← pow2_add]
      congr 1
      omega
    rw [← hcarry]
    exact Nat.mul_lt_mul_of_pos_right d.significand_lt (pow2_pos _)

theorem le_units {d : Double} (h : d.exponentField ≠ 0) :
    pow2 52 * pow2 (d.exponentField - 1) ≤ d.units := by
  rw [units, significand, if_neg h]
  exact Nat.mul_le_mul_right _ (Nat.le_add_right _ _)

/-- The bits grow with the magnitude. -/
theorem units_lt_units {a b : Double} (h : a.magnitudeCode < b.magnitudeCode) :
    a.units < b.units := by
  have hfield : a.exponentField ≤ b.exponentField := Nat.div_le_div_right (Nat.le_of_lt h)
  by_cases hsame : a.exponentField = b.exponentField
  · have hfraction : a.fraction < b.fraction := by
      have ha := Nat.div_add_mod a.magnitudeCode (pow2 52)
      have hb := Nat.div_add_mod b.magnitudeCode (pow2 52)
      unfold exponentField at hsame
      rw [hsame] at ha
      unfold fraction
      omega
    have hsignificand : a.significand < b.significand := by
      unfold significand
      rw [hsame]
      split <;> omega
    unfold units
    rw [hsame]
    exact Nat.mul_lt_mul_of_pos_right hsignificand (pow2_pos _)
  · calc a.units < pow2 52 * pow2 a.exponentField := a.units_lt
      _ ≤ pow2 52 * pow2 (b.exponentField - 1) :=
        Nat.mul_le_mul_left _ (pow2_le_pow2 (by omega))
      _ ≤ b.units := le_units (by omega)

theorem pow2_2098 : pow2 2098 = pow2 1024 * unitsPerOne := by rw [unitsPerOne, ← pow2_add]

/-- The bits of infinity, read as those of a finite double, stand for `2 ^ 1024`. -/
theorem units_infinity : infinity.units = pow2 2098 := by
  have hcode : infinity.magnitudeCode = 2045 * pow2 52 + pow2 53 := magnitudeCode_infinity
  rw [units_of_magnitudeCode hcode (pow2_le_pow2 (by decide)) (Nat.le_refl _), ← pow2_add]

theorem units_lt_of_isFinite {d : Double} (h : d.isFinite = true) : d.units < pow2 2098 := by
  have hcode : d.magnitudeCode < infinity.magnitudeCode := by
    rw [magnitudeCode_infinity]
    exact of_decide_eq_true h
  have hunits := units_lt_units hcode
  rwa [units_infinity] at hunits

theorem significand_mod_two (d : Double) : d.significand % 2 = d.magnitudeCode % 2 := by
  unfold significand fraction
  rw [pow2_52]
  split <;> omega

/-- On a grid of `2 ^ s` units, or below where the grid has 53 bits. -/
theorem dvd_units_or_lt (d : Double) (s : Nat) :
    pow2 s ∣ d.units ∨ d.units < pow2 52 * pow2 s := by
  by_cases hs : s ≤ d.exponentField - 1
  · exact Or.inl (Nat.dvd_mul_left_of_dvd (pow2_dvd_pow2 hs) _)
  · have hfield : d.exponentField ≤ s := by omega
    refine Or.inr (Nat.lt_of_lt_of_le d.units_lt ?_)
    exact Nat.mul_le_mul_left _ (pow2_le_pow2 hfield)

/-! ## Rounded quotients -/

theorem roundQuotient_cases (num den : Nat) :
    (roundQuotient num den = num / den ∧ 2 * (num % den) ≤ den ∧
      (2 * (num % den) = den → num / den % 2 = 0)) ∨
    (roundQuotient num den = num / den + 1 ∧ den ≤ 2 * (num % den) ∧
      (2 * (num % den) = den → (num / den + 1) % 2 = 0)) := by
  unfold roundQuotient
  dsimp only
  by_cases hbelow : 2 * (num % den) < den
  · rw [if_pos hbelow]
    omega
  · by_cases habove : den < 2 * (num % den)
    · rw [if_neg hbelow, if_pos habove]
      omega
    · rw [if_neg hbelow, if_neg habove]
      omega

section Quotient

variable {num den : Nat}

/-- A multiple is one of the two next to the quotient, or a whole step farther. -/
theorem mul_steps (k quotient den : Nat) :
    k * den + den ≤ quotient * den ∨ k = quotient ∨ k = quotient + 1 ∨
      quotient * den + 2 * den ≤ k * den := by
  by_cases hbelow : k < quotient
  · have hstep := Nat.mul_le_mul_right den hbelow
    rw [Nat.succ_mul] at hstep
    exact Or.inl hstep
  · by_cases habove : quotient + 1 < k
    · have hstep := Nat.mul_le_mul_right den habove
      rw [Nat.succ_mul, Nat.succ_mul] at hstep
      omega
    · omega

theorem dist_roundQuotient_le (hden : 0 < den) (k : Nat) :
    Nat.dist num (roundQuotient num den * den) ≤ Nat.dist num (k * den) := by
  have hnum := Nat.div_add_mod' num den
  have hremainder := Nat.mod_lt num hden
  have hnext : (num / den + 1) * den = num / den * den + den := Nat.succ_mul _ _
  unfold Nat.dist
  obtain ⟨hround, hhalf, _⟩ | ⟨hround, hhalf, _⟩ := roundQuotient_cases num den <;>
    obtain hbelow | rfl | rfl | habove := mul_steps k (num / den) den <;> rw [hround] <;> omega

/-- Of two multiples that are as near, the even one. -/
theorem roundQuotient_even (hden : 0 < den) {k : Nat} (hk : k ≠ roundQuotient num den)
    (h : Nat.dist num (k * den) = Nat.dist num (roundQuotient num den * den)) :
    roundQuotient num den % 2 = 0 := by
  have hnum := Nat.div_add_mod' num den
  have hremainder := Nat.mod_lt num hden
  have hnext : (num / den + 1) * den = num / den * den + den := Nat.succ_mul _ _
  unfold Nat.dist at h
  obtain ⟨hround, hhalf, heven⟩ | ⟨hround, hhalf, heven⟩ := roundQuotient_cases num den <;>
    obtain hbelow | rfl | rfl | habove := mul_steps k (num / den) den <;>
    rw [hround] at h hk ⊢ <;> omega

/-- Rounded up to an even number from halfway on. -/
theorem le_roundQuotient_iff (hden : 0 < den) {k : Nat} (hk : k % 2 = 0) :
    k ≤ roundQuotient num den ↔ 2 * (k * den) ≤ 2 * num + den := by
  have hnum := Nat.div_add_mod' num den
  have hremainder := Nat.mod_lt num hden
  have hnext : (num / den + 1) * den = num / den * den + den := Nat.succ_mul _ _
  obtain hbelow | rfl | rfl | habove := mul_steps k (num / den) den
  · have hround := (roundQuotient_bounds num den).1
    have hle : k ≤ num / den := Nat.le_of_mul_le_mul_right (by omega) hden
    omega
  · have hround := (roundQuotient_bounds num den).1
    omega
  · -- the quotient is odd, so halfway is rounded up
    obtain ⟨hround, hhalf, heven⟩ | ⟨hround, hhalf, heven⟩ := roundQuotient_cases num den <;>
      rw [hround] <;> omega
  · have hround := (roundQuotient_bounds num den).2
    have hlt : num / den + 1 < k := by
      refine Nat.lt_of_mul_lt_mul_right (a := den) ?_
      omega
    omega

end Quotient

/-! ## Rounding to a double -/

/-- Finite and nearest to `n`; of two doubles that are as near, the one with the even
significand. A double with a sign is farther from `n` than its magnitude. -/
structure IsNearest (n : Nat) (d : Double) : Prop where
  finite : d.isFinite = true
  nearest : ∀ e : Double, e.isFinite = true →
    Nat.dist (n * unitsPerOne) d.units ≤ Nat.dist (n * unitsPerOne) e.units
  even : ∀ e : Double, e.isFinite = true → e.units ≠ d.units →
    Nat.dist (n * unitsPerOne) e.units = Nat.dist (n * unitsPerOne) d.units →
    d.significand % 2 = 0

section Magnitude

variable {u : Nat} (hu : pow2 52 ≤ u)
include hu

theorem dist_rounded_le (d : Double) :
    Nat.dist u (roundQuotient u (pow2 (excessBits u)) * pow2 (excessBits u)) ≤
      Nat.dist u d.units := by
  have hstep := pow2_pos (excessBits u)
  obtain ⟨k, hk⟩ | hbelow := d.dvd_units_or_lt (excessBits u)
  · rw [hk, Nat.mul_comm (pow2 _) k]
    exact dist_roundQuotient_le hstep k
  · have hlow := (excessBits_bounds hu).1
    have hnearer := @dist_roundQuotient_le u _ hstep (pow2 52)
    unfold Nat.dist at hnearer ⊢
    omega

theorem rounded_even {d : Double}
    (hne : d.units ≠ roundQuotient u (pow2 (excessBits u)) * pow2 (excessBits u))
    (h : Nat.dist u d.units =
      Nat.dist u (roundQuotient u (pow2 (excessBits u)) * pow2 (excessBits u))) :
    roundQuotient u (pow2 (excessBits u)) % 2 = 0 := by
  have hstep := pow2_pos (excessBits u)
  obtain ⟨k, hk⟩ | hbelow := d.dvd_units_or_lt (excessBits u)
  · rw [hk, Nat.mul_comm (pow2 _) k] at h hne
    exact roundQuotient_even hstep (fun hsame => hne (by rw [hsame])) h
  · -- the double is farther than the grid is
    have hlow := (excessBits_bounds hu).1
    have hnearer := @dist_roundQuotient_le u _ hstep (pow2 52)
    unfold Nat.dist at hnearer h
    omega

/-- Infinity is reached halfway between the last finite double and `2 ^ 2098` units. -/
theorem infinityCode_le_iff :
    infinityCode ≤ excessBits u * pow2 52 + roundQuotient u (pow2 (excessBits u)) ↔
      pow2 2098 ≤ u + pow2 2044 := by
  obtain ⟨hlow, hhigh⟩ := excessBits_bounds hu
  obtain ⟨hround, hround'⟩ := roundQuotient_significand hu
  have hhalf : pow2 2045 = 2 * pow2 2044 := pow2_succ 2044
  have hend : pow2 2098 = pow2 53 * pow2 2045 := pow2_add 53 2045
  rw [pow2_52] at hlow hround ⊢
  rw [pow2_53] at hhigh hround' hend
  rw [infinityCode_eq]
  by_cases hsmall : excessBits u ≤ 2044
  · have hbelow := pow2_le_pow2 hsmall
    omega
  by_cases hlarge : 2046 ≤ excessBits u
  · have hdouble : pow2 2046 = 2 * pow2 2045 := pow2_succ 2045
    have habove := pow2_le_pow2 hlarge
    omega
  · -- the last finite binade, where only the carry leads beyond the end
    have hbits : excessBits u = 2045 := by omega
    have hcarry : pow2 53 ≤ roundQuotient u (pow2 2045) ↔
        2 * (pow2 53 * pow2 2045) ≤ 2 * u + pow2 2045 :=
      le_roundQuotient_iff (pow2_pos 2045) rfl
    rw [pow2_53] at hcarry
    rw [hbits] at hround' ⊢
    omega

end Magnitude

/-- A number is rounded to infinity from halfway between the last finite double and
`2 ^ 1024` on. -/
theorem ofNat_eq_infinity_iff (n : Nat) : ofNat n = infinity ↔ pow2 1024 - pow2 970 ≤ n := by
  rw [ofNat_eq_infinity_iff_code]
  by_cases hn : n = 0
  · rw [hn]
    decide +kernel
  have hhalf : pow2 2044 = pow2 970 * unitsPerOne := by rw [unitsPerOne, ← pow2_add]
  rw [nearestCode_one, Nat.le_min, and_iff_left (Nat.le_refl _),
    infinityCode_le_iff (pow2_52_le_units hn), pow2_2098, hhalf, ← Nat.add_mul,
    Nat.mul_le_mul_right_iff unitsPerOne_pos, Nat.sub_le_iff_le_add]

theorem isNearest_ofNat {n : Nat} (h : n < pow2 1024 - pow2 970) : IsNearest n (ofNat n) := by
  have hfinite : nearestCode n 1 < infinityCode := by
    rw [← Nat.not_le, ← ofNat_eq_infinity_iff_code, ofNat_eq_infinity_iff]
    exact Nat.not_le.mpr h
  have hisFinite : (ofNat n).isFinite = true :=
    decide_eq_true (by rwa [magnitudeCode_ofNat])
  by_cases hn : n = 0
  · subst hn
    have hunits : (ofNat 0).units = 0 := by decide +kernel
    refine ⟨hisFinite, fun e _ => ?_, fun _ _ _ _ => by decide +kernel⟩
    rw [hunits, Nat.zero_mul, Nat.dist_self]
    exact Nat.zero_le _
  · obtain ⟨hcode, hunits⟩ := parts_ofNat hn hfinite
    refine ⟨hisFinite, fun e _ => ?_, fun e _ hne htie => ?_⟩
    · rw [hunits]
      exact dist_rounded_le (pow2_52_le_units hn) e
    · rw [hunits] at hne htie
      have heven := rounded_even (pow2_52_le_units hn) hne htie
      rw [pow2_52] at hcode
      rw [significand_mod_two]
      omega

end Double
end Parlance
