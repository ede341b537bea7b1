import PetriShorthand.Binary64.Basic

namespace PetriShorthand

local instance (priority := high) tenPow : Pow Nat Nat := instPowNat

/-- The decimal `coefficient * 10 ^ exponent`. -/
structure Decimal where
  coefficient : Nat
  exponent : Int
  deriving DecidableEq

namespace Decimal

/-- The value is `numerator / denominator` units. -/
def numerator (d : Decimal) : Nat := d.coefficient * 10 ^ d.exponent.toNat * 2 ^ unitExponent

def denominator (d : Decimal) : Nat := 10 ^ (-d.exponent).toNat

theorem denominator_pos (d : Decimal) : 0 < d.denominator := Nat.pow_pos (by decide)

/-- The nearest number. Exponents far outside the range are settled without their power of ten. -/
def toBinary64 (negative : Bool) (d : Decimal) : Binary64 :=
  if d.coefficient = 0 ∨ d.exponent < -(d.coefficient.log2 + 400) then
    .ofQuotient negative 0 1
  else if 400 < d.exponent then
    .infinity negative
  else
    .ofQuotient negative d.numerator d.denominator

theorem two_pow_le_ten_pow {j k : Nat} (h : j ≤ 3 * k) : 2 ^ j ≤ 10 ^ k := by
  refine Nat.le_trans (Nat.pow_le_pow_right (by decide) h) ?_
  rw [Nat.pow_mul]
  exact Nat.pow_le_pow_left (by decide) k

theorem two_mul_mul_two_pow_lt {c a : Nat} (h : c < 2 ^ a) (k : Nat) :
    2 * (c * 2 ^ k) < 2 ^ (a + k + 1) := by
  have := Nat.mul_lt_mul_of_pos_right h (Nat.two_pow_pos k)
  rw [Nat.pow_succ, Nat.pow_add]
  omega

theorem two_mul_numerator_lt {d : Decimal} (h : d.exponent < -(d.coefficient.log2 + 400)) :
    2 * d.numerator < d.denominator := by
  have he : d.exponent.toNat = 0 := by omega
  have hu : unitExponent = 1074 := rfl
  rw [numerator, denominator, he, Nat.pow_zero, Nat.mul_one]
  exact Nat.lt_of_lt_of_le (two_mul_mul_two_pow_lt Nat.lt_log2_self _)
    (two_pow_le_ten_pow (by omega))

theorem le_log2_numerator {d : Decimal} (hc : d.coefficient ≠ 0) (h : 400 < d.exponent) :
    1024 + unitExponent ≤ d.numerator.log2 := by
  have hn : 2 ^ (3 * d.exponent.toNat + unitExponent) ≤ d.numerator := by
    rw [numerator, Nat.pow_add]
    exact Nat.mul_le_mul_right _ (Nat.le_trans (two_pow_le_ten_pow (Nat.le_refl _))
      (Nat.le_mul_of_pos_left _ (by omega)))
  have hpos := Nat.two_pow_pos (3 * d.exponent.toNat + unitExponent)
  exact Nat.le_trans (by omega) ((Nat.le_log2 (by omega)).mpr hn)

theorem toBinary64_eq_ofQuotient (negative : Bool) (d : Decimal) :
    d.toBinary64 negative = .ofQuotient negative d.numerator d.denominator := by
  have hzero : roundUnits 0 1 = 0 := roundUnits_eq_zero (by decide)
  unfold toBinary64
  split
  next h =>
    refine Binary64.ofQuotient_congr _ (hzero.trans (roundUnits_eq_zero ?_).symm)
    rcases h with h | h
    · simpa [numerator, h] using d.denominator_pos
    · exact two_mul_numerator_lt h
  next h =>
    split
    next he =>
      have hd : d.denominator = 1 := by
        have : (-d.exponent).toNat = 0 := by omega
        rw [denominator, this, Nat.pow_zero]
      have hn := le_log2_numerator (fun hc => h (.inl hc)) he
      have hne : d.numerator ≠ 0 := by
        intro h0
        rw [h0, Nat.log2_zero] at hn
        omega
      have hround := two_pow_log2_le_roundUnits (n := d.numerator) (d := 1) (by simpa using hne)
      rw [Nat.div_one] at hround
      have hpos := Nat.two_pow_pos d.numerator.log2
      rw [hd, Binary64.ofQuotient_eq_infinity]
      exact Nat.le_trans hn ((Nat.le_log2 (by omega)).mpr hround)
    next => rfl

def Denotes (d : Decimal) (u : Nat) : Prop := roundUnits d.numerator d.denominator = u

instance (d : Decimal) (u : Nat) : Decidable (d.Denotes u) :=
  inferInstanceAs (Decidable (_ = _))

/-- `u` units written out to the last digit. -/
def exact (u : Nat) : Decimal := ⟨u * 5 ^ unitExponent, -unitExponent⟩

/-- The multiple of `10 ^ grid` at or just below `u` units. -/
def below (u : Nat) (grid : Int) : Decimal :=
  ⟨u * 10 ^ (-grid).toNat / (2 ^ unitExponent * 10 ^ grid.toNat), grid⟩

def next (d : Decimal) : Decimal := ⟨d.coefficient + 1, d.exponent⟩

/-- `u` units lie in the lower half of the gap between `d` and `d.next`. -/
def InLowerHalf (u : Nat) (d : Decimal) : Prop :=
  2 * u * d.denominator < d.numerator + d.next.numerator

instance (u : Nat) (d : Decimal) : Decidable (InLowerHalf u d) :=
  inferInstanceAs (Decidable (_ < _))

/-- The grid point nearest to `u` units among those that denote them; from the middle it goes up. -/
def onGrid? (u : Nat) (grid : Int) : Option Decimal :=
  let low := below u grid
  if low.Denotes u ∧ (low.next.Denotes u → InLowerHalf u low) then some low
  else if low.next.Denotes u then some low.next
  else none

def magnitudeExponent (u : Nat) : Int :=
  (Nat.toDigits 10 (u * 10 ^ (400 : Nat) / 2 ^ unitExponent)).length - 400

/-- Moves the zeros at the end of the coefficient into the exponent. -/
def normalize (d : Decimal) : Decimal :=
  if d.coefficient ≠ 0 ∧ d.coefficient % 10 = 0 then
    normalize ⟨d.coefficient / 10, d.exponent + 1⟩
  else d
termination_by d.coefficient
decreasing_by omega

/-- The fewest digits that denote `u` units; of several such decimals the nearest. -/
def shortest (u : Nat) : Decimal :=
  if u = 0 then ⟨0, 0⟩
  else
    let found := (List.range 17).findSome? fun (n : Nat) => onGrid? u (magnitudeExponent u - n - 1)
    (found.getD (exact u)).normalize

/-- Digits before and after the point, with at least one digit before it. -/
def digitsInPlace (d : Decimal) : List Char × List Char :=
  let digits := Nat.toDigits 10 d.coefficient ++ List.replicate d.exponent.toNat '0'
  let places := (-d.exponent).toNat
  let padded := List.replicate (places + 1 - digits.length) '0' ++ digits
  padded.splitAt (padded.length - places)

def leadingExponent (d : Decimal) : Int := (Nat.toDigits 10 d.coefficient).length - 1 + d.exponent

end Decimal

end PetriShorthand
