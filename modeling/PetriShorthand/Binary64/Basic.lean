namespace PetriShorthand

-- powers of whole numbers are those of the core library, whatever else is imported
local instance (priority := high) wholePow : Pow Nat Nat := instPowNat

/-- The unit is 2 to minus this power. -/
def unitExponent : Nat := 1074

/-- Gap between neighbouring magnitudes around `u` units, which leaves 53 significant bits. -/
def spacing (u : Nat) : Nat := 2 ^ (u.log2 - 52)

theorem spacing_pos (u : Nat) : 0 < spacing u := Nat.two_pow_pos _

/-- The whole number nearest to `n / d`, the even one of two equally near. -/
def roundHalfEven (n d : Nat) : Nat :=
  if 2 * (n % d) < d ∨ (2 * (n % d) = d ∧ n / d % 2 = 0) then n / d else n / d + 1

theorem roundHalfEven_le (n d : Nat) : roundHalfEven n d ≤ n / d + 1 := by
  unfold roundHalfEven
  split <;> omega

theorem le_roundHalfEven (n d : Nat) : n / d ≤ roundHalfEven n d := by
  unfold roundHalfEven
  split <;> omega

theorem roundHalfEven_mul_self {k d : Nat} (hd : 0 < d) : roundHalfEven (k * d) d = k := by
  rw [roundHalfEven, Nat.mul_mod_left, if_pos (by omega), Nat.mul_div_cancel _ hd]

/-- `n / d` units rounded to 53 significant bits. -/
def roundUnits (n d : Nat) : Nat :=
  roundHalfEven n (d * spacing (n / d)) * spacing (n / d)

theorem div_spacing_lt (u : Nat) : u / spacing u < 2 ^ (53 : Nat) := by
  rw [Nat.div_lt_iff_lt_mul (spacing_pos u), spacing, ← Nat.pow_add]
  exact Nat.lt_of_lt_of_le Nat.lt_log2_self (Nat.pow_le_pow_right (by decide) (by omega))

theorem roundHalfEven_spacing_le (n d : Nat) :
    roundHalfEven n (d * spacing (n / d)) ≤ 2 ^ (53 : Nat) := by
  have h := roundHalfEven_le n (d * spacing (n / d))
  rw [← Nat.div_div_eq_div_mul] at h
  exact Nat.le_trans h (div_spacing_lt (n / d))

theorem spacing_dvd_mul_two_pow {k t : Nat} (h : k ≤ 2 ^ (53 : Nat)) :
    spacing (k * 2 ^ t) ∣ k * 2 ^ t := by
  by_cases hk : k = 2 ^ (53 : Nat)
  · subst hk
    rw [spacing, ← Nat.pow_add, Nat.log2_two_pow]
    exact Nat.pow_dvd_pow 2 (by omega)
  · refine Nat.dvd_trans (Nat.pow_dvd_pow 2 ?_) (Nat.dvd_mul_left (2 ^ t) k)
    have hlt : k * 2 ^ t < 2 ^ (53 + t) := by
      rw [Nat.pow_add]
      exact Nat.mul_lt_mul_of_pos_right (by omega) (Nat.two_pow_pos t)
    by_cases h0 : k * 2 ^ t = 0
    · simp [h0]
    · have := (Nat.log2_lt h0).mpr hlt
      omega

theorem spacing_dvd_roundUnits (n d : Nat) : spacing (roundUnits n d) ∣ roundUnits n d :=
  spacing_dvd_mul_two_pow (roundHalfEven_spacing_le n d)

theorem two_pow_log2_le_div_spacing_mul {u : Nat} (hu : u ≠ 0) :
    2 ^ u.log2 ≤ u / spacing u * spacing u := by
  have h : 2 ^ (u.log2 - (u.log2 - 52)) * spacing u = 2 ^ u.log2 := by
    rw [spacing, ← Nat.pow_add]
    congr 1
    omega
  rw [← h]
  refine Nat.mul_le_mul_right _ ?_
  rw [Nat.le_div_iff_mul_le (spacing_pos u), h]
  exact Nat.log2_self_le hu

theorem two_pow_log2_le_roundUnits {n d : Nat} (h : n / d ≠ 0) :
    2 ^ (n / d).log2 ≤ roundUnits n d := by
  refine Nat.le_trans (two_pow_log2_le_div_spacing_mul h) (Nat.mul_le_mul_right _ ?_)
  rw [Nat.div_div_eq_div_mul]
  exact le_roundHalfEven _ _

theorem roundUnits_eq_zero {n d : Nat} (h : 2 * n < d) : roundUnits n d = 0 := by
  have hq : n / d = 0 := Nat.div_eq_of_lt (by omega)
  have hs : spacing 0 = 1 := rfl
  rw [roundUnits, hq, hs, Nat.mul_one, Nat.mul_one, roundHalfEven, Nat.mod_eq_of_lt (by omega),
    if_pos (.inl h), hq]

/-- Finite magnitudes: multiples of their own spacing that stay below 2 ^ 1024. -/
structure Magnitude where
  units : Nat
  spacing_dvd : spacing units ∣ units
  log2_lt : units.log2 < 1024 + unitExponent
  deriving DecidableEq

theorem roundUnits_units (m : Magnitude) : roundUnits m.units 1 = m.units := by
  obtain ⟨k, hk⟩ := m.spacing_dvd
  rw [roundUnits, Nat.div_one, Nat.one_mul]
  conv => lhs; arg 1; arg 1; rw [hk, Nat.mul_comm]
  rw [roundHalfEven_mul_self (spacing_pos _), Nat.mul_comm, ← hk]

/-- A number, an infinity or the one value that is no number; zero has both signs. -/
inductive Binary64 where
  | nan
  | infinity (negative : Bool)
  | finite (negative : Bool) (magnitude : Magnitude)
  deriving DecidableEq

namespace Binary64

/-- The value nearest to `n / d` units; beyond the greatest finite one lies infinity. -/
def ofQuotient (negative : Bool) (n d : Nat) : Binary64 :=
  if h : (roundUnits n d).log2 < 1024 + unitExponent then
    finite negative ⟨roundUnits n d, spacing_dvd_roundUnits n d, h⟩
  else
    infinity negative

theorem ofQuotient_congr {n d n' d' : Nat} (negative : Bool)
    (h : roundUnits n d = roundUnits n' d') :
    ofQuotient negative n d = ofQuotient negative n' d' := by
  simp only [ofQuotient, h]

theorem ofQuotient_eq_infinity {n d : Nat} (negative : Bool)
    (h : 1024 + unitExponent ≤ (roundUnits n d).log2) :
    ofQuotient negative n d = infinity negative :=
  dif_neg (by omega)

theorem ofQuotient_units (negative : Bool) (m : Magnitude) :
    ofQuotient negative m.units 1 = finite negative m := by
  rw [ofQuotient, dif_pos (by rw [roundUnits_units]; exact m.log2_lt)]
  congr 1
  cases m
  congr 1
  exact roundUnits_units _

def one : Binary64 := ofQuotient false (2 ^ unitExponent) 1

def signedUnits (negative : Bool) (magnitude : Magnitude) : Int :=
  if negative then -magnitude.units else magnitude.units

/-- Equality of numbers: the zeros agree, and `nan` agrees with nothing. -/
def sameNumber : Binary64 → Binary64 → Bool
  | infinity s, infinity t => s == t
  | finite s a, finite t b => signedUnits s a == signedUnits t b
  | _, _ => false

def atMost : Binary64 → Binary64 → Bool
  | nan, _ => false
  | _, nan => false
  | infinity true, _ => true
  | _, infinity false => true
  | infinity false, _ => false
  | _, infinity true => false
  | finite s a, finite t b => signedUnits s a ≤ signedUnits t b

/-- The rounded distance of two numbers; equal infinities have none. -/
def distance : Binary64 → Binary64 → Binary64
  | nan, _ => nan
  | _, nan => nan
  | infinity s, infinity t => if s = t then nan else infinity false
  | infinity _, finite _ _ => infinity false
  | finite _ _, infinity _ => infinity false
  | finite s a, finite t b => ofQuotient false (signedUnits s a - signedUnits t b).natAbs 1

end Binary64

end PetriShorthand
