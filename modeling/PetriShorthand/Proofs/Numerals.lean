import PetriShorthand.Chain.Basic
import PetriShorthand.Proofs.Patterns

namespace PetriShorthand

local instance (priority := high) digitPow : Pow Nat Nat := instPowNat

theorem roundHalfEven_mul_right (n d : Nat) {k : Nat} (hk : 0 < k) :
    roundHalfEven (n * k) (d * k) = roundHalfEven n d := by
  have hlt : 2 * (n % d * k) < d * k ↔ 2 * (n % d) < d := by
    rw [← Nat.mul_assoc]
    exact Nat.mul_lt_mul_right hk
  have heq : 2 * (n % d * k) = d * k ↔ 2 * (n % d) = d := by
    rw [← Nat.mul_assoc]
    exact Nat.mul_left_inj (by omega)
  simp only [roundHalfEven, Nat.mul_div_mul_right _ _ hk, Nat.mul_mod_mul_right, hlt, heq]

theorem roundUnits_mul_right (n d : Nat) {k : Nat} (hk : 0 < k) :
    roundUnits (n * k) (d * k) = roundUnits n d := by
  rw [roundUnits, roundUnits, Nat.mul_div_mul_right _ _ hk, Nat.mul_right_comm,
    roundHalfEven_mul_right _ _ hk]

namespace Decimal

def SameValue (d e : Decimal) : Prop := d.numerator * e.denominator = e.numerator * d.denominator

theorem SameValue.roundUnits_eq {d e : Decimal} (h : SameValue d e) :
    roundUnits d.numerator d.denominator = roundUnits e.numerator e.denominator := by
  rw [← roundUnits_mul_right d.numerator d.denominator e.denominator_pos, h,
    Nat.mul_comm d.denominator, roundUnits_mul_right _ _ d.denominator_pos]

theorem SameValue.denotes_iff {d e : Decimal} (h : SameValue d e) (u : Nat) :
    d.Denotes u ↔ e.Denotes u := by
  rw [Denotes, Denotes, h.roundUnits_eq]

/-- A decimal that denotes a magnitude is read as that magnitude. -/
theorem Denotes.toBinary64_eq {d : Decimal} {m : Magnitude} (h : d.Denotes m.units)
    (negative : Bool) : d.toBinary64 negative = .finite negative m := by
  have hround : roundUnits d.numerator d.denominator = roundUnits m.units 1 :=
    h.trans (roundUnits_units m).symm
  rw [toBinary64_eq_ofQuotient, Binary64.ofQuotient_congr negative hround,
    Binary64.ofQuotient_units]

theorem sameValue_exact (u : Nat) : (exact u).numerator = u * (exact u).denominator := by
  have hneg : (-(unitExponent : Int)).toNat = 0 := by omega
  have hpos : (-(-(unitExponent : Int))).toNat = unitExponent := by omega
  rw [numerator, denominator, exact]
  simp only [hneg, hpos, Nat.pow_zero, Nat.mul_one]
  rw [Nat.mul_assoc, ← Nat.mul_pow]

theorem denotes_exact (m : Magnitude) : (exact m.units).Denotes m.units := by
  have hunits : roundUnits (m.units * (exact m.units).denominator)
      (1 * (exact m.units).denominator) = m.units := by
    rw [roundUnits_mul_right _ _ (denominator_pos _), roundUnits_units]
  rwa [Nat.one_mul, ← sameValue_exact] at hunits

theorem denotes_of_onGrid? {u : Nat} {grid : Int} {d : Decimal} (h : onGrid? u grid = some d) :
    d.Denotes u := by
  unfold onGrid? at h
  dsimp only at h
  split at h
  next hlow =>
    cases h
    exact hlow.1
  next =>
    split at h
    next hnext =>
      cases h
      exact hnext
    next => cases h

theorem sameValue_div_ten {d : Decimal} (h : d.coefficient % 10 = 0) :
    SameValue ⟨d.coefficient / 10, d.exponent + 1⟩ d := by
  obtain ⟨c, e⟩ := d
  simp only at h
  have hc : c = c / 10 * 10 := by omega
  rw [SameValue, numerator, denominator, numerator, denominator]
  simp only
  by_cases he : 0 ≤ e
  · have hup : (e + 1).toNat = e.toNat + 1 := by omega
    have hdown : (-(e + 1)).toNat = 0 := by omega
    have hdown' : (-e).toNat = 0 := by omega
    rw [hup, hdown, hdown', Nat.pow_succ, Nat.pow_zero, Nat.mul_one, Nat.mul_one,
      Nat.mul_comm (10 ^ e.toNat), ← Nat.mul_assoc (c / 10), ← hc]
  · have hup : (e + 1).toNat = 0 := by omega
    have hup' : e.toNat = 0 := by omega
    have hdown : (-e).toNat = (-(e + 1)).toNat + 1 := by omega
    rw [hup, hup', hdown, Nat.pow_zero, Nat.mul_one, Nat.mul_one, Nat.pow_succ]
    conv => rhs; rw [hc]
    simp only [Nat.mul_assoc, Nat.mul_comm, Nat.mul_left_comm]

theorem normalize_denotes_iff (d : Decimal) (u : Nat) : d.normalize.Denotes u ↔ d.Denotes u := by
  fun_induction normalize d with
  | case1 d hd ih => rw [ih, (sameValue_div_ten hd.2).denotes_iff]
  | case2 d hd => exact Iff.rfl

theorem shortest_denotes (m : Magnitude) : (shortest m.units).Denotes m.units := by
  unfold shortest
  split
  next hzero =>
    rw [hzero, Denotes]
    refine roundUnits_eq_zero ?_
    rw [numerator, Nat.zero_mul, Nat.zero_mul]
    exact denominator_pos _
  next =>
    rw [normalize_denotes_iff]
    generalize hfound : List.findSome? _ _ = found
    cases found with
    | none => exact denotes_exact m
    | some d =>
      obtain ⟨n, -, hn⟩ := List.exists_of_findSome?_eq_some hfound
      exact denotes_of_onGrid? hn

theorem digitsInPlace_spec (d : Decimal) :
    d.digitsInPlace.1 ≠ [] ∧ (∀ c ∈ d.digitsInPlace.1, c.isDigit) ∧
      (∀ c ∈ d.digitsInPlace.2, c.isDigit) ∧
      d.digitsInPlace.2.length = (-d.exponent).toNat ∧
      Nat.ofDigitChars 10 (d.digitsInPlace.1 ++ d.digitsInPlace.2) 0 =
        d.coefficient * 10 ^ d.exponent.toNat := by
  rw [digitsInPlace]
  generalize hdigits : Nat.toDigits 10 d.coefficient ++ List.replicate d.exponent.toNat '0' = digits
  generalize hplaces : (-d.exponent).toNat = places
  generalize hpadded : List.replicate (places + 1 - digits.length) '0' ++ digits = padded
  have hlength : places + 1 ≤ padded.length := by
    rw [← hpadded, List.length_append, List.length_replicate]
    omega
  have hzero : ∀ n, ∀ c ∈ List.replicate n '0', c.isDigit := by
    intro n c hc
    rw [List.eq_of_mem_replicate hc]
    decide
  have hall : ∀ c ∈ padded, c.isDigit := by
    intro c hc
    rw [← hpadded, ← hdigits] at hc
    rcases List.mem_append.mp hc with hc | hc
    · exact hzero _ c hc
    · rcases List.mem_append.mp hc with hc | hc
      · exact Nat.isDigit_of_mem_toDigits (by decide) (by decide) hc
      · exact hzero _ c hc
  have hvalue : Nat.ofDigitChars 10 padded 0 = d.coefficient * 10 ^ d.exponent.toNat := by
    rw [← hpadded, ← hdigits, Nat.ofDigitChars_append, Nat.ofDigitChars_replicate_zero,
      Nat.ofDigitChars_append, Nat.ofDigitChars_replicate_zero, Nat.mul_zero,
      Nat.ofDigitChars_ten_toDigits, Nat.mul_comm]
  simp only [List.splitAt_eq]
  refine ⟨?_, fun c hc => hall c (List.mem_of_mem_take hc),
    fun c hc => hall c (List.mem_of_mem_drop hc), ?_, ?_⟩
  · intro hnil
    have htake := congrArg List.length hnil
    rw [List.length_take, List.length_nil] at htake
    omega
  · rw [List.length_drop]
    omega
  · rw [List.take_append_drop, hvalue]

/-- The decimal with more places after the point. -/
theorem sameValue_places (d : Decimal) {n : Nat} (hn : (-d.exponent).toNat ≤ n) :
    SameValue ⟨d.coefficient * 10 ^ d.exponent.toNat * 10 ^ (n - (-d.exponent).toNat), -n⟩ d := by
  have hneg : (-(n : Int)).toNat = 0 := by omega
  have hpos : (-(-(n : Int))).toNat = n := by omega
  have hpow : 10 ^ n = 10 ^ (n - (-d.exponent).toNat) * 10 ^ (-d.exponent).toNat := by
    rw [← Nat.pow_add, Nat.sub_add_cancel hn]
  rw [SameValue, numerator, denominator, numerator, denominator]
  simp only [hneg, hpos, Nat.pow_zero, Nat.mul_one, hpow]
  simp only [Nat.mul_assoc, Nat.mul_comm, Nat.mul_left_comm]

end Decimal

namespace Binary64

theorem inPlaceText_plain (d : Decimal) : Layout.plain.inPlaceText d =
    if d.digitsInPlace.2 = [] then d.digitsInPlace.1
    else d.digitsInPlace.1 ++ '.' :: d.digitsInPlace.2 := by
  rw [Layout.inPlaceText]
  generalize d.digitsInPlace = digits
  obtain ⟨whole, fraction⟩ := digits
  cases fraction with
  | nil => rfl
  | cons c cs => rfl

theorem exists_digit_inPlaceText_plain (d : Decimal) :
    ∃ c cs, Layout.plain.inPlaceText d = c :: cs ∧ c.isDigit := by
  obtain ⟨hne, hwhole, -⟩ := d.digitsInPlace_spec
  rw [inPlaceText_plain]
  generalize d.digitsInPlace = digits at *
  obtain ⟨whole, fraction⟩ := digits
  obtain ⟨c, cs, rfl⟩ := List.exists_cons_of_ne_nil hne
  have hc := hwhole c List.mem_cons_self
  split
  · exact ⟨c, _, rfl, hc⟩
  · exact ⟨c, _, rfl, hc⟩

theorem chars_plain (negative : Bool) (m : Magnitude) :
    (finite negative m).chars .plain =
      Layout.signText negative ++ Layout.plain.inPlaceText (Decimal.shortest m.units) := by
  have hplace : Layout.plain.WritesInPlace (Decimal.shortest m.units) := .inr nofun
  rw [chars, Layout.magnitudeText]
  simp only [hplace, ↓reduceIte]

end Binary64

namespace TransitionRef

open Token.Kind

theorem toList_weightText (w : Binary64) :
    (weightText w).toList =
      if '.' ∈ w.chars .plain then w.chars .plain else w.chars .plain ++ ['.', '0'] := by
  rw [weightText, Binary64.text]
  simp only [String.toList_ofList, List.contains_iff_mem]
  split
  · rw [String.toList_ofList]
  · rw [String.toList_append, String.toList_ofList]
    rfl

theorem ofText?_of_denotes {text : String} {whole fraction : List Char} {d : Decimal}
    {m : Magnitude} (htext : text.toList = whole ++ '.' :: fraction) (hne : whole ≠ [])
    (hwhole : ∀ c ∈ whole, c.isDigit) (hfraction : ∀ c ∈ fraction, c.isDigit)
    (hd : d.Denotes m.units) (hplaces : (-d.exponent).toNat ≤ fraction.length)
    (hvalue : Nat.ofDigitChars 10 (whole ++ fraction) 0 =
      d.coefficient * 10 ^ d.exponent.toNat * 10 ^ (fraction.length - (-d.exponent).toNat)) :
    Binary64.ofText? text = some (.finite false m) := by
  have hdenotes := ((d.sameValue_places hplaces).denotes_iff m.units).mpr hd
  rw [Binary64.ofText?_of_digits htext hne hwhole hfraction, hvalue, hdenotes.toBinary64_eq]

/-- A finite weight that is not negative is written as digits on both sides of a point, which are
read as the weight. -/
theorem weightText_finite (m : Magnitude) :
    Covers .weight (weightText (.finite false m)).toList ∧
      Binary64.ofText? (weightText (.finite false m)) = some (.finite false m) := by
  have hdenotes := Decimal.shortest_denotes m
  have hchars := Binary64.chars_plain false m
  generalize Decimal.shortest m.units = d at hdenotes hchars
  obtain ⟨hne, hwhole, hfraction, hlength, hvalue⟩ := d.digitsInPlace_spec
  rw [Binary64.inPlaceText_plain] at hchars
  generalize d.digitsInPlace = digits at *
  obtain ⟨whole, fraction⟩ := digits
  simp only at hne hwhole hfraction hlength hvalue hchars
  have htext := toList_weightText (.finite false m)
  by_cases hf : fraction = []
  · have hpoint : '.' ∉ whole := fun h => absurd (hwhole '.' h) (by decide)
    have hzero : ∀ c ∈ ['0'], c.isDigit := by
      intro c hc
      obtain rfl := List.mem_singleton.mp hc
      decide
    have hplain : (Binary64.finite false m).chars .plain = whole := by
      rw [hchars, if_pos hf]
      rfl
    rw [hplain, if_neg hpoint] at htext
    rw [hf, List.length_nil] at hlength
    rw [hf, List.append_nil] at hvalue
    refine ⟨htext ▸ .weight hne hwhole (by simp) hzero, ?_⟩
    refine ofText?_of_denotes htext hne hwhole hzero hdenotes (by omega) ?_
    rw [Nat.ofDigitChars_append, hvalue, ← hlength]
    simp [Nat.ofDigitChars, Nat.mul_comm]
  · have hplain : (Binary64.finite false m).chars .plain = whole ++ '.' :: fraction := by
      rw [hchars, if_neg hf]
      rfl
    rw [hplain, if_pos (by simp)] at htext
    refine ⟨htext ▸ .weight hne hwhole hf hfraction, ?_⟩
    refine ofText?_of_denotes htext hne hwhole hfraction hdenotes (by omega) ?_
    rw [hvalue, hlength, Nat.sub_self, Nat.pow_zero, Nat.mul_one]

end TransitionRef

end PetriShorthand
