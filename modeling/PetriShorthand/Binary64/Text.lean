import PetriShorthand.Binary64.Decimal
import PetriShorthand.Text.Split

namespace PetriShorthand

namespace Binary64

/-- Takes a leading sign off; a missing one counts as plus. -/
def splitSign : List Char → Bool × List Char
  | '-' :: cs => (true, cs)
  | '+' :: cs => (false, cs)
  | cs => (false, cs)

def splitFraction : List Char → List Char × List Char
  | '.' :: cs => splitWhile Char.isDigit cs
  | cs => ([], cs)

/-- The power of ten at the end of a number, zero where none is given. -/
def exponent? : List Char → Option Int
  | [] => some 0
  | c :: cs =>
    let (negative, digits) := splitSign cs
    if (c = 'e' ∨ c = 'E') ∧ digits ≠ [] ∧ digits.all Char.isDigit then
      let n := Nat.ofDigitChars 10 digits 0
      some (if negative then -n else n)
    else none

/-- Digits with an optional point, of which at least one must be there, and a power of ten. -/
def unsignedDecimal? (cs : List Char) : Option Decimal :=
  let (whole, rest) := splitWhile Char.isDigit cs
  let (fraction, rest) := splitFraction rest
  if whole = [] ∧ fraction = [] then none
  else (exponent? rest).map fun e =>
    ⟨Nat.ofDigitChars 10 (whole ++ fraction) 0, e - fraction.length⟩

def ofText? (text : String) : Option Binary64 :=
  let (negative, cs) := splitSign text.toList
  let name := cs.map Char.toLower
  if name = "nan".toList then some .nan
  else if name = "inf".toList ∨ name = "infinity".toList then some (.infinity negative)
  else (unsignedDecimal? cs).map (Decimal.toBinary64 negative)

structure Layout where
  /-- A whole number with every digit in its place ends in `.0`. -/
  pointZero : Bool
  /-- The powers of ten of the first digit, from the one up to the other, at which every digit is
  written in its place. Without bounds that is always so. -/
  inPlace : Option (Int × Int)

namespace Layout

/-- Every digit in its place, and a point only before a fraction. -/
def plain : Layout := ⟨false, none⟩

def WritesInPlace (layout : Layout) (d : Decimal) : Prop :=
  d.coefficient = 0 ∨ ∀ bounds ∈ layout.inPlace,
    bounds.1 ≤ d.leadingExponent ∧ d.leadingExponent < bounds.2

instance (layout : Layout) (d : Decimal) : Decidable (layout.WritesInPlace d) :=
  inferInstanceAs (Decidable (_ ∨ _))

def inPlaceText (layout : Layout) (d : Decimal) : List Char :=
  let (whole, fraction) := d.digitsInPlace
  if fraction ≠ [] then whole ++ '.' :: fraction
  else if layout.pointZero then whole ++ ['.', '0']
  else whole

/-- One digit before the point, and the power of ten for which it stands. -/
def powerText (d : Decimal) : List Char :=
  let mantissa := match Nat.toDigits 10 d.coefficient with
    | first :: [] => [first]
    | first :: rest => first :: '.' :: rest
    | [] => []
  mantissa ++ 'e' :: (toString d.leadingExponent).toList

def magnitudeText (layout : Layout) (m : Magnitude) : List Char :=
  let d := Decimal.shortest m.units
  if layout.WritesInPlace d then layout.inPlaceText d else powerText d

def signText (negative : Bool) : List Char := if negative then ['-'] else []

end Layout

def chars (layout : Layout) : Binary64 → List Char
  | nan => "NaN".toList
  | infinity negative => Layout.signText negative ++ "inf".toList
  | finite negative m => Layout.signText negative ++ layout.magnitudeText m

/-- The shortest text in the given layout that reads back as the number. -/
def text (layout : Layout) (x : Binary64) : String := String.ofList (x.chars layout)

end Binary64

end PetriShorthand
