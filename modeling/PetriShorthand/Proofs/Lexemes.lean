import Mathlib.Data.List.TakeWhile
import PetriShorthand.Binary64.Text
import PetriShorthand.Token.Scan

namespace PetriShorthand

theorem splitWhile_append_of_all {p : Char → Bool} {front rest : List Char} (h : ∀ c ∈ front, p c)
    (hrest : ∀ c ∈ rest.head?, ¬p c) : splitWhile p (front ++ rest) = (front, rest) := by
  have hnone : rest.takeWhile p = [] := by
    cases rest with
    | nil => rfl
    | cons c rest => exact List.takeWhile_cons_of_neg (hrest c rfl)
  have hall : rest.dropWhile p = rest := by
    cases rest with
    | nil => rfl
    | cons c rest => exact List.dropWhile_cons_of_neg (hrest c rfl)
  rw [splitWhile, List.takeWhile_append_of_pos h, List.dropWhile_append_of_pos h, hnone, hall,
    List.append_nil]

theorem mem_of_splitWhile_eq {p : Char → Bool} {cs front rest : List Char}
    (h : splitWhile p cs = (front, rest)) : ∀ c ∈ front, p c := by
  obtain ⟨rfl, rfl⟩ := Prod.mk.inj h
  exact fun c hc => List.mem_takeWhile_imp hc

namespace Binary64

theorem splitSign_of_digits {whole : List Char} (hne : whole ≠ [])
    (hwhole : ∀ c ∈ whole, c.isDigit) (rest : List Char) :
    splitSign (whole ++ rest) = (false, whole ++ rest) := by
  obtain ⟨c, cs, rfl⟩ := List.exists_cons_of_ne_nil hne
  have hdigit := hwhole c List.mem_cons_self
  unfold splitSign
  split
  next h =>
    cases h
    exact absurd hdigit (by decide)
  next h =>
    cases h
    exact absurd hdigit (by decide)
  next => rfl

theorem unsignedDecimal?_of_digits {whole fraction : List Char} (hne : whole ≠ [])
    (hwhole : ∀ c ∈ whole, c.isDigit) (hfraction : ∀ c ∈ fraction, c.isDigit) :
    unsignedDecimal? (whole ++ '.' :: fraction) =
      some ⟨Nat.ofDigitChars 10 (whole ++ fraction) 0, -fraction.length⟩ := by
  have hpoint : splitWhile Char.isDigit (whole ++ '.' :: fraction) = (whole, '.' :: fraction) := by
    apply splitWhile_append_of_all hwhole
    rintro c hc
    cases hc
    decide
  have hend : splitWhile Char.isDigit fraction = (fraction, []) := by
    have h : splitWhile Char.isDigit (fraction ++ []) = (fraction, []) :=
      splitWhile_append_of_all hfraction nofun
    rwa [List.append_nil] at h
  rw [unsignedDecimal?, hpoint]
  simp only [splitFraction, hend, hne, false_and, ↓reduceIte, exponent?, Option.map_some,
    Int.zero_sub]

theorem map_toLower_ne {cs name : List Char} (hcs : '.' ∈ cs) (hname : '.' ∉ name) :
    cs.map Char.toLower ≠ name := by
  rintro rfl
  exact hname (List.mem_map.mpr ⟨'.', hcs, rfl⟩)

theorem ofText?_of_digits {text : String} {whole fraction : List Char}
    (htext : text.toList = whole ++ '.' :: fraction) (hne : whole ≠ [])
    (hwhole : ∀ c ∈ whole, c.isDigit) (hfraction : ∀ c ∈ fraction, c.isDigit) :
    ofText? text = some (Decimal.toBinary64 false
      ⟨Nat.ofDigitChars 10 (whole ++ fraction) 0, -fraction.length⟩) := by
  have hpoint : '.' ∈ whole ++ '.' :: fraction := by simp
  have hnan := map_toLower_ne hpoint (show '.' ∉ "nan".toList by decide)
  have hinf := map_toLower_ne hpoint (show '.' ∉ "inf".toList by decide)
  have hinfinity := map_toLower_ne hpoint (show '.' ∉ "infinity".toList by decide)
  rw [ofText?, htext, splitSign_of_digits hne hwhole]
  simp only [hnan, hinf, hinfinity, or_self, ↓reduceIte,
    unsignedDecimal?_of_digits hne hwhole hfraction, Option.map_some]

theorem exists_ofText?_of_digits {text : String} {whole fraction : List Char}
    (htext : text.toList = whole ++ '.' :: fraction) (hne : whole ≠ [])
    (hwhole : ∀ c ∈ whole, c.isDigit) (hfraction : ∀ c ∈ fraction, c.isDigit) :
    ∃ x, ofText? text = some x :=
  ⟨_, ofText?_of_digits htext hne hwhole hfraction⟩

end Binary64

namespace Token

/-- The text is what the kind has at the front of some text. -/
def IsLexeme (t : Token) : Prop := ∃ cs rest, t.kind.split? cs = some (t.text.toList, rest)

namespace IsLexeme

variable {t : Token}

theorem kind_ne_finish (h : t.IsLexeme) : t.kind ≠ .finish := by
  intro hk
  obtain ⟨cs, rest, hsplit⟩ := h
  rw [hk] at hsplit
  cases hsplit

theorem exists_weight (h : t.IsLexeme) (hk : t.kind = .weight) :
    ∃ w, Binary64.ofText? t.text = some w := by
  obtain ⟨cs, rest, hsplit⟩ := h
  rw [hk, Kind.split?] at hsplit
  split at hsplit
  next whole afterWhole hwhole =>
    split at hsplit
    next afterPoint =>
      split at hsplit
      next fraction rest' hfraction =>
        obtain ⟨hne, hlexeme⟩ := Option.ite_none_right_eq_some.mp hsplit
        obtain ⟨htext, -⟩ := Prod.mk.inj (Option.some.inj hlexeme)
        exact Binary64.exists_ofText?_of_digits htext.symm hne.1 (mem_of_splitWhile_eq hwhole)
          (mem_of_splitWhile_eq hfraction)
    next => cases hsplit

end IsLexeme

end Token

namespace Cursor

theorem isLexeme_of_next {c d : Cursor} {t : Token} (h : c.next = (.ok (some t), d)) :
    t.IsLexeme := by
  rw [next] at h
  split at h
  next => cases h
  next =>
    split at h
    next kind lexeme rest hfirst =>
      cases h
      refine ⟨c.skipBlanks.rest, rest, ?_⟩
      rw [String.toList_ofList]
      exact Token.Kind.split?_of_first? hfirst
    next => cases h

theorem unexpectedText_of_tokens {c : Cursor} {failure : Failure}
    (h : c.tokens = .error failure) :
    ∃ position remainder, failure = .unexpectedText position remainder := by
  induction c using Cursor.tokens.induct with
  | case1 c failure d hnext =>
    rw [tokens, hnext] at h
    cases h
    rw [next] at hnext
    split at hnext
    next => cases hnext
    next =>
      split at hnext
      next => cases hnext
      next =>
        cases hnext
        exact ⟨_, _, rfl⟩
  | case2 c d hnext =>
    rw [tokens, hnext] at h
    cases h
  | case3 c t d hnext ih =>
    rw [tokens, hnext] at h
    change (t :: ·) <$> d.tokens = .error failure at h
    cases hd : d.tokens with
    | error failure' =>
      rw [hd] at h
      cases h
      exact ih hd
    | ok ts =>
      rw [hd] at h
      cases h

theorem isLexeme_of_mem_tokens {c : Cursor} {ts : List Token} (h : c.tokens = .ok ts) :
    ∀ t ∈ ts, t.IsLexeme := by
  induction c using Cursor.tokens.induct generalizing ts with
  | case1 c failure d hnext =>
    rw [tokens, hnext] at h
    cases h
  | case2 c d hnext =>
    rw [tokens, hnext] at h
    cases h
    nofun
  | case3 c t d hnext ih =>
    rw [tokens, hnext] at h
    change (t :: ·) <$> d.tokens = .ok ts at h
    cases hd : d.tokens with
    | error failure =>
      rw [hd] at h
      cases h
    | ok ts =>
      rw [hd] at h
      cases h
      intro t' ht'
      rcases List.mem_cons.mp ht' with rfl | ht'
      · exact isLexeme_of_next hnext
      · exact ih hd t' ht'

end Cursor

theorem isLexeme_of_mem_tokens {text : String} {ts : List Token} (h : tokens text = .ok ts) :
    ∀ t ∈ ts, t.IsLexeme :=
  Cursor.isLexeme_of_mem_tokens h

end PetriShorthand
