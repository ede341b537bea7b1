import PetriShorthand.Failure
import PetriShorthand.Text.Lines
import PetriShorthand.Text.Split

namespace PetriShorthand

namespace Token.Kind

/-- The lexeme of the kind at the front of a text, and the characters after it. Letters and digits
are those of ASCII. -/
def split? (kind : Kind) (cs : List Char) : Option (List Char × List Char) :=
  match kind, cs with
  | label, c :: cs =>
    if c.isAlpha then
      let (word, rest) := splitWhile Char.isAlphanum cs
      some (c :: word, rest)
    else none
  | label, [] => none
  | weight, cs =>
    let (whole, rest) := splitWhile Char.isDigit cs
    match rest with
    | '.' :: rest =>
      let (fraction, rest) := splitWhile Char.isDigit rest
      if whole ≠ [] ∧ fraction ≠ [] then some (whole ++ '.' :: fraction, rest) else none
    | _ => none
  | number, cs =>
    let (digits, rest) := splitWhile Char.isDigit cs
    if digits ≠ [] then some (digits, rest) else none
  | kind, cs => kind.lexeme?.bind fun lexeme =>
    if lexeme.toList.isPrefixOf cs then some (lexeme.toList, cs.drop lexeme.toList.length)
    else none

theorem lexeme?_ne_empty {kind : Kind} {lexeme : String} (h : kind.lexeme? = some lexeme) :
    lexeme.toList ≠ [] := by
  cases kind <;> cases h <;> decide

theorem split?_eq_some {kind : Kind} {cs lexeme rest : List Char}
    (h : kind.split? cs = some (lexeme, rest)) : lexeme ≠ [] ∧ lexeme ++ rest = cs := by
  unfold split? at h
  split at h
  next c cs =>
    obtain ⟨-, h⟩ := Option.ite_none_right_eq_some.mp h
    obtain ⟨rfl, rfl⟩ := Prod.mk.inj (Option.some.inj h)
    exact ⟨by simp, congrArg (c :: ·) (append_of_splitWhile_eq rfl)⟩
  next => simp at h
  next =>
    split at h
    next whole afterWhole hwhole =>
    split at h
    next afterPoint =>
      split at h
      next fraction rest' hfraction =>
      obtain ⟨-, h⟩ := Option.ite_none_right_eq_some.mp h
      obtain ⟨rfl, rfl⟩ := Prod.mk.inj (Option.some.inj h)
      refine ⟨by simp, ?_⟩
      rw [List.append_assoc, List.cons_append, append_of_splitWhile_eq hfraction,
        append_of_splitWhile_eq hwhole]
    next => simp at h
  next =>
    split at h
    next digits rest' hdigits =>
    obtain ⟨hne, h⟩ := Option.ite_none_right_eq_some.mp h
    obtain ⟨rfl, rfl⟩ := Prod.mk.inj (Option.some.inj h)
    exact ⟨hne, append_of_splitWhile_eq hdigits⟩
  next =>
    obtain ⟨text, htext, h⟩ := Option.bind_eq_some_iff.mp h
    obtain ⟨hpre, h⟩ := Option.ite_none_right_eq_some.mp h
    obtain ⟨rfl, rfl⟩ := Prod.mk.inj (Option.some.inj h)
    exact ⟨lexeme?_ne_empty htext,
      List.prefix_iff_eq_append.mp (List.isPrefixOf_iff_prefix.mp hpre)⟩

/-- The first kind that has a lexeme at the front, with that lexeme and what follows. -/
def first? (cs : List Char) : Option (Kind × List Char × List Char) :=
  inOrder.findSome? fun kind => (kind.split? cs).map (kind, ·)

theorem split?_of_first? {cs lexeme rest : List Char} {kind : Kind}
    (h : first? cs = some (kind, lexeme, rest)) : kind.split? cs = some (lexeme, rest) := by
  obtain ⟨k, -, hk⟩ := List.exists_of_findSome?_eq_some h
  obtain ⟨_, hs, hp⟩ := Option.map_eq_some_iff.mp hk
  obtain ⟨rfl, rfl⟩ := Prod.mk.inj hp
  exact hs

end Token.Kind

namespace Cursor

/-- The token after the blanks, if there is one, and the place behind it. Where no token starts the
cursor stays behind the blanks. -/
def next (c : Cursor) : Except Failure (Option Token) × Cursor :=
  let c := c.skipBlanks
  if c.rest = [] then (.ok none, c)
  else
    match Token.Kind.first? c.rest with
    | some (kind, lexeme, rest) =>
      (.ok (some ⟨kind, String.ofList lexeme, c.position⟩),
        ⟨c.position + byteLength lexeme, rest⟩)
    | none => (.error (.unexpectedText c.position (String.ofList (trimEnd c.rest))), c)

theorem rest_length_lt_of_next {c d : Cursor} {t : Token} (h : c.next = (.ok (some t), d)) :
    d.rest.length < c.rest.length := by
  unfold next at h
  dsimp only at h
  split at h
  next => simp at h
  next =>
    split at h
    next kind lexeme rest hfirst =>
      obtain ⟨-, rfl⟩ := Prod.mk.inj h
      obtain ⟨hne, happ⟩ := Token.Kind.split?_eq_some (Token.Kind.split?_of_first? hfirst)
      have hlen := congrArg List.length happ
      have hpos := List.length_pos_iff.mpr hne
      have hle := c.rest_skipBlanks_length_le
      simp only [List.length_append] at hlen
      dsimp only
      omega
    next => simp at h

def tokens (c : Cursor) : Except Failure (List Token) :=
  match _ : c.next with
  | (.error failure, _) => .error failure
  | (.ok none, _) => .ok []
  | (.ok (some t), d) => (t :: ·) <$> d.tokens
termination_by c.rest.length
decreasing_by exact rest_length_lt_of_next ‹_›

end Cursor

def tokens (text : String) : Except Failure (List Token) := (Cursor.start text).tokens

end PetriShorthand
