import PetriShorthand.Text.Blank

namespace PetriShorthand

def byteLength : List Char → Nat
  | [] => 0
  | c :: cs => c.utf8Size + byteLength cs

theorem byteLength_append (cs ds : List Char) :
    byteLength (cs ++ ds) = byteLength cs + byteLength ds := by
  induction cs with
  | nil => simp [byteLength]
  | cons c cs ih =>
    simp only [List.cons_append, byteLength, ih]
    omega

/-- The bytes before a place in a text, and the characters after it. -/
structure Cursor where
  position : Nat
  rest : List Char
  deriving DecidableEq

namespace Cursor

def start (text : String) : Cursor := ⟨0, text.toList⟩

def skipBlanks (c : Cursor) : Cursor :=
  ⟨c.position + byteLength (c.rest.takeWhile isBlank), c.rest.dropWhile isBlank⟩

theorem rest_skipBlanks_length_le (c : Cursor) : c.skipBlanks.rest.length ≤ c.rest.length :=
  (List.dropWhile_sublist _).length_le

end Cursor

end PetriShorthand
