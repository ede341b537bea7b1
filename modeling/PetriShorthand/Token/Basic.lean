import PetriShorthand.Text.Cursor

namespace PetriShorthand

inductive Token.Kind where
  | squareOpen
  | squareClose
  | braceOpen
  | braceClose
  | separator
  | arrow
  | tau
  | label
  | weight
  | number
  | finish
  deriving DecidableEq

namespace Token.Kind

/-- The one text of the kinds that have only one. -/
def lexeme? : Kind → Option String
  | squareOpen => some "["
  | squareClose => some "]"
  | braceOpen => some "\x7b"
  | braceClose => some "\x7d"
  | separator => some "__"
  | arrow => some "->"
  | tau => some "tau"
  | label | weight | number | finish => none

/-- The kinds that occur in texts, in the order in which they are tried. -/
def inOrder : List Kind :=
  [squareOpen, squareClose, braceOpen, braceClose, separator, arrow, tau, label, weight, number]

def name (kind : Kind) : String :=
  match kind with
  | label => "label"
  | weight => "weight"
  | number => "id"
  | finish => "end of input"
  | _ => "'" ++ kind.lexeme?.getD "" ++ "'"

end Token.Kind

/-- A stretch of text; its position counts the bytes before it. -/
structure Token where
  kind : Token.Kind
  text : String
  position : Nat
  deriving DecidableEq

namespace Token

def finish (position : Nat) : Token := ⟨.finish, "", position⟩

def length (t : Token) : Nat := byteLength t.text.toList

def describe (t : Token) : String :=
  match t.kind with
  | .finish => t.kind.name
  | .label | .weight | .number => s!"{t.kind.name} '{t.text}'"
  | _ => s!"'{t.text}'"

end Token

end PetriShorthand
