import PetriShorthand.Binary64.Text

namespace PetriShorthand

def separatorText : String := "__"

structure TransitionRef where
  label : String
  /-- Tells transitions of one label apart. -/
  suffix : Option String
  silent : Bool
  /-- Written in braces; square brackets give none. -/
  weight : Option Binary64
  deriving DecidableEq

namespace TransitionRef

/-- The name by which a transition is found again. -/
def key (t : TransitionRef) : String :=
  match t.suffix with
  | none => t.label
  | some suffix => t.label ++ separatorText ++ suffix

def weightText (w : Binary64) : String :=
  let text := w.text .plain
  if text.toList.contains '.' then text else text ++ ".0"

def text (t : TransitionRef) : String :=
  match t.weight with
  | none => "[" ++ t.key ++ "]"
  | some w => "\x7b" ++ t.key ++ " " ++ weightText w ++ "\x7d"

end TransitionRef

structure Step where
  transition : TransitionRef
  place : String
  deriving DecidableEq

/-- A place, then transitions and the places that they lead to. A chain names nodes; it belongs to
no net. -/
structure Chain where
  head : String
  steps : List Step
  deriving DecidableEq

namespace Chain

def places (c : Chain) : List String := c.head :: c.steps.map (·.place)

def keys (c : Chain) : List String := c.steps.map (·.transition.key)

def text (c : Chain) : String :=
  c.head ++ String.join (c.steps.map fun s => " -> " ++ s.transition.text ++ " -> " ++ s.place)

end Chain

end PetriShorthand
