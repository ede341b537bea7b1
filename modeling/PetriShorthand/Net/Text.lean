import PetriShorthand.Binary64.Text
import PetriShorthand.Net.Basic

namespace PetriShorthand

namespace Net

def listing (title : String) (items : List String) : String :=
  title ++ ": \x7b" ++ String.join (items.map (· ++ "  ")) ++ "\x7d"

/-- The label, a mark on silent transitions, and the weight if there is one. -/
def transitionText (t : Transition) : String :=
  t.label ++ (if t.silent then "(silent)" else "") ++
    match t.weight with
    | none => ""
    | some w => "_" ++ w.text .plain

/-- The labels of the ends; a weight other than one is given. -/
def arcText (net : Net) (a : Arc) : String :=
  let label (n : Node) := (net.labelOf? n).getD "?"
  label a.source ++ "->" ++ label a.target ++
    if a.weight = 1 then "" else "(" ++ a.weight.repr ++ ")"

def text (net : Net) : String :=
  "\n".intercalate [net.label, listing "Places" net.places,
    listing "Transitions" (net.transitions.map transitionText),
    listing "Arcs" (net.arcs.map net.arcText)]

end Net

end PetriShorthand
