import PetriShorthand.Naming
import PetriShorthand.Net.Basic

namespace PetriShorthand

namespace Net

def unnamedTransition? (net : Net) (naming : Naming) : Option Nat :=
  (List.range net.transitions.length).find? fun i => naming.name? (.transition i) = none

/-- Gives every node its name for a label. Every transition needs a name; a place without one keeps
its label. -/
def relabel (net : Net) (naming : Naming) : Except Failure Net :=
  match net.unnamedTransition? naming with
  | some i => .error (.unnamedTransition net.label (.transition i))
  | none => .ok
    { net with
      places := net.places.mapIdx fun i label => (naming.name? (.place i)).getD label
      transitions := net.transitions.mapIdx fun i t =>
        { t with label := (naming.name? (.transition i)).getD t.label }
      joinable := by simpa using net.joinable }

end Net

end PetriShorthand
