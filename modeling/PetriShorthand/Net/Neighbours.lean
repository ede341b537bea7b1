import PetriShorthand.Net.Basic

namespace PetriShorthand

namespace Net

def neighbours (net : Net) (n : Node) (direction : Direction) : List Node :=
  (net.arcsAt n direction).map (·.farEnd direction)

def preset (net : Net) (n : Node) : List Node := net.neighbours n .incoming

def postset (net : Net) (n : Node) : List Node := net.neighbours n .outgoing

def transitionsWhere (net : Net) (p : Node → Bool) : List Nat :=
  (List.range net.transitions.length).filter fun i => p (.transition i)

/-- The transitions that take from a place into which `t` puts. -/
def successors (net : Net) (t : Nat) : List Nat :=
  net.transitionsWhere fun u =>
    (net.postset (.transition t)).any fun place => u ∈ net.postset place

/-- The transitions that put into a place from which `t` takes. -/
def predecessors (net : Net) (t : Nat) : List Nat :=
  net.transitionsWhere fun u =>
    (net.preset (.transition t)).any fun place => u ∈ net.preset place

/-- The transitions that take from a place from which `t` takes, `t` among them. -/
def siblings (net : Net) (t : Nat) : List Nat :=
  net.transitionsWhere fun u =>
    (net.preset (.transition t)).any fun place => u ∈ net.postset place

end Net

end PetriShorthand
