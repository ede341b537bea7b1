import PetriShorthand.Naming
import PetriShorthand.Net.Basic

namespace PetriShorthand

namespace Net

/-- The nodes by label. The one found first is the place that was added last, and where no place
has the label the transition that was added last. -/
def byLabel (net : Net) : List (String × Node) :=
  (net.places.mapIdx fun i label => (label, Node.place i)).reverse ++
    (net.transitions.mapIdx fun i t => (t.label, Node.transition i)).reverse

end Net

/-- A net under construction. Chains find its nodes by name: the names of the nodes that it made
itself, and the labels of those that the net had when work on it began. -/
structure Assembly where
  net : Net
  /-- Names of the nodes that the net had before. -/
  inherited : List (String × Node)
  naming : Naming
  deriving DecidableEq

namespace Assembly

def start (label : String) : Assembly := ⟨.empty label, [], .empty⟩

def ofNet (net : Net) : Assembly := ⟨net, net.byLabel, .empty⟩

def resolve (s : Assembly) (name : String) : Option Node :=
  (s.naming.node? name).or (s.inherited.lookup name)

end Assembly

end PetriShorthand
