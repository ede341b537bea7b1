import PetriShorthand.Net.Indexed

namespace PetriShorthand

/-- Names with a table for either question. No type says that the tables fit. -/
structure IndexedNaming where
  nodes : Std.HashMap String Node
  names : Std.HashMap Node String

namespace IndexedNaming

def empty : IndexedNaming := ⟨∅, ∅⟩

def node? (x : IndexedNaming) (name : String) : Option Node := x.nodes[name]?

def name? (x : IndexedNaming) (n : Node) : Option String := x.names[n]?

def length (x : IndexedNaming) : Nat := x.nodes.size

/-- The names with their nodes, in no order to rely on. -/
def pairs (x : IndexedNaming) : List (String × Node) := x.nodes.toList

/-- Binds a name to a node. Where the name stands for another node or the node has another name,
nothing is changed. -/
def bind (x : IndexedNaming) (n : Node) (name : String) : Except Failure Unit × IndexedNaming :=
  if (x.node? name).any (· ≠ n) ∨ (x.name? n).any (· ≠ name) then
    (.error (.nameConflict name), x)
  else (.ok (), ⟨x.nodes.insert name n, x.names.insert n name⟩)

/-- Binds one pair after another, up to the first conflict; the pairs before it stay. To merge with
other names is to bind their pairs, in whatever order they come. -/
def bindAll (x : IndexedNaming) :
    List (String × Node) → Except Failure Unit × IndexedNaming
  | [] => (.ok (), x)
  | (name, n) :: pairs =>
    match x.bind n name with
    | (.ok (), x) => x.bindAll pairs
    | (.error failure, x) => (.error failure, x)

end IndexedNaming

end PetriShorthand
