import PetriShorthand.Net.Indexed

namespace PetriShorthand

namespace Node

def transition? : Node → Option Nat
  | place _ => none
  | transition i => some i

end Node

namespace IndexedNet

def neighbours? (x : IndexedNet) (n : Node) (direction : Direction) : Option (List Node) :=
  (x.arcsAt? n direction).map fun arcs => arcs.map (·.farEnd direction)

/-- Numbers of the transitions beyond the neighbours of transition `t`, in ascending order, where
its neighbours are looked for in the one direction and theirs in the other. -/
def beyond? (x : IndexedNet) (t : Nat) (first second : Direction) : Option (List Nat) := do
  let places ← x.neighbours? (.transition t) first
  let nodes ← places.mapM (x.neighbours? · second)
  return (Std.TreeSet.ofList (nodes.flatten.filterMap Node.transition?)).toList

def successors? (x : IndexedNet) (t : Nat) : Option (List Nat) := x.beyond? t .outgoing .outgoing

def predecessors? (x : IndexedNet) (t : Nat) : Option (List Nat) := x.beyond? t .incoming .incoming

def siblings? (x : IndexedNet) (t : Nat) : Option (List Nat) := x.beyond? t .incoming .outgoing

def labelOf? (x : IndexedNet) : Node → Option String
  | .place i => x.places[i]?
  | .transition i => x.transitions[i]?.map (·.label)

/-- Enters the weight of an arc behind those that stand beside the label at its other end. An arc
without a label there is passed over. -/
def enterWeight (x : IndexedNet) (direction : Direction) (weights : Std.TreeMap String (List Nat))
    (a : Arc) : Std.TreeMap String (List Nat) :=
  match x.labelOf? (a.farEnd direction) with
  | none => weights
  | some label => weights.alter label fun ws => some (ws.getD [] ++ [a.weight])

/-- The labels at the other ends of the node's arcs, in the order of code points; with each of them,
in ascending order, the weights that were entered there arc by arc. -/
def signature? (x : IndexedNet) (n : Node) (direction : Direction) :
    Option (List (String × List Nat)) :=
  (x.arcsAt? n direction).map fun arcs =>
    (arcs.foldl (x.enterWeight direction) ∅).toList.map fun (label, ws) =>
      (label, ws.mergeSort fun v w => v ≤ w)

end IndexedNet

end PetriShorthand
