import PetriShorthand.Net.Basic

namespace PetriShorthand

namespace Net

/-- For each arc the label at its other end, and its weight. -/
def labelledArcs (net : Net) (n : Node) (direction : Direction) : List (String × Nat) :=
  (net.arcsAt n direction).filterMap fun a =>
    (net.labelOf? (a.farEnd direction)).map fun label => (label, a.weight)

/-- The weights that stand beside a label, in ascending order. -/
def weightsAt (label : String) (arcs : List (String × Nat)) : List Nat :=
  ((arcs.filter fun a => a.1 = label).map (·.2)).mergeSort fun v w => v ≤ w

/-- The labels in the order of code points, each with its weights. -/
def groupByLabel (arcs : List (String × Nat)) : List (String × List Nat) :=
  ((arcs.map (·.1)).eraseDups.mergeSort fun a b => a ≤ b).map fun label =>
    (label, weightsAt label arcs)

/-- How the arcs of a node look from outside, in an order that does not depend on theirs. -/
def signature (net : Net) (n : Node) (direction : Direction) : List (String × List Nat) :=
  groupByLabel (net.labelledArcs n direction)

end Net

end PetriShorthand
