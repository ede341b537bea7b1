import PetriShorthand.Binary64.Decimal
import PetriShorthand.Comparison.Signature
import PetriShorthand.Net.Relabelling

namespace PetriShorthand

/-- The first difference that a comparison finds. -/
inductive Difference where
  | size
  | repeatedLabels
  /-- The second net has no node that corresponds. -/
  | missing (left : Node)
  | attributes (left right : Node)
  | incomingArcs (left right : Node)
  deriving DecidableEq

namespace Net

def describe (net : Net) (n : Node) : String :=
  let label := (net.labelOf? n).getD "?"
  s!"{n.text} '{label}'"

def nodes (net : Net) : List Node :=
  (List.range net.places.length).map .place ++ (List.range net.transitions.length).map .transition

def LabelsDistinct (net : Net) : Prop :=
  net.places.Nodup ∧ (net.transitions.map (·.label)).Nodup

instance (net : Net) : Decidable net.LabelsDistinct := inferInstanceAs (Decidable (_ ∧ _))

/-- The node of `other` that has the kind and the label of a node of `net`. -/
def counterpart? (net other : Net) : Node → Option Node
  | .place i => net.places[i]?.bind fun label => (other.places.idxOf? label).map .place
  | .transition i => net.transitions[i]?.bind fun t =>
    (other.transitions.findIdx? fun u => u.label = t.label).map .transition

end Net

namespace Difference

def message (left right : Net) : Difference → String
  | size => s!"not equal: '{left.label}' and '{right.label}' differ in size"
  | repeatedLabels => s!"not equal: '{left.label}' or '{right.label}' has duplicate labels"
  | missing n =>
    let label := (left.labelOf? n).getD "?"
    s!"not equal: {n.kind.text} '{label}' missing from '{right.label}'"
  | attributes m n => s!"not equal: {left.describe m} != {right.describe n}"
  | incomingArcs m _ => s!"not equal: incoming arcs of {left.describe m} differ"

end Difference

namespace Comparison

/-- Weights that differ by this much at most count as equal where nothing else is said. -/
def defaultTolerance : Binary64 := Decimal.toBinary64 false ⟨1, -4⟩

def weightsAgree (tolerance : Binary64) : Option Binary64 → Option Binary64 → Bool
  | none, none => true
  | some v, some w => (v.distance w).atMost tolerance
  | _, _ => false

def transitionsAgree (tolerance : Binary64) (t u : Transition) : Bool :=
  t.label == u.label && t.silent == u.silent && weightsAgree tolerance t.weight u.weight

/-- Both nodes are there, of one kind and with the same attributes. -/
def attributesAgree (tolerance : Binary64) (left right : Net) : Node → Node → Bool
  | .place i, .place j => match left.places[i]?, right.places[j]? with
    | some a, some b => a == b
    | _, _ => false
  | .transition i, .transition j => match left.transitions[i]?, right.transitions[j]? with
    | some t, some u => transitionsAgree tolerance t u
    | _, _ => false
  | _, _ => false

/-- How two nodes differ in themselves or in their incoming arcs. -/
def nodeDifference? (tolerance : Binary64) (left right : Net) (m n : Node) : Option Difference :=
  if ¬ attributesAgree tolerance left right m n then some (.attributes m n)
  else if (left.arcsAt m .incoming).length ≠ (right.arcsAt n .incoming).length ∨
      left.signature m .incoming ≠ right.signature n .incoming then
    some (.incomingArcs m n)
  else none

def visit? (tolerance : Binary64) (left right : Net) (m : Node) : Option Difference :=
  match left.counterpart? right m with
  | none => some (.missing m)
  | some n => nodeDifference? tolerance left right m n

/-- How two nets differ, by the labels of their nodes, where the nodes of the first are visited in
the given order. -/
def differenceAlong? (order : List Node) (tolerance : Binary64) (left right : Net) :
    Option Difference :=
  if left.places.length ≠ right.places.length ∨
      left.transitions.length ≠ right.transitions.length ∨
      left.arcs.length ≠ right.arcs.length then
    some .size
  else if ¬ left.LabelsDistinct ∨ ¬ right.LabelsDistinct then some .repeatedLabels
  else order.findSome? (visit? tolerance left right)

def difference? (tolerance : Binary64) (left right : Net) : Option Difference :=
  differenceAlong? left.nodes tolerance left right

/-- How two nets differ, by the names of their nodes. -/
def namedDifference? (tolerance : Binary64) (left right : Net) (leftNames rightNames : Naming) :
    Except Failure (Option Difference) := do
  let left ← left.relabel leftNames
  let right ← right.relabel rightNames
  return difference? tolerance left right

end Comparison

end PetriShorthand
