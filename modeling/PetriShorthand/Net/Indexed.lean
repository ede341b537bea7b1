import Mathlib.Data.List.Basic
import PetriShorthand.Net.Relabelling

namespace PetriShorthand

deriving instance Hashable for Node

/-- Numbers for every key, in the order in which they were entered. -/
abbrev Register (α : Type) [BEq α] [Hashable α] := Std.HashMap α (List Nat)

namespace Register

variable {α : Type} [BEq α] [Hashable α]

def numbers (register : Register α) (key : α) : List Nat := register.getD key []

def enter (register : Register α) (key : α) (i : Nat) : Register α :=
  register.alter key fun numbers => some (numbers.getD [] ++ [i])

end Register

/-- A net with tables, one for every question that is asked of it. No type says that they fit. -/
structure IndexedNet where
  label : String
  places : List String
  transitions : List Transition
  arcs : List Arc
  arcIndex : Std.HashMap (Node × Node) Nat
  inArcs : Register Node
  outArcs : Register Node
  placeIndex : Register String
  transitionIndex : Register String

namespace IndexedNet

def empty (label : String) : IndexedNet := ⟨label, [], [], [], ∅, ∅, ∅, ∅, ∅⟩

def Contains (x : IndexedNet) (n : Node) : Prop :=
  n.IsWithin x.places.length x.transitions.length

instance (x : IndexedNet) (n : Node) : Decidable (x.Contains n) :=
  inferInstanceAs (Decidable (n.IsWithin _ _))

def addPlace (x : IndexedNet) (label : String) : IndexedNet :=
  { x with
    placeIndex := x.placeIndex.enter label x.places.length
    places := x.places ++ [label] }

def addTransition (x : IndexedNet) (t : Transition) : IndexedNet :=
  { x with
    transitionIndex := x.transitionIndex.enter t.label x.transitions.length
    transitions := x.transitions ++ [t] }

def findArc? (x : IndexedNet) (source target : Node) : Option Nat := x.arcIndex[(source, target)]?

/-- Puts an arc behind the others. Only the ends themselves are checked, and where they do not fit
nothing is changed. -/
def pushArc (x : IndexedNet) (source target : Node) (weight : Nat) :
    Except Failure Nat × IndexedNet :=
  if source.kind = target.kind ∨ ¬x.Contains source ∨ ¬x.Contains target then
    (.error (.invalidArc source target), x)
  else
    let i := x.arcs.length
    (.ok i,
      { x with
        arcs := x.arcs ++ [⟨source, target, weight⟩]
        arcIndex := x.arcIndex.insert (source, target) i
        outArcs := x.outArcs.enter source i
        inArcs := x.inArcs.enter target i })

/-- Makes sure that an arc joins the ends. One that is found is not checked again. -/
def addArc (x : IndexedNet) (source target : Node) : Except Failure Nat × IndexedNet :=
  match x.findArc? source target with
  | some i => (.ok i, x)
  | none => x.pushArc source target 1

/-- Adds weight to the arc between the ends, which is created if none is found. -/
def addArcWeight (x : IndexedNet) (source target : Node) (w : Nat) :
    Except Failure Nat × IndexedNet :=
  match x.findArc? source target with
  | some i => (.ok i, { x with arcs := x.arcs.modify i (·.addWeight w) })
  | none => x.pushArc source target (min w Arc.maxWeight)

def arcNumbers (x : IndexedNet) (n : Node) : Direction → List Nat
  | .incoming => x.inArcs.numbers n
  | .outgoing => x.outArcs.numbers n

/-- The arcs seen from the node in the direction; `none` where a number belongs to no arc. -/
def arcsAt? (x : IndexedNet) (n : Node) (direction : Direction) : Option (List Arc) :=
  (x.arcNumbers n direction).mapM (x.arcs[·]?)

def placesLabelled (x : IndexedNet) (label : String) : List Nat := x.placeIndex.numbers label

def transitionsLabelled (x : IndexedNet) (label : String) : List Nat :=
  x.transitionIndex.numbers label

/-- Adds a transition with the name that it has, which it must have. -/
def copyTransition (naming : Naming) (original copy : IndexedNet) (t : Transition) (i : Nat) :
    Except Failure IndexedNet :=
  match naming.name? (.transition i) with
  | none => .error (.unnamedTransition original.label (.transition i))
  | some label => .ok (copy.addTransition { t with label })

def copyArc (copy : IndexedNet) (a : Arc) : Except Failure IndexedNet :=
  let (result, copy) := copy.pushArc a.source a.target a.weight
  result.map fun _ => copy

/-- Builds the net anew, with the names of its nodes for labels. -/
def relabel (x : IndexedNet) (naming : Naming) : Except Failure IndexedNet := do
  let copy := x.places.zipIdx.foldl
    (fun copy (label, i) => copy.addPlace ((naming.name? (.place i)).getD label)) (empty x.label)
  let copy ← x.transitions.zipIdx.foldlM (fun copy (t, i) => copyTransition naming x copy t i) copy
  x.arcs.foldlM copyArc copy

end IndexedNet

end PetriShorthand
