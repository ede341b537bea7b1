import PetriShorthand.Marking.Basic
import PetriShorthand.Net.Basic

namespace PetriShorthand

namespace Net

/-- No arc is seen from the place in the direction. -/
def IsBare (net : Net) (place : Nat) (direction : Direction) : Prop :=
  net.arcsAt (.place place) direction = []

instance (net : Net) (place : Nat) (direction : Direction) :
    Decidable (net.IsBare place direction) :=
  inferInstanceAs (Decidable (_ = _))

def barePlaces (net : Net) (label : String) (direction : Direction) : List Nat :=
  (net.placesLabelled label).filter fun p => net.IsBare p direction

/-- One token on every bare place of the first label that has any. -/
def firstLabelMarking (net : Net) (labels : List String) (direction : Direction) : Marking :=
  .ofList (((labels.map fun l => net.barePlaces l direction).find? (· ≠ [])).getD [])

def guessInitial (net : Net) : Marking :=
  .ofList ((List.range net.places.length).filter fun p => net.IsBare p .incoming)

/-- One marking, with a token on every place that has incoming arcs only. -/
def guessFinals (net : Net) : List Marking :=
  [.ofList ((List.range net.places.length).filter fun p =>
    net.IsBare p .outgoing ∧ ¬ net.IsBare p .incoming)]

end Net

/-- Labels of initial and of final places, the preferred ones first. -/
structure Conventions where
  initialLabels : List String := ["Start", "Initial", "I"]
  finalLabels : List String := ["End", "Final", "F"]

namespace Conventions

/-- Initial places have no incoming arcs. -/
def initialMarking (conventions : Conventions) (net : Net) : Marking :=
  net.firstLabelMarking conventions.initialLabels .incoming

/-- Final places have no outgoing arcs; where there are none, there is no final marking. -/
def finalMarkings (conventions : Conventions) (net : Net) : List Marking :=
  let m := net.firstLabelMarking conventions.finalLabels .outgoing
  if m = .empty then [] else [m]

end Conventions

end PetriShorthand
