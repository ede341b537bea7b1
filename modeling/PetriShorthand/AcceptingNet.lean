import PetriShorthand.Assembly.Building
import PetriShorthand.Marking.Conventions

namespace PetriShorthand

structure AcceptingNet where
  net : Net
  initial : Marking
  finals : List Marking

namespace AcceptingNet

/-- The markings follow from the labels of places. -/
def ofNet (net : Net) (conventions : Conventions := {}) : AcceptingNet :=
  ⟨net, conventions.initialMarking net, conventions.finalMarkings net⟩

def ofTexts (label : String) (texts : List String) : Except Failure AcceptingNet :=
  if texts = [] then .error .emptyAcceptingNet
  else (Assembly.ofTexts label texts).map fun s => ofNet s.net

end AcceptingNet

end PetriShorthand
