import PetriShorthand.Marking.Conventions

namespace PetriShorthand

namespace Marking

/-- The places of `target` that have the label of a place of `source`. -/
def counterparts (source target : Net) (place : Nat) : List Nat :=
  (source.places[place]?.map target.placesLabelled).getD []

/-- One token on the first counterpart of the first marked place that has any. -/
def transferInitial (source target : Net) (m : Marking) : Marking :=
  .ofList (m.places.findSome? fun p => (counterparts source target p).head?).toList

/-- A token on every counterpart of every marked place, if no arcs leave it. -/
def transferFinal (source target : Net) (m : Marking) : Marking :=
  .ofList ((m.places.flatMap (counterparts source target)).filter fun p =>
    target.IsBare p .outgoing)

def transferFinals (source target : Net) (ms : List Marking) : List Marking :=
  ms.map (transferFinal source target)

end Marking

end PetriShorthand
