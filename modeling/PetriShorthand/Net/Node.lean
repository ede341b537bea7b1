namespace PetriShorthand

inductive NodeKind where
  | place
  | transition
  deriving DecidableEq

namespace NodeKind

def text : NodeKind → String
  | place => "place"
  | transition => "transition"

theorem eq_of_ne {k l m : NodeKind} (hk : k ≠ m) (hl : l ≠ m) : k = l := by
  cases k <;> cases l <;> cases m <;> first | rfl | contradiction

end NodeKind

/-- Places and transitions are numbered in order of creation. -/
inductive Node where
  | place (index : Nat)
  | transition (index : Nat)
  deriving DecidableEq

namespace Node

def kind : Node → NodeKind
  | place _ => .place
  | transition _ => .transition

def text : Node → String
  | place i => "P" ++ i.repr
  | transition i => "T" ++ i.repr

end Node

end PetriShorthand
