import PetriShorthand.Assembly.Basic
import PetriShorthand.Chain.Basic

namespace PetriShorthand

/-- A chain gives a transition that exists another weight; the transition keeps the one it has. -/
structure Redescription where
  written : TransitionRef
  kept : Option Binary64
  deriving DecidableEq

namespace Redescription

/-- Numbers from `1e-4` up to `1e16` need no power of ten. -/
def layout : Binary64.Layout := ⟨true, some (-4, 16)⟩

def message (r : Redescription) : String :=
  let kept := match r.kept with
    | none => "None"
    | some w => "Some(" ++ w.text layout ++ ")"
  s!"transition '{r.written.key}' reused as {r.written.text} but was created with weight " ++
    kept ++ "; keeping the original"

end Redescription

def sameWeight : Option Binary64 → Option Binary64 → Bool
  | none, none => true
  | some a, some b => a.sameNumber b
  | _, _ => false

/-- The nodes that a chain creates, and all those that it visits. -/
structure Plan where
  places : List String
  transitions : List TransitionRef
  path : List Node
  redescriptions : List Redescription
  deriving DecidableEq

namespace Plan

def empty : Plan := ⟨[], [], [], []⟩

/-- The node that a new place becomes, if one has the label. New places follow those of the net. -/
def newPlace? (net : Net) (p : Plan) (label : String) : Option Node :=
  (p.places.idxOf? label).map fun i => .place (net.places.length + i)

def newTransition? (net : Net) (p : Plan) (key : String) : Option Node :=
  (p.transitions.findIdx? fun t => t.key = key).map fun i =>
    .transition (net.transitions.length + i)

/-- The node for which a name stands once the plan is carried out. -/
def resolve (s : Assembly) (p : Plan) (name : String) : Option Node :=
  (s.resolve name).or ((p.newPlace? s.net name).or (p.newTransition? s.net name))

def visit (n : Node) (p : Plan) : Plan := { p with path := p.path ++ [n] }

def addPlace (s : Assembly) (label : String) (p : Plan) : Plan :=
  { p with places := p.places ++ [label] }.visit (.place (s.net.places.length + p.places.length))

def addTransition (s : Assembly) (t : TransitionRef) (p : Plan) : Plan :=
  { p with transitions := p.transitions ++ [t] }.visit
    (.transition (s.net.transitions.length + p.transitions.length))

/-- Notes a weight that differs from the one that the transition has. Transitions that are only
planned have none yet. -/
def compareWeight (s : Assembly) (i : Nat) (t : TransitionRef) (p : Plan) : Plan :=
  match s.net.transitions[i]? with
  | none => p
  | some old =>
    if sameWeight old.weight t.weight then p
    else { p with redescriptions := p.redescriptions ++ [⟨t, old.weight⟩] }

end Plan

/-- A plan in the making; where planning fails, what was noted until then stays. -/
abbrev Planning := ExceptT Failure (StateM Plan)

namespace Planning

def place (s : Assembly) (label : String) : Planning Unit := do
  match (← get).resolve s label with
  | some (.place i) => modify (Plan.visit (.place i))
  | some (.transition _) => throw (.kindConflict label .transition .place)
  | none => modify (Plan.addPlace s label)

def transition (s : Assembly) (t : TransitionRef) : Planning Unit := do
  match (← get).resolve s t.key with
  | some (.transition i) => modify fun p => (p.compareWeight s i t).visit (.transition i)
  | some (.place _) => throw (.kindConflict t.key .place .transition)
  | none => modify (Plan.addTransition s t)

def step (s : Assembly) (st : Step) : Planning Unit := do
  transition s st.transition
  place s st.place

def chain (s : Assembly) (c : Chain) : Planning Unit := do
  place s c.head
  c.steps.forM (step s)

end Planning

end PetriShorthand
