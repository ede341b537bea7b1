import PetriShorthand.Assembly.Building
import PetriShorthand.Naming.Indexed

namespace PetriShorthand

/-- An assembly with tables. The net and the names have theirs; one more tells chains which node a
label or a key stands for. No type says that the tables fit. -/
structure IndexedAssembly where
  net : IndexedNet
  naming : IndexedNaming
  nodes : Std.HashMap String Node

/-- What a name in a chain stands for before the plan is carried out. -/
inductive Planned where
  | existing (n : Node)
  | newPlace (i : Nat)
  | newTransition (i : Nat)

namespace Planned

def kind : Planned → NodeKind
  | existing n => n.kind
  | newPlace _ => .place
  | newTransition _ => .transition

def node? (places transitions : List Node) : Planned → Option Node
  | existing n => some n
  | newPlace i => places[i]?
  | newTransition i => transitions[i]?

end Planned

structure IndexedPlan where
  /-- What the chain plans by name, which comes before what the assembly knows. -/
  overlay : Std.HashMap String Planned
  places : List String
  transitions : List (String × TransitionRef)
  path : List Planned
  redescriptions : List Redescription

namespace IndexedPlan

def empty : IndexedPlan := ⟨∅, [], [], [], []⟩

def visit (planned : Planned) (p : IndexedPlan) : IndexedPlan :=
  { p with path := p.path ++ [planned] }

def addPlace (label : String) (p : IndexedPlan) : IndexedPlan :=
  let planned := .newPlace p.places.length
  { p with
    places := p.places ++ [label]
    overlay := p.overlay.insert label planned }.visit planned

def addTransition (t : TransitionRef) (p : IndexedPlan) : IndexedPlan :=
  let planned := .newTransition p.transitions.length
  { p with
    transitions := p.transitions ++ [(t.key, t)]
    overlay := p.overlay.insert t.key planned }.visit planned

def compareWeight (net : IndexedNet) (i : Nat) (t : TransitionRef) (p : IndexedPlan) :
    IndexedPlan :=
  match net.transitions[i]? with
  | none => p
  | some old =>
    if sameWeight old.weight t.weight then p
    else { p with redescriptions := p.redescriptions ++ [⟨t, old.weight⟩] }

end IndexedPlan

namespace IndexedAssembly

def start (label : String) : IndexedAssembly := ⟨.empty label, .empty, ∅⟩

/-- Enters a transition for its label, unless a place has the label. -/
def enterTransition (nodes : Std.HashMap String Node) (entry : String × Node) :
    Std.HashMap String Node :=
  match nodes[entry.1]? with
  | some (.place _) => nodes
  | _ => nodes.insert entry.1 entry.2

def ofNet (net : IndexedNet) : IndexedAssembly :=
  let places := net.places.mapIdx fun i label => (label, Node.place i)
  let transitions := net.transitions.mapIdx fun i t => (t.label, Node.transition i)
  let nodes := places.foldl (fun nodes (label, n) => nodes.insert label n) ∅
  ⟨net, .empty, transitions.foldl enterTransition nodes⟩

def resolve (x : IndexedAssembly) (p : IndexedPlan) (name : String) : Option Planned :=
  p.overlay[name]?.or (x.nodes[name]?.map .existing)

end IndexedAssembly

abbrev IndexedPlanning := ExceptT Failure (StateM IndexedPlan)

namespace IndexedPlanning

def place (x : IndexedAssembly) (label : String) : IndexedPlanning Unit := do
  match x.resolve (← get) label with
  | some found =>
    if found.kind = .place then modify (.visit found)
    else throw (.kindConflict label found.kind .place)
  | none => modify (.addPlace label)

/-- Weights are compared only for a transition that the assembly has. -/
def transition (x : IndexedAssembly) (t : TransitionRef) : IndexedPlanning Unit := do
  match x.resolve (← get) t.key with
  | some found =>
    if found.kind = .transition then
      if let .existing (.transition i) := found then modify (.compareWeight x.net i t)
      modify (.visit found)
    else throw (.kindConflict t.key found.kind .transition)
  | none => modify (.addTransition t)

def step (x : IndexedAssembly) (st : Step) : IndexedPlanning Unit := do
  transition x st.transition
  place x st.place

def chain (x : IndexedAssembly) (c : Chain) : IndexedPlanning Unit := do
  place x c.head
  c.steps.forM (step x)

end IndexedPlanning

/-- Work on an assembly with tables, which gets stuck where a plan asks for a node that it does not
create. -/
abbrev IndexedBuilding := ExceptT Failure (StateT IndexedAssembly Option)

namespace IndexedBuilding

/-- Enters a node under a name, in the table for chains, in the naming and among the names
`created`. -/
def enter (created : IndexedNaming) (n : Node) (name : String) :
    IndexedBuilding IndexedNaming := do
  modify fun x => { x with nodes := x.nodes.insert name n }
  let (result, naming) := (← get).naming.bind n name
  modify fun x => { x with naming }
  liftExcept result
  let (result, created) := created.bind n name
  liftExcept result
  return created

/-- Makes a node and enters it; `made` has the nodes made before. -/
def make (next : IndexedNet → Node) (add : IndexedNet → IndexedNet) (name : String)
    (created : IndexedNaming) (made : List Node) : IndexedBuilding (IndexedNaming × List Node) := do
  let n := next (← get).net
  modify fun x => { x with net := add x.net }
  return (← enter created n name, made ++ [n])

def place : IndexedNaming × List Node → String → IndexedBuilding (IndexedNaming × List Node)
  | (created, made), label =>
    make (fun net => .place net.places.length) (·.addPlace label) label created made

def transition : IndexedNaming × List Node → String × TransitionRef →
    IndexedBuilding (IndexedNaming × List Node)
  | (created, made), (key, t) =>
    make (fun net => .transition net.transitions.length)
      (·.addTransition ⟨t.label, t.silent, t.weight⟩) key created made

def arc (source target : Node) : IndexedBuilding Unit := do
  let (result, net) := (← get).net.addArc source target
  modify fun x => { x with net }
  discard (liftExcept result)

def link (places transitions : List Node) (l : Planned × Planned) : IndexedBuilding Unit := do
  arc (← l.1.node? places transitions) (← l.2.node? places transitions)

def carryOut (p : IndexedPlan) : IndexedBuilding IndexedNaming := do
  let (created, places) ← p.places.foldlM place (.empty, [])
  let (created, transitions) ← p.transitions.foldlM transition (created, [])
  (p.path.zip p.path.tail).forM (link places transitions)
  return created

end IndexedBuilding

structure IndexedOutcome where
  result : Except Failure IndexedNaming
  assembly : IndexedAssembly
  redescriptions : List Redescription

namespace IndexedAssembly

def addChain? (x : IndexedAssembly) (c : Chain) : Option IndexedOutcome :=
  match IndexedPlanning.chain x c .empty with
  | (.error failure, p) => some ⟨.error failure, x, p.redescriptions⟩
  | (.ok (), p) => do
    let (result, x) ← IndexedBuilding.carryOut p x
    return ⟨result, x, p.redescriptions⟩

def addText? (x : IndexedAssembly) (text : String) : Option IndexedOutcome :=
  match Chain.ofText text with
  | .error failure => some ⟨.error failure, x, []⟩
  | .ok c => x.addChain? c

/-- Adds chains one after another, and merges what they create in whatever order it comes. -/
def addTexts? (x : IndexedAssembly) (created : IndexedNaming) : List String → Option IndexedOutcome
  | [] => some ⟨.ok created, x, []⟩
  | text :: texts => do
    let first ← x.addText? text
    match first.result with
    | .error _ => return first
    | .ok delta =>
      match created.bindAll delta.pairs with
      | (.error failure, _) => return { first with result := .error failure }
      | (.ok (), created) =>
        let rest ← first.assembly.addTexts? created texts
        return { rest with redescriptions := first.redescriptions ++ rest.redescriptions }

def addLines? (x : IndexedAssembly) (text : String) : Option IndexedOutcome :=
  x.addTexts? .empty (statementLines text)

def addAll? (x : IndexedAssembly) : List String → Option (Except Failure IndexedAssembly)
  | [] => some (.ok x)
  | text :: texts => do
    let o ← x.addText? text
    match o.result with
    | .error failure => return .error failure
    | .ok _ => o.assembly.addAll? texts

def ofTexts? (label : String) (texts : List String) : Option (Except Failure IndexedAssembly) :=
  (start label).addAll? texts

end IndexedAssembly

end PetriShorthand
