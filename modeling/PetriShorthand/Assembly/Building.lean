import PetriShorthand.Assembly.Plan
import PetriShorthand.Chain.Reading

namespace PetriShorthand

/-- Work on an assembly; where it fails, what was done until then stays. -/
abbrev Building := ExceptT Failure (StateM Assembly)

namespace Building

def name (created : Naming) (n : Node) (name : String) : Building Naming := do
  let naming ← liftExcept ((← get).naming.bind n name)
  modify fun s => { s with naming }
  liftExcept (created.bind n name)

def place (created : Naming) (label : String) : Building Naming := do
  let n := (← get).net.nextPlace
  modify fun s => { s with net := s.net.addPlace label }
  name created n label

def transition (created : Naming) (t : TransitionRef) : Building Naming := do
  let n := (← get).net.nextTransition
  modify fun s => { s with net := s.net.addTransition ⟨t.label, t.silent, t.weight⟩ }
  name created n t.key

def arc (source target : Node) : Building Unit := do
  let (_, net) ← liftExcept ((← get).net.addArc source target)
  modify fun s => { s with net }

/-- Carries a plan out and gives the names of the nodes that it created. -/
def carryOut (p : Plan) : Building Naming := do
  let created ← p.places.foldlM place .empty
  let created ← p.transitions.foldlM transition created
  (p.path.zip p.path.tail).forM fun (source, target) => arc source target
  return created

end Building

/-- What came of an addition: the names that it created or why it failed, the assembly after it, and
the weights that it left aside. -/
structure Outcome where
  result : Except Failure Naming
  assembly : Assembly
  redescriptions : List Redescription

namespace Assembly

def addChain (s : Assembly) (c : Chain) : Outcome :=
  match Planning.chain s c .empty with
  | (.error failure, p) => ⟨.error failure, s, p.redescriptions⟩
  | (.ok (), p) =>
    let (result, s) := Building.carryOut p s
    ⟨result, s, p.redescriptions⟩

def addText (s : Assembly) (text : String) : Outcome :=
  match Chain.ofText text with
  | .error failure => ⟨.error failure, s, []⟩
  | .ok c => s.addChain c

/-- Adds chains one after another, up to the first that fails; those before it stay. `created` has
the names that were created before. -/
def addTexts (s : Assembly) (created : Naming) : List String → Outcome
  | [] => ⟨.ok created, s, []⟩
  | text :: texts =>
    let first := s.addText text
    match first.result >>= created.merge with
    | .error failure => { first with result := .error failure }
    | .ok created =>
      let rest := first.assembly.addTexts created texts
      { rest with redescriptions := first.redescriptions ++ rest.redescriptions }

def addLines (s : Assembly) (text : String) : Outcome := s.addTexts .empty (statementLines text)

def addFile (s : Assembly) (files : Files) (path : String) : Outcome :=
  match files path with
  | .error fault => ⟨.error (.unreadableFile path fault), s, []⟩
  | .ok text => s.addLines text

/-- Adds chains to a new assembly, all of which have to succeed. -/
def ofTexts (label : String) (texts : List String) : Except Failure Assembly :=
  texts.foldlM (fun s text => let o := s.addText text; o.result.map fun _ => o.assembly)
    (start label)

end Assembly

end PetriShorthand
