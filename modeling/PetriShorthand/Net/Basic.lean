import PetriShorthand.Binary64.Basic
import PetriShorthand.Failure

namespace PetriShorthand

structure Transition where
  label : String
  silent : Bool
  weight : Option Binary64
  deriving DecidableEq

structure Arc where
  source : Node
  target : Node
  weight : Nat
  deriving DecidableEq

/-- Whether an arc is seen from its target or from its source. -/
inductive Direction where
  | incoming
  | outgoing
  deriving DecidableEq

namespace Node

/-- The node is one of so many places and transitions. -/
def IsWithin (places transitions : Nat) : Node → Prop
  | place i => i < places
  | transition i => i < transitions

instance (places transitions : Nat) (n : Node) : Decidable (n.IsWithin places transitions) :=
  match n with
  | place i => inferInstanceAs (Decidable (i < places))
  | transition i => inferInstanceAs (Decidable (i < transitions))

theorem IsWithin.mono {places transitions places' transitions' : Nat} {n : Node}
    (h : n.IsWithin places transitions) (hp : places ≤ places')
    (ht : transitions ≤ transitions') : n.IsWithin places' transitions' := by
  cases n with
  | place i => exact Nat.lt_of_lt_of_le h hp
  | transition i => exact Nat.lt_of_lt_of_le h ht

end Node

def Joinable (places transitions : Nat) (source target : Node) : Prop :=
  source.kind ≠ target.kind ∧ source.IsWithin places transitions ∧
    target.IsWithin places transitions

instance (places transitions : Nat) (source target : Node) :
    Decidable (Joinable places transitions source target) :=
  inferInstanceAs (Decidable (_ ∧ _ ∧ _))

theorem Joinable.mono {places transitions places' transitions' : Nat} {source target : Node}
    (h : Joinable places transitions source target) (hp : places ≤ places')
    (ht : transitions ≤ transitions') : Joinable places' transitions' source target :=
  ⟨h.1, h.2.1.mono hp ht, h.2.2.mono hp ht⟩

namespace Arc

def Leads (source target : Node) (a : Arc) : Prop := a.source = source ∧ a.target = target

instance (source target : Node) (a : Arc) : Decidable (a.Leads source target) :=
  inferInstanceAs (Decidable (_ ∧ _))

/-- The end from which an arc is seen in the direction. -/
def nearEnd (a : Arc) : Direction → Node
  | .incoming => a.target
  | .outgoing => a.source

def farEnd (a : Arc) : Direction → Node
  | .incoming => a.source
  | .outgoing => a.target

/-- Weights are at most this; a sum that would be greater stays there. -/
def maxWeight : Nat := 4294967295

def addWeight (w : Nat) (a : Arc) : Arc := { a with weight := min (a.weight + w) maxWeight }

end Arc

/-- Nodes and arcs are kept in order of creation and never removed. No two arcs share both ends. -/
structure Net where
  label : String
  /-- Labels of the places. -/
  places : List String
  transitions : List Transition
  arcs : List Arc
  joinable : ∀ a ∈ arcs, Joinable places.length transitions.length a.source a.target
  distinct : arcs.Pairwise fun a b => ¬ b.Leads a.source a.target
  deriving DecidableEq

namespace Net

def empty (label : String) : Net := ⟨label, [], [], [], by simp, .nil⟩

def Contains (net : Net) (n : Node) : Prop :=
  n.IsWithin net.places.length net.transitions.length

instance (net : Net) (n : Node) : Decidable (net.Contains n) :=
  inferInstanceAs (Decidable (n.IsWithin _ _))

def nextPlace (net : Net) : Node := .place net.places.length

def nextTransition (net : Net) : Node := .transition net.transitions.length

def addPlace (net : Net) (label : String) : Net :=
  { net with
    places := net.places ++ [label]
    joinable := fun a ha => (net.joinable a ha).mono (by simp) (Nat.le_refl _) }

def addTransition (net : Net) (t : Transition) : Net :=
  { net with
    transitions := net.transitions ++ [t]
    joinable := fun a ha => (net.joinable a ha).mono (Nat.le_refl _) (by simp) }

def findArc? (net : Net) (source target : Node) : Option Nat :=
  net.arcs.findIdx? fun a => a.Leads source target

theorem findArc?_eq_none_iff {net : Net} {source target : Node} :
    net.findArc? source target = none ↔ ∀ a ∈ net.arcs, ¬ a.Leads source target := by
  simp [findArc?, List.findIdx?_eq_none_iff]

/-- The arcs of a net are told apart by their ends. -/
theorem eq_of_leads {net : Net} {source target : Node} {i j : Nat} {a b : Arc}
    (ha : net.arcs[i]? = some a) (hb : net.arcs[j]? = some b) (hla : a.Leads source target)
    (hlb : b.Leads source target) : i = j := by
  obtain ⟨hi, rfl⟩ := List.getElem?_eq_some_iff.mp ha
  obtain ⟨hj, rfl⟩ := List.getElem?_eq_some_iff.mp hb
  have h := List.pairwise_iff_getElem.mp net.distinct
  rcases Nat.lt_trichotomy i j with hlt | heq | hlt
  · exact absurd ⟨hlb.1.trans hla.1.symm, hlb.2.trans hla.2.symm⟩ (h i j hi hj hlt)
  · exact heq
  · exact absurd ⟨hla.1.trans hlb.1.symm, hla.2.trans hlb.2.symm⟩ (h j i hj hi hlt)

theorem findArc?_eq_some_iff {net : Net} {source target : Node} {i : Nat} :
    net.findArc? source target = some i ↔
      ∃ a, net.arcs[i]? = some a ∧ a.Leads source target := by
  constructor
  · intro h
    obtain ⟨hi, hp, -⟩ := List.findIdx?_eq_some_iff_getElem.mp h
    exact ⟨_, List.getElem?_eq_getElem hi, by simpa using hp⟩
  · rintro ⟨a, ha, hl⟩
    cases h : net.findArc? source target with
    | none => exact absurd hl (findArc?_eq_none_iff.mp h a (List.mem_of_getElem? ha))
    | some j =>
      obtain ⟨hj, hp, -⟩ := List.findIdx?_eq_some_iff_getElem.mp h
      rw [eq_of_leads ha (List.getElem?_eq_getElem hj) hl (by simpa using hp)]

def Admits (net : Net) (source target : Node) : Prop :=
  Joinable net.places.length net.transitions.length source target ∧
    ∀ a ∈ net.arcs, ¬ a.Leads source target

instance (net : Net) (source target : Node) : Decidable (net.Admits source target) :=
  inferInstanceAs (Decidable (_ ∧ _))

theorem distinct_append {arcs : List Arc} {a : Arc}
    (h : arcs.Pairwise fun a b => ¬ b.Leads a.source a.target)
    (ha : ∀ b ∈ arcs, ¬ b.Leads a.source a.target) :
    (arcs ++ [a]).Pairwise fun a b => ¬ b.Leads a.source a.target := by
  refine List.pairwise_append.mpr ⟨h, List.pairwise_singleton _ _, fun b hb c hc hl => ?_⟩
  obtain rfl := List.mem_singleton.mp hc
  exact ha b hb ⟨hl.1.symm, hl.2.symm⟩

def newArc (net : Net) (source target : Node) (weight : Nat) : Except Failure (Nat × Net) :=
  if h : net.Admits source target then
    .ok (net.arcs.length,
      { net with
        arcs := net.arcs ++ [⟨source, target, weight⟩]
        joinable := fun a ha => (List.mem_append.mp ha).elim (net.joinable a)
          fun ha => List.mem_singleton.mp ha ▸ h.1
        distinct := distinct_append net.distinct h.2 })
  else
    .error (.invalidArc source target)

/-- Makes sure that an arc joins the ends, and gives its number. -/
def addArc (net : Net) (source target : Node) : Except Failure (Nat × Net) :=
  match net.findArc? source target with
  | some i => .ok (i, net)
  | none => net.newArc source target 1

/-- Changes the arc between two ends, but not its ends. -/
def reweigh (net : Net) (source target : Node) (w : Nat) : Net :=
  let change (a : Arc) : Arc := if a.Leads source target then a.addWeight w else a
  have ends (a : Arc) : (change a).source = a.source ∧ (change a).target = a.target := by
    unfold change
    split <;> exact ⟨rfl, rfl⟩
  { net with
    arcs := net.arcs.map change
    joinable := by
      intro b hb
      obtain ⟨a, ha, rfl⟩ := List.mem_map.mp hb
      rw [(ends a).1, (ends a).2]
      exact net.joinable a ha
    distinct := by
      refine List.pairwise_map.mpr (net.distinct.imp fun {a b} h => ?_)
      unfold Arc.Leads
      rwa [(ends a).1, (ends a).2, (ends b).1, (ends b).2] }

/-- Adds weight to the arc between the ends, which is created if there is none. -/
def addArcWeight (net : Net) (source target : Node) (w : Nat) : Except Failure (Nat × Net) :=
  match net.findArc? source target with
  | some i => .ok (i, net.reweigh source target w)
  | none => net.newArc source target (min w Arc.maxWeight)

def labelOf? (net : Net) : Node → Option String
  | .place i => net.places[i]?
  | .transition i => net.transitions[i]?.map (·.label)

theorem contains_of_labelOf? {net : Net} {n : Node} {label : String}
    (h : net.labelOf? n = some label) : net.Contains n := by
  cases n with
  | place i => exact (List.getElem?_eq_some_iff.mp h).1
  | transition i =>
    obtain ⟨t, ht, -⟩ := Option.map_eq_some_iff.mp h
    exact (List.getElem?_eq_some_iff.mp ht).1

/-- Numbers of the places with the label, in order of creation. -/
def placesLabelled (net : Net) (label : String) : List Nat :=
  (List.range net.places.length).filter fun i => net.places[i]? = some label

theorem mem_placesLabelled {net : Net} {label : String} {i : Nat} :
    i ∈ net.placesLabelled label ↔ net.places[i]? = some label := by
  simp only [placesLabelled, List.mem_filter, List.mem_range, decide_eq_true_eq,
    and_iff_right_iff_imp]
  intro h
  exact (List.getElem?_eq_some_iff.mp h).1

def transitionsLabelled (net : Net) (label : String) : List Nat :=
  (List.range net.transitions.length).filter fun i =>
    net.transitions[i]?.map (·.label) = some label

def arcsAt (net : Net) (n : Node) (direction : Direction) : List Arc :=
  net.arcs.filter fun a => a.nearEnd direction = n

theorem mem_arcsAt {net : Net} {n : Node} {direction : Direction} {a : Arc} :
    a ∈ net.arcsAt n direction ↔ a ∈ net.arcs ∧ a.nearEnd direction = n := by
  simp [arcsAt]

end Net

end PetriShorthand
