import PetriShorthand.Assembly.Building
import PetriShorthand.Proofs.Planning

namespace PetriShorthand

theorem Naming.bind_of_isFree {naming : Naming} {n : Node} {name : String}
    (h : naming.IsFree n name) :
    ∃ extended, naming.bind n name = .ok extended ∧
      extended.bindings = naming.bindings ++ [(name, n)] := by
  have hnot : (name, n) ∉ naming.bindings := fun hmem => (h _ hmem).1 rfl
  rw [bind, if_neg hnot, dif_pos h]
  exact ⟨_, rfl, rfl⟩

def TransitionRef.transition (t : TransitionRef) : Transition := ⟨t.label, t.silent, t.weight⟩

/-- One kind of addition to a net: each makes a node, which has the next number and a name. -/
structure Addition (α : Type) where
  node : Nat → Node
  number : Net → Nat
  add : Net → α → Net
  name : α → String
  number_add : ∀ net x, number (add net x) = number net + 1
  absent : ∀ net : Net, ¬ net.Contains (node (number net))
  contains_add : ∀ {net : Net} {x : α} {n : Node},
    net.Contains n ∨ n = node (number net) → (add net x).Contains n

namespace Addition

def places : Addition String where
  node := .place
  number net := net.places.length
  add := Net.addPlace
  name := id
  number_add net label := List.length_append
  absent net := Nat.lt_irrefl _
  contains_add := by
    rintro net label n (hn | rfl)
    · exact Node.IsWithin.mono hn (by simp [Net.addPlace]) (Nat.le_refl _)
    · show net.places.length < (net.places ++ [label]).length
      simp

def transitions : Addition TransitionRef where
  node := .transition
  number net := net.transitions.length
  add net t := net.addTransition t.transition
  name := TransitionRef.key
  number_add net t := List.length_append
  absent net := Nat.lt_irrefl _
  contains_add := by
    rintro net t n (hn | rfl)
    · exact Node.IsWithin.mono hn (Nat.le_refl _) (by simp [Net.addTransition])
    · show net.transitions.length < (net.transitions ++ [_]).length
      simp

variable {α : Type} (a : Addition α)

def make (created : Naming) (x : α) : Building Naming := do
  let n := a.node (a.number (← get).net)
  modify fun s => { s with net := a.add s.net x }
  Building.name created n (a.name x)

def bindings (net : Net) (xs : List α) : List (String × Node) :=
  xs.mapIdx fun i x => (a.name x, a.node (a.number net + i))

variable {a} {s : Assembly} {created : Naming}

theorem bindings_cons (net : Net) (x : α) (xs : List α) :
    a.bindings net (x :: xs) =
      (a.name x, a.node (a.number net)) :: a.bindings (a.add net x) xs := by
  rw [bindings, List.mapIdx_cons, bindings, Nat.add_zero]
  congr 1
  refine List.mapIdx_eq_mapIdx_iff.mpr fun i hi => ?_
  rw [a.number_add, Nat.add_assoc, Nat.add_comm 1 i]

theorem find?_bindings (net : Net) (xs : List α) (name : String) :
    ((a.bindings net xs).find? fun b => b.1 = name).map (·.2) =
      (xs.findIdx? fun x => a.name x = name).map fun i => a.node (a.number net + i) := by
  induction xs generalizing net with
  | nil => rfl
  | cons x xs ih =>
    rw [bindings_cons, List.find?_cons, List.findIdx?_cons]
    by_cases he : a.name x = name
    · simp [he]
    · simp only [he, decide_false, ih, a.number_add, Bool.false_eq_true, if_false, Option.map_map,
        Function.comp_def]
      congr 1
      funext i
      rw [Nat.add_assoc, Nat.add_comm 1 i]

theorem make_run {x : α} (hfree : s.naming.IsFree (a.node (a.number s.net)) (a.name x))
    (hcreated : created.bindings ⊆ s.naming.bindings) :
    ∃ naming created',
      a.make created x s = (.ok created', { s with net := a.add s.net x, naming }) ∧
      naming.bindings = s.naming.bindings ++ [(a.name x, a.node (a.number s.net))] ∧
      created'.bindings = created.bindings ++ [(a.name x, a.node (a.number s.net))] := by
  have hfree' : created.IsFree (a.node (a.number s.net)) (a.name x) := by
    intro b hb
    exact hfree b (hcreated hb)
  obtain ⟨naming, hbind, hnaming⟩ := Naming.bind_of_isFree hfree
  obtain ⟨created', hbind', hcreated'⟩ := Naming.bind_of_isFree hfree'
  refine ⟨naming, created', ?_, hnaming, hcreated'⟩
  let s₁ : Assembly := { s with net := a.add s.net x }
  have hfirst :
      (liftExcept (s₁.naming.bind (a.node (a.number s.net)) (a.name x)) : Building Naming) s₁ =
        (.ok naming, s₁) := by
    rw [show s₁.naming = s.naming from rfl, hbind]
    rfl
  have hsecond : (liftExcept (created.bind (a.node (a.number s.net)) (a.name x)) : Building Naming)
      { s₁ with naming } = (.ok created', { s₁ with naming }) := by
    rw [hbind']
    rfl
  exact (bind_run_ok hfirst).trans hsecond

theorem contains_foldl {xs : List α} {net : Net} {n : Node} (h : net.Contains n) :
    (xs.foldl a.add net).Contains n := by
  induction xs generalizing net with
  | nil => exact h
  | cons x xs ih => exact ih (a.contains_add (.inl h))

theorem name_mem_of_mem_bindings {xs : List α} {net : Net} {b : String × Node}
    (h : b ∈ a.bindings net xs) : b.1 ∈ xs.map a.name := by
  obtain ⟨i, hi, rfl⟩ := List.mem_mapIdx.mp h
  exact List.mem_map_of_mem (List.getElem_mem hi)

theorem contains_of_mem_bindings {xs : List α} {net : Net} {b : String × Node}
    (h : b ∈ a.bindings net xs) : (xs.foldl a.add net).Contains b.2 := by
  induction xs generalizing net with
  | nil => cases h
  | cons x xs ih =>
    rw [bindings_cons] at h
    rcases List.mem_cons.mp h with rfl | h
    · show (xs.foldl a.add (a.add net x)).Contains (a.node (a.number net))
      exact contains_foldl (a.contains_add (.inr rfl))
    · exact ih h

/-- Additions succeed as long as no two share a name and no name is taken. -/
theorem foldlM_make {xs : List α} (hnodup : (xs.map a.name).Nodup)
    (hnew : ∀ b ∈ s.naming.bindings, b.1 ∉ xs.map a.name)
    (hnamed : ∀ b ∈ s.naming.bindings, s.net.Contains b.2)
    (hcreated : created.bindings ⊆ s.naming.bindings) :
    ∃ naming created', xs.foldlM a.make created s =
        (.ok created', { s with net := xs.foldl a.add s.net, naming }) ∧
      naming.bindings = s.naming.bindings ++ a.bindings s.net xs ∧
      created'.bindings = created.bindings ++ a.bindings s.net xs := by
  induction xs generalizing s created with
  | nil => exact ⟨s.naming, created, rfl, by simp [bindings], by simp [bindings]⟩
  | cons x xs ih =>
    obtain ⟨hx, hnodup'⟩ := List.nodup_cons.mp hnodup
    have hfree : s.naming.IsFree (a.node (a.number s.net)) (a.name x) := by
      intro b hb
      refine ⟨fun he => hnew b hb (he ▸ List.mem_cons_self), fun he => ?_⟩
      exact a.absent s.net (he ▸ hnamed b hb)
    obtain ⟨naming, created', hrun, hnaming, hcreated'⟩ := make_run hfree hcreated
    have hmem : ∀ b ∈ naming.bindings,
        b ∈ s.naming.bindings ∨ b = (a.name x, a.node (a.number s.net)) := by
      intro b hb
      rw [hnaming] at hb
      exact (List.mem_append.mp hb).imp_right List.mem_singleton.mp
    have hnew' : ∀ b ∈ naming.bindings, b.1 ∉ xs.map a.name := by
      intro b hb
      rcases hmem b hb with hb | rfl
      · exact fun hmem => hnew b hb (List.mem_cons_of_mem _ hmem)
      · exact hx
    have hnamed' : ∀ b ∈ naming.bindings, (a.add s.net x).Contains b.2 := by
      intro b hb
      rcases hmem b hb with hb | rfl
      · exact a.contains_add (.inl (hnamed b hb))
      · exact a.contains_add (.inr rfl)
    have hsub : created'.bindings ⊆ naming.bindings := by
      rw [hcreated', hnaming]
      exact List.append_subset.mpr ⟨fun b hb => List.mem_append_left _ (hcreated hb),
        List.subset_append_right _ _⟩
    obtain ⟨naming', created'', hrun', hnaming', hcreated''⟩ :=
      @ih { s with net := a.add s.net x, naming } created' hnodup' hnew' hnamed' hsub
    refine ⟨naming', created'', ?_, ?_, ?_⟩
    · rw [List.foldlM_cons, bind_run_ok hrun, hrun']
      rfl
    · rw [hnaming', hnaming, bindings_cons, List.append_assoc, List.singleton_append]
    · rw [hcreated'', hcreated', bindings_cons, List.append_assoc, List.singleton_append]

end Addition

namespace Net

variable (net : Net)

theorem foldl_addPlace (labels : List String) :
    (labels.foldl addPlace net).label = net.label ∧
      (labels.foldl addPlace net).places = net.places ++ labels ∧
      (labels.foldl addPlace net).transitions = net.transitions ∧
      (labels.foldl addPlace net).arcs = net.arcs := by
  induction labels generalizing net with
  | nil => exact ⟨rfl, by simp, rfl, rfl⟩
  | cons label labels ih =>
    obtain ⟨hlabel, hplaces, htransitions, harcs⟩ := ih (net.addPlace label)
    exact ⟨hlabel, hplaces.trans (List.append_assoc ..), htransitions, harcs⟩

theorem foldl_addTransition (ts : List Transition) :
    (ts.foldl addTransition net).label = net.label ∧
      (ts.foldl addTransition net).places = net.places ∧
      (ts.foldl addTransition net).transitions = net.transitions ++ ts ∧
      (ts.foldl addTransition net).arcs = net.arcs := by
  induction ts generalizing net with
  | nil => exact ⟨rfl, rfl, by simp, rfl⟩
  | cons t ts ih =>
    obtain ⟨hlabel, hplaces, htransitions, harcs⟩ := ih (net.addTransition t)
    exact ⟨hlabel, hplaces, htransitions.trans (List.append_assoc ..), harcs⟩

theorem foldl_addTransitionRef (ts : List TransitionRef) :
    (ts.foldl Addition.transitions.add net).label = net.label ∧
      (ts.foldl Addition.transitions.add net).places = net.places ∧
      (ts.foldl Addition.transitions.add net).transitions =
        net.transitions ++ ts.map TransitionRef.transition ∧
      (ts.foldl Addition.transitions.add net).arcs = net.arcs := by
  have hsame : ts.foldl Addition.transitions.add net =
      (ts.map TransitionRef.transition).foldl addTransition net := by
    rw [List.foldl_map]
    rfl
  rw [hsame]
  exact net.foldl_addTransition _

end Net

end PetriShorthand
