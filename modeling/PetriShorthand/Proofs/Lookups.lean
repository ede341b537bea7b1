import PetriShorthand.Proofs.Merging
import PetriShorthand.Proofs.Overlays

namespace PetriShorthand

section Runs

variable {ε σ α β : Type}

theorem exists_of_bind_run {m : ExceptT ε (StateM σ) α} {f : α → ExceptT ε (StateM σ) β}
    {s s' : σ} {b : β} (h : (m >>= f) s = (.ok b, s')) :
    ∃ a s₁, m s = (.ok a, s₁) ∧ f a s₁ = (.ok b, s') := by
  cases hm : m s with
  | mk out s₁ =>
    cases out with
    | error failure =>
      rw [bind_run_error hm] at h
      cases h
    | ok a =>
      rw [bind_run_ok hm] at h
      exact ⟨a, s₁, rfl, h⟩

theorem bind_run_some {m : ExceptT ε (StateT σ Option) α} {f : α → ExceptT ε (StateT σ Option) β}
    {s s' : σ} {a : α} (h : m s = some (.ok a, s')) : (m >>= f) s = f a s' := by
  change (m s).bind (fun r => ExceptT.bindCont f r.1 r.2) = _
  rw [h]
  rfl

end Runs

namespace Naming

variable {naming naming' : Naming} {n : Node} {name : String}

theorem node?_of_bind (h : naming.bind n name = .ok naming') (name' : String) :
    naming'.node? name' = if name = name' then some n else naming.node? name' := by
  rcases naming.bind_cases n name with ⟨-, bound, hbind, hmem⟩ | ⟨-, -, hbind⟩
  · have hsame : bound = naming' := Except.ok.inj (hbind.symm.trans h)
    subst hsame
    by_cases he : name = name'
    · subst he
      rw [if_pos rfl, node?_eq_some_iff, hmem]
      exact .inr rfl
    · rw [if_neg he]
      refine Option.ext fun n' => ?_
      rw [node?_eq_some_iff, node?_eq_some_iff, hmem, Prod.mk.injEq]
      exact or_iff_left fun hpair => he hpair.1.symm
  · rw [hbind] at h
    cases h

end Naming

namespace IndexedNaming

variable {x y : IndexedNaming} {naming other both : Naming}

theorem Indexes.congr (h : x.Indexes naming)
    (hsame : ∀ b, b ∈ both.bindings ↔ b ∈ naming.bindings) : x.Indexes both := by
  refine ⟨fun name n => ?_, fun name n => ?_⟩
  · rw [h.node, hsame]
  · rw [h.name, hsame]

/-- Where names can be merged, the pairs of the one table can be bound in the other, in whatever
order they come. -/
theorem Indexes.merge (hx : x.Indexes naming) (hy : y.Indexes other)
    (h : naming.merge other = .ok both) :
    (x.bindAll y.pairs).1 = .ok () ∧ (x.bindAll y.pairs).2.Indexes both := by
  have hmem : ∀ b, b ∈ naming.bindings ++ y.pairs ↔ b ∈ naming.bindings ++ other.bindings :=
    fun b => (hy.perm.symm.append_left _).mem_iff
  have hfollows := hx.bindAll y.pairs
  rcases naming.bindAll_fits_cases y.pairs with ⟨-, bound, hrun, hbound⟩ | ⟨hnot, -⟩
  · rw [hrun] at hfollows
    refine ⟨hfollows.1, hfollows.2.congr fun b => ?_⟩
    rw [hbound, hmem, Naming.mem_merge h, List.mem_append]
  · have hfits := Naming.exists_merge_iff.mp ⟨both, h⟩
    exact absurd ((areOneToOne_congr hmem).mpr hfits) hnot

end IndexedNaming

section Tables

variable {nodes : Std.HashMap String Node} {entries : List (String × Node)} {name : String}

theorem lookup_singleton (e : String × Node) (name : String) :
    [e].lookup name = if e.1 = name then some e.2 else none := by
  rw [List.lookup_cons, List.lookup_nil]
  by_cases he : e.1 = name
  · simp [he]
  · have hne : (name == e.1) = false := by simpa using Ne.symm he
    simp [he, hne]

theorem getElem?_foldl_insert (nodes : Std.HashMap String Node) (entries : List (String × Node))
    (name : String) : (entries.foldl (fun nodes (label, n) => nodes.insert label n) nodes)[name]? =
      (entries.reverse.lookup name).or nodes[name]? := by
  induction entries generalizing nodes with
  | nil => simp
  | cons e entries ih =>
    rw [List.foldl_cons, ih, List.reverse_cons, List.lookup_append, lookup_singleton,
      Std.HashMap.getElem?_insert]
    by_cases he : e.1 = name
    · simp [he]
    · simp [he]

theorem enterTransition_of_place {e : String × Node} {i : Nat}
    (h : nodes[e.1]? = some (.place i)) : IndexedAssembly.enterTransition nodes e = nodes := by
  rw [IndexedAssembly.enterTransition, h]

theorem getElem?_enterTransition_self {e : String × Node}
    (h : ∀ i, nodes[e.1]? ≠ some (.place i)) :
    (IndexedAssembly.enterTransition nodes e)[e.1]? = some e.2 := by
  rw [IndexedAssembly.enterTransition]
  split
  next i hi => exact absurd hi (h i)
  next => simp

theorem getElem?_enterTransition_of_ne {e : String × Node} (he : e.1 ≠ name) :
    (IndexedAssembly.enterTransition nodes e)[name]? = nodes[name]? := by
  rw [IndexedAssembly.enterTransition]
  split
  next => rfl
  next => simp [Std.HashMap.getElem?_insert, he]

theorem getElem?_foldl_enterTransition_of_place {i : Nat} (h : nodes[name]? = some (.place i)) :
    (entries.foldl IndexedAssembly.enterTransition nodes)[name]? = some (.place i) := by
  induction entries generalizing nodes with
  | nil => exact h
  | cons e entries ih =>
    apply ih
    by_cases he : e.1 = name
    · subst he
      rw [enterTransition_of_place h, h]
    · rw [getElem?_enterTransition_of_ne he, h]

theorem getElem?_foldl_enterTransition (hkinds : ∀ e ∈ entries, e.2.kind = .transition)
    (h : ∀ i, nodes[name]? ≠ some (.place i)) :
    (entries.foldl IndexedAssembly.enterTransition nodes)[name]? =
      (entries.reverse.lookup name).or nodes[name]? := by
  induction entries generalizing nodes with
  | nil => simp
  | cons e entries ih =>
    have hkinds' : ∀ e' ∈ entries, e'.2.kind = .transition :=
      fun e' he' => hkinds e' (List.mem_cons_of_mem _ he')
    rw [List.foldl_cons, List.reverse_cons, List.lookup_append, lookup_singleton]
    by_cases he : e.1 = name
    · subst he
      have hnew := getElem?_enterTransition_self h
      have hnot : ∀ i, (IndexedAssembly.enterTransition nodes e)[e.1]? ≠ some (.place i) := by
        intro i hi
        have hkind := hkinds e List.mem_cons_self
        rw [Option.some.inj (hnew.symm.trans hi)] at hkind
        cases hkind
      rw [ih hkinds' hnot, hnew, if_pos rfl, Option.or_assoc, Option.some_or]
    · have hsame : (IndexedAssembly.enterTransition nodes e)[name]? = nodes[name]? :=
        getElem?_enterTransition_of_ne he
      rw [ih hkinds' (by rwa [hsame]), hsame, if_neg he, Option.or_none]

end Tables

namespace IndexedAssembly

variable {x x' : IndexedAssembly} {s s' : Assembly}

theorem indexes_start (label : String) : (start label).Indexes (.start label) := by
  refine ⟨IndexedNet.indexes_empty label, IndexedNaming.indexes_empty, fun name => ?_⟩
  have hnone : (Assembly.start label).resolve name = none := rfl
  rw [hnone]
  exact Std.HashMap.getElem?_empty

theorem indexes_ofNet {x : IndexedNet} {net : Net} (h : x.Indexes net) :
    (ofNet x).Indexes (.ofNet net) := by
  refine ⟨h, IndexedNaming.indexes_empty, fun name => ?_⟩
  let places := net.places.mapIdx fun i label => (label, Node.place i)
  let transitions := net.transitions.mapIdx fun i t => (t.label, Node.transition i)
  let nodes : Std.HashMap String Node :=
    places.foldl (fun nodes (label, n) => nodes.insert label n) ∅
  have hnodes : nodes[name]? = places.reverse.lookup name := by
    have hfold := getElem?_foldl_insert ∅ places name
    rwa [Std.HashMap.getElem?_empty, Option.or_none] at hfold
  have hkinds : ∀ e ∈ transitions, e.2.kind = .transition := by
    intro e he
    obtain ⟨i, -, rfl⟩ := List.mem_mapIdx.mp he
    rfl
  have hresolve : (Assembly.ofNet net).resolve name =
      (places.reverse.lookup name).or (transitions.reverse.lookup name) :=
    List.lookup_append
  have htable : (ofNet x).nodes = transitions.foldl enterTransition nodes := by
    rw [ofNet, h.places, h.transitions]
  rw [htable, hresolve]
  cases hplace : places.reverse.lookup name with
  | none =>
    rw [hplace] at hnodes
    rw [getElem?_foldl_enterTransition hkinds (by simp [hnodes]), hnodes, Option.or_none,
      Option.none_or]
  | some n =>
    obtain ⟨before, after, he, -⟩ := List.lookup_eq_some_iff.mp hplace
    have hmem : (name, n) ∈ places.reverse := by
      rw [he]
      simp
    obtain ⟨i, _, hi⟩ := List.mem_mapIdx.mp (List.mem_reverse.mp hmem)
    obtain ⟨rfl, rfl⟩ := Prod.mk.inj hi
    rw [hplace] at hnodes
    rw [getElem?_foldl_enterTransition_of_place hnodes, Option.some_or]

end IndexedAssembly

namespace IndexedBuilding

variable {x : IndexedAssembly} {s s' : Assembly} {created : IndexedNaming}
  {created' created'' : Naming} {n : Node} {name : String}

theorem liftExcept_run {α : Type} (o : Except Failure α) (s : Assembly) :
    (liftExcept o : Building α) s = (o, s) := by
  cases o with
  | error failure => rfl
  | ok a => rfl

theorem name_of_ok (h : Building.name created' n name s = (.ok created'', s')) :
    ∃ naming, s.naming.bind n name = .ok naming ∧ created'.bind n name = .ok created'' ∧
      s' = { s with naming } := by
  have hrun : (liftExcept (s.naming.bind n name) >>= fun naming => do
      modify fun s => { s with naming }
      liftExcept (created'.bind n name) : Building Naming) s = (.ok created'', s') := h
  obtain ⟨naming, s₁, hfirst, hrest⟩ := exists_of_bind_run hrun
  obtain ⟨hbind, rfl⟩ := Prod.mk.inj ((liftExcept_run _ s).symm.trans hfirst)
  have hsecond := liftExcept_run (created'.bind n name) { s with naming }
  obtain ⟨hcreated, rfl⟩ := Prod.mk.inj (hsecond.symm.trans hrest)
  exact ⟨naming, hbind, hcreated, rfl⟩

theorem enter_run (h : x.Indexes s) (hcreated : created.Indexes created')
    (hrun : Building.name created' n name s = (.ok created'', s')) :
    ∃ entered x', enter created n name x = some (.ok entered, x') ∧ entered.Indexes created'' ∧
      x'.Indexes s' := by
  obtain ⟨naming, hbind, hbind', rfl⟩ := name_of_ok hrun
  have hfollows := h.naming.bind n name
  have hfollows' := hcreated.bind n name
  rw [hbind] at hfollows
  rw [hbind'] at hfollows'
  let x' : IndexedAssembly := ⟨x.net, (x.naming.bind n name).2, x.nodes.insert name n⟩
  have henter : enter created n name x =
      (liftExcept (x.naming.bind n name).1 >>= fun _ =>
        liftExcept (created.bind n name).1 >>= fun _ =>
          pure (created.bind n name).2 : IndexedBuilding IndexedNaming) x' := rfl
  have hnodes : ∀ name', x'.nodes[name']? = Assembly.resolve { s with naming } name' := by
    intro name'
    rw [Assembly.resolve, Naming.node?_of_bind hbind, Std.HashMap.getElem?_insert]
    by_cases he : name = name'
    · simp [he]
    · simpa [he, Assembly.resolve] using h.nodes name'
  refine ⟨(created.bind n name).2, x', ?_, hfollows'.2, h.net, hfollows.2, hnodes⟩
  rw [henter, hfollows.1, hfollows'.1]
  rfl

section Additions

variable {α : Type} {a : Addition α}
  {make' : IndexedNaming × List Node → α → IndexedBuilding (IndexedNaming × List Node)}

/-- Making one node under its name, with tables and without. -/
def Makes (a : Addition α)
    (make' : IndexedNaming × List Node → α → IndexedBuilding (IndexedNaming × List Node)) : Prop :=
  ∀ ⦃x : IndexedAssembly⦄ ⦃s s' : Assembly⦄ ⦃created : IndexedNaming⦄ ⦃created' created'' : Naming⦄
    ⦃e : α⦄ (made : List Node), x.Indexes s → created.Indexes created' →
    a.make created' e s = (.ok created'', s') →
    ∃ entered x', make' (created, made) e x =
        some (.ok (entered, made ++ [a.node (a.number s.net)]), x') ∧
      entered.Indexes created'' ∧ x'.Indexes s' ∧ s'.net = a.add s.net e

theorem makes_of_add (next : IndexedNet → Node) (add : α → IndexedNet → IndexedNet)
    (hnext : ∀ {x : IndexedNet} {net : Net}, x.Indexes net → next x = a.node (a.number net))
    (hadd : ∀ {x : IndexedNet} {net : Net} (e : α), x.Indexes net →
      (add e x).Indexes (a.add net e)) :
    Makes a fun created e => make next (add e) (a.name e) created.1 created.2 := by
  intro x s s' created created' created'' e made h hcreated hrun
  let x₁ : IndexedAssembly := { x with net := add e x.net }
  let s₁ : Assembly := { s with net := a.add s.net e }
  have h₁ : x₁.Indexes s₁ := ⟨hadd e h.net, h.naming, h.nodes⟩
  have hname : Building.name created' (a.node (a.number s.net)) (a.name e) s₁ =
    (.ok created'', s') := hrun
  obtain ⟨entered, x', hentered, hcreated', hx'⟩ := enter_run h₁ hcreated hname
  obtain ⟨naming, -, -, rfl⟩ := name_of_ok hname
  refine ⟨entered, x', ?_, hcreated', hx', rfl⟩
  rw [← hnext h.net] at hentered ⊢
  exact bind_run_some hentered

theorem makes_place : Makes .places place := by
  have hnext : ∀ {x : IndexedNet} {net : Net}, x.Indexes net →
      Node.place x.places.length = .place net.places.length := by
    intro x net h
    rw [h.places]
  have hmakes := makes_of_add (a := .places) (fun net => .place net.places.length)
    (fun label net => net.addPlace label) hnext fun label h => h.addPlace label
  exact hmakes

theorem makes_transition : Makes .transitions fun created t => transition created (t.key, t) := by
  have hnext : ∀ {x : IndexedNet} {net : Net}, x.Indexes net →
      Node.transition x.transitions.length = .transition net.transitions.length := by
    intro x net h
    rw [h.transitions]
  have hmakes := makes_of_add (a := .transitions) (fun net => .transition net.transitions.length)
    (fun t net => net.addTransition t.transition) hnext fun t h => h.addTransition t.transition
  exact hmakes

theorem foldlM_of_makes (made : List Node) (hmakes : Makes a make') {es : List α}
    (h : x.Indexes s) (hcreated : created.Indexes created')
    (hrun : es.foldlM a.make created' s = (.ok created'', s')) :
    ∃ entered x', es.foldlM make' (created, made) x =
        some (.ok (entered, made ++ (a.bindings s.net es).map (·.2)), x') ∧
      entered.Indexes created'' ∧ x'.Indexes s' ∧ s'.net = es.foldl a.add s.net := by
  induction es generalizing x s created created' made with
  | nil =>
    cases hrun
    have hnothing : made ++ (a.bindings s'.net []).map (·.2) = made := List.append_nil made
    rw [hnothing]
    exact ⟨created, x, rfl, hcreated, h, rfl⟩
  | cons e es ih =>
    rw [List.foldlM_cons] at hrun
    obtain ⟨created₁, s₁, hfirst, hrest⟩ := exists_of_bind_run hrun
    obtain ⟨entered, x₁, hmade, hentered, hx₁, hnet⟩ := hmakes made h hcreated hfirst
    obtain ⟨entered', x', hmade', hentered', hx', hnet'⟩ := ih _ hx₁ hentered hrest
    refine ⟨entered', x', ?_, hentered', hx', by rw [hnet', hnet, List.foldl_cons]⟩
    rw [List.foldlM_cons, bind_run_some hmade, hmade', hnet, Addition.bindings_cons]
    simp

end Additions

theorem arc_of_ok {source target : Node} (h : Building.arc source target s = (.ok (), s')) :
    ∃ i net, s.net.addArc source target = .ok (i, net) ∧ s' = { s with net } := by
  have hrun : (liftExcept (s.net.addArc source target) >>= fun added =>
      modify fun s => { s with net := added.2 } : Building Unit) s = (.ok (), s') := h
  obtain ⟨added, s₁, hfirst, hrest⟩ := exists_of_bind_run hrun
  obtain ⟨hadd, rfl⟩ := Prod.mk.inj ((liftExcept_run _ s).symm.trans hfirst)
  obtain ⟨-, rfl⟩ := Prod.mk.inj hrest
  exact ⟨added.1, added.2, hadd, rfl⟩

theorem arc_run {source target : Node} (h : x.Indexes s)
    (hrun : Building.arc source target s = (.ok (), s')) :
    ∃ x', arc source target x = some (.ok (), x') ∧ x'.Indexes s' := by
  obtain ⟨i, net, hadd, rfl⟩ := arc_of_ok hrun
  have hfollows := h.net.addArc source target
  rw [hadd] at hfollows
  have harc : arc source target x =
      (discard (liftExcept (x.net.addArc source target).1) : IndexedBuilding Unit)
        { x with net := (x.net.addArc source target).2 } := rfl
  refine ⟨{ x with net := (x.net.addArc source target).2 }, ?_, hfollows.2, h.naming, h.nodes⟩
  rw [harc, hfollows.1]
  rfl

theorem node?_of_becomes {net : Net} {p : Plan} {planned : Planned}
    (h : planned.Becomes net p.places.length p.transitions.length n) :
    planned.node? ((Addition.places.bindings net p.places).map (·.2))
      ((Addition.transitions.bindings net p.transitions).map (·.2)) = some n := by
  cases h with
  | existing n => rfl
  | newPlace hi => simp [Planned.node?, Addition.bindings, Addition.places, hi]
  | newTransition hi => simp [Planned.node?, Addition.bindings, Addition.transitions, hi]

theorem link_run {places transitions : List Node} {l : Planned × Planned} {source target : Node}
    (hsource : l.1.node? places transitions = some source)
    (htarget : l.2.node? places transitions = some target) :
    link places transitions l x = arc source target x := by
  rw [link, hsource, htarget]
  rfl

/-- Arcs along a path lead from node to node of it, none of which is missing. -/
theorem forM_link_run {places transitions : List Node} {links : List (Planned × Planned)}
    {links' : List (Node × Node)}
    (hlinks : List.Forall₂ (fun l l' => l.1.node? places transitions = some l'.1 ∧
      l.2.node? places transitions = some l'.2) links links') (h : x.Indexes s)
    (hrun : (links'.forM fun (source, target) => Building.arc source target) s = (.ok (), s')) :
    ∃ x', links.forM (link places transitions) x = some (.ok (), x') ∧ x'.Indexes s' := by
  induction hlinks generalizing x s with
  | nil =>
    cases hrun
    exact ⟨x, rfl, h⟩
  | @cons l l' links links' hl _ ih =>
    obtain ⟨⟨⟩, s₁, hfirst, hrest⟩ := exists_of_bind_run hrun
    obtain ⟨x₁, harc, hx₁⟩ := arc_run h hfirst
    obtain ⟨x', hrest', hx'⟩ := ih hx₁ hrest
    rw [← link_run hl.1 hl.2] at harc
    exact ⟨x', (bind_run_some harc).trans hrest', hx'⟩

theorem forall₂_links {α β : Type} {R : α → β → Prop} {as : List α} {bs : List β}
    (h : List.Forall₂ R as bs) :
    List.Forall₂ (fun l l' => R l.1 l'.1 ∧ R l.2 l'.2) (links as) (links bs) := by
  induction h with
  | nil => exact .nil
  | cons hab hrest ih =>
    cases hrest with
    | nil => exact .nil
    | cons hab' _ => exact .cons ⟨hab, hab'⟩ ih

/-- Where a plan is carried out, so is the one with an overlay that says the same. -/
theorem carryOut_run {q : IndexedPlan} {p : Plan} {naming : Naming} (h : x.Indexes s)
    (hq : q.Indexes x s p) (hrun : Building.carryOut p s = (.ok naming, s')) :
    ∃ created x', carryOut q x = some (.ok created, x') ∧ created.Indexes naming ∧
      x'.Indexes s' := by
  obtain ⟨created₁, s₁, hplaces, hrun⟩ := exists_of_bind_run hrun
  obtain ⟨created₂, s₂, htransitions, hrun⟩ := exists_of_bind_run hrun
  obtain ⟨⟨⟩, s₃, harcs, hrun⟩ := exists_of_bind_run hrun
  cases hrun
  obtain ⟨entered, x₁, hfirst, hentered, hx₁, hnet⟩ :=
    foldlM_of_makes [] makes_place h IndexedNaming.indexes_empty hplaces
  obtain ⟨created, x₂, hsecond, hcreated, hx₂, -⟩ :=
    foldlM_of_makes [] makes_transition hx₁ hentered htransitions
  have hnumbers : Addition.transitions.bindings s₁.net p.transitions =
      Addition.transitions.bindings s.net p.transitions := by
    obtain ⟨-, -, hkept, -⟩ := s.net.foldl_addPlace p.places
    have hsame : s₁.net.transitions = s.net.transitions := by
      rw [hnet]
      exact hkept
    simp only [Addition.bindings, Addition.transitions, hsame]
  rw [hnumbers] at hsecond
  have hlinks := forall₂_links (hq.path.imp fun _ _ => node?_of_becomes)
  obtain ⟨x', hthird, hx'⟩ := forM_link_run hlinks hx₂ harcs
  let newPlaces := (Addition.places.bindings s.net p.places).map (·.2)
  let newTransitions := (Addition.transitions.bindings s.net p.transitions).map (·.2)
  have hplaces' : q.places.foldlM place (.empty, []) x =
      some (.ok (entered, newPlaces), x₁) := by
    rw [hq.places]
    exact hfirst
  have htransitions' : q.transitions.foldlM transition (entered, []) x₁ =
      some (.ok (created, newTransitions), x₂) := by
    rw [hq.transitions, List.foldlM_map]
    exact hsecond
  refine ⟨created, x', ?_, hcreated, hx'⟩
  exact (bind_run_some hplaces').trans
    ((bind_run_some htransitions').trans (bind_run_some hthird))

end IndexedBuilding

end PetriShorthand
