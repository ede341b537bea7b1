import PetriShorthand.Proofs.Links

namespace PetriShorthand

attribute [ext] Net Naming Assembly Outcome

namespace Assembly

/-- Every name stands for a node of the net. -/
structure Grounded (s : Assembly) : Prop where
  named : ∀ b ∈ s.naming.bindings, s.net.Contains b.2
  inherited : ∀ b ∈ s.inherited, s.net.Contains b.2

variable {s : Assembly}

theorem Grounded.contains {name : String} {n : Node} (hs : s.Grounded)
    (h : s.resolve name = some n) : s.net.Contains n := by
  rcases Option.or_eq_some_iff.mp h with h | ⟨-, h⟩
  · exact hs.named _ (Naming.node?_eq_some_iff.mp h)
  · obtain ⟨before, after, he, -⟩ := List.lookup_eq_some_iff.mp h
    refine hs.inherited (name, n) ?_
    rw [he]
    simp

end Assembly

namespace Plan

def bindings (net : Net) (p : Plan) : List (String × Node) :=
  Addition.places.bindings net p.places ++ Addition.transitions.bindings net p.transitions

/-- What has come of an assembly when the plan is carried out. -/
structure CarriedOut (s : Assembly) (p : Plan) (created : Naming) (s' : Assembly) : Prop where
  label : s'.net.label = s.net.label
  places : s'.net.places = s.net.places ++ p.places
  transitions : s'.net.transitions =
    s.net.transitions ++ p.transitions.map TransitionRef.transition
  arcs : s'.net.arcs = s.net.arcs ++
    ((distinctBy id (links p.path)).filter fun l => l ∉ s.net.arcs.map Arc.ends).map Arc.single
  inherited : s'.inherited = s.inherited
  naming : s'.naming.bindings = s.naming.bindings ++ p.bindings s.net
  created : created.bindings = p.bindings s.net

variable {s : Assembly} {p : Plan}

theorem isWithin_of_resolve {name : String} {n : Node} (hs : s.Grounded)
    (h : p.resolve s name = some n) :
    n.IsWithin (s.net.places.length + p.places.length)
      (s.net.transitions.length + p.transitions.length) := by
  rcases Option.or_eq_some_iff.mp h with h | ⟨-, h⟩
  · exact (hs.contains h).mono (Nat.le_add_right _ _) (Nat.le_add_right _ _)
  · rcases Option.or_eq_some_iff.mp h with h | ⟨-, h⟩
    · obtain ⟨i, hi, rfl⟩ := Option.map_eq_some_iff.mp h
      obtain ⟨hlt, -⟩ := List.idxOf?_eq_some_iff.mp hi
      exact Nat.add_lt_add_left hlt _
    · obtain ⟨i, hi, rfl⟩ := Option.map_eq_some_iff.mp h
      obtain ⟨hlt, -⟩ := List.findIdx?_eq_some_iff_getElem.mp hi
      exact Nat.add_lt_add_left hlt _

theorem Describes.isWithin_of_mem_path {refs : List Reference} {n : Node} (hs : s.Grounded)
    (h : p.Describes s refs) (hn : n ∈ p.path) :
    n.IsWithin (s.net.places.length + p.places.length)
      (s.net.transitions.length + p.transitions.length) := by
  have hmem : some n ∈ refs.map fun r => p.resolve s r.name := by
    rw [h.path]
    exact List.mem_map_of_mem hn
  obtain ⟨r, -, hr⟩ := List.mem_map.mp hmem
  exact isWithin_of_resolve hs hr

theorem Describes.joinable {c : Chain} (hs : s.Grounded) (h : p.Describes s c.references) :
    ∀ l ∈ links p.path, Joinable (s.net.places.length + p.places.length)
      (s.net.transitions.length + p.transitions.length) l.1 l.2 := by
  intro l hl
  have hkinds : (l.1.kind, l.2.kind) ∈ links (c.references.map Reference.kind) := by
    rw [h.kinds, links_map]
    exact List.mem_map_of_mem hl
  obtain ⟨hsource, htarget⟩ := List.of_mem_zip hl
  exact ⟨Chain.ne_of_mem_links hkinds, h.isWithin_of_mem_path hs hsource,
    h.isWithin_of_mem_path hs (List.mem_of_mem_tail htarget)⟩

theorem fst_ne_of_resolve_eq_none {name : String} (h : s.resolve name = none) :
    ∀ b ∈ s.naming.bindings, b.1 ≠ name := by
  intro b hb he
  have hnode := Naming.node?_eq_some_iff.mpr (he ▸ hb : (name, b.2) ∈ s.naming.bindings)
  rw [Assembly.resolve, hnode] at h
  cases h

/-- The places of a plan are created without failure: their names are new and all different. -/
theorem createPlaces_run {refs : List Reference} (hs : s.Grounded) (h : p.Describes s refs) :
    ∃ naming created, p.places.foldlM Building.place .empty s =
        (.ok created, { s with net := p.places.foldl Net.addPlace s.net, naming }) ∧
      naming.bindings = s.naming.bindings ++ Addition.places.bindings s.net p.places ∧
      created.bindings = Addition.places.bindings s.net p.places := by
  have hnodup : (p.places.map id).Nodup := h.places ▸ Assembly.nodup_map_fresh
  have hnew : ∀ b ∈ s.naming.bindings, b.1 ∉ p.places.map id := by
    intro b hb hmem
    rw [List.map_id] at hmem
    exact fst_ne_of_resolve_eq_none ((mem_places_iff h).mp hmem).2 b hb rfl
  have hempty : Naming.empty.bindings ⊆ s.naming.bindings := List.nil_subset _
  obtain ⟨naming, created, hrun, hnaming, hcreated⟩ :=
    Addition.places.foldlM_make hnodup hnew hs.named hempty
  exact ⟨naming, created, hrun, hnaming, hcreated⟩

theorem createTransitions_run {refs : List Reference} {naming created : Naming} (hs : s.Grounded)
    (h : p.Describes s refs)
    (hnaming : naming.bindings = s.naming.bindings ++ Addition.places.bindings s.net p.places)
    (hcreated : created.bindings = Addition.places.bindings s.net p.places) :
    ∃ naming' created',
      p.transitions.foldlM Building.transition created
          { s with net := p.places.foldl Net.addPlace s.net, naming } =
        (.ok created', { s with
          net := p.transitions.foldl Addition.transitions.add (p.places.foldl Net.addPlace s.net)
          naming := naming' }) ∧
      naming'.bindings = s.naming.bindings ++ p.bindings s.net ∧
      created'.bindings = p.bindings s.net := by
  have hmem : ∀ b ∈ naming.bindings,
      b ∈ s.naming.bindings ∨ b ∈ Addition.places.bindings s.net p.places := by
    rw [hnaming]
    exact fun b hb => List.mem_append.mp hb
  have hnodup : (p.transitions.map TransitionRef.key).Nodup :=
    h.transitions ▸ Assembly.nodup_map_fresh
  have hnew : ∀ b ∈ naming.bindings, b.1 ∉ p.transitions.map TransitionRef.key := by
    intro b hb hkey
    rcases hmem b hb with hb | hb
    · exact fst_ne_of_resolve_eq_none ((mem_keys_iff h).mp hkey).2 b hb rfl
    · -- one chain cannot use a name for a new place and for a new transition
      have hplace := Addition.name_mem_of_mem_bindings hb
      rw [show Addition.places.name = id from rfl, List.map_id] at hplace
      exact h.not_mem_keys hplace hkey
  have hnamed : ∀ b ∈ naming.bindings, (p.places.foldl Net.addPlace s.net).Contains b.2 := by
    intro b hb
    rcases hmem b hb with hb | hb
    · exact Addition.places.contains_foldl (hs.named b hb)
    · exact Addition.contains_of_mem_bindings hb
  have hsub : created.bindings ⊆ naming.bindings := by
    rw [hcreated, hnaming]
    exact List.subset_append_right _ _
  obtain ⟨naming', created', hrun, hnaming', hcreated'⟩ :=
    @Addition.foldlM_make _ Addition.transitions
      { s with net := p.places.foldl Net.addPlace s.net, naming } _ _ hnodup hnew hnamed hsub
  have hbindings : Addition.transitions.bindings (p.places.foldl Net.addPlace s.net) p.transitions =
      Addition.transitions.bindings s.net p.transitions := by
    obtain ⟨-, -, htransitions, -⟩ := s.net.foldl_addPlace p.places
    simp only [Addition.bindings, Addition.transitions, htransitions]
  refine ⟨naming', created', hrun, ?_, ?_⟩
  · rw [hnaming', hnaming, hbindings, List.append_assoc]
    rfl
  · rw [hcreated', hcreated, hbindings]
    rfl

/-- Creating the nodes of a plan cannot fail, and neither links nor earlier nodes are touched. -/
theorem createNodes_run {refs : List Reference} (hs : s.Grounded) (h : p.Describes s refs) :
    ∃ s₁ created₁ net naming created,
      p.places.foldlM Building.place .empty s = (.ok created₁, s₁) ∧
      p.transitions.foldlM Building.transition created₁ s₁ =
        (.ok created, { s with net, naming }) ∧
      net.label = s.net.label ∧ net.places = s.net.places ++ p.places ∧
      net.transitions = s.net.transitions ++ p.transitions.map TransitionRef.transition ∧
      net.arcs = s.net.arcs ∧ naming.bindings = s.naming.bindings ++ p.bindings s.net ∧
      created.bindings = p.bindings s.net := by
  obtain ⟨naming₁, created₁, hrun₁, hnaming₁, hcreated₁⟩ := createPlaces_run hs h
  obtain ⟨naming, created, hrun, hnaming, hcreated⟩ :=
    createTransitions_run hs h hnaming₁ hcreated₁
  obtain ⟨hlabel, hplaces, htransitions, harcs⟩ := s.net.foldl_addPlace p.places
  obtain ⟨hlabel', hplaces', htransitions', harcs'⟩ :=
    (p.places.foldl Net.addPlace s.net).foldl_addTransitionRef p.transitions
  refine ⟨_, created₁, _, naming, created, hrun₁, hrun, hlabel'.trans hlabel,
    hplaces'.trans hplaces, ?_, harcs'.trans harcs, hnaming, hcreated⟩
  rw [htransitions', htransitions]

/-- Carrying out a plan for a chain cannot fail. -/
theorem carryOut_run {c : Chain} (hs : s.Grounded) (h : p.Describes s c.references) :
    ∃ created s', Building.carryOut p s = (.ok created, s') ∧ p.CarriedOut s created s' := by
  obtain ⟨s₁, created₁, net, naming, created, hrun₁, hrun₂, hlabel, hplaces, htransitions, harcs,
    hnaming, hcreated⟩ := createNodes_run hs h
  have hjoinable : ∀ l ∈ links p.path,
      Joinable net.places.length net.transitions.length l.1 l.2 := by
    rw [hplaces, htransitions, List.length_append, List.length_append, List.length_map]
    exact h.joinable hs
  obtain ⟨net', hrun₃, hlabel', hplaces', htransitions', harcs'⟩ :=
    @Building.forM_arc _ { s with net, naming } hjoinable
  refine ⟨created, { s with net := net', naming }, ?_, ?_⟩
  · exact (bind_run_ok hrun₁).trans ((bind_run_ok hrun₂).trans (bind_run_ok hrun₃))
  · refine ⟨hlabel'.trans hlabel, hplaces'.trans hplaces, htransitions'.trans htransitions, ?_,
      rfl, hnaming, hcreated⟩
    rw [harcs', harcs]

theorem resolve_eq_none_of_new {refs : List Reference} {name : String}
    (h : p.Describes s refs)
    (hnew : (p.newPlace? s.net name).or (p.newTransition? s.net name) ≠ none) :
    s.resolve name = none := by
  by_cases hplace : name ∈ p.places
  · exact ((mem_places_iff h).mp hplace).2
  · by_cases hkey : name ∈ p.transitions.map TransitionRef.key
    · exact ((mem_keys_iff h).mp hkey).2
    · refine absurd ?_ hnew
      rw [newPlace?_eq_none_iff.mpr hplace, newTransition?_eq_none_iff.mpr hkey]
      rfl

/-- Once a plan is carried out, names stand for the nodes that it has for them. -/
theorem CarriedOut.resolve_eq {refs : List Reference} {created : Naming} {s' : Assembly}
    (hout : p.CarriedOut s created s') (h : p.Describes s refs) (name : String) :
    s'.resolve name = p.resolve s name := by
  have hnode : s'.naming.node? name = (s.naming.node? name).or
      ((p.newPlace? s.net name).or (p.newTransition? s.net name)) := by
    rw [Naming.node?, hout.naming, bindings, List.find?_append, List.find?_append, Option.map_or,
      Option.map_or, Addition.places.find?_bindings, Addition.transitions.find?_bindings]
    rfl
  rw [Assembly.resolve, hnode, hout.inherited, Plan.resolve, Assembly.resolve]
  by_cases hnew : (p.newPlace? s.net name).or (p.newTransition? s.net name) = none
  · rw [hnew, Option.or_none, Option.or_none]
  · obtain ⟨hown, hinherited⟩ := Option.or_eq_none_iff.mp (resolve_eq_none_of_new h hnew)
    rw [hown, hinherited, Option.none_or, Option.none_or, Option.none_or, Option.or_none]

theorem CarriedOut.resolve_of_some {refs : List Reference} {created : Naming} {s' : Assembly}
    {name : String} {n : Node} (hout : p.CarriedOut s created s') (h : p.Describes s refs)
    (hn : s.resolve name = some n) : s'.resolve name = some n := by
  rw [hout.resolve_eq h, Plan.resolve, hn, Option.some_or]

theorem CarriedOut.mem_ends_iff {created : Naming} {s' : Assembly} {l : Node × Node}
    (hout : p.CarriedOut s created s') :
    l ∈ s'.net.arcs.map Arc.ends ↔ l ∈ s.net.arcs.map Arc.ends ∨ l ∈ links p.path := by
  have hsingle : Arc.ends ∘ Arc.single = id := rfl
  rw [hout.arcs, List.map_append, List.map_map, hsingle, List.map_id, List.mem_append,
    List.mem_filter, mem_distinctBy_id, decide_eq_true_eq]
  by_cases h : l ∈ s.net.arcs.map Arc.ends
  · simp [h]
  · simp [h]

theorem CarriedOut.grounded {created : Naming} {s' : Assembly} (hs : s.Grounded)
    (hout : p.CarriedOut s created s') : s'.Grounded := by
  have hmono : ∀ n, s.net.Contains n → s'.net.Contains n := by
    intro n hn
    exact hn.mono (by simp [hout.places]) (by simp [hout.transitions])
  refine ⟨?_, ?_⟩
  · intro b hb
    rw [hout.naming, bindings] at hb
    rcases List.mem_append.mp hb with hb | hb
    · exact hmono _ (hs.named b hb)
    · rcases List.mem_append.mp hb with hb | hb
      · obtain ⟨i, hi, rfl⟩ := List.mem_mapIdx.mp hb
        show s.net.places.length + i < s'.net.places.length
        rw [hout.places, List.length_append]
        exact Nat.add_lt_add_left hi _
      · obtain ⟨i, hi, rfl⟩ := List.mem_mapIdx.mp hb
        show s.net.transitions.length + i < s'.net.transitions.length
        rw [hout.transitions, List.length_append, List.length_map]
        exact Nat.add_lt_add_left hi _
  · rw [hout.inherited]
    exact fun b hb => hmono _ (hs.inherited b hb)

end Plan

end PetriShorthand
