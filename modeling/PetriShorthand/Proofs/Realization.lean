import PetriShorthand.Proofs.CarryingOut

namespace PetriShorthand

theorem Addition.mem_bindings {α : Type} {a : Addition α} {net : Net} {xs : List α} {name : String}
    {n : Node} : (name, n) ∈ a.bindings net xs ↔
      ∃ i, (xs.map a.name)[i]? = some name ∧ n = a.node (a.number net + i) := by
  rw [bindings, List.mem_mapIdx]
  constructor
  · rintro ⟨i, hi, he⟩
    cases he
    exact ⟨i, by simp [hi], rfl⟩
  · rintro ⟨i, hi, rfl⟩
    rw [List.getElem?_map, Option.map_eq_some_iff] at hi
    obtain ⟨x, hx, rfl⟩ := hi
    obtain ⟨hi, rfl⟩ := List.getElem?_eq_some_iff.mp hx
    exact ⟨i, hi, rfl⟩

theorem Plan.mem_bindings {net : Net} {p : Plan} {name : String} {n : Node} :
    (name, n) ∈ p.bindings net ↔
      (∃ i, p.places[i]? = some name ∧ n = .place (net.places.length + i)) ∨
      ∃ i, (p.transitions.map TransitionRef.key)[i]? = some name ∧
        n = .transition (net.transitions.length + i) := by
  rw [bindings, List.mem_append, Addition.mem_bindings, Addition.mem_bindings,
    show Addition.places.name = id from rfl, List.map_id]
  rfl

namespace Assembly

/-- The name is that of the node, where the places and the transitions are listed by name. -/
def Names (places keys : List String) (name : String) : Node → Prop
  | .place i => places[i]? = some name
  | .transition i => keys[i]? = some name

/-- The assembly has what the chains say, and nothing else. -/
structure Realizes (cs : List Chain) (s : Assembly) : Prop where
  places : s.net.places = distinctBy id (cs.flatMap Chain.places)
  transitions : s.net.transitions =
    (distinctBy TransitionRef.key (cs.flatMap Chain.transitions)).map TransitionRef.transition
  arcs : ∃ paths : List (List Node),
    (cs.map fun c => c.references.map fun r => s.resolve r.name) = paths.map (·.map some) ∧
      s.net.arcs = (distinctBy id (paths.flatMap links)).map Arc.single
  naming : ∀ name n, (name, n) ∈ s.naming.bindings ↔ Names (distinctBy id (cs.flatMap Chain.places))
    ((distinctBy TransitionRef.key (cs.flatMap Chain.transitions)).map TransitionRef.key) name n
  inherited : s.inherited = []
  kinds : ∀ c ∈ cs, ∀ r ∈ c.references, ∃ n, s.resolve r.name = some n ∧ n.kind = r.kind

theorem realizes_start (label : String) : Realizes [] (start label) := by
  refine ⟨rfl, rfl, ⟨[], rfl, rfl⟩, ?_, rfl, nofun⟩
  intro name n
  cases n with
  | place i => exact ⟨nofun, nofun⟩
  | transition i => exact ⟨nofun, nofun⟩

variable {s s' : Assembly} {cs : List Chain} {c : Chain} {p : Plan} {created : Naming}

theorem Realizes.resolve_eq_some_iff (h : s.Realizes cs) {name : String} {n : Node} :
    s.resolve name = some n ↔ (name, n) ∈ s.naming.bindings := by
  rw [resolve, h.inherited, List.lookup_nil, Option.or_none, Naming.node?_eq_some_iff]

theorem Realizes.resolve_ne_none {c' : Chain} {r : Reference} (h : s.Realizes cs) (hc : c' ∈ cs)
    (hr : r ∈ c'.references) : s.resolve r.name ≠ none := by
  obtain ⟨n, hn, -⟩ := h.kinds c' hc r hr
  rw [hn]
  nofun

theorem Realizes.resolve_place_iff (h : s.Realizes cs) (hp : p.Describes s c.references)
    {label : String} (hl : label ∈ c.places) :
    s.resolve label = none ↔ label ∉ cs.flatMap Chain.places := by
  constructor
  · intro hnone hmem
    obtain ⟨c', hc', hl'⟩ := List.mem_flatMap.mp hmem
    exact h.resolve_ne_none hc' (Chain.mem_places_iff.mp hl') hnone
  · intro hnew
    cases hn : s.resolve label with
    | none => rfl
    | some n =>
      have hkind := hp.kind_eq (Chain.mem_places_iff.mp hl) hn
      have hnamed := (h.naming label n).mp (h.resolve_eq_some_iff.mp hn)
      cases n with
      | transition i => cases hkind
      | place i =>
        have hmem : label ∈ distinctBy id (cs.flatMap Chain.places) := List.mem_of_getElem? hnamed
        exact absurd (mem_distinctBy_id.mp hmem) hnew

theorem Realizes.resolve_key_iff (h : s.Realizes cs) (hp : p.Describes s c.references)
    {t : TransitionRef} (ht : t ∈ c.transitions) :
    s.resolve t.key = none ↔ t.key ∉ (cs.flatMap Chain.transitions).map TransitionRef.key := by
  constructor
  · intro hnone hmem
    obtain ⟨u, hu, he⟩ := List.mem_map.mp hmem
    obtain ⟨c', hc', hu'⟩ := List.mem_flatMap.mp hu
    rw [← he] at hnone
    exact h.resolve_ne_none hc' (Chain.mem_transitions_iff.mp hu') hnone
  · intro hnew
    cases hn : s.resolve t.key with
    | none => rfl
    | some n =>
      have hkind := hp.kind_eq (Chain.mem_transitions_iff.mp ht) hn
      have hnamed := (h.naming t.key n).mp (h.resolve_eq_some_iff.mp hn)
      cases n with
      | place i => cases hkind
      | transition i =>
        have hmem := List.mem_of_getElem? hnamed
        rw [mem_map_distinctBy] at hmem
        exact absurd hmem hnew

theorem distinctBy_append_fresh {α : Type} {key : α → String} {xs ys : List α}
    (h : ∀ y ∈ ys, s.resolve (key y) = none ↔ key y ∉ xs.map key) :
    distinctBy key (xs ++ ys) = distinctBy key xs ++ s.fresh key ys := by
  have hfresh : s.fresh key ys = (distinctBy key ys).filter fun y => (s.resolve (key y)).isNone :=
    distinctBy_filter key (fun name => (s.resolve name).isNone) ys
  rw [distinctBy_append, hfresh]
  congr 1
  refine List.filter_congr fun y hy => ?_
  have hiff := h y ((distinctBy_sublist key ys).mem hy)
  rw [eq_comm, Bool.eq_iff_iff, decide_eq_true_iff, Option.isNone_iff_eq_none]
  exact hiff

theorem Realizes.places_append (h : s.Realizes cs) (hp : p.Describes s c.references) :
    distinctBy id ((cs ++ [c]).flatMap Chain.places) =
      distinctBy id (cs.flatMap Chain.places) ++ p.places := by
  have hnew : ∀ label ∈ c.places,
      s.resolve (id label) = none ↔ id label ∉ (cs.flatMap Chain.places).map id := by
    intro label hl
    rw [List.map_id]
    exact h.resolve_place_iff hp hl
  rw [List.flatMap_append, List.flatMap_singleton, distinctBy_append_fresh hnew, hp.places,
    c.filterMap_place?]

theorem Realizes.transitions_append (h : s.Realizes cs) (hp : p.Describes s c.references) :
    distinctBy TransitionRef.key ((cs ++ [c]).flatMap Chain.transitions) =
      distinctBy TransitionRef.key (cs.flatMap Chain.transitions) ++ p.transitions := by
  rw [List.flatMap_append, List.flatMap_singleton,
    distinctBy_append_fresh fun t ht => h.resolve_key_iff hp ht, hp.transitions,
    c.filterMap_transition?]

theorem getElem?_append_eq_some_iff {α : Type} {xs ys : List α} {i : Nat} {x : α} :
    (xs ++ ys)[i]? = some x ↔ xs[i]? = some x ∨ ∃ j, ys[j]? = some x ∧ i = xs.length + j := by
  by_cases hi : i < xs.length
  · rw [List.getElem?_append_left hi]
    refine ⟨.inl, ?_⟩
    rintro (h | ⟨j, -, rfl⟩)
    · exact h
    · omega
  · have hle : xs.length ≤ i := by omega
    rw [List.getElem?_append_right hle]
    constructor
    · intro h
      exact .inr ⟨i - xs.length, h, by omega⟩
    · rintro (h | ⟨j, h, rfl⟩)
      · rw [List.getElem?_eq_none hle] at h
        cases h
      · rwa [Nat.add_sub_cancel_left]

theorem names_append_iff {places places' keys keys' : List String} {name : String} {n : Node} :
    Names (places ++ places') (keys ++ keys') name n ↔ Names places keys name n ∨
      (∃ i, places'[i]? = some name ∧ n = .place (places.length + i)) ∨
      ∃ i, keys'[i]? = some name ∧ n = .transition (keys.length + i) := by
  cases n with
  | place i => simp [Names, getElem?_append_eq_some_iff]
  | transition i => simp [Names, getElem?_append_eq_some_iff]

theorem Realizes.naming_append (h : s.Realizes cs) (hp : p.Describes s c.references)
    (hout : p.CarriedOut s created s') (name : String) (n : Node) :
    (name, n) ∈ s'.naming.bindings ↔
      Names (distinctBy id ((cs ++ [c]).flatMap Chain.places))
        ((distinctBy TransitionRef.key ((cs ++ [c]).flatMap Chain.transitions)).map
          TransitionRef.key) name n := by
  have hplaces := congrArg List.length h.places
  have htransitions := congrArg List.length h.transitions
  rw [List.length_map] at htransitions
  rw [hout.naming, List.mem_append, h.naming, Plan.mem_bindings, h.places_append hp,
    h.transitions_append hp, List.map_append, names_append_iff, List.length_map, hplaces,
    htransitions]

theorem Realizes.append (h : s.Realizes cs) (hp : p.Describes s c.references)
    (hout : p.CarriedOut s created s') : s'.Realizes (cs ++ [c]) := by
  have hkeep : ∀ c' ∈ cs, ∀ r ∈ c'.references, s'.resolve r.name = s.resolve r.name := by
    intro c' hc' r hr
    obtain ⟨n, hn, -⟩ := h.kinds c' hc' r hr
    rw [hout.resolve_of_some hp hn, hn]
  refine ⟨?_, ?_, ?_, h.naming_append hp hout, hout.inherited.trans h.inherited, ?_⟩
  · rw [hout.places, h.places, h.places_append hp]
  · rw [hout.transitions, h.transitions, h.transitions_append hp, List.map_append]
  · obtain ⟨paths, hpaths, harcs⟩ := h.arcs
    have hends : s.net.arcs.map Arc.ends = distinctBy id (paths.flatMap links) := by
      rw [harcs, List.map_map]
      exact List.map_id _
    refine ⟨paths ++ [p.path], ?_, ?_⟩
    · rw [List.map_append, List.map_append, ← hpaths, List.map_singleton, List.map_singleton,
        ← hp.path]
      congr 1
      · exact List.map_congr_left fun c' hc' => List.map_congr_left (hkeep c' hc')
      · simp only [hout.resolve_eq hp]
    · rw [hout.arcs, hends, harcs, List.flatMap_append, List.flatMap_singleton, distinctBy_append,
        List.map_append]
      simp only [mem_distinctBy_id, List.map_id, id_eq]
  · intro c' hc' r hr
    rcases List.mem_append.mp hc' with hc' | hc'
    · rw [hkeep c' hc' r hr]
      exact h.kinds c' hc' r hr
    · obtain rfl := List.mem_singleton.mp hc'
      rw [hout.resolve_eq hp]
      exact hp.exists_resolve hr

end Assembly

end PetriShorthand
