import PetriShorthand.Proofs.Indexes

namespace PetriShorthand

/-- The first transition without a name stands in the way; where there is none, the nodes get their
names for labels and the arcs stay. -/
theorem Net.relabel_cases (net : Net) (naming : Naming) :
    (∃ i < net.transitions.length, naming.name? (.transition i) = none ∧
      (∀ j < i, naming.name? (.transition j) ≠ none) ∧
      net.relabel naming = .error (.unnamedTransition net.label (.transition i))) ∨
    ((∀ i < net.transitions.length, naming.name? (.transition i) ≠ none) ∧
      ∃ net', net.relabel naming = .ok net' ∧ net'.label = net.label ∧
        net'.places = net.places.mapIdx (fun i label => IndexedNet.placeName naming label i) ∧
        net'.transitions = net.transitions.mapIdx (fun i t => IndexedNet.named naming t i) ∧
        net'.arcs = net.arcs) := by
  rw [relabel]
  cases hfirst : net.unnamedTransition? naming with
  | some i =>
    obtain ⟨hnone, hi, hbefore⟩ := List.find?_range_eq_some.mp hfirst
    refine .inl ⟨i, List.mem_range.mp hi, by simpa using hnone, fun j hj => ?_, rfl⟩
    simpa using hbefore j hj
  | none =>
    refine .inr ⟨fun i hi => ?_, _, rfl, rfl, rfl, rfl, rfl⟩
    simpa using List.find?_eq_none.mp hfirst i (List.mem_range.mpr hi)

namespace IndexedNet

variable {x copy : IndexedNet} {net net' : Net} {naming : Naming}

theorem named_of_name? {t : Transition} {i : Nat} {name : String}
    (h : naming.name? (.transition i) = some name) :
    named naming t i = { t with label := name } := by
  rw [named, h]
  rfl

theorem copyTransitions_of_named {original : IndexedNet} {ts : List (Transition × Nat)}
    (hnamed : ∀ t ∈ ts, naming.name? (.transition t.2) ≠ none) :
    ts.foldlM (fun copy (t, i) => copyTransition naming original copy t i) x =
      .ok ((ts.map fun (t, i) => named naming t i).foldl IndexedNet.addTransition x) := by
  induction ts generalizing x with
  | nil => rfl
  | cons first ts ih =>
    obtain ⟨t, i⟩ := first
    obtain ⟨hfirst, hrest⟩ := List.forall_mem_cons.mp hnamed
    obtain ⟨name, hname⟩ := Option.ne_none_iff_exists'.mp hfirst
    have hcopy : copyTransition naming original x t i =
        .ok (x.addTransition (named naming t i)) := by
      rw [copyTransition, hname, named_of_name? hname]
    rw [List.foldlM_cons]
    dsimp only
    rw [hcopy]
    exact ih hrest

theorem relabel_of_named
    (hnamed : ∀ i < x.transitions.length, naming.name? (.transition i) ≠ none) :
    x.relabel naming = x.arcs.foldlM copyArc
      ((x.transitions.mapIdx fun i t => named naming t i).foldl IndexedNet.addTransition
        ((x.places.mapIdx fun i label => placeName naming label i).foldl IndexedNet.addPlace
          (empty x.label))) := by
  have hall : ∀ t ∈ x.transitions.zipIdx, naming.name? (.transition t.2) ≠ none := by
    rintro ⟨t, i⟩ ht
    exact hnamed i (List.snd_lt_of_mem_zipIdx ht)
  rw [relabel, copyTransitions_of_named hall]
  simp only [List.mapIdx_eq_zipIdx_map, List.foldl_map]
  rfl

/-- The copy is the net with other labels: a node has its name for a label, and a place that has
none keeps its own. All else is as it was, and copying once more gives the same. -/
structure Relabels (x : IndexedNet) (naming : Naming) (copy : IndexedNet) : Prop where
  label : copy.label = x.label
  contains : ∀ n, copy.Contains n ↔ x.Contains n
  place : ∀ i label, x.places[i]? = some label →
    copy.places[i]? = some ((naming.name? (.place i)).getD label)
  transition : ∀ i t, x.transitions[i]? = some t → ∃ name,
    naming.name? (.transition i) = some name ∧
      copy.transitions[i]? = some { t with label := name }
  distinct : (copy.transitions.map (·.label)).Nodup
  arcs : copy.arcs = x.arcs
  found : ∀ source target, copy.findArc? source target = x.findArc? source target
  numbers : ∀ n direction, copy.arcNumbers n direction = x.arcNumbers n direction
  seen : ∀ n direction, copy.arcsAt? n direction = x.arcsAt? n direction
  placesLabelled : ∀ label, copy.placesLabelled label =
    (List.range copy.places.length).filter fun i => copy.places[i]? = some label
  transitionsLabelled : ∀ label, copy.transitionsLabelled label =
    (List.range copy.transitions.length).filter fun i =>
      copy.transitions[i]?.map (·.label) = some label
  again : copy.relabel naming = .ok copy

theorem nodup_named {ts : List Transition}
    (hnamed : ∀ i < ts.length, naming.name? (.transition i) ≠ none) :
    ((ts.mapIdx fun i t => named naming t i).map (·.label)).Nodup := by
  have hlabel : ∀ i < ts.length, ∀ label,
      ((ts.mapIdx fun i t => named naming t i).map (·.label))[i]? = some label →
        naming.name? (.transition i) = some label := by
    intro i hi label h
    obtain ⟨name, hname⟩ := Option.ne_none_iff_exists'.mp (hnamed i hi)
    rw [List.getElem?_map, List.getElem?_mapIdx, List.getElem?_eq_getElem hi, Option.map_some,
      Option.map_some, named_of_name? hname] at h
    rw [hname, ← h]
  refine List.pairwise_iff_getElem.mpr fun i j hi hj hlt he => ?_
  have hfirst := hlabel i (by simpa using hi) _ (List.getElem?_eq_getElem hi)
  have hsecond := hlabel j (by simpa using hj) _ (List.getElem?_eq_getElem hj)
  rw [← he] at hsecond
  have hsame := Naming.eq_of_mem (Naming.name?_eq_some_iff.mp hfirst)
    (Naming.name?_eq_some_iff.mp hsecond) (.inl rfl)
  have hindex : i = j := Node.transition.inj (Prod.mk.inj hsame).2
  omega

theorem mapIdx_placeName (naming : Naming) (places : List String) :
    (places.mapIdx fun i label => placeName naming label i).mapIdx
        (fun i label => placeName naming label i) =
      places.mapIdx fun i label => placeName naming label i := by
  rw [List.mapIdx_mapIdx]
  congr 1
  funext i label
  simp only [Function.comp_apply, placeName]
  cases naming.name? (.place i) with
  | none => rfl
  | some name => rfl

theorem mapIdx_named (naming : Naming) (ts : List Transition) :
    (ts.mapIdx fun i t => named naming t i).mapIdx (fun i t => named naming t i) =
      ts.mapIdx fun i t => named naming t i := by
  rw [List.mapIdx_mapIdx]
  congr 1
  funext i t
  simp only [Function.comp_apply, named]
  cases naming.name? (.transition i) with
  | none => rfl
  | some name => rfl

theorem Indexes.relabels (h : x.Indexes net) (h' : copy.Indexes net')
    (hnamed : ∀ i < x.transitions.length, naming.name? (.transition i) ≠ none)
    (hcopy : x.relabel naming = .ok copy) (hlabel : net'.label = net.label)
    (hplaces : net'.places = net.places.mapIdx fun i label => placeName naming label i)
    (htransitions : net'.transitions = net.transitions.mapIdx fun i t => named naming t i)
    (harcs : net'.arcs = net.arcs) : x.Relabels naming copy := by
  have hconsistent := h'.consistent
  have hlabel' : copy.label = x.label := h'.label.trans (hlabel.trans h.label.symm)
  have hplaces' : copy.places = x.places.mapIdx fun i label => placeName naming label i := by
    rw [h'.places, hplaces, h.places]
  have htransitions' : copy.transitions = x.transitions.mapIdx fun i t => named naming t i := by
    rw [h'.transitions, htransitions, h.transitions]
  have harcs' : copy.arcs = x.arcs := h'.arcs.trans (harcs.trans h.arcs.symm)
  have hlength : copy.transitions.length = x.transitions.length := by
    rw [htransitions', List.length_mapIdx]
  refine ⟨hlabel', fun n => ?_, fun i label hi => ?_, fun i t hi => ?_, ?_, harcs',
    fun source target => ?_, fun n direction => ?_, fun n direction => ?_,
    hconsistent.placesLabelled, hconsistent.transitionsLabelled, ?_⟩
  · rw [Contains, Contains, hplaces', htransitions', List.length_mapIdx, List.length_mapIdx]
  · rw [hplaces', List.getElem?_mapIdx, hi]
    rfl
  · have hbound := (List.getElem?_eq_some_iff.mp hi).1
    obtain ⟨name, hname⟩ := Option.ne_none_iff_exists'.mp (hnamed i hbound)
    refine ⟨name, hname, ?_⟩
    rw [htransitions', List.getElem?_mapIdx, hi, Option.map_some, named_of_name? hname]
  · rw [htransitions']
    exact nodup_named hnamed
  · rw [h'.found, h.found, Net.findArc?, Net.findArc?, harcs]
  · rw [h'.seen, h.seen, Net.arcNumbers, Net.arcNumbers, harcs]
  · rw [hconsistent.seen, h.consistent.seen, harcs']
  · rw [relabel_of_named hnamed] at hcopy
    rw [relabel_of_named (hlength ▸ hnamed), hlabel', hplaces', htransitions', harcs',
      mapIdx_placeName, mapIdx_named]
    exact hcopy

/-- Whatever was done to a net, it is relabelled exactly if every transition has a name, and the
copy then differs in labels only. The one failure there is says which transition is the first
without a name. -/
theorem relabelling_changes_labels_only (label : String) (changes : List Change)
    (naming : Naming) :
    let x := changes.foldl IndexedNet.change (.empty label)
    ((∃ copy, x.relabel naming = .ok copy) ↔
      ∀ i < x.transitions.length, naming.name? (.transition i) ≠ none) ∧
    (∀ failure, x.relabel naming = .error failure → ∃ i < x.transitions.length,
      naming.name? (.transition i) = none ∧
      (∀ j < i, naming.name? (.transition j) ≠ none) ∧
      failure = .unnamedTransition x.label (.transition i)) ∧
    ∀ copy, x.relabel naming = .ok copy → x.Relabels naming copy := by
  intro x
  have h : x.Indexes (changes.foldl Net.change (.empty label)) :=
    (indexes_empty label).foldl_change changes
  obtain ⟨herror, hok⟩ := h.relabel naming
  rcases Net.relabel_cases (changes.foldl Net.change (.empty label)) naming with
    ⟨i, hi, hnone, hbefore, hrun⟩ | ⟨hnamed, net', hrun, hlabel, hplaces, htransitions, harcs⟩
  · have hfail := herror _ hrun
    rw [← h.transitions] at hi
    rw [hfail]
    refine ⟨⟨nofun, fun hnamed => absurd hnone (hnamed i hi)⟩, ?_, nofun⟩
    rintro failure ⟨⟩
    rw [h.label]
    exact ⟨i, hi, hnone, hbefore, rfl⟩
  · obtain ⟨copy, hcopy, h'⟩ := hok net' hrun
    rw [← h.transitions] at hnamed
    have hrelabels := h.relabels h' hnamed hcopy hlabel hplaces htransitions harcs
    rw [hcopy]
    refine ⟨⟨fun _ => hnamed, fun _ => ⟨copy, rfl⟩⟩, nofun, ?_⟩
    rintro _ ⟨⟩
    exact hrelabels

/-- Two transitions of one label, an arc that weighs nothing, and a name that is the label of a
place, which has none itself. -/
theorem relabelling_changes_labels_only_clash :
    let changes : List Change := [.addPlace "b", .addTransition ⟨"a", false, none⟩,
      .addTransition ⟨"a", true, none⟩, .addArcWeight (.place 0) (.transition 1) 0]
    let naming : Naming := ⟨[("b", .transition 1), ("a", .transition 0)], by decide⟩
    let x := changes.foldl IndexedNet.change (.empty "net")
    ∃ copy, x.relabel naming = .ok copy ∧ x.Relabels naming copy ∧ copy.places[0]? = some "b" ∧
      copy.transitions[1]? = some ⟨"b", true, none⟩ ∧
      copy.arcs = [⟨.place 0, .transition 1, 0⟩] := by
  intro changes naming x
  obtain ⟨hiff, -, hrelabels⟩ := relabelling_changes_labels_only "net" changes naming
  have h : x.Indexes (changes.foldl Net.change (.empty "net")) :=
    (indexes_empty "net").foldl_change changes
  obtain ⟨copy, hcopy⟩ : ∃ copy, x.relabel naming = .ok copy := by
    refine hiff.mpr ?_
    rw [h.transitions]
    decide
  have hcopied := hrelabels copy hcopy
  refine ⟨copy, hcopy, hcopied, ?_, ?_, ?_⟩
  · exact hcopied.place 0 "b" (by rw [h.places]; decide)
  · obtain ⟨name, hname, ht⟩ :=
      hcopied.transition 1 ⟨"a", true, none⟩ (by rw [h.transitions]; decide)
    rw [ht, ← Option.some.inj ((show naming.name? (.transition 1) = some "b" by decide).symm.trans
      hname)]
  · rw [hcopied.arcs, h.arcs]
    decide

end IndexedNet

end PetriShorthand
