import PetriShorthand.Net.Indexed
import PetriShorthand.Proofs.CarryingOut

namespace PetriShorthand

section Positions

variable {α : Type}

theorem filter_range_concat (p : Option α → Bool) (xs : List α) (x : α) :
    (List.range (xs ++ [x]).length).filter (fun i => p (xs ++ [x])[i]?) =
      (List.range xs.length).filter (fun i => p xs[i]?) ++
        if p (some x) then [xs.length] else [] := by
  rw [List.length_append, List.length_singleton, List.range_succ, List.filter_append]
  congr 1
  · refine List.filter_congr fun i hi => ?_
    rw [List.getElem?_append_left (List.mem_range.mp hi)]
  · rw [List.filter_singleton, List.getElem?_concat_length, Bool.cond_eq_ite]

theorem mapM_eq_some_of_map {β : Type} {f : α → Option β} {xs : List α} {ys : List β}
    (h : xs.map f = ys.map some) : xs.mapM f = some ys := by
  induction xs generalizing ys with
  | nil =>
    rw [List.map_nil, List.nil_eq, List.map_eq_nil_iff] at h
    rw [h]
    rfl
  | cons x xs ih =>
    cases ys with
    | nil => cases h
    | cons y ys =>
      obtain ⟨hx, hxs⟩ := List.cons.inj h
      rw [List.mapM_cons, hx, ih hxs]
      rfl

theorem mapM_filter_range (p : α → Bool) (xs : List α) :
    ((List.range xs.length).filter fun i => xs[i]?.any p).mapM (xs[·]?) = some (xs.filter p) := by
  have hall : (List.range xs.length).map (xs[·]?) = xs.map some := by
    refine List.ext_getElem? fun i => ?_
    by_cases hi : i < xs.length
    · simp [hi]
    · simp [Nat.not_lt.mp hi]
  have hsome : (Option.any p) ∘ some = p := rfl
  refine mapM_eq_some_of_map ?_
  calc ((List.range xs.length).filter fun i => xs[i]?.any p).map (xs[·]?)
      = ((List.range xs.length).map (xs[·]?)).filter (Option.any p) := by
        rw [List.filter_map]
        rfl
    _ = (xs.filter p).map some := by rw [hall, List.filter_map, hsome]

end Positions

namespace Register

variable {α : Type} [DecidableEq α] [Hashable α]

theorem numbers_empty (key : α) : numbers (∅ : Register α) key = [] := by
  rw [numbers, Std.HashMap.getD_empty]

theorem numbers_enter (register : Register α) (key key' : α) (i : Nat) :
    (register.enter key i).numbers key' =
      register.numbers key' ++ if key = key' then [i] else [] := by
  rw [numbers, enter, Std.HashMap.getD_alter]
  by_cases h : key = key'
  · subst h
    simp [numbers, Std.HashMap.getD_eq_getD_getElem?]
  · simp [numbers, h]

end Register

def Net.arcNumbers (net : Net) (n : Node) (direction : Direction) : List Nat :=
  (List.range net.arcs.length).filter fun i => net.arcs[i]?.any fun a => a.nearEnd direction = n

namespace IndexedNet

/-- The tables answer as a search through the net does. -/
structure Indexes (x : IndexedNet) (net : Net) : Prop where
  label : x.label = net.label
  places : x.places = net.places
  transitions : x.transitions = net.transitions
  arcs : x.arcs = net.arcs
  found : ∀ source target, x.findArc? source target = net.findArc? source target
  seen : ∀ n direction, x.arcNumbers n direction = net.arcNumbers n direction
  placesLabelled : ∀ label, x.placesLabelled label = net.placesLabelled label
  transitionsLabelled : ∀ label, x.transitionsLabelled label = net.transitionsLabelled label

variable {x x' : IndexedNet} {net net' : Net}

theorem indexes_empty (label : String) : (empty label).Indexes (Net.empty label) := by
  refine ⟨rfl, rfl, rfl, rfl, fun source target => ?_, fun n direction => ?_, fun l => ?_,
    fun l => ?_⟩
  · exact Std.HashMap.getElem?_empty
  · cases direction with
    | incoming => exact Register.numbers_empty n
    | outgoing => exact Register.numbers_empty n
  · exact Register.numbers_empty l
  · exact Register.numbers_empty l

theorem Indexes.contains_iff (h : x.Indexes net) (n : Node) : x.Contains n ↔ net.Contains n := by
  rw [Contains, Net.Contains, h.places, h.transitions]

theorem Indexes.addPlace (h : x.Indexes net) (label : String) :
    (x.addPlace label).Indexes (net.addPlace label) := by
  refine ⟨h.label, congrArg (· ++ [label]) h.places, h.transitions, h.arcs, h.found, h.seen,
    fun l => ?_, h.transitionsLabelled⟩
  have hpositions := filter_range_concat (fun place => place = some l) net.places label
  have hbefore : x.placeIndex.numbers l = net.placesLabelled l := h.placesLabelled l
  change (x.placeIndex.enter label x.places.length).numbers l = _
  rw [Register.numbers_enter, hbefore, h.places]
  simp only [Option.some.injEq, decide_eq_true_eq] at hpositions
  exact hpositions.symm

theorem Indexes.addTransition (h : x.Indexes net) (t : Transition) :
    (x.addTransition t).Indexes (net.addTransition t) := by
  refine ⟨h.label, h.places, congrArg (· ++ [t]) h.transitions, h.arcs, h.found, h.seen,
    h.placesLabelled, fun l => ?_⟩
  have hpositions := filter_range_concat (fun t => t.map (·.label) = some l) net.transitions t
  have hbefore : x.transitionIndex.numbers l = net.transitionsLabelled l :=
    h.transitionsLabelled l
  change (x.transitionIndex.enter t.label x.transitions.length).numbers l = _
  rw [Register.numbers_enter, hbefore, h.transitions]
  simp only [Option.map_some, Option.some.injEq, decide_eq_true_eq] at hpositions
  exact hpositions.symm

theorem findArc?_concat {source target : Node} {a : Arc} (harcs : net'.arcs = net.arcs ++ [a])
    (hnew : ∀ b ∈ net.arcs, ¬ b.Leads a.source a.target) :
    net'.findArc? source target =
      if (a.source, a.target) = (source, target) then some net.arcs.length
      else net.findArc? source target := by
  rw [Net.findArc?, harcs, List.findIdx?_append, List.findIdx?_singleton]
  by_cases hends : (a.source, a.target) = (source, target)
  · obtain ⟨rfl, rfl⟩ := Prod.mk.inj hends
    have hnone : net.arcs.findIdx? (fun b => b.Leads a.source a.target) = none :=
      Net.findArc?_eq_none_iff.mpr hnew
    rw [if_pos rfl, hnone]
    simp [Arc.Leads]
  · have hleads : ¬a.Leads source target := fun hl => hends (Prod.ext hl.1 hl.2)
    rw [if_neg hends, Net.findArc?]
    simp [hleads]

theorem arcNumbers_concat {n : Node} {direction : Direction} {a : Arc}
    (harcs : net'.arcs = net.arcs ++ [a]) :
    net'.arcNumbers n direction = net.arcNumbers n direction ++
      if a.nearEnd direction = n then [net.arcs.length] else [] := by
  have hpositions := filter_range_concat
    (fun arc => arc.any fun a => a.nearEnd direction = n) net.arcs a
  simp only [Option.any_some, decide_eq_true_eq] at hpositions
  rw [Net.arcNumbers, harcs]
  exact hpositions

/-- The change to the indexed net does what the one to the net does, with the same answer; where it
fails, it changes nothing. -/
def Follows (x : IndexedNet) (o : Except Failure Nat × IndexedNet) :
    Except Failure (Nat × Net) → Prop
  | .ok (i, net') => o.1 = .ok i ∧ o.2.Indexes net'
  | .error failure => o = (.error failure, x)

theorem newArc_of_admits {source target : Node} (h : net.Admits source target) (weight : Nat) :
    ∃ net', net.newArc source target weight = .ok (net.arcs.length, net') ∧
      net'.label = net.label ∧ net'.places = net.places ∧ net'.transitions = net.transitions ∧
      net'.arcs = net.arcs ++ [⟨source, target, weight⟩] :=
  ⟨_, dif_pos h, rfl, rfl, rfl, rfl⟩

theorem Indexes.joinable_iff (h : x.Indexes net) (source target : Node) :
    ¬(source.kind = target.kind ∨ ¬x.Contains source ∨ ¬x.Contains target) ↔
      Joinable net.places.length net.transitions.length source target := by
  rw [h.contains_iff, h.contains_iff, not_or, not_or, not_not, not_not]
  exact Iff.rfl

/-- Where none leads from the one end to the other, an arc is put there exactly if the ends allow
it. -/
theorem Indexes.pushArc (h : x.Indexes net) {source target : Node} {weight : Nat}
    (hnew : net.findArc? source target = none) :
    x.Follows (x.pushArc source target weight) (net.newArc source target weight) := by
  have hnone := Net.findArc?_eq_none_iff.mp hnew
  have hjoinable := h.joinable_iff source target
  by_cases hends : Joinable net.places.length net.transitions.length source target
  · obtain ⟨net', hrun, hlabel, hplaces, htransitions, harcs⟩ :=
      newArc_of_admits ⟨hends, hnone⟩ weight
    have hlength : x.arcs.length = net.arcs.length := congrArg List.length h.arcs
    rw [IndexedNet.pushArc, if_neg (hjoinable.mpr hends), hrun]
    refine ⟨congrArg Except.ok hlength, h.label.trans hlabel.symm, h.places.trans hplaces.symm,
      h.transitions.trans htransitions.symm, ?_, fun s t => ?_, fun n direction => ?_,
      fun l => ?_, fun l => ?_⟩
    · rw [harcs, h.arcs]
    · rw [findArc?_concat harcs hnone, ← h.found s t, ← hlength]
      change (x.arcIndex.insert (source, target) x.arcs.length)[(s, t)]? = _
      rw [Std.HashMap.getElem?_insert]
      simp only [beq_iff_eq]
      rfl
    · rw [arcNumbers_concat harcs, ← h.seen n direction, ← hlength]
      cases direction with
      | incoming => exact Register.numbers_enter x.inArcs target n x.arcs.length
      | outgoing => exact Register.numbers_enter x.outArcs source n x.arcs.length
    · rw [Net.placesLabelled, hplaces]
      exact h.placesLabelled l
    · rw [Net.transitionsLabelled, htransitions]
      exact h.transitionsLabelled l
  · rw [IndexedNet.pushArc, if_pos (not_not.mp (mt hjoinable.mp hends)), Net.newArc,
      dif_neg fun hadmits => hends hadmits.1]
    rfl

theorem Indexes.addArc (h : x.Indexes net) (source target : Node) :
    x.Follows (x.addArc source target) (net.addArc source target) := by
  rw [IndexedNet.addArc, Net.addArc, h.found]
  cases hfound : net.findArc? source target with
  | some i => exact ⟨rfl, h⟩
  | none => exact h.pushArc hfound

theorem findArc?_eq_of_ends (h : net'.arcs.map Arc.ends = net.arcs.map Arc.ends)
    (source target : Node) : net'.findArc? source target = net.findArc? source target := by
  have hends : ∀ net : Net, net.findArc? source target =
      (net.arcs.map Arc.ends).findIdx? fun l => l = (source, target) := by
    intro net
    rw [List.findIdx?_map, Net.findArc?]
    congr 1
    funext a
    refine decide_eq_decide.mpr ?_
    rw [Arc.ends, Prod.mk.injEq, Arc.Leads]
  rw [hends, hends, h]

theorem nearEnd_eq_of_ends {a b : Arc} (h : a.ends = b.ends) (direction : Direction) :
    a.nearEnd direction = b.nearEnd direction := by
  obtain ⟨hsource, htarget⟩ := Prod.mk.inj h
  cases direction with
  | incoming => exact htarget
  | outgoing => exact hsource

theorem arcNumbers_eq_of_ends (h : net'.arcs.map Arc.ends = net.arcs.map Arc.ends) (n : Node)
    (direction : Direction) : net'.arcNumbers n direction = net.arcNumbers n direction := by
  have hlength : net'.arcs.length = net.arcs.length := by
    simpa using congrArg List.length h
  rw [Net.arcNumbers, Net.arcNumbers, hlength]
  refine List.filter_congr fun i _ => ?_
  have hends := congrArg (·[i]?) h
  simp only [List.getElem?_map] at hends
  cases ha : net.arcs[i]? with
  | none =>
    rw [ha, Option.map_none, Option.map_eq_none_iff] at hends
    rw [hends]
  | some a =>
    rw [ha, Option.map_some, Option.map_eq_some_iff] at hends
    obtain ⟨b, hb, hends⟩ := hends
    rw [hb, Option.any_some, Option.any_some, nearEnd_eq_of_ends hends]

theorem reweigh_arcs {source target : Node} {i : Nat} (w : Nat)
    (hfound : net.findArc? source target = some i) :
    (net.reweigh source target w).arcs = net.arcs.modify i (·.addWeight w) := by
  obtain ⟨b, hb, hleads⟩ := Net.findArc?_eq_some_iff.mp hfound
  refine List.ext_getElem? fun j => ?_
  change (net.arcs.map fun a => if a.Leads source target then a.addWeight w else a)[j]? = _
  rw [List.getElem?_map, List.getElem?_modify]
  cases ha : net.arcs[j]? with
  | none => rfl
  | some a =>
    by_cases hij : i = j
    · subst hij
      rw [hb] at ha
      cases ha
      simp [hleads]
    · have hother : ¬a.Leads source target := fun hl => hij (Net.eq_of_leads hb ha hleads hl)
      simp [hij, hother]

theorem reweigh_ends (source target : Node) (w : Nat) :
    (net.reweigh source target w).arcs.map Arc.ends = net.arcs.map Arc.ends := by
  change (net.arcs.map fun a => if a.Leads source target then a.addWeight w else a).map _ = _
  rw [List.map_map]
  refine List.map_congr_left fun a _ => ?_
  rw [Function.comp_apply]
  split
  · rfl
  · rfl

theorem Indexes.addArcWeight (h : x.Indexes net) (source target : Node) (w : Nat) :
    x.Follows (x.addArcWeight source target w) (net.addArcWeight source target w) := by
  rw [IndexedNet.addArcWeight, Net.addArcWeight, h.found]
  cases hfound : net.findArc? source target with
  | none => exact h.pushArc hfound
  | some i =>
    have harcs := reweigh_arcs w hfound
    refine ⟨rfl, h.label, h.places, h.transitions, ?_, fun s t => ?_, fun n direction => ?_,
      h.placesLabelled, h.transitionsLabelled⟩
    · rw [harcs, h.arcs]
    · rw [findArc?_eq_of_ends (reweigh_ends source target w)]
      exact h.found s t
    · rw [arcNumbers_eq_of_ends (reweigh_ends source target w)]
      exact h.seen n direction

/-- The transition with the name that the naming has for it. -/
def named (naming : Naming) (t : Transition) (i : Nat) : Transition :=
  { t with label := (naming.name? (.transition i)).getD t.label }

/-- The label of a place, or the name that the naming has for it. -/
def placeName (naming : Naming) (label : String) (i : Nat) : String :=
  (naming.name? (.place i)).getD label

theorem Indexes.copyPlaces (h : x.Indexes net) (naming : Naming) (places : List (String × Nat)) :
    (places.foldl
      (fun copy (label, i) => copy.addPlace ((naming.name? (.place i)).getD label)) x).Indexes
    ((places.map fun (label, i) => placeName naming label i).foldl Net.addPlace net) := by
  induction places generalizing x net with
  | nil => exact h
  | cons place places ih => exact ih (h.addPlace _)

/-- Copying transitions stops at the first one without a name. -/
theorem copyTransitions_of_unnamed {naming : Naming} {original : IndexedNet}
    {ts : List (Transition × Nat)} {t : Transition} {i : Nat}
    (hfind : ts.find? (fun (_, i) => naming.name? (.transition i) = none) = some (t, i)) :
    ts.foldlM (fun copy (t, i) => copyTransition naming original copy t i) x =
      .error (.unnamedTransition original.label (.transition i)) := by
  induction ts generalizing x with
  | nil => cases hfind
  | cons first ts ih =>
    obtain ⟨u, j⟩ := first
    rw [List.foldlM_cons]
    dsimp only
    rw [copyTransition]
    cases hname : naming.name? (.transition j) with
    | none =>
      rw [List.find?_cons_of_pos (by simpa using hname)] at hfind
      cases hfind
      rfl
    | some label =>
      rw [List.find?_cons_of_neg (by simp [hname])] at hfind
      exact ih hfind

theorem Indexes.copyTransitions (h : x.Indexes net) {naming : Naming} (original : IndexedNet)
    {ts : List (Transition × Nat)}
    (hnamed : ∀ t ∈ ts, naming.name? (.transition t.2) ≠ none) :
    ∃ copy, ts.foldlM (fun copy (t, i) => copyTransition naming original copy t i) x = .ok copy ∧
      copy.Indexes ((ts.map fun (t, i) => named naming t i).foldl Net.addTransition net) := by
  induction ts generalizing x net with
  | nil => exact ⟨x, rfl, h⟩
  | cons first ts ih =>
    obtain ⟨t, i⟩ := first
    obtain ⟨hfirst, hrest⟩ := List.forall_mem_cons.mp hnamed
    obtain ⟨label, hlabel⟩ := Option.ne_none_iff_exists'.mp hfirst
    have hcopied : named naming t i = { t with label } := by
      rw [named, hlabel]
      rfl
    obtain ⟨copy, hcopy, hindexes⟩ := ih (h.addTransition (named naming t i)) hrest
    refine ⟨copy, ?_, hindexes⟩
    rw [List.foldlM_cons]
    dsimp only
    rw [copyTransition, hlabel]
    rw [hcopied] at hcopy
    exact hcopy

/-- Arcs that are joinable and lead between different ends are all copied. -/
theorem Indexes.copyArcs (h : x.Indexes net) {arcs : List Arc}
    (hjoinable : ∀ a ∈ arcs, Joinable net.places.length net.transitions.length a.source a.target)
    (hdistinct : (net.arcs ++ arcs).Pairwise fun a b => ¬ b.Leads a.source a.target) :
    ∃ copy net', arcs.foldlM copyArc x = .ok copy ∧ copy.Indexes net' ∧ net'.label = net.label ∧
      net'.places = net.places ∧ net'.transitions = net.transitions ∧
      net'.arcs = net.arcs ++ arcs := by
  induction arcs generalizing x net with
  | nil => exact ⟨x, net, rfl, h, rfl, rfl, rfl, (List.append_nil _).symm⟩
  | cons a arcs ih =>
    obtain ⟨hends, hrest⟩ := List.forall_mem_cons.mp hjoinable
    have hnew : ∀ b ∈ net.arcs, ¬ b.Leads a.source a.target := by
      intro b hb hl
      refine (List.pairwise_append.mp hdistinct).2.2 b hb a List.mem_cons_self ?_
      exact ⟨hl.1.symm, hl.2.symm⟩
    obtain ⟨net₁, hrun, hlabel, hplaces, htransitions, harcs⟩ :=
      newArc_of_admits ⟨hends, hnew⟩ a.weight
    have hpush : x.Follows (x.pushArc a.source a.target a.weight) _ :=
      h.pushArc (Net.findArc?_eq_none_iff.mpr hnew)
    rw [hrun] at hpush
    obtain ⟨hok, hindexes⟩ := hpush
    rw [← hplaces, ← htransitions] at hrest
    have happend : net.arcs ++ a :: arcs = net₁.arcs ++ arcs := by
      rw [harcs, List.append_assoc, List.singleton_append]
    rw [happend] at hdistinct ⊢
    obtain ⟨copy, net', hcopy, hindexes', hlabel', hplaces', htransitions', harcs'⟩ :=
      ih hindexes hrest hdistinct
    refine ⟨copy, net', ?_, hindexes', hlabel'.trans hlabel, hplaces'.trans hplaces,
      htransitions'.trans htransitions, harcs'⟩
    rw [List.foldlM_cons, copyArc]
    dsimp only
    rw [hok]
    exact hcopy

theorem unnamedTransition?_eq (h : x.Indexes net) (naming : Naming) :
    net.unnamedTransition? naming = (x.transitions.zipIdx.find?
      fun (_, i) => naming.name? (.transition i) = none).map Prod.snd := by
  have hnumbers : List.range net.transitions.length = x.transitions.zipIdx.map Prod.snd := by
    rw [List.zipIdx_map_snd, List.range_eq_range', h.transitions]
  rw [Net.unnamedTransition?, hnumbers, List.find?_map]
  rfl

theorem Indexes.copyNodes (h : x.Indexes net) {naming : Naming}
    (hnamed : ∀ t ∈ x.transitions.zipIdx, naming.name? (.transition t.2) ≠ none) :
    ∃ copy nodes, x.transitions.zipIdx.foldlM (fun copy (t, i) => copyTransition naming x copy t i)
        (x.places.zipIdx.foldl (fun copy (label, i) =>
          copy.addPlace ((naming.name? (.place i)).getD label)) (empty x.label)) = .ok copy ∧
      copy.Indexes nodes ∧ nodes.label = net.label ∧
      nodes.places = net.places.mapIdx (fun i label => placeName naming label i) ∧
      nodes.transitions = net.transitions.mapIdx (fun i t => named naming t i) ∧
      nodes.arcs = [] := by
  have hplaces := (indexes_empty x.label).copyPlaces naming x.places.zipIdx
  obtain ⟨copy, hrun, hcopy⟩ := hplaces.copyTransitions x hnamed
  obtain ⟨hlabel, hplaces, htransitions, harcs⟩ := (Net.empty x.label).foldl_addPlace
    (x.places.zipIdx.map fun (label, i) => placeName naming label i)
  obtain ⟨hlabel', hplaces', htransitions', harcs'⟩ := Net.foldl_addTransition
    ((x.places.zipIdx.map fun (label, i) => placeName naming label i).foldl Net.addPlace
      (.empty x.label))
    (x.transitions.zipIdx.map fun (t, i) => named naming t i)
  refine ⟨copy, _, hrun, hcopy, ?_, ?_, ?_, harcs'.trans harcs⟩
  · rw [hlabel', hlabel, ← h.label]
    rfl
  · rw [hplaces', hplaces, List.mapIdx_eq_zipIdx_map, ← h.places]
    rfl
  · rw [htransitions', htransitions, List.mapIdx_eq_zipIdx_map, ← h.transitions]
    rfl

theorem Indexes.relabel (h : x.Indexes net) (naming : Naming) :
    (∀ failure, net.relabel naming = .error failure → x.relabel naming = .error failure) ∧
    ∀ net', net.relabel naming = .ok net' → ∃ x', x.relabel naming = .ok x' ∧ x'.Indexes net' := by
  rw [Net.relabel, unnamedTransition?_eq h naming]
  cases hfind : x.transitions.zipIdx.find? fun (_, i) => naming.name? (.transition i) = none with
  | some t =>
    refine ⟨?_, nofun⟩
    rintro failure ⟨⟩
    rw [IndexedNet.relabel, copyTransitions_of_unnamed hfind, h.label]
    rfl
  | none =>
    refine ⟨nofun, ?_⟩
    rintro relabelled ⟨⟩
    have hnamed : ∀ t ∈ x.transitions.zipIdx, naming.name? (.transition t.2) ≠ none := by
      intro t ht
      simpa using List.find?_eq_none.mp hfind t ht
    obtain ⟨nodes, plain, hnodes, hplain, hlabel, hplaces, htransitions, harcs⟩ :=
      h.copyNodes hnamed
    have hjoinable : ∀ a ∈ net.arcs,
        Joinable plain.places.length plain.transitions.length a.source a.target := by
      rw [hplaces, htransitions, List.length_mapIdx, List.length_mapIdx]
      exact net.joinable
    have hdistinct : (plain.arcs ++ net.arcs).Pairwise fun a b => ¬ b.Leads a.source a.target := by
      rw [harcs]
      exact net.distinct
    obtain ⟨x', net', hrun, hindexes, hlabel', hplaces', htransitions', harcs'⟩ :=
      hplain.copyArcs hjoinable hdistinct
    refine ⟨x', ?_, ?_⟩
    · rw [IndexedNet.relabel, hnodes, h.arcs]
      exact hrun
    · convert hindexes using 1
      refine Net.ext (hlabel'.trans hlabel).symm (hplaces'.trans hplaces).symm
        (htransitions'.trans htransitions).symm ?_
      rw [harcs', harcs, List.nil_append]

end IndexedNet

inductive Change where
  | addPlace (label : String)
  | addTransition (t : Transition)
  | addArc (source target : Node)
  | addArcWeight (source target : Node) (weight : Nat)
  /-- Goes on with the relabelled net, if every transition has a name. -/
  | relabel (naming : Naming)

/-- The net after a change; one that fails leaves it as it is. -/
def Net.change (net : Net) : Change → Net
  | .addPlace label => net.addPlace label
  | .addTransition t => net.addTransition t
  | .addArc source target => ((net.addArc source target).map (·.2)).toOption.getD net
  | .addArcWeight source target w =>
    ((net.addArcWeight source target w).map (·.2)).toOption.getD net
  | .relabel naming => (net.relabel naming).toOption.getD net

namespace IndexedNet

def change (x : IndexedNet) : Change → IndexedNet
  | .addPlace label => x.addPlace label
  | .addTransition t => x.addTransition t
  | .addArc source target => (x.addArc source target).2
  | .addArcWeight source target w => (x.addArcWeight source target w).2
  | .relabel naming => (x.relabel naming).toOption.getD x

variable {x : IndexedNet} {net : Net}

theorem Indexes.of_follows (h : x.Indexes net) {o : Except Failure Nat × IndexedNet}
    {r : Except Failure (Nat × Net)} (hfollows : x.Follows o r) :
    o.2.Indexes ((r.map (·.2)).toOption.getD net) := by
  cases r with
  | ok r => exact hfollows.2
  | error failure =>
    rw [show o = (.error failure, x) from hfollows]
    exact h

theorem Indexes.change (h : x.Indexes net) (c : Change) : (x.change c).Indexes (net.change c) := by
  cases c with
  | addPlace label => exact h.addPlace label
  | addTransition t => exact h.addTransition t
  | addArc source target => exact h.of_follows (h.addArc source target)
  | addArcWeight source target w => exact h.of_follows (h.addArcWeight source target w)
  | relabel naming =>
    obtain ⟨herror, hok⟩ := h.relabel naming
    rw [IndexedNet.change, Net.change]
    cases hrun : net.relabel naming with
    | error failure =>
      rw [herror failure hrun]
      exact h
    | ok net' =>
      obtain ⟨x', hx', hindexes⟩ := hok net' hrun
      rw [hx']
      exact hindexes

/-- Whatever is done, the tables of the one net fit the other one. -/
theorem Indexes.foldl_change (h : x.Indexes net) (changes : List Change) :
    (changes.foldl IndexedNet.change x).Indexes (changes.foldl Net.change net) := by
  induction changes generalizing x net with
  | nil => exact h
  | cons c changes ih => exact ih (h.change c)

/-- The tables and the lists of a net say the same. -/
structure Consistent (x : IndexedNet) : Prop where
  joinable : ∀ a ∈ x.arcs,
    a.source.kind ≠ a.target.kind ∧ x.Contains a.source ∧ x.Contains a.target
  distinct : (x.arcs.map Arc.ends).Nodup
  found : ∀ source target i, x.findArc? source target = some i ↔
    ∃ a, x.arcs[i]? = some a ∧ a.Leads source target
  numbers : ∀ n direction, x.arcNumbers n direction =
    (List.range x.arcs.length).filter fun i => x.arcs[i]?.any fun a => a.nearEnd direction = n
  seen : ∀ n direction, x.arcsAt? n direction =
    some (x.arcs.filter fun a => a.nearEnd direction = n)
  placesLabelled : ∀ label, x.placesLabelled label =
    (List.range x.places.length).filter fun i => x.places[i]? = some label
  transitionsLabelled : ∀ label, x.transitionsLabelled label =
    (List.range x.transitions.length).filter fun i =>
      x.transitions[i]?.map (·.label) = some label

theorem Indexes.consistent (h : x.Indexes net) : x.Consistent := by
  have hnumbers : ∀ n direction, x.arcNumbers n direction = (List.range x.arcs.length).filter
      fun i => x.arcs[i]?.any fun a => a.nearEnd direction = n := by
    intro n direction
    rw [h.arcs]
    exact h.seen n direction
  refine ⟨fun a ha => ?_, ?_, fun source target i => ?_, hnumbers, fun n direction => ?_,
    fun label => ?_, fun label => ?_⟩
  · rw [h.contains_iff, h.contains_iff]
    rw [h.arcs] at ha
    exact net.joinable a ha
  · rw [h.arcs, List.Nodup, List.pairwise_map]
    refine net.distinct.imp fun hne hends => hne ?_
    obtain ⟨hsource, htarget⟩ := Prod.mk.inj hends
    exact ⟨hsource.symm, htarget.symm⟩
  · rw [h.found, h.arcs, Net.findArc?_eq_some_iff]
  · rw [arcsAt?, hnumbers]
    exact mapM_filter_range (fun a => a.nearEnd direction = n) x.arcs
  · rw [h.placesLabelled, Net.placesLabelled, h.places]
  · rw [h.transitionsLabelled, Net.transitionsLabelled, h.transitions]

/-- Inserting an arc fails exactly if its ends are of one kind or not both there; the failure names
the ends, and nothing is changed then. -/
def Inserts (x : IndexedNet) (source target : Node) (o : Except Failure Nat × IndexedNet) : Prop :=
  ((∃ failure, o.1 = .error failure) ↔
    source.kind = target.kind ∨ ¬x.Contains source ∨ ¬x.Contains target) ∧
  ∀ failure, o.1 = .error failure → failure = .invalidArc source target ∧ o.2 = x

theorem inserts_pushArc (source target : Node) (weight : Nat) :
    x.Inserts source target (x.pushArc source target weight) := by
  rw [pushArc]
  split
  next hends =>
    refine ⟨⟨fun _ => hends, fun _ => ⟨_, rfl⟩⟩, ?_⟩
    rintro failure ⟨⟩
    exact ⟨rfl, rfl⟩
  next hends =>
    refine ⟨⟨?_, fun h => absurd h hends⟩, nofun⟩
    rintro ⟨failure, ⟨⟩⟩

/-- Ends that an arc joins are not checked again, which is no loss. -/
theorem Consistent.inserts_of_found (h : x.Consistent) {source target : Node} {i : Nat}
    (hfound : x.findArc? source target = some i) (x' : IndexedNet) :
    x.Inserts source target (.ok i, x') := by
  obtain ⟨a, ha, rfl, rfl⟩ := (h.found source target i).mp hfound
  obtain ⟨hkind, hsource, htarget⟩ := h.joinable a (List.mem_of_getElem? ha)
  refine ⟨⟨nofun, ?_⟩, nofun⟩
  rintro (hsame | habsent | habsent)
  · exact absurd hsame hkind
  · exact absurd hsource habsent
  · exact absurd htarget habsent

theorem Consistent.inserts_addArc (h : x.Consistent) (source target : Node) :
    x.Inserts source target (x.addArc source target) := by
  rw [IndexedNet.addArc]
  cases hfound : x.findArc? source target with
  | some i => exact h.inserts_of_found hfound x
  | none => exact inserts_pushArc source target 1

theorem Consistent.inserts_addArcWeight (h : x.Consistent) (source target : Node) (w : Nat) :
    x.Inserts source target (x.addArcWeight source target w) := by
  rw [IndexedNet.addArcWeight]
  cases hfound : x.findArc? source target with
  | some i => exact h.inserts_of_found hfound _
  | none => exact inserts_pushArc source target _

/-- Whatever is done to a new net, its tables and its lists say the same, arcs are inserted exactly
where their ends allow it, and a net without tables on which the same is done has the same contents
and gives the same answers. -/
theorem tables_fit (label : String) (changes : List Change) :
    let x := changes.foldl IndexedNet.change (.empty label)
    let net := changes.foldl Net.change (.empty label)
    x.Consistent ∧
    (∀ source target w, x.Inserts source target (x.addArc source target) ∧
      x.Inserts source target (x.addArcWeight source target w)) ∧
    x.Indexes net ∧
    ∀ source target w, x.Follows (x.addArc source target) (net.addArc source target) ∧
      x.Follows (x.addArcWeight source target w) (net.addArcWeight source target w) := by
  intro x net
  have h : x.Indexes net := (indexes_empty label).foldl_change changes
  have hconsistent := h.consistent
  exact ⟨hconsistent, fun source target w => ⟨hconsistent.inserts_addArc source target,
    hconsistent.inserts_addArcWeight source target w⟩, h,
    fun source target w => ⟨h.addArc source target, h.addArcWeight source target w⟩⟩

end IndexedNet

end PetriShorthand
