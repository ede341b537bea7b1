import PetriShorthand.Proofs.ArcWeights

namespace PetriShorthand

/-- An arc that is asked for; without a weight it is enough that there is one. -/
structure ArcRequest where
  source : Node
  target : Node
  weight : Option Nat

namespace ArcRequest

def change (r : ArcRequest) : Change :=
  match r.weight with
  | none => .addArc r.source r.target
  | some w => .addArcWeight r.source r.target w

def between (source target : Node) (requests : List ArcRequest) : List (Option Nat) :=
  (requests.filter fun r => r.source = source ∧ r.target = target).map (·.weight)

theorem between_cons (source target : Node) (r : ArcRequest) (requests : List ArcRequest) :
    between source target (r :: requests) = if r.source = source ∧ r.target = target then
      r.weight :: between source target requests else between source target requests := by
  rw [between, List.filter_cons]
  simp only [decide_eq_true_eq]
  split
  · rfl
  · rfl

/-- The requests are the same up to their order. Since a request without a weight counts only where
it comes first, the ones that come first between two ends are both with a weight or both without. -/
structure Reorders (requests requests' : List ArcRequest) : Prop where
  perm : requests.Perm requests'
  first : ∀ source target, (between source target requests).head?.map Option.isSome =
    (between source target requests').head?.map Option.isSome

theorem Reorders.of_alike {requests requests' : List ArcRequest} {given : Bool}
    (hperm : requests.Perm requests') (h : ∀ r ∈ requests, r.weight.isSome = given) :
    Reorders requests requests' := by
  refine ⟨hperm, fun source target => ?_⟩
  have hbetween : (between source target requests).Perm (between source target requests') :=
    (hperm.filter _).map _
  have hgiven : ∀ w ∈ between source target requests, w.isSome = given := by
    intro w hw
    obtain ⟨r, hr, rfl⟩ := List.mem_map.mp hw
    exact h r (List.mem_of_mem_filter hr)
  have hgiven' : ∀ w ∈ between source target requests', w.isSome = given :=
    fun w hw => hgiven w (hbetween.mem_iff.mpr hw)
  rw [← List.head?_map, ← List.head?_map, List.map_eq_replicate_iff.mpr hgiven,
    List.map_eq_replicate_iff.mpr hgiven', hbetween.length_eq]

end ArcRequest

open ArcRequest

namespace IndexedNet

/-- What an arc weighs that was asked for with these weights; `none` where it was not. -/
def borne : List (Option Nat) → Option Nat
  | [] => none
  | first :: later => some (min (first.getD 1 + (later.map (·.getD 0)).sum) Arc.maxWeight)

variable {x : IndexedNet} {net : Net} {source target : Node} {weights weights' : List (Option Nat)}

section Weights

theorem borne_eq (weights : List (Option Nat)) :
    borne weights = (weights.head?.map Option.isSome).map fun given =>
      min ((if given then 0 else 1) + (weights.map (·.getD 0)).sum) Arc.maxWeight := by
  cases weights with
  | nil => rfl
  | cons first later =>
    refine congrArg (fun w => some (min w Arc.maxWeight)) ?_
    rw [List.map_cons, List.sum_cons, ← Nat.add_assoc]
    cases first with
    | none => rfl
    | some w => exact congrArg (· + _) (Nat.zero_add w).symm

theorem borne_congr (hperm : weights.Perm weights')
    (hfirst : weights.head?.map Option.isSome = weights'.head?.map Option.isSome) :
    borne weights = borne weights' := by
  have hsum : (weights.map (·.getD 0)).sum = (weights'.map (·.getD 0)).sum :=
    (hperm.map _).sum_nat
  rw [borne_eq, borne_eq, hfirst, hsum]

example : borne [none, some 2] = some 3 ∧ borne [some 2, none] = some 2 := by decide

theorem borne_append_congr (before : List (Option Nat)) (hperm : weights.Perm weights')
    (hfirst : weights.head?.map Option.isSome = weights'.head?.map Option.isSome) :
    borne (before ++ weights) = borne (before ++ weights') := by
  refine borne_congr (hperm.append_left before) ?_
  cases before with
  | nil => exact hfirst
  | cons first before => rfl

theorem Bears.mem_arcs_iff {a : Arc} {ks : List Insertion} (h : x.Consistent)
    (hb : x.Bears a.source a.target ks) :
    a ∈ x.arcs ↔ borne (ks.map (·.weight)) = some a.weight := by
  cases ks with
  | nil =>
    refine ⟨fun ha => ?_, nofun⟩
    obtain ⟨i, hi⟩ := List.mem_iff_getElem?.mp ha
    have hfound := (h.found a.source a.target i).mpr ⟨a, hi, rfl, rfl⟩
    rw [show x.findArc? a.source a.target = none from hb] at hfound
    cases hfound
  | cons first later =>
    obtain ⟨-, hfirst⟩ := hb
    have honly := h.filter_leads hfirst ⟨rfl, rfl⟩
    have hborne : borne ((first :: later).map (·.weight)) =
        some (min (first.total later) Arc.maxWeight) := by
      rw [List.map_cons, borne, List.map_map]
      rfl
    rw [hborne, Option.some.injEq]
    constructor
    · intro ha
      have hmem : a ∈ x.arcs.filter fun b => b.Leads a.source a.target :=
        List.mem_filter.mpr ⟨ha, decide_eq_true ⟨rfl, rfl⟩⟩
      rw [honly] at hmem
      exact (congrArg Arc.weight (List.mem_singleton.mp hmem)).symm
    · intro hweight
      rw [hweight] at hfirst
      exact List.mem_of_getElem? hfirst

end Weights

section Requests

theorem change_request (x : IndexedNet) (r : ArcRequest) :
    x.change r.change = (x.insert r.source r.target r.weight).2 := by
  rw [ArcRequest.change]
  cases r.weight with
  | none => rfl
  | some w => rfl

theorem insertion?_request (x : IndexedNet) (source target : Node) (r : ArcRequest) :
    x.insertion? source target r.change =
      if r.source = source ∧ r.target = target then
        (x.insert r.source r.target r.weight).1.toOption.map (⟨r.weight, ·⟩)
      else none := by
  rw [ArcRequest.change]
  cases r.weight with
  | none => rfl
  | some w => rfl

theorem Consistent.toOption_insert (h : x.Consistent) (weight : Option Nat) :
    (∃ i, (x.insert source target weight).1.toOption = some i) ∧
        Joinable x.places.length x.transitions.length source target ∨
      (x.insert source target weight).1.toOption = none ∧
        ¬Joinable x.places.length x.transitions.length source target := by
  have hinserts : x.Inserts source target (x.insert source target weight) := by
    cases weight with
    | none => exact h.inserts_addArc source target
    | some w => exact h.inserts_addArcWeight source target w
  have hjoinable : ¬(source.kind = target.kind ∨ ¬x.Contains source ∨ ¬x.Contains target) ↔
      Joinable x.places.length x.transitions.length source target := by
    rw [not_or, not_or, not_not, not_not]
    exact Iff.rfl
  cases hrun : (x.insert source target weight).1 with
  | ok i =>
    refine .inl ⟨⟨i, rfl⟩, hjoinable.mp fun hends => ?_⟩
    obtain ⟨failure, hfailure⟩ := hinserts.1.mpr hends
    rw [hrun] at hfailure
    cases hfailure
  | error failure =>
    exact .inr ⟨rfl, fun hends => hjoinable.mpr hends (hinserts.1.mp ⟨failure, hrun⟩)⟩

theorem nodes_pushArc (x : IndexedNet) (source target : Node) (weight : Nat) :
    (x.pushArc source target weight).2.places = x.places ∧
      (x.pushArc source target weight).2.transitions = x.transitions := by
  rw [pushArc]
  split
  · exact ⟨rfl, rfl⟩
  · exact ⟨rfl, rfl⟩

theorem nodes_insert (x : IndexedNet) (source target : Node) (weight : Option Nat) :
    (x.insert source target weight).2.places = x.places ∧
      (x.insert source target weight).2.transitions = x.transitions := by
  cases weight with
  | none =>
    rw [insert, addArc]
    split
    · exact ⟨rfl, rfl⟩
    · exact x.nodes_pushArc source target _
  | some w =>
    rw [insert, addArcWeight]
    split
    · exact ⟨rfl, rfl⟩
    · exact x.nodes_pushArc source target _

def request (x : IndexedNet) (requests : List ArcRequest) : IndexedNet :=
  (requests.map ArcRequest.change).foldl IndexedNet.change x

theorem nodes_request (x : IndexedNet) (requests : List ArcRequest) :
    (x.request requests).places = x.places ∧
      (x.request requests).transitions = x.transitions := by
  induction requests generalizing x with
  | nil => exact ⟨rfl, rfl⟩
  | cons r requests ih =>
    obtain ⟨hplaces, htransitions⟩ := x.nodes_insert r.source r.target r.weight
    rw [← change_request] at hplaces htransitions
    obtain ⟨hplaces', htransitions'⟩ := ih (x.change r.change)
    exact ⟨hplaces'.trans hplaces, htransitions'.trans htransitions⟩

/-- All requests between two ends succeed, or none does. -/
theorem Indexes.weights_request (h : x.Indexes net) (source target : Node)
    (requests : List ArcRequest) :
    (x.insertions source target (requests.map ArcRequest.change)).map (·.weight) =
      if Joinable x.places.length x.transitions.length source target then
        between source target requests else [] := by
  induction requests generalizing x net with
  | nil => simp [insertions, between]
  | cons r requests ih =>
    obtain ⟨hplaces, htransitions⟩ := x.nodes_insert r.source r.target r.weight
    rw [List.map_cons, insertions, List.map_append, ih (h.change r.change), insertion?_request,
      change_request, hplaces, htransitions, between_cons]
    by_cases hends : r.source = source ∧ r.target = target
    · rw [if_pos hends, if_pos hends]
      obtain ⟨rfl, rfl⟩ := hends
      rcases h.consistent.toOption_insert r.weight with ⟨⟨i, hi⟩, hyes⟩ | ⟨hnone, hno⟩
      · rw [hi, if_pos hyes, if_pos hyes]
        rfl
      · rw [hnone, if_neg hno, if_neg hno]
        rfl
    · rw [if_neg hends, if_neg hends]
      rfl

end Requests

/-- The same requests in another order give the same nodes and, up to their numbers, the same arcs
with the same weights. -/
theorem request_of_reorders (label : String) (changes : List Change)
    {requests requests' : List ArcRequest} (h : Reorders requests requests') :
    let x := changes.foldl IndexedNet.change (.empty label)
    (x.request requests).places = (x.request requests').places ∧
      (x.request requests).transitions = (x.request requests').transitions ∧
      (x.request requests).arcs.Perm (x.request requests').arcs := by
  intro x
  have hempty := indexes_empty label
  have hx : x.Indexes _ := hempty.foldl_change changes
  obtain ⟨hplaces, htransitions⟩ := x.nodes_request requests
  obtain ⟨hplaces', htransitions'⟩ := x.nodes_request requests'
  refine ⟨hplaces.trans hplaces'.symm, htransitions.trans htransitions'.symm, ?_⟩
  have hmem : ∀ (rs : List ArcRequest) (a : Arc), a ∈ (x.request rs).arcs ↔
      borne (((empty label).insertions a.source a.target changes).map (·.weight) ++
        if Joinable x.places.length x.transitions.length a.source a.target then
          between a.source a.target rs else []) = some a.weight := by
    intro rs a
    have hstart : (empty label).Bears a.source a.target [] := hempty.found a.source a.target
    have hbears := (hstart.foldl_change hempty changes).foldl_change hx (rs.map ArcRequest.change)
    rw [List.nil_append] at hbears
    have hconsistent : (x.request rs).Consistent := (hx.foldl_change _).consistent
    rw [Bears.mem_arcs_iff hconsistent hbears, List.map_append, hx.weights_request]
  have hnodup : ∀ rs, (x.request rs).arcs.Nodup := fun rs =>
    (hx.foldl_change (rs.map ArcRequest.change)).consistent.distinct.of_map Arc.ends
  refine (List.perm_ext_iff_of_nodup (hnodup _) (hnodup _)).mpr fun a => ?_
  rw [hmem requests a, hmem requests' a]
  by_cases hends : Joinable x.places.length x.transitions.length a.source a.target
  · have hperm : (between a.source a.target requests).Perm
        (between a.source a.target requests') := (h.perm.filter _).map _
    rw [if_pos hends, if_pos hends, borne_append_congr _ hperm (h.first a.source a.target)]
  · rw [if_neg hends, if_neg hends]

end IndexedNet

end PetriShorthand
