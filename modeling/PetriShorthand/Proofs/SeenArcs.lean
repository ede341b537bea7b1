import Mathlib.Algebra.BigOperators.Group.List.Lemmas
import PetriShorthand.Proofs.ArcOrder
import PetriShorthand.Proofs.Correspondence
import PetriShorthand.Proofs.Neighbourhoods

namespace PetriShorthand

namespace Net

variable {net net' : Net} {m n : Node} {direction : Direction}

section Contents

/-- What is seen of the arcs of a node: for each the label at its other end, and its weight. -/
def seenArcs (net : Net) (n : Node) (direction : Direction) : List (Option String × Nat) :=
  (net.arcsAt n direction).map fun a => (net.labelOf? (a.farEnd direction), a.weight)

theorem exists_label_farEnd {a : Arc} (ha : a ∈ net.arcs) (direction : Direction) :
    ∃ label, net.labelOf? (a.farEnd direction) = some label := by
  obtain ⟨-, hsource, htarget⟩ := net.joinable a ha
  cases direction with
  | incoming => exact exists_labelOf? hsource
  | outgoing => exact exists_labelOf? htarget

theorem map_labelledArcs (net : Net) (n : Node) (direction : Direction) :
    (net.labelledArcs n direction).map (fun p => (some p.1, p.2)) = net.seenArcs n direction := by
  rw [labelledArcs, seenArcs, List.map_filterMap, ← List.filterMap_eq_map]
  refine List.filterMap_congr fun a ha => ?_
  obtain ⟨label, hlabel⟩ := exists_label_farEnd (mem_arcsAt.mp ha).1 direction
  simp only [Function.comp_apply, hlabel, Option.map_some]

theorem length_labelledArcs (net : Net) (n : Node) (direction : Direction) :
    (net.labelledArcs n direction).length = (net.arcsAt n direction).length := by
  have hlength := congrArg List.length (net.map_labelledArcs n direction)
  rwa [List.length_map, seenArcs, List.length_map] at hlength

theorem signature_eq_iff : net.signature m direction = net'.signature n direction ↔
    (net.seenArcs m direction).Perm (net'.seenArcs n direction) := by
  have hinj : Function.Injective fun p : String × Nat => (some p.1, p.2) := by
    rintro ⟨l, v⟩ ⟨l', v'⟩ h
    cases h
    rfl
  rw [signature, signature, groupByLabel_eq_iff, ← map_labelledArcs, ← map_labelledArcs,
    List.map_perm_map_iff hinj]

theorem signature_eq_of_perm (hlabel : ∀ n, net.labelOf? n = net'.labelOf? n)
    (harcs : net.arcs.Perm net'.arcs) (n : Node) (direction : Direction) :
    net.signature n direction = net'.signature n direction := by
  rw [signature_eq_iff, seenArcs, seenArcs]
  simp only [hlabel]
  exact (harcs.filter _).map _

end Contents

section Length

theorem length_weightsAt (label : String) (arcs : List (String × Nat)) :
    (weightsAt label arcs).length = (arcs.map (·.1)).count label := by
  rw [weightsAt, List.length_mergeSort, List.length_map, List.count, List.countP_map,
    List.countP_eq_length_filter]
  rfl

theorem sum_length_groupByLabel (arcs : List (String × Nat)) :
    ((groupByLabel arcs).map (·.2.length)).sum = arcs.length := by
  let labels := arcs.map (·.1)
  have hperm : (labels.eraseDups.mergeSort fun a b => a ≤ b).Perm labels.dedup := by
    refine (List.mergeSort_perm _ _).trans ?_
    refine (List.perm_ext_iff_of_nodup (nodup_eraseDups _) (List.nodup_dedup _)).mpr fun l => ?_
    rw [List.mem_eraseDups, List.mem_dedup]
  calc ((groupByLabel arcs).map (·.2.length)).sum
      = ((labels.eraseDups.mergeSort fun a b => a ≤ b).map (labels.count ·)).sum := by
        rw [groupByLabel, List.map_map]
        exact congrArg List.sum (List.map_congr_left fun l _ => length_weightsAt l arcs)
    _ = (labels.dedup.map (labels.count ·)).sum := (hperm.map _).sum_eq
    _ = labels.length := List.sum_map_count_dedup_eq_length labels
    _ = arcs.length := List.length_map _

theorem sum_length_signature (net : Net) (n : Node) (direction : Direction) :
    ((net.signature n direction).map (·.2.length)).sum = (net.arcsAt n direction).length := by
  rw [signature, sum_length_groupByLabel, length_labelledArcs]

end Length

end Net

/-- Nodes with different numbers of incoming arcs differ in their signatures as well. -/
theorem Comparison.nodeDifference?_eq (tolerance : Binary64) (left right : Net) (m n : Node) :
    nodeDifference? tolerance left right m n =
      if ¬attributesAgree tolerance left right m n then some (.attributes m n)
      else if left.signature m .incoming ≠ right.signature n .incoming then
        some (.incomingArcs m n)
      else none := by
  have hlength : (left.arcsAt m .incoming).length ≠ (right.arcsAt n .incoming).length →
      left.signature m .incoming ≠ right.signature n .incoming := by
    intro hne hsame
    rw [← Net.sum_length_signature, ← Net.sum_length_signature, hsame] at hne
    exact hne rfl
  rw [nodeDifference?]
  simp only [or_iff_right_of_imp hlength]

namespace IndexedNet

variable {x : IndexedNet} {net : Net} {direction : Direction}

section Tallies

theorem ascending_mergeSort {labels : List String} (h : labels.Nodup) :
    (labels.mergeSort fun a b => a ≤ b).Pairwise (· < ·) := by
  have hle : (labels.mergeSort fun a b => a ≤ b).Pairwise (· ≤ ·) :=
    (List.pairwise_mergeSort (by simpa using fun _ _ _ => String.le_trans)
      (by simpa using String.le_total) labels).imp (by simp)
  have hne : (labels.mergeSort fun a b => a ≤ b).Nodup := (List.mergeSort_perm _ _).nodup_iff.mpr h
  refine (hle.and hne).imp fun {a b} ⟨hab, hne⟩ => ?_
  exact Decidable.byContradiction fun hlt => hne (String.le_antisymm hab (String.not_lt.mp hlt))

def enter (weights : Std.TreeMap String (List Nat)) (p : String × Nat) :
    Std.TreeMap String (List Nat) :=
  weights.alter p.1 fun ws => some (ws.getD [] ++ [p.2])

theorem getD_foldl_enter (arcs : List (String × Nat)) (weights : Std.TreeMap String (List Nat))
    (label : String) : (arcs.foldl enter weights).getD label [] =
      weights.getD label [] ++ (arcs.filter fun p => p.1 = label).map (·.2) := by
  induction arcs generalizing weights with
  | nil => exact (List.append_nil _).symm
  | cons p arcs ih =>
    rw [List.foldl_cons, ih, enter, Std.TreeMap.getD_alter]
    by_cases hp : p.1 = label
    · rw [List.filter_cons_of_pos (by simpa using hp)]
      simp [hp, Std.TreeMap.getD_eq_getD_getElem?]
    · rw [List.filter_cons_of_neg (by simpa using hp)]
      simp [hp]

theorem mem_foldl_enter (arcs : List (String × Nat)) (weights : Std.TreeMap String (List Nat))
    (label : String) : label ∈ arcs.foldl enter weights ↔
      label ∈ weights ∨ label ∈ arcs.map (·.1) := by
  induction arcs generalizing weights with
  | nil => simp
  | cons p arcs ih =>
    rw [List.foldl_cons, ih, enter, Std.TreeMap.mem_alter]
    by_cases hp : p.1 = label
    · simp [hp]
    · simp [hp, Ne.symm hp]

theorem keys_foldl_enter (arcs : List (String × Nat)) :
    (arcs.foldl enter ∅).keys = (arcs.map (·.1)).eraseDups.mergeSort fun a b => a ≤ b := by
  have hkeys : (arcs.foldl enter ∅).keys.Pairwise (· < ·) :=
    Std.TreeMap.ordered_keys.imp fun (h : compare _ _ = .lt) => compareOfLessAndEq_eq_lt.mp h
  have hsorted := ascending_mergeSort (nodup_eraseDups (arcs.map (·.1)))
  refine hkeys.eq_of_mem_iff hsorted fun label => ?_
  rw [Std.TreeMap.mem_keys, mem_foldl_enter, (List.mergeSort_perm _ _).mem_iff, List.mem_eraseDups]
  simp

theorem toList_foldl_enter (arcs : List (String × Nat)) :
    ((arcs.foldl enter ∅).toList.map fun (label, ws) => (label, ws.mergeSort fun v w => v ≤ w)) =
      Net.groupByLabel arcs := by
  have hweights : ∀ label, ((arcs.foldl enter ∅).getD label []).mergeSort (fun v w => v ≤ w) =
      Net.weightsAt label arcs := by
    intro label
    rw [getD_foldl_enter, Std.TreeMap.getD_emptyc, List.nil_append]
    rfl
  rw [Net.groupByLabel, ← keys_foldl_enter, ← Std.TreeMap.map_fst_toList_eq_keys, List.map_map]
  refine List.map_congr_left fun p hp => ?_
  have hp' := Std.TreeMap.mem_toList_iff_getElem?_eq_some.mp hp
  simp only [Function.comp_apply, ← hweights]
  rw [Std.TreeMap.getD_eq_getD_getElem?, hp', Option.getD_some]

end Tallies

theorem Indexes.labelOf? (h : x.Indexes net) (n : Node) : x.labelOf? n = net.labelOf? n := by
  cases n with
  | place i => rw [IndexedNet.labelOf?, Net.labelOf?, h.places]
  | transition i => rw [IndexedNet.labelOf?, Net.labelOf?, h.transitions]

theorem Indexes.foldl_enterWeight (h : x.Indexes net) (direction : Direction) (arcs : List Arc)
    (weights : Std.TreeMap String (List Nat)) :
    arcs.foldl (x.enterWeight direction) weights = (arcs.filterMap fun a =>
      (net.labelOf? (a.farEnd direction)).map fun label => (label, a.weight)).foldl enter
        weights := by
  rw [List.foldl_filterMap]
  refine congrArg (fun f => arcs.foldl f weights) (funext fun weights => funext fun a => ?_)
  rw [enterWeight, h.labelOf?]
  cases net.labelOf? (a.farEnd direction) with
  | none => rfl
  | some label => rfl

theorem Indexes.signature? (h : x.Indexes net) (n : Node) (direction : Direction) :
    x.signature? n direction = some (net.signature n direction) := by
  rw [IndexedNet.signature?, h.arcsAt?, Option.map_some, h.foldl_enterWeight]
  exact congrArg some (toList_foldl_enter _)

theorem signature?_of_perm {x' : IndexedNet} {net' : Net} (h : x.Indexes net)
    (h' : x'.Indexes net') (hlabel : ∀ n, x.labelOf? n = x'.labelOf? n)
    (harcs : x.arcs.Perm x'.arcs) (n : Node) (direction : Direction) :
    x.signature? n direction = x'.signature? n direction := by
  have hlabel' : ∀ n, net.labelOf? n = net'.labelOf? n := fun n => by
    rw [← h.labelOf?, ← h'.labelOf?, hlabel]
  rw [h.arcs, h'.arcs] at harcs
  rw [h.signature?, h'.signature?, Net.signature_eq_of_perm hlabel' harcs]

/-- Two nodes have the same signature exactly if the same is seen of their arcs, up to order. Every
arc has a place in it, so that to compare the numbers of arcs as well changes no comparison; and
neither the order of the arcs nor the order in which they were asked for changes a signature. -/
theorem signatures_tell_arcs (label label' : String) (changes changes' : List Change) :
    let x := changes.foldl IndexedNet.change (.empty label)
    let x' := changes'.foldl IndexedNet.change (.empty label')
    let net := changes.foldl Net.change (.empty label)
    let net' := changes'.foldl Net.change (.empty label')
    x.Indexes net ∧ x'.Indexes net' ∧
    (∀ n direction, x.signature? n direction = some (net.signature n direction)) ∧
    (∀ m n direction, x.signature? m direction = x'.signature? n direction ↔
      (net.seenArcs m direction).Perm (net'.seenArcs n direction)) ∧
    (∀ n direction, ((net.signature n direction).map (·.2.length)).sum =
      (net.arcsAt n direction).length) ∧
    (∀ tolerance m n, Comparison.nodeDifference? tolerance net net' m n =
      if ¬Comparison.attributesAgree tolerance net net' m n then some (.attributes m n)
      else if net.signature m .incoming ≠ net'.signature n .incoming then some (.incomingArcs m n)
      else none) ∧
    ((∀ n, x.labelOf? n = x'.labelOf? n) → x.arcs.Perm x'.arcs →
      ∀ n direction, x.signature? n direction = x'.signature? n direction) ∧
    ∀ requests requests', ArcRequest.Reorders requests requests' →
      ∀ n direction, (x.request requests).signature? n direction =
        (x.request requests').signature? n direction := by
  intro x x' net net'
  have h : x.Indexes net := (indexes_empty label).foldl_change changes
  have h' : x'.Indexes net' := (indexes_empty label').foldl_change changes'
  refine ⟨h, h', h.signature?, fun m n direction => ?_, net.sum_length_signature,
    fun tolerance m n => Comparison.nodeDifference?_eq tolerance net net' m n,
    signature?_of_perm h h', fun requests requests' hreorders => ?_⟩
  · rw [h.signature?, h'.signature?, Option.some.injEq, Net.signature_eq_iff]
  · obtain ⟨hplaces, htransitions, harcs⟩ := request_of_reorders label changes hreorders
    refine signature?_of_perm (h.foldl_change _) (h.foldl_change _) (fun n => ?_) harcs
    cases n with
    | place i => exact congrArg (·[i]?) hplaces
    | transition i => exact congrArg (fun ts => ts[i]?.map (·.label)) htransitions

/-- Two places with one label, and arcs from them to a transition in either order. -/
theorem signatures_tell_arcs_same_label :
    let t : Node := .transition 0
    let changes : List Change := [.addPlace "p", .addPlace "p", .addTransition ⟨"t", false, none⟩,
      .addArcWeight (.place 0) t 1, .addArcWeight (.place 1) t 2]
    let changes' : List Change := [.addPlace "p", .addPlace "p", .addTransition ⟨"t", false, none⟩,
      .addArcWeight (.place 1) t 1, .addArcWeight (.place 0) t 2]
    let requests : List ArcRequest := [⟨.place 0, t, some 3⟩, ⟨.place 1, t, some 4⟩]
    let x := changes.foldl IndexedNet.change (.empty "net")
    let x' := changes'.foldl IndexedNet.change (.empty "net")
    (changes.foldl Net.change (.empty "net")).seenArcs t .incoming =
        [(some "p", 1), (some "p", 2)] ∧
      x.signature? t .incoming = x'.signature? t .incoming ∧
      x.signature? (.place 0) .outgoing = x'.signature? (.place 1) .outgoing ∧
      x.signature? (.place 0) .outgoing ≠ x'.signature? (.place 0) .outgoing ∧
      (x.request requests).signature? t .incoming =
        (x.request requests.reverse).signature? t .incoming := by
  intro t changes changes' requests x x'
  obtain ⟨-, -, -, htell, -, -, -, horder⟩ := signatures_tell_arcs "net" "net" changes changes'
  have hreorders : ArcRequest.Reorders requests requests.reverse :=
    .of_alike requests.reverse_perm.symm (by decide : ∀ r ∈ requests, r.weight.isSome = true)
  refine ⟨rfl, (htell _ _ _).mpr (.refl _), (htell _ _ _).mpr (.refl _), fun h => ?_,
    horder _ _ hreorders t .incoming⟩
  exact absurd ((htell _ _ _).mp h) (by decide)

end IndexedNet

end PetriShorthand
