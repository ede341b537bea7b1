import PetriShorthand.Comparison.Difference
import PetriShorthand.Proofs.Signature

namespace PetriShorthand

namespace Net

variable {net : Net}

theorem arcs_nodup (net : Net) : net.arcs.Nodup := by
  refine net.distinct.imp fun {a b} h he => h ?_
  rw [he]
  exact ⟨rfl, rfl⟩

theorem mem_labelledArcs {n : Node} {direction : Direction} {label : String} {w : Nat} :
    (label, w) ∈ net.labelledArcs n direction ↔ ∃ a ∈ net.arcs, a.nearEnd direction = n ∧
      net.labelOf? (a.farEnd direction) = some label ∧ a.weight = w := by
  rw [labelledArcs, List.mem_filterMap]
  constructor
  · rintro ⟨a, ha, he⟩
    obtain ⟨ha, hnear⟩ := mem_arcsAt.mp ha
    obtain ⟨l, hl, he⟩ := Option.map_eq_some_iff.mp he
    cases he
    exact ⟨a, ha, hnear, hl, rfl⟩
  · rintro ⟨a, ha, hnear, hl, rfl⟩
    exact ⟨a, mem_arcsAt.mpr ⟨ha, hnear⟩, by rw [hl, Option.map_some]⟩

theorem exists_labelOf? {n : Node} (h : net.Contains n) : ∃ label, net.labelOf? n = some label := by
  cases n with
  | place i => exact ⟨net.places[i], List.getElem?_eq_getElem h⟩
  | transition i =>
    refine ⟨net.transitions[i].label, ?_⟩
    show net.transitions[i]?.map _ = _
    rw [List.getElem?_eq_getElem h, Option.map_some]

theorem LabelsDistinct.eq_of_labelOf? {m n : Node} {label : String} (h : net.LabelsDistinct)
    (hm : net.labelOf? m = some label) (hn : net.labelOf? n = some label)
    (hkind : m.kind = n.kind) : m = n := by
  cases m with
  | place i =>
    cases n with
    | transition j => cases hkind
    | place j =>
      have hi := (List.getElem?_eq_some_iff.mp hm).1
      exact congrArg Node.place ((List.getElem?_inj hi h.1).mp (hm.trans hn.symm))
  | transition i =>
    cases n with
    | place j => cases hkind
    | transition j =>
      have hi : i < (net.transitions.map (·.label)).length := by
        rw [List.length_map]
        exact contains_of_labelOf? hm
      have hsame : (net.transitions.map (·.label))[i]? = (net.transitions.map (·.label))[j]? := by
        rw [List.getElem?_map, List.getElem?_map]
        exact hm.trans hn.symm
      exact congrArg Node.transition ((List.getElem?_inj hi h.2).mp hsame)

theorem LabelsDistinct.mem_labelledArcs_iff {source target : Node} {label : String} {w : Nat}
    (h : net.LabelsDistinct) (hlabel : net.labelOf? source = some label)
    (hkind : source.kind ≠ target.kind) :
    (label, w) ∈ net.labelledArcs target .incoming ↔ ⟨source, target, w⟩ ∈ net.arcs := by
  rw [mem_labelledArcs]
  constructor
  · rintro ⟨a, ha, hnear, hl, hw⟩
    have htarget : a.target = target := hnear
    have hjoin := (net.joinable a ha).1
    rw [htarget] at hjoin
    have heq : a.source = source := h.eq_of_labelOf? hl hlabel (NodeKind.eq_of_ne hjoin hkind)
    obtain ⟨s, t, v⟩ := a
    cases heq
    cases hnear
    cases hw
    exact ha
  · intro ha
    exact ⟨_, ha, rfl, hlabel, rfl⟩

theorem mem_nodes {n : Node} : n ∈ net.nodes ↔ net.Contains n := by
  rw [nodes, List.mem_append, List.mem_map, List.mem_map]
  cases n with
  | place i =>
    refine ⟨?_, fun h => .inl ⟨i, List.mem_range.mpr h, rfl⟩⟩
    rintro (⟨j, hj, he⟩ | ⟨j, -, he⟩)
    · cases he
      exact List.mem_range.mp hj
    · cases he
  | transition i =>
    refine ⟨?_, fun h => .inr ⟨i, List.mem_range.mpr h, rfl⟩⟩
    rintro (⟨j, -, he⟩ | ⟨j, hj, he⟩)
    · cases he
    · cases he
      exact List.mem_range.mp hj

variable {left right : Net} {m n : Node}

theorem labelOf?_of_counterpart? (h : left.counterpart? right m = some n) :
    n.kind = m.kind ∧ ∃ label, left.labelOf? m = some label ∧ right.labelOf? n = some label := by
  cases m with
  | place i =>
    obtain ⟨label, hlabel, h⟩ := Option.bind_eq_some_iff.mp h
    obtain ⟨j, hj, rfl⟩ := Option.map_eq_some_iff.mp h
    obtain ⟨hlt, he, -⟩ := List.idxOf?_eq_some_iff.mp hj
    exact ⟨rfl, label, hlabel, List.getElem?_eq_some_iff.mpr ⟨hlt, he⟩⟩
  | transition i =>
    obtain ⟨t, ht, h⟩ := Option.bind_eq_some_iff.mp h
    obtain ⟨j, hj, rfl⟩ := Option.map_eq_some_iff.mp h
    obtain ⟨hlt, he, -⟩ := List.findIdx?_eq_some_iff_getElem.mp hj
    refine ⟨rfl, t.label, ?_, ?_⟩
    · show left.transitions[i]?.map _ = _
      rw [ht, Option.map_some]
    · show right.transitions[j]?.map _ = _
      rw [List.getElem?_eq_getElem hlt, Option.map_some, of_decide_eq_true he]

theorem counterpart?_isSome {label : String} (hm : left.labelOf? m = some label)
    (hn : right.labelOf? n = some label) (hkind : n.kind = m.kind) :
    left.counterpart? right m ≠ none := by
  intro hnone
  cases m with
  | place i =>
    cases n with
    | transition j => cases hkind
    | place j =>
      have hi : left.places[i]? = some label := hm
      rw [counterpart?, hi, Option.bind_some, Option.map_eq_none_iff,
        List.idxOf?_eq_none_iff] at hnone
      exact hnone (List.mem_of_getElem? hn)
  | transition i =>
    cases n with
    | place j => cases hkind
    | transition j =>
      obtain ⟨t, ht, rfl⟩ := Option.map_eq_some_iff.mp hm
      obtain ⟨u, hu, he⟩ := Option.map_eq_some_iff.mp hn
      rw [counterpart?, ht, Option.bind_some, Option.map_eq_none_iff,
        List.findIdx?_eq_none_iff] at hnone
      exact absurd (hnone u (List.mem_of_getElem? hu)) (by simp [he])

theorem LabelsDistinct.counterpart?_eq {label : String} (h : right.LabelsDistinct)
    (hm : left.labelOf? m = some label) (hn : right.labelOf? n = some label)
    (hkind : n.kind = m.kind) : left.counterpart? right m = some n := by
  cases hc : left.counterpart? right m with
  | none => exact absurd hc (counterpart?_isSome hm hn hkind)
  | some n' =>
    obtain ⟨hkind', l, hl, hl'⟩ := labelOf?_of_counterpart? hc
    rw [hm] at hl
    cases hl
    rw [h.eq_of_labelOf? hl' hn (hkind'.trans hkind.symm)]

theorem LabelsDistinct.eq_of_counterpart? {m' : Node} (h : left.LabelsDistinct)
    (hm : left.counterpart? right m = some n) (hm' : left.counterpart? right m' = some n) :
    m = m' := by
  obtain ⟨hkind, label, hl, hn⟩ := labelOf?_of_counterpart? hm
  obtain ⟨hkind', label', hl', hn'⟩ := labelOf?_of_counterpart? hm'
  rw [hn] at hn'
  cases hn'
  exact h.eq_of_labelOf? hl hl' (hkind.symm.trans hkind')

end Net

namespace Comparison

variable {tolerance : Binary64} {left right : Net} {m n : Node}

/-- The nodes agree in themselves, and their incoming arcs are the same up to order as seen from
outside. -/
structure Corresponds (tolerance : Binary64) (left right : Net) (m n : Node) : Prop where
  attributes : attributesAgree tolerance left right m n
  size : (left.arcsAt m .incoming).length = (right.arcsAt n .incoming).length
  arcs : (left.labelledArcs m .incoming).Perm (right.labelledArcs n .incoming)

theorem transitionsAgree_iff {t u : Transition} : transitionsAgree tolerance t u = true ↔
    t.label = u.label ∧ t.silent = u.silent ∧ weightsAgree tolerance t.weight u.weight := by
  simp only [transitionsAgree, Bool.and_eq_true, beq_iff_eq, and_assoc]

theorem attributesAgree_place (i : Fin left.places.length) (j : Fin right.places.length) :
    attributesAgree tolerance left right (.place i) (.place j) ↔
      left.places.get i = right.places.get j := by
  simp [attributesAgree]

theorem attributesAgree_transition (i : Fin left.transitions.length)
    (j : Fin right.transitions.length) :
    attributesAgree tolerance left right (.transition i) (.transition j) =
      transitionsAgree tolerance (left.transitions.get i) (right.transitions.get j) := by
  simp [attributesAgree]

theorem nodeDifference?_eq_none_iff :
    nodeDifference? tolerance left right m n = none ↔ Corresponds tolerance left right m n := by
  rw [nodeDifference?]
  by_cases hattributes : attributesAgree tolerance left right m n = true
  · rw [if_neg (not_not_intro hattributes)]
    by_cases hsize : (left.arcsAt m .incoming).length = (right.arcsAt n .incoming).length
    · by_cases harcs : left.signature m .incoming = right.signature n .incoming
      · rw [if_neg (by simp [hsize, harcs])]
        exact ⟨fun _ => ⟨hattributes, hsize, Net.groupByLabel_eq_iff.mp harcs⟩, fun _ => rfl⟩
      · rw [if_pos (.inr harcs)]
        exact ⟨nofun, fun h => absurd (Net.groupByLabel_eq_iff.mpr h.arcs) harcs⟩
    · rw [if_pos (.inl hsize)]
      exact ⟨nofun, fun h => absurd h.size hsize⟩
  · rw [if_pos hattributes]
    exact ⟨nofun, fun h => absurd h.attributes hattributes⟩

theorem visit?_eq_none_iff : visit? tolerance left right m = none ↔
    ∃ n, left.counterpart? right m = some n ∧ Corresponds tolerance left right m n := by
  rw [visit?]
  cases left.counterpart? right m with
  | none => simp
  | some n => simp [nodeDifference?_eq_none_iff]

/-- There is no difference where sizes are equal, labels are distinct and every node has one that
corresponds; the order of the visits does not matter. -/
theorem differenceAlong?_eq_none_iff {order : List Node} :
    differenceAlong? order tolerance left right = none ↔
      (left.places.length = right.places.length ∧
        left.transitions.length = right.transitions.length ∧
        left.arcs.length = right.arcs.length) ∧
      (left.LabelsDistinct ∧ right.LabelsDistinct) ∧
      ∀ m ∈ order, ∃ n, left.counterpart? right m = some n ∧
        Corresponds tolerance left right m n := by
  have hnodes : order.findSome? (visit? tolerance left right) = none ↔
      ∀ m ∈ order, ∃ n, left.counterpart? right m = some n ∧
        Corresponds tolerance left right m n := by
    simp only [List.findSome?_eq_none_iff, visit?_eq_none_iff]
  rw [differenceAlong?]
  split
  next h =>
    refine ⟨nofun, ?_⟩
    rintro ⟨⟨hplaces, htransitions, harcs⟩, -⟩
    simp [hplaces, htransitions, harcs] at h
  next h =>
    have hsize : left.places.length = right.places.length ∧
        left.transitions.length = right.transitions.length ∧
        left.arcs.length = right.arcs.length := by
      simpa only [ne_eq, not_or, not_not] using h
    split
    next hrepeated =>
      refine ⟨nofun, ?_⟩
      rintro ⟨-, ⟨hleft, hright⟩, -⟩
      exact hrepeated.elim (absurd hleft) (absurd hright)
    next hdistinct =>
      have hlabels : left.LabelsDistinct ∧ right.LabelsDistinct := by
        simpa only [not_or, not_not] using hdistinct
      exact hnodes.trans ⟨fun h => ⟨hsize, hlabels, h⟩, fun h => h.2.2⟩

end Comparison

end PetriShorthand
