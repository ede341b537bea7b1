import PetriShorthand.Proofs.Isomorphism

namespace PetriShorthand

namespace Comparison

variable {tolerance : Binary64} {left right : Net}

/-- Arcs between nodes that correspond are the same, if the arcs into the target are. -/
theorem mem_arcs_iff_of_corresponds {source target source' target' : Node} {w : Nat}
    (hleft : left.LabelsDistinct) (hright : right.LabelsDistinct)
    (hsource : left.counterpart? right source = some source')
    (htarget : left.counterpart? right target = some target')
    (hkind : source.kind ≠ target.kind) (h : Corresponds tolerance left right target target') :
    ⟨source, target, w⟩ ∈ left.arcs ↔ ⟨source', target', w⟩ ∈ right.arcs := by
  obtain ⟨hkind₁, label, hlabel, hlabel'⟩ := Net.labelOf?_of_counterpart? hsource
  obtain ⟨hkind₂, -⟩ := Net.labelOf?_of_counterpart? htarget
  have hkind' : source'.kind ≠ target'.kind := by
    rw [hkind₁, hkind₂]
    exact hkind
  rw [← hleft.mem_labelledArcs_iff hlabel hkind, ← hright.mem_labelledArcs_iff hlabel' hkind']
  exact h.arcs.mem_iff

theorem exists_equiv_of_injective {m n : Nat} (h : m = n) {f : Fin m → Fin n}
    (hf : Function.Injective f) : ∃ e : Fin m ≃ Fin n, ⇑e = f := by
  have hbijective : Function.Bijective f := by
    refine (Fintype.bijective_iff_injective_and_card f).mpr ⟨hf, ?_⟩
    rw [Fintype.card_fin, Fintype.card_fin, h]
  exact ⟨Equiv.ofBijective f hbijective, rfl⟩

theorem exists_isomorphism (hleft : left.LabelsDistinct) (hright : right.LabelsDistinct)
    (hplaces : left.places.length = right.places.length)
    (htransitions : left.transitions.length = right.transitions.length)
    (h : ∀ m, left.Contains m → ∃ n, left.counterpart? right m = some n ∧
      Corresponds tolerance left right m n) : Nonempty (Isomorphism tolerance left right) := by
  have hplace : ∀ i : Fin left.places.length, ∃ j : Fin right.places.length,
      left.counterpart? right (.place i) = some (.place j) ∧
        Corresponds tolerance left right (.place i) (.place j) := by
    intro i
    obtain ⟨n, hn, hc⟩ := h (.place i) i.isLt
    obtain ⟨hkind, label, -, hl⟩ := Net.labelOf?_of_counterpart? hn
    cases n with
    | transition j => cases hkind
    | place j => exact ⟨⟨j, Net.contains_of_labelOf? hl⟩, hn, hc⟩
  have htransition : ∀ i : Fin left.transitions.length, ∃ j : Fin right.transitions.length,
      left.counterpart? right (.transition i) = some (.transition j) ∧
        Corresponds tolerance left right (.transition i) (.transition j) := by
    intro i
    obtain ⟨n, hn, hc⟩ := h (.transition i) i.isLt
    obtain ⟨hkind, label, -, hl⟩ := Net.labelOf?_of_counterpart? hn
    cases n with
    | place j => cases hkind
    | transition j => exact ⟨⟨j, Net.contains_of_labelOf? hl⟩, hn, hc⟩
  choose f hf hfc using hplace
  choose g hg hgc using htransition
  have hfinj : Function.Injective f := by
    intro i i' he
    have hi := hf i
    rw [he] at hi
    exact Fin.ext (Node.place.inj (hleft.eq_of_counterpart? hi (hf i')))
  have hginj : Function.Injective g := by
    intro i i' he
    have hi := hg i
    rw [he] at hi
    exact Fin.ext (Node.transition.inj (hleft.eq_of_counterpart? hi (hg i')))
  obtain ⟨e, rfl⟩ := exists_equiv_of_injective hplaces hfinj
  obtain ⟨d, rfl⟩ := exists_equiv_of_injective htransitions hginj
  have hagree : ∀ i, transitionsAgree tolerance (left.transitions.get i)
      (right.transitions.get (d i)) := by
    intro i
    rw [← attributesAgree_transition]
    exact (hgc i).attributes
  refine ⟨⟨e, d, ?_, ?_, ?_, ?_, ?_, ?_⟩⟩
  · exact fun i => ((attributesAgree_place i (e i)).mp (hfc i).attributes).symm
  · exact fun i => (transitionsAgree_iff.mp (hagree i)).1.symm
  · exact fun i => (transitionsAgree_iff.mp (hagree i)).2.1.symm
  · exact fun i => (transitionsAgree_iff.mp (hagree i)).2.2
  -- only incoming arcs are compared: an arc is found at the node in which it ends
  · intro i j w
    exact mem_arcs_iff_of_corresponds hleft hright (hf i) (hg j) nofun (hgc j)
  · intro i j w
    exact mem_arcs_iff_of_corresponds hleft hright (hg j) (hf i) nofun (hfc i)

namespace Isomorphism

variable (e : Isomorphism tolerance left right)

theorem corresponds {n : Node} (h : left.Contains n) :
    Corresponds tolerance left right n (e.image n) := by
  refine ⟨?_, ?_, e.labelledArcs_perm h .incoming⟩
  · cases n with
    | place i =>
      rw [e.image_place ⟨i, h⟩]
      exact (attributesAgree_place ⟨i, h⟩ _).mpr (e.placeLabel ⟨i, h⟩).symm
    | transition i =>
      rw [e.image_transition ⟨i, h⟩, attributesAgree_transition ⟨i, h⟩, transitionsAgree_iff]
      exact ⟨(e.transitionLabel ⟨i, h⟩).symm, (e.silent ⟨i, h⟩).symm, e.weight ⟨i, h⟩⟩
  · have hlength := (e.arcsAt_perm h .incoming).length_eq
    rwa [List.length_map] at hlength

theorem counterpart?_eq {n : Node} (hright : right.LabelsDistinct) (h : left.Contains n) :
    left.counterpart? right n = some (e.image n) := by
  obtain ⟨label, hlabel⟩ := Net.exists_labelOf? h
  exact hright.counterpart?_eq hlabel ((e.labelOf?_image h).trans hlabel) (e.kind_image n)

end Isomorphism

theorem difference?_eq_none_of_isomorphism (hleft : left.LabelsDistinct)
    (hright : right.LabelsDistinct) (e : Isomorphism tolerance left right) :
    difference? tolerance left right = none := by
  refine differenceAlong?_eq_none_iff.mpr ⟨⟨?_, ?_, ?_⟩, ⟨hleft, hright⟩, fun m hm => ?_⟩
  · exact Fin.equiv_iff_eq.mp ⟨e.places⟩
  · exact Fin.equiv_iff_eq.mp ⟨e.transitions⟩
  · have hlength := e.arcs_perm.length_eq
    rwa [List.length_map] at hlength
  · have hcontains := Net.mem_nodes.mp hm
    exact ⟨e.image m, e.counterpart?_eq hright hcontains, e.corresponds hcontains⟩

theorem difference?_eq_none_iff : difference? tolerance left right = none ↔
    left.LabelsDistinct ∧ right.LabelsDistinct ∧ Nonempty (Isomorphism tolerance left right) := by
  constructor
  · intro h
    obtain ⟨⟨hplaces, htransitions, -⟩, ⟨hleft, hright⟩, hnodes⟩ :=
      differenceAlong?_eq_none_iff.mp h
    exact ⟨hleft, hright, exists_isomorphism hleft hright hplaces htransitions fun m hm =>
      hnodes m (Net.mem_nodes.mpr hm)⟩
  · rintro ⟨hleft, hright, ⟨e⟩⟩
    exact difference?_eq_none_of_isomorphism hleft hright e

/-- The comparison decides whether the nets are the same up to the numbers of their nodes. So it
makes no difference which net is the first, and in which order its nodes are visited. -/
theorem decides_isomorphism (tolerance : Binary64) (left right : Net) :
    (difference? tolerance left right = none ↔ left.LabelsDistinct ∧ right.LabelsDistinct ∧
      Nonempty (Isomorphism tolerance left right)) ∧
    (difference? tolerance left right = none ↔ difference? tolerance right left = none) ∧
    ∀ order : List Node, order.Perm left.nodes →
      (differenceAlong? order tolerance left right = none ↔
        difference? tolerance left right = none) := by
  refine ⟨difference?_eq_none_iff, ?_, fun order horder => ?_⟩
  · rw [difference?_eq_none_iff, difference?_eq_none_iff]
    constructor
    · rintro ⟨hleft, hright, ⟨e⟩⟩
      exact ⟨hright, hleft, ⟨e.symm⟩⟩
    · rintro ⟨hright, hleft, ⟨e⟩⟩
      exact ⟨hleft, hright, ⟨e.symm⟩⟩
  · rw [difference?, differenceAlong?_eq_none_iff, differenceAlong?_eq_none_iff]
    refine and_congr_right fun _ => and_congr_right fun _ => ?_
    exact forall_congr' fun m => imp_congr_left horder.mem_iff

/-- One net with its places in either order, visited from the last node to the first. -/
theorem decides_isomorphism_renumbered :
    let left : Net := ⟨"net", ["a", "b"], [⟨"t", false, some .one⟩],
      [⟨.place 0, .transition 0, 1⟩, ⟨.transition 0, .place 1, 2⟩], by decide, by decide⟩
    let right : Net := ⟨"net", ["b", "a"], [⟨"t", false, some .one⟩],
      [⟨.transition 0, .place 0, 2⟩, ⟨.place 1, .transition 0, 1⟩], by decide, by decide⟩
    Nonempty (Isomorphism defaultTolerance left right) ∧
      difference? defaultTolerance right left = none ∧
      left.nodes.reverse.Perm left.nodes ∧
      differenceAlong? left.nodes.reverse defaultTolerance left right = none := by
  intro left right
  obtain ⟨hdecides, hsymm, horder⟩ := decides_isomorphism defaultTolerance left right
  have hnone : difference? defaultTolerance left right = none := by decide +kernel
  have hperm : left.nodes.reverse.Perm left.nodes := List.reverse_perm left.nodes
  exact ⟨(hdecides.mp hnone).2.2, hsymm.mp hnone, hperm, (horder _ hperm).mpr hnone⟩

end Comparison

end PetriShorthand
