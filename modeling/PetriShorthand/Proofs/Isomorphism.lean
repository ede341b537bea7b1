import Mathlib.Data.Fintype.EquivFin
import PetriShorthand.Proofs.Correspondence

namespace PetriShorthand

namespace Comparison

/-- A renumbering of places and transitions that keeps labels and visibility, keeps weights within
the tolerance, and carries the arcs of the one net over to those of the other. Arcs between nodes of
one kind are in neither. -/
structure Isomorphism (tolerance : Binary64) (left right : Net) where
  places : Fin left.places.length ≃ Fin right.places.length
  transitions : Fin left.transitions.length ≃ Fin right.transitions.length
  placeLabel : ∀ i, right.places.get (places i) = left.places.get i
  transitionLabel : ∀ i, (right.transitions.get (transitions i)).label =
    (left.transitions.get i).label
  silent : ∀ i, (right.transitions.get (transitions i)).silent = (left.transitions.get i).silent
  weight : ∀ i, weightsAgree tolerance (left.transitions.get i).weight
    (right.transitions.get (transitions i)).weight
  arcToTransition : ∀ (i : Fin left.places.length) (j : Fin left.transitions.length) (w : Nat),
    ⟨.place i, .transition j, w⟩ ∈ left.arcs ↔
      ⟨.place (places i), .transition (transitions j), w⟩ ∈ right.arcs
  arcToPlace : ∀ (i : Fin left.places.length) (j : Fin left.transitions.length) (w : Nat),
    ⟨.transition j, .place i, w⟩ ∈ left.arcs ↔
      ⟨.transition (transitions j), .place (places i), w⟩ ∈ right.arcs

variable {tolerance : Binary64} {left right : Net}

theorem distance_comm (x y : Binary64) : x.distance y = y.distance x := by
  cases x with
  | nan => cases y <;> rfl
  | infinity s =>
    cases y with
    | nan => rfl
    | infinity t =>
      simp only [Binary64.distance]
      by_cases h : s = t
      · rw [if_pos h, if_pos h.symm]
      · rw [if_neg h, if_neg (Ne.symm h)]
    | finite t b => rfl
  | finite s a =>
    cases y with
    | nan => rfl
    | infinity t => rfl
    | finite t b =>
      have hsub : (Binary64.signedUnits s a - Binary64.signedUnits t b).natAbs =
          (Binary64.signedUnits t b - Binary64.signedUnits s a).natAbs := by omega
      simp only [Binary64.distance]
      rw [hsub]

theorem weightsAgree_comm (v w : Option Binary64) :
    weightsAgree tolerance v w = weightsAgree tolerance w v := by
  cases v with
  | none => cases w <;> rfl
  | some v =>
    cases w with
    | none => rfl
    | some w =>
      simp only [weightsAgree]
      rw [distance_comm]

namespace Isomorphism

def symm (e : Isomorphism tolerance left right) : Isomorphism tolerance right left where
  places := e.places.symm
  transitions := e.transitions.symm
  placeLabel i := by
    have h := e.placeLabel (e.places.symm i)
    rw [Equiv.apply_symm_apply] at h
    exact h.symm
  transitionLabel i := by
    have h := e.transitionLabel (e.transitions.symm i)
    rw [Equiv.apply_symm_apply] at h
    exact h.symm
  silent i := by
    have h := e.silent (e.transitions.symm i)
    rw [Equiv.apply_symm_apply] at h
    exact h.symm
  weight i := by
    have h := e.weight (e.transitions.symm i)
    rw [Equiv.apply_symm_apply] at h
    rw [weightsAgree_comm]
    exact h
  arcToTransition i j w := by
    have h := e.arcToTransition (e.places.symm i) (e.transitions.symm j) w
    rw [Equiv.apply_symm_apply, Equiv.apply_symm_apply] at h
    exact h.symm
  arcToPlace i j w := by
    have h := e.arcToPlace (e.places.symm i) (e.transitions.symm j) w
    rw [Equiv.apply_symm_apply, Equiv.apply_symm_apply] at h
    exact h.symm

/-- Where a node goes; nodes that are not in the net stay. -/
def image (e : Isomorphism tolerance left right) : Node → Node
  | .place i => if h : i < left.places.length then .place (e.places ⟨i, h⟩) else .place i
  | .transition i =>
    if h : i < left.transitions.length then .transition (e.transitions ⟨i, h⟩) else .transition i

variable (e : Isomorphism tolerance left right)

theorem image_place (i : Fin left.places.length) : e.image (.place i) = .place (e.places i) :=
  dif_pos i.isLt

theorem image_transition (i : Fin left.transitions.length) :
    e.image (.transition i) = .transition (e.transitions i) :=
  dif_pos i.isLt

theorem kind_image (n : Node) : (e.image n).kind = n.kind := by
  cases n with
  | place i =>
    rw [image]
    split <;> rfl
  | transition i =>
    rw [image]
    split <;> rfl

theorem exists_image {n : Node} (h : right.Contains n) : ∃ m, left.Contains m ∧ e.image m = n := by
  cases n with
  | place i =>
    refine ⟨.place (e.places.symm ⟨i, h⟩), (e.places.symm ⟨i, h⟩).isLt, ?_⟩
    rw [image_place, Equiv.apply_symm_apply]
  | transition i =>
    refine ⟨.transition (e.transitions.symm ⟨i, h⟩), (e.transitions.symm ⟨i, h⟩).isLt, ?_⟩
    rw [image_transition, Equiv.apply_symm_apply]

theorem image_inj {m n : Node} (hm : left.Contains m) (hn : left.Contains n)
    (h : e.image m = e.image n) : m = n := by
  cases m with
  | place i =>
    cases n with
    | transition j =>
      have hkind := congrArg Node.kind h
      rw [kind_image, kind_image] at hkind
      cases hkind
    | place j =>
      rw [e.image_place ⟨i, hm⟩, e.image_place ⟨j, hn⟩] at h
      have heq := e.places.injective (Fin.ext (Node.place.inj h))
      exact congrArg Node.place (Fin.mk.inj heq)
  | transition i =>
    cases n with
    | place j =>
      have hkind := congrArg Node.kind h
      rw [kind_image, kind_image] at hkind
      cases hkind
    | transition j =>
      rw [e.image_transition ⟨i, hm⟩, e.image_transition ⟨j, hn⟩] at h
      have heq := e.transitions.injective (Fin.ext (Node.transition.inj h))
      exact congrArg Node.transition (Fin.mk.inj heq)

theorem labelOf?_image {n : Node} (h : left.Contains n) :
    right.labelOf? (e.image n) = left.labelOf? n := by
  cases n with
  | place i =>
    have hlabel := e.placeLabel ⟨i, h⟩
    rw [e.image_place ⟨i, h⟩]
    show right.places[(e.places ⟨i, h⟩).1]? = left.places[i]?
    rw [List.getElem?_eq_getElem (e.places ⟨i, h⟩).isLt, List.getElem?_eq_getElem h]
    exact congrArg some hlabel
  | transition i =>
    have hlabel := e.transitionLabel ⟨i, h⟩
    rw [e.image_transition ⟨i, h⟩]
    show right.transitions[(e.transitions ⟨i, h⟩).1]?.map _ = left.transitions[i]?.map _
    rw [List.getElem?_eq_getElem (e.transitions ⟨i, h⟩).isLt, List.getElem?_eq_getElem h]
    exact congrArg some hlabel

def arc (a : Arc) : Arc := ⟨e.image a.source, e.image a.target, a.weight⟩

theorem mem_arcs_iff {a : Arc} (hsource : left.Contains a.source) (htarget : left.Contains a.target)
    (hkind : a.source.kind ≠ a.target.kind) : a ∈ left.arcs ↔ e.arc a ∈ right.arcs := by
  obtain ⟨source, target, w⟩ := a
  cases source with
  | place i =>
    cases target with
    | place j => exact absurd rfl hkind
    | transition j =>
      rw [arc, e.image_place ⟨i, hsource⟩, e.image_transition ⟨j, htarget⟩]
      exact e.arcToTransition ⟨i, hsource⟩ ⟨j, htarget⟩ w
  | transition i =>
    cases target with
    | transition j => exact absurd rfl hkind
    | place j =>
      rw [arc, e.image_transition ⟨i, hsource⟩, e.image_place ⟨j, htarget⟩]
      exact e.arcToPlace ⟨j, htarget⟩ ⟨i, hsource⟩ w

theorem arcs_perm : (left.arcs.map e.arc).Perm right.arcs := by
  have hinj : ∀ a ∈ left.arcs, ∀ b ∈ left.arcs, e.arc a = e.arc b → a = b := by
    intro a ha b hb h
    obtain ⟨-, hsource, htarget⟩ := left.joinable a ha
    obtain ⟨-, hsource', htarget'⟩ := left.joinable b hb
    obtain ⟨source, target, w⟩ := a
    obtain ⟨source', target', w'⟩ := b
    obtain ⟨hs, ht, rfl⟩ := Arc.mk.inj h
    cases e.image_inj hsource hsource' hs
    cases e.image_inj htarget htarget' ht
    rfl
  have hnodup : (left.arcs.map e.arc).Nodup := left.arcs_nodup.map_on hinj
  refine (List.perm_ext_iff_of_nodup hnodup right.arcs_nodup).mpr fun b => ?_
  rw [List.mem_map]
  constructor
  · rintro ⟨a, ha, rfl⟩
    obtain ⟨hkind, hsource, htarget⟩ := left.joinable a ha
    exact (e.mem_arcs_iff hsource htarget hkind).mp ha
  · intro hb
    obtain ⟨hkind, hsource, htarget⟩ := right.joinable b hb
    obtain ⟨source, hs, hsource⟩ := e.exists_image hsource
    obtain ⟨target, ht, htarget⟩ := e.exists_image htarget
    have hb' : e.arc ⟨source, target, b.weight⟩ = b := by
      rw [arc, hsource, htarget]
    have hkind' : source.kind ≠ target.kind := by
      rw [← e.kind_image source, ← e.kind_image target, hsource, htarget]
      exact hkind
    refine ⟨_, (e.mem_arcs_iff hs ht hkind').mpr ?_, hb'⟩
    rw [hb']
    exact hb

theorem nearEnd_arc (a : Arc) (direction : Direction) :
    (e.arc a).nearEnd direction = e.image (a.nearEnd direction) := by
  cases direction <;> rfl

theorem farEnd_arc (a : Arc) (direction : Direction) :
    (e.arc a).farEnd direction = e.image (a.farEnd direction) := by
  cases direction <;> rfl

theorem contains_ends {a : Arc} (h : a ∈ left.arcs) (direction : Direction) :
    left.Contains (a.nearEnd direction) ∧ left.Contains (a.farEnd direction) := by
  obtain ⟨-, hsource, htarget⟩ := left.joinable a h
  cases direction with
  | incoming => exact ⟨htarget, hsource⟩
  | outgoing => exact ⟨hsource, htarget⟩

theorem arcsAt_perm {n : Node} (h : left.Contains n) (direction : Direction) :
    ((left.arcsAt n direction).map e.arc).Perm (right.arcsAt (e.image n) direction) := by
  have hsame : (left.arcsAt n direction).map e.arc =
      (left.arcs.map e.arc).filter fun a => a.nearEnd direction = e.image n := by
    rw [List.filter_map, Net.arcsAt]
    congr 1
    refine List.filter_congr fun a ha => ?_
    have hiff : a.nearEnd direction = n ↔ e.image (a.nearEnd direction) = e.image n :=
      ⟨congrArg e.image, e.image_inj (contains_ends ha direction).1 h⟩
    simp only [Function.comp_apply, nearEnd_arc, decide_eq_decide]
    exact hiff
  rw [hsame]
  exact e.arcs_perm.filter _

theorem labelledArcs_perm {n : Node} (h : left.Contains n) (direction : Direction) :
    (left.labelledArcs n direction).Perm (right.labelledArcs (e.image n) direction) := by
  have hsame : left.labelledArcs n direction = ((left.arcsAt n direction).map e.arc).filterMap
      fun a => (right.labelOf? (a.farEnd direction)).map fun label => (label, a.weight) := by
    rw [List.filterMap_map]
    refine List.filterMap_congr fun a ha => ?_
    have hfar := (contains_ends (Net.mem_arcsAt.mp ha).1 direction).2
    rw [Function.comp_apply, farEnd_arc, e.labelOf?_image hfar]
    rfl
  rw [hsame]
  exact (e.arcsAt_perm h direction).filterMap _

end Isomorphism

end Comparison

end PetriShorthand
