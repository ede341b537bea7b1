import PetriShorthand.Proofs.Verdict
import PetriShorthand.Proofs.Written

namespace PetriShorthand

def TransitionRef.keyed (t : TransitionRef) : Transition := ⟨t.key, t.silent, t.weight⟩

namespace Assembly

variable {s : Assembly} {ts : List TransitionRef}

theorem Keyed.unnamedTransition?_eq_none (h : s.Keyed ts) :
    s.net.unnamedTransition? s.naming = none := by
  rw [Net.unnamedTransition?, List.find?_eq_none]
  intro i hi
  rw [List.mem_range, h.transitions, List.length_map] at hi
  rw [h.transitionName, List.getElem?_map, List.getElem?_eq_getElem hi]
  simp

/-- The net is that of the assembly, with keys for the labels of the transitions. -/
structure IsRelabelled (s : Assembly) (ts : List TransitionRef) (net : Net) : Prop where
  places : net.places = s.net.places
  transitions : net.transitions = ts.map TransitionRef.keyed
  arcs : net.arcs = s.net.arcs

/-- Relabelling never fails, and places keep their labels. -/
theorem Keyed.relabel (h : s.Keyed ts) :
    ∃ net, s.net.relabel s.naming = .ok net ∧ s.IsRelabelled ts net := by
  have hplaces : (s.net.places.mapIdx fun i label => (s.naming.name? (.place i)).getD label) =
      s.net.places := by
    refine List.ext_getElem? fun i => ?_
    rw [List.getElem?_mapIdx, h.placeName]
    cases s.net.places[i]? with
    | none => rfl
    | some label => rfl
  have htransitions : (s.net.transitions.mapIdx fun i t =>
      { t with label := (s.naming.name? (.transition i)).getD t.label }) =
      ts.map TransitionRef.keyed := by
    refine List.ext_getElem? fun i => ?_
    rw [List.getElem?_mapIdx, h.transitionName, h.transitions, List.getElem?_map,
      List.getElem?_map, List.getElem?_map]
    cases ts[i]? with
    | none => rfl
    | some t => rfl
  rw [Net.relabel, h.unnamedTransition?_eq_none]
  exact ⟨_, rfl, ⟨hplaces, htransitions, rfl⟩⟩

theorem IsRelabelled.places_length {net : Net} (hnet : s.IsRelabelled ts net) :
    net.places.length = s.net.places.length := by
  rw [hnet.places]

theorem IsRelabelled.transitions_length {net : Net} (hnet : s.IsRelabelled ts net)
    (h : s.Keyed ts) : net.transitions.length = s.net.transitions.length := by
  rw [h.transitions, hnet.transitions, List.length_map, List.length_map]

theorem Keyed.labelsDistinct (h : s.Keyed ts) {net : Net} (hnet : s.IsRelabelled ts net) :
    net.LabelsDistinct := by
  refine ⟨hnet.places ▸ h.places_nodup, ?_⟩
  rw [hnet.transitions, List.map_map]
  exact h.keys_nodup

end Assembly

namespace Comparison

variable {tolerance : Binary64} {left right left' right' : Net}

theorem visit?_ne_repeatedLabels (m : Node) :
    visit? tolerance left right m ≠ some .repeatedLabels := by
  rw [visit?]
  split
  · simp
  · rw [nodeDifference?]
    split
    · simp
    · split
      · simp
      · simp

theorem difference?_ne_repeatedLabels (hleft : left.LabelsDistinct)
    (hright : right.LabelsDistinct) : difference? tolerance left right ≠ some .repeatedLabels := by
  rw [difference?, differenceAlong?]
  split
  · simp
  · rw [if_neg (by simp [hleft, hright])]
    intro h
    obtain ⟨m, -, hm⟩ := List.exists_of_findSome?_eq_some h
    exact visit?_ne_repeatedLabels m hm

/-- An isomorphism goes over to nets with as many nodes and the same arcs, where nodes that it
takes to each other agree there too. -/
theorem Isomorphism.transfer (e : Isomorphism tolerance left right)
    (hp : left'.places.length = left.places.length)
    (hp' : right'.places.length = right.places.length)
    (ht : left'.transitions.length = left.transitions.length)
    (ht' : right'.transitions.length = right.transitions.length)
    (ha : left'.arcs = left.arcs) (ha' : right'.arcs = right.arcs)
    (hplace : ∀ i, right'.places[(e.places i).1]? = left'.places[i.1]?)
    (htransition : ∀ i, ∃ t u, left'.transitions[i.1]? = some t ∧
      right'.transitions[(e.transitions i).1]? = some u ∧ u.label = t.label ∧
      u.silent = t.silent ∧ weightsAgree tolerance t.weight u.weight) :
    ∃ e' : Isomorphism tolerance left' right',
      (∀ i, (e'.places i).1 = (e.places (i.cast hp)).1) ∧
      ∀ i, (e'.transitions i).1 = (e.transitions (i.cast ht)).1 := by
  let places := (finCongr hp).trans (e.places.trans (finCongr hp').symm)
  let transitions := (finCongr ht).trans (e.transitions.trans (finCongr ht').symm)
  have hagree : ∀ i, (right'.transitions.get (transitions i)).label =
      (left'.transitions.get i).label ∧ (right'.transitions.get (transitions i)).silent =
      (left'.transitions.get i).silent ∧ weightsAgree tolerance (left'.transitions.get i).weight
      (right'.transitions.get (transitions i)).weight := by
    intro i
    obtain ⟨t, u, hi, hu, hrest⟩ := htransition (i.cast ht)
    obtain ⟨_, rfl⟩ := List.getElem?_eq_some_iff.mp hi
    obtain ⟨_, rfl⟩ := List.getElem?_eq_some_iff.mp hu
    exact hrest
  refine ⟨⟨places, transitions, ?_, fun i => (hagree i).1, fun i => (hagree i).2.1,
    fun i => (hagree i).2.2, ?_, ?_⟩, fun i => rfl, fun i => rfl⟩
  · intro i
    have hi : right'.places[(places i).1]? = left'.places[i.1]? := hplace (i.cast hp)
    rw [List.getElem?_eq_getElem (places i).2, List.getElem?_eq_getElem i.2] at hi
    exact Option.some.inj hi
  · intro i j w
    rw [ha, ha']
    exact e.arcToTransition (i.cast hp) (j.cast ht) w
  · intro i j w
    rw [ha, ha']
    exact e.arcToPlace (i.cast hp) (j.cast ht) w

/-- An isomorphism that keeps the names of the nodes too. -/
structure NamedIsomorphism (tolerance : Binary64) (left right : Net) (leftNames rightNames : Naming)
    extends Isomorphism tolerance left right where
  placeName : ∀ i, rightNames.name? (.place (places i)) = leftNames.name? (.place i)
  transitionName : ∀ i,
    rightNames.name? (.transition (transitions i)) = leftNames.name? (.transition i)

variable {s s' : Assembly} {ts ts' : List TransitionRef}

theorem getElem?_eq_iff_get {α : Type} {xs ys : List α} (i : Fin xs.length) (j : Fin ys.length) :
    ys[j.1]? = xs[i.1]? ↔ ys.get j = xs.get i := by
  rw [List.getElem?_eq_getElem i.2, List.getElem?_eq_getElem j.2, Option.some.injEq]
  exact Iff.rfl

theorem exists_of_eq_map {α β : Type} {f : α → β} {xs : List α} {ys : List β} (h : ys = xs.map f)
    (i : Fin ys.length) : ∃ x ∈ xs, xs[i.1]? = some x ∧ ys.get i = f x := by
  subst h
  have hi : (xs.map f)[i.1]? = some ((xs.map f).get i) := List.getElem?_eq_getElem i.2
  rw [List.getElem?_map] at hi
  obtain ⟨x, hx, he⟩ := Option.map_eq_some_iff.mp hi
  exact ⟨x, List.mem_of_getElem? hx, hx, he.symm⟩

/-- What an isomorphism by keys keeps of transitions, it keeps of those that the keys stand for. -/
theorem exists_named_of_keyed (h : s.Keyed ts) (h' : s'.Keyed ts') {net net' : Net}
    (hnet : s.IsRelabelled ts net) (hnet' : s'.IsRelabelled ts' net')
    (e : Isomorphism tolerance net net') (i : Fin net.transitions.length) :
    ∃ t u, ts[i.1]? = some t ∧ ts'[(e.transitions i).1]? = some u ∧ u.key = t.key ∧
      u.label = t.label ∧ u.silent = t.silent ∧ weightsAgree tolerance t.weight u.weight := by
  obtain ⟨t, htmem, ht, hget⟩ := exists_of_eq_map hnet.transitions i
  obtain ⟨u, humem, hu, hget'⟩ := exists_of_eq_map hnet'.transitions (e.transitions i)
  have hkey := e.transitionLabel i
  have hsilent := e.silent i
  have hweight := e.weight i
  rw [hget, hget'] at hkey hsilent hweight
  have hsame := ((h'.plain u humem).key_eq_iff (h.plain t htmem)).mp hkey
  exact ⟨t, u, ht, hu, hkey, (Prod.mk.inj hsame).1, hsilent, hweight⟩

theorem exists_namedIsomorphism (h : s.Keyed ts) (h' : s'.Keyed ts') {net net' : Net}
    (hnet : s.IsRelabelled ts net) (hnet' : s'.IsRelabelled ts' net')
    (e : Isomorphism tolerance net net') :
    Nonempty (NamedIsomorphism tolerance s.net s'.net s.naming s'.naming) := by
  have hp := hnet.places_length.symm
  have hp' := hnet'.places_length.symm
  have ht := (hnet.transitions_length h).symm
  have ht' := (hnet'.transitions_length h').symm
  have hplace : ∀ i, s'.net.places[(e.places i).1]? = s.net.places[i.1]? := by
    intro i
    rw [← hnet.places, ← hnet'.places]
    exact (getElem?_eq_iff_get i (e.places i)).mpr (e.placeLabel i)
  have hrefs := exists_named_of_keyed h h' hnet hnet' e
  have htransition : ∀ i, ∃ t u, s.net.transitions[i.1]? = some t ∧
      s'.net.transitions[(e.transitions i).1]? = some u ∧ u.label = t.label ∧
      u.silent = t.silent ∧ weightsAgree tolerance t.weight u.weight := by
    intro i
    obtain ⟨t, u, hi, hu, -, hrest⟩ := hrefs i
    refine ⟨t.transition, u.transition, ?_, ?_, hrest⟩
    · rw [h.transitions, List.getElem?_map, hi]
      rfl
    · rw [h'.transitions, List.getElem?_map, hu]
      rfl
  obtain ⟨e', he, he'⟩ :=
    e.transfer hp hp' ht ht' hnet.arcs.symm hnet'.arcs.symm hplace htransition
  refine ⟨⟨e', fun i => ?_, fun i => ?_⟩⟩
  · rw [h.placeName, h'.placeName, he]
    exact hplace (i.cast hp)
  · obtain ⟨t, u, hi, hu, hkey, -⟩ := hrefs (i.cast ht)
    rw [h.transitionName, h'.transitionName, he', List.getElem?_map, List.getElem?_map, hu]
    have hi' : ts[i.1]? = some t := hi
    rw [hi', Option.map_some, Option.map_some, hkey]

theorem NamedIsomorphism.exists_isomorphism (h : s.Keyed ts) (h' : s'.Keyed ts') {net net' : Net}
    (hnet : s.IsRelabelled ts net) (hnet' : s'.IsRelabelled ts' net')
    (e : NamedIsomorphism tolerance s.net s'.net s.naming s'.naming) :
    Nonempty (Isomorphism tolerance net net') := by
  have hplace : ∀ i, net'.places[(e.places i).1]? = net.places[i.1]? := by
    intro i
    rw [hnet.places, hnet'.places]
    exact (getElem?_eq_iff_get i (e.places i)).mpr (e.placeLabel i)
  have htransition : ∀ i, ∃ t u, net.transitions[i.1]? = some t ∧
      net'.transitions[(e.transitions i).1]? = some u ∧ u.label = t.label ∧
      u.silent = t.silent ∧ weightsAgree tolerance t.weight u.weight := by
    intro i
    obtain ⟨t, -, hi, hget⟩ := exists_of_eq_map h.transitions i
    obtain ⟨u, -, hu, hget'⟩ := exists_of_eq_map h'.transitions (e.transitions i)
    have hkey := e.transitionName i
    rw [h.transitionName, h'.transitionName, List.getElem?_map, List.getElem?_map, hi, hu] at hkey
    have hsilent := e.silent i
    have hweight := e.weight i
    rw [hget, hget'] at hsilent hweight
    refine ⟨t.keyed, u.keyed, ?_, ?_, Option.some.inj hkey, hsilent, hweight⟩
    · rw [hnet.transitions, List.getElem?_map, hi]
      rfl
    · rw [hnet'.transitions, List.getElem?_map, hu]
      rfl
  obtain ⟨e', -⟩ := e.transfer hnet.places_length hnet'.places_length (hnet.transitions_length h)
    (hnet'.transitions_length h') hnet.arcs hnet'.arcs hplace htransition
  exact ⟨e'⟩

theorem namedDifference?_of_keyed (tolerance : Binary64) (h : s.Keyed ts) (h' : s'.Keyed ts') :
    ∃ d, namedDifference? tolerance s.net s'.net s.naming s'.naming = .ok d ∧
      d ≠ some .repeatedLabels ∧
      (d = none ↔ Nonempty (NamedIsomorphism tolerance s.net s'.net s.naming s'.naming)) := by
  obtain ⟨net, hrelabel, hnet⟩ := h.relabel
  obtain ⟨net', hrelabel', hnet'⟩ := h'.relabel
  have hdistinct := h.labelsDistinct hnet
  have hdistinct' := h'.labelsDistinct hnet'
  refine ⟨difference? tolerance net net', ?_,
    difference?_ne_repeatedLabels hdistinct hdistinct', ?_⟩
  · rw [namedDifference?, hrelabel, hrelabel']
    rfl
  · rw [difference?_eq_none_iff]
    constructor
    · rintro ⟨-, -, ⟨e⟩⟩
      exact exists_namedIsomorphism h h' hnet hnet' e
    · rintro ⟨e⟩
      exact ⟨hdistinct, hdistinct', e.exists_isomorphism h h' hnet hnet'⟩

/-- Assemblies of texts can always be compared, whatever the tolerance, and are never refused for
labels that repeat. They do not differ exactly if a renumbering of the nodes keeps names, labels,
visibility, weights and arcs. -/
theorem named_comparison_of_written (hs : s.Written) (hs' : s'.Written) (tolerance : Binary64) :
    ∃ d, namedDifference? tolerance s.net s'.net s.naming s'.naming = .ok d ∧
      d ≠ some .repeatedLabels ∧
      (d = none ↔ Nonempty (NamedIsomorphism tolerance s.net s'.net s.naming s'.naming)) := by
  obtain ⟨cs, hcs, hread⟩ := hs.says
  obtain ⟨cs', hcs', hread'⟩ := hs'.says
  exact namedDifference?_of_keyed tolerance (hcs.keyed (Assembly.arePlain_of_ofText hread))
    (hcs'.keyed (Assembly.arePlain_of_ofText hread'))

/-- The second text of the first assembly fails, and the second assembly comes about the other way
round, with a weight that is not quite the same. -/
theorem named_comparison_of_written_reordered :
    let s := (((Assembly.start "left").addText
      "a -> \x7bb__1\x7d -> c -> [tau] -> a").assembly.addText "c -> [a] -> d").assembly
    let s' := ((Assembly.start "right").addLines
      "c -> [tau] -> a\na -> \x7bb__1 1.00001\x7d -> c").assembly
    s.Written ∧ s'.Written ∧ s.net.places ≠ s'.net.places ∧
      Nonempty (NamedIsomorphism defaultTolerance s.net s'.net s.naming s'.naming) := by
  intro s s'
  have hs : s.Written := .addText _ (.addText _ (.start _))
  have hs' : s'.Written := .addLines _ (.start _)
  obtain ⟨d, hd, -, hnone⟩ := named_comparison_of_written hs hs' defaultTolerance
  have hdecide : namedDifference? defaultTolerance s.net s'.net s.naming s'.naming = .ok none := by
    decide +kernel
  rw [hdecide] at hd
  cases hd
  exact ⟨hs, hs', by decide +kernel, hnone.mp rfl⟩

end Comparison

end PetriShorthand
