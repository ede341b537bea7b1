import Mathlib.Data.List.Forall2
import Mathlib.Data.Set.Basic
import Mathlib.Order.Bounds.Defs
import PetriShorthand.Marking.Transfer
import PetriShorthand.Proofs.FirstOccurrence

namespace PetriShorthand

theorem count_flatMap_of_nodup {f : Nat → List Nat} {xs : List Nat}
    (h : ∀ x ∈ xs, (f x).Nodup) (q : Nat) :
    (xs.flatMap f).count q = xs.countP fun x => q ∈ f x := by
  induction xs with
  | nil => rfl
  | cons x xs ih =>
    obtain ⟨hx, hxs⟩ := List.forall_mem_cons.mp h
    rw [List.flatMap_cons, List.count_append, ih hxs, hx.count, List.countP_cons,
      Nat.add_comm]
    simp only [decide_eq_true_eq]

theorem countP_eq_of_nodup {p : Nat → Bool} {xs ys : List Nat} (hxs : xs.Nodup) (hys : ys.Nodup)
    {p' : Nat → Bool} (h : ∀ x, (x ∈ xs ∧ p x = true) ↔ (x ∈ ys ∧ p' x = true)) :
    xs.countP p = ys.countP p' := by
  rw [List.countP_eq_length_filter, List.countP_eq_length_filter]
  refine ((List.perm_ext_iff_of_nodup (hxs.filter p) (hys.filter p')).mpr fun x => ?_).length_eq
  rw [List.mem_filter, List.mem_filter]
  exact h x

theorem Net.isLeast_head?_placesLabelled {net : Net} {label : String} {q : Nat} :
    (net.placesLabelled label).head? = some q ↔ IsLeast {q | net.places[q]? = some label} q := by
  rw [placesLabelled, List.head?_filter, List.find?_range_eq_some]
  constructor
  · rintro ⟨hq, -, hbefore⟩
    refine ⟨decide_eq_true_eq.mp hq, fun r hr => Nat.le_of_not_lt fun hlt => ?_⟩
    have hnot := hbefore r hlt
    rw [show net.places[r]? = some label from hr] at hnot
    simp at hnot
  · rintro ⟨hq, hleast⟩
    have hlabel : net.places[q]? = some label := hq
    refine ⟨by simpa using hlabel, ?_, fun r hr => ?_⟩
    · exact List.mem_range.mpr (List.getElem?_eq_some_iff.mp hlabel).1
    · have hnot : net.places[r]? ≠ some label := fun he => Nat.not_le_of_lt hr (hleast he)
      simpa using hnot

namespace Marking

variable {source target : Net} {m : Marking} {p q : Nat} {label : String}

theorem nodup_places (m : Marking) : m.places.Nodup := nodup_eraseDups m.tokens

theorem pairwise_places (m : Marking) : m.places.Pairwise (· < ·) := by
  have hsublist : m.places.Sublist m.tokens := by
    rw [places, ← distinctBy_id]
    exact distinctBy_sublist id m.tokens
  exact ((m.sorted.sublist hsublist).and m.nodup_places).imp fun h => Nat.lt_of_le_of_ne h.1 h.2

theorem counterparts_of_place (h : source.places[p]? = some label) :
    counterparts source target p = target.placesLabelled label := by
  rw [counterparts, h]
  rfl

theorem mem_counterparts : q ∈ counterparts source target p ↔
    p < source.places.length ∧ source.places[p]? = target.places[q]? := by
  cases hp : source.places[p]? with
  | none =>
    rw [counterparts, hp]
    refine ⟨nofun, fun h => ?_⟩
    rw [List.getElem?_eq_getElem h.1] at hp
    cases hp
  | some label =>
    rw [counterparts_of_place hp, Net.mem_placesLabelled, eq_comm]
    exact ⟨fun hq => ⟨(List.getElem?_eq_some_iff.mp hp).1, hq⟩, fun hq => hq.2⟩

theorem nodup_counterparts (source target : Net) (p : Nat) :
    (counterparts source target p).Nodup := by
  rw [counterparts]
  cases source.places[p]? with
  | none => exact List.nodup_nil
  | some label => exact List.nodup_range.filter _

/-- How many marked places of the one net have the label of a place of the other. -/
def alike (source target : Net) (m : Marking) (q : Nat) : Nat :=
  (List.range source.places.length).countP fun p =>
    0 < m.count p ∧ source.places[p]? = target.places[q]?

theorem alike_of_no_place (source : Net) (m : Marking) (hq : ¬q < target.places.length) :
    alike source target m q = 0 := by
  refine List.countP_eq_zero.mpr fun p hp => ?_
  rw [List.getElem?_eq_none (Nat.le_of_not_lt hq), List.getElem?_eq_getElem (List.mem_range.mp hp)]
  simp

theorem count_flatMap_counterparts (source target : Net) (m : Marking) (q : Nat) :
    (m.places.flatMap (counterparts source target)).count q = alike source target m q := by
  rw [count_flatMap_of_nodup fun p _ => nodup_counterparts source target p]
  refine countP_eq_of_nodup m.nodup_places List.nodup_range fun p => ?_
  simp only [decide_eq_true_eq, mem_places, mem_counterparts, List.mem_range]
  exact and_left_comm

theorem count_transferFinal (source target : Net) (m : Marking) (q : Nat) :
    (transferFinal source target m).count q =
      if q < target.places.length ∧ target.IsBare q .outgoing then alike source target m q
      else 0 := by
  rw [transferFinal, count_ofList]
  by_cases hbare : target.IsBare q .outgoing
  · rw [List.count_filter (by simpa using hbare), count_flatMap_counterparts]
    by_cases hq : q < target.places.length
    · rw [if_pos ⟨hq, hbare⟩]
    · rw [if_neg fun h => hq h.1, alike_of_no_place source m hq]
  · rw [if_neg fun h => hbare h.2]
    refine List.count_eq_zero.mpr fun hmem => hbare ?_
    simpa using (List.mem_filter.mp hmem).2

/-- The marked places of the one net whose labels are found in the other. -/
def Transferable (source target : Net) (m : Marking) : Set Nat :=
  {p | 0 < m.count p ∧ ∃ label ∈ target.places, source.places[p]? = some label}

theorem head?_counterparts_eq_none (h : (counterparts source target p).head? = none)
    (m : Marking) : p ∉ Transferable source target m := by
  rintro ⟨-, label, hmem, hp⟩
  obtain ⟨q, hq⟩ := List.mem_iff_getElem?.mp hmem
  rw [counterparts_of_place hp, List.head?_eq_none_iff] at h
  have hlabelled := Net.mem_placesLabelled.mpr hq
  rw [h] at hlabelled
  cases hlabelled

theorem exists_label_of_head? (h : (counterparts source target p).head? = some q) :
    ∃ label ∈ target.places, source.places[p]? = some label ∧
      IsLeast {q | target.places[q]? = some label} q := by
  obtain ⟨hp, hlabel⟩ := mem_counterparts.mp (List.mem_of_head? h)
  have hsource := List.getElem?_eq_getElem hp
  rw [counterparts_of_place hsource] at h
  refine ⟨_, ?_, hsource, Net.isLeast_head?_placesLabelled.mp h⟩
  exact List.mem_of_getElem? (hlabel.symm.trans hsource)

theorem transferInitial_cases (source target : Net) (m : Marking) :
    (transferInitial source target m = .empty ∧ Transferable source target m = ∅) ∨
    ∃ p label q, IsLeast (Transferable source target m) p ∧ source.places[p]? = some label ∧
      IsLeast {q | target.places[q]? = some label} q ∧
      transferInitial source target m = .ofList [q] := by
  rw [transferInitial]
  cases hfirst : m.places.findSome? fun p => (counterparts source target p).head? with
  | none =>
    refine .inl ⟨rfl, Set.eq_empty_of_forall_notMem fun p hp => ?_⟩
    have hnone := List.findSome?_eq_none_iff.mp hfirst p (mem_places.mpr hp.1)
    exact head?_counterparts_eq_none hnone m hp
  | some q =>
    obtain ⟨before, p, after, hplaces, hq, hbefore⟩ := List.findSome?_eq_some_iff.mp hfirst
    have hsorted := m.pairwise_places
    rw [hplaces] at hsorted
    have hmarked : 0 < m.count p := mem_places.mp (by simp [hplaces])
    obtain ⟨label, hmem, hp, hleast⟩ := exists_label_of_head? hq
    refine .inr ⟨p, label, q, ⟨⟨hmarked, label, hmem, hp⟩, fun r hr => ?_⟩, hp, hleast, rfl⟩
    have hr' : r ∈ before ++ p :: after := hplaces ▸ mem_places.mpr hr.1
    rcases List.mem_append.mp hr' with hr' | hr'
    · exact absurd hr (head?_counterparts_eq_none (hbefore r hr') m)
    · rcases List.mem_cons.mp hr' with rfl | hr'
      · exact Nat.le_refl r
      · exact Nat.le_of_lt ((List.pairwise_cons.mp (List.pairwise_append.mp hsorted).2.1).1 r hr')

theorem count_ofList_singleton (p q : Nat) :
    (ofList [q]).count p = if p = q then 1 else 0 := by
  rw [count_ofList, List.count_singleton]
  simp only [beq_iff_eq, eq_comm (a := q)]

/-- Final markings are carried over one by one: a place that no arcs leave gets as many tokens as
there are marked places with its label. An initial marking becomes one token on the first place that
has the label of the first marked place for which there is any, or no token at all. -/
theorem markings_carried_over (source target : Net) (ms : List Marking) (m : Marking) :
    List.Forall₂ (fun m m' => ∀ q, m'.count q =
        if q < target.places.length ∧ target.IsBare q .outgoing then alike source target m q else 0)
      ms (transferFinals source target ms) ∧
    ((transferInitial source target m = .empty ∧ Transferable source target m = ∅) ∨
      ∃ p label q, IsLeast (Transferable source target m) p ∧ source.places[p]? = some label ∧
        IsLeast {q | target.places[q]? = some label} q ∧
        ∀ r, (transferInitial source target m).count r = if r = q then 1 else 0) := by
  refine ⟨?_, ?_⟩
  · rw [transferFinals, List.forall₂_map_right_iff, List.forall₂_same]
    exact fun m _ q => count_transferFinal source target m q
  · rcases transferInitial_cases source target m with hempty | ⟨p, label, q, hp, hl, hq, hone⟩
    · exact .inl hempty
    · refine .inr ⟨p, label, q, hp, hl, hq, fun r => ?_⟩
      rw [hone, count_ofList_singleton]

end Marking

end PetriShorthand
