import PetriShorthand.Comparison.Signature
import PetriShorthand.Proofs.FirstOccurrence

namespace PetriShorthand

theorem mergeSort_eq_of_perm {α : Type} {le : α → α → Bool} {xs ys : List α}
    (htrans : ∀ a b c, le a b → le b c → le a c) (htotal : ∀ a b, (le a b || le b a) = true)
    (hantisymm : ∀ a b, le a b → le b a → a = b) (h : xs.Perm ys) :
    xs.mergeSort le = ys.mergeSort le := by
  have hxs := List.pairwise_mergeSort htrans htotal xs
  have hys := List.pairwise_mergeSort htrans htotal ys
  have hperm : (xs.mergeSort le).Perm (ys.mergeSort le) :=
    (List.mergeSort_perm xs le).trans (h.trans (List.mergeSort_perm ys le).symm)
  exact hperm.eq_of_pairwise (fun a b _ _ => hantisymm a b) hxs hys

theorem lookup_map_pair {α β : Type} [BEq α] [LawfulBEq α] (f : α → β) (keys : List α) (k : α) :
    (keys.map fun k => (k, f k)).lookup k = if k ∈ keys then some (f k) else none := by
  induction keys with
  | nil => rfl
  | cons k' keys ih =>
    rw [List.map_cons, List.lookup_cons]
    by_cases he : k = k'
    · simp [he]
    · have hne : (k == k') = false := by simpa using he
      rw [hne, ih]
      simp [he]

namespace Net

variable {a b : List (String × Nat)} {label : String}

theorem weightsAt_of_perm (h : a.Perm b) (label : String) :
    weightsAt label a = weightsAt label b := by
  refine mergeSort_eq_of_perm ?_ ?_ ?_ ((h.filter _).map _)
  · intro u v w huv hvw
    simp only [decide_eq_true_eq] at huv hvw ⊢
    omega
  · intro u v
    simp only [Bool.or_eq_true, decide_eq_true_eq]
    omega
  · intro u v huv hvu
    simp only [decide_eq_true_eq] at huv hvu
    omega

theorem groupByLabel_of_perm (h : a.Perm b) : groupByLabel a = groupByLabel b := by
  have hlabels : (a.map (·.1)).eraseDups.Perm (b.map (·.1)).eraseDups := by
    refine (List.perm_ext_iff_of_nodup (nodup_eraseDups _) (nodup_eraseDups _)).mpr fun l => ?_
    rw [List.mem_eraseDups, List.mem_eraseDups]
    exact (h.map _).mem_iff
  have hsorted : ((a.map (·.1)).eraseDups.mergeSort fun u v => u ≤ v) =
      (b.map (·.1)).eraseDups.mergeSort fun u v => u ≤ v := by
    refine mergeSort_eq_of_perm ?_ ?_ ?_ hlabels
    · intro u v w huv hvw
      simp only [decide_eq_true_eq] at huv hvw ⊢
      exact String.le_trans huv hvw
    · intro u v
      simp only [Bool.or_eq_true, decide_eq_true_eq]
      exact String.le_total u v
    · intro u v huv hvu
      simp only [decide_eq_true_eq] at huv hvu
      exact String.le_antisymm huv hvu
  rw [groupByLabel, groupByLabel, hsorted]
  refine List.map_congr_left fun l _ => ?_
  rw [weightsAt_of_perm h]

/-- The weights can be read off the groups again. -/
theorem weightsAt_eq_lookup (label : String) :
    weightsAt label a = ((groupByLabel a).lookup label).getD [] := by
  have hmem : label ∈ (a.map (·.1)).eraseDups.mergeSort (fun u v => u ≤ v) ↔
      label ∈ a.map (·.1) := by
    rw [(List.mergeSort_perm _ _).mem_iff, List.mem_eraseDups]
  rw [groupByLabel, lookup_map_pair]
  by_cases hlabel : label ∈ a.map (·.1)
  · rw [if_pos (hmem.mpr hlabel)]
    rfl
  · rw [if_neg fun h => hlabel (hmem.mp h), weightsAt]
    have hnone : a.filter (fun x => x.1 = label) = [] := by
      refine List.filter_eq_nil_iff.mpr fun x hx he => ?_
      exact hlabel (List.mem_map.mpr ⟨x, hx, by simpa using he⟩)
    rw [hnone, List.map_nil, List.mergeSort_nil]
    rfl

theorem count_weightsAt (label : String) (w : Nat) :
    (weightsAt label a).count w = a.count (label, w) := by
  rw [weightsAt, (List.mergeSort_perm _ _).count_eq]
  induction a with
  | nil => rfl
  | cons x xs ih =>
    obtain ⟨l, v⟩ := x
    by_cases hl : l = label
    · rw [List.filter_cons_of_pos (by simpa using hl), List.map_cons, List.count_cons,
        List.count_cons, ih]
      simp [hl]
    · rw [List.filter_cons_of_neg (by simpa using hl), List.count_cons, ih]
      simp [hl]

theorem groupByLabel_eq_iff : groupByLabel a = groupByLabel b ↔ a.Perm b := by
  refine ⟨fun h => ?_, groupByLabel_of_perm⟩
  refine List.perm_iff_count.mpr fun x => ?_
  obtain ⟨label, w⟩ := x
  have hweights : weightsAt label a = weightsAt label b := by
    rw [weightsAt_eq_lookup, weightsAt_eq_lookup, h]
  rw [← count_weightsAt, ← count_weightsAt, hweights]

end Net

end PetriShorthand
