import Mathlib.Data.List.Nodup

namespace PetriShorthand

variable {α β : Type} [DecidableEq β]

/-- The first element of every key. -/
def distinctBy (key : α → β) : List α → List α
  | [] => []
  | x :: xs => x :: (distinctBy key xs).filter fun y => key y ≠ key x

theorem distinctBy_sublist (key : α → β) (xs : List α) : (distinctBy key xs).Sublist xs := by
  induction xs with
  | nil => exact .slnil
  | cons x xs ih => exact .cons_cons x (List.filter_sublist.trans ih)

theorem mem_map_distinctBy {key : α → β} {xs : List α} {k : β} :
    k ∈ (distinctBy key xs).map key ↔ k ∈ xs.map key := by
  induction xs with
  | nil => exact Iff.rfl
  | cons x xs ih =>
    have h : k ∈ ((distinctBy key xs).filter fun y => key y ≠ key x).map key ↔
        k ≠ key x ∧ k ∈ (distinctBy key xs).map key := by
      simp only [List.mem_map, List.mem_filter, decide_eq_true_eq]
      constructor
      · rintro ⟨y, ⟨hy, hne⟩, rfl⟩
        exact ⟨hne, y, hy, rfl⟩
      · rintro ⟨hne, y, hy, rfl⟩
        exact ⟨y, ⟨hy, hne⟩, rfl⟩
    rw [distinctBy, List.map_cons, List.map_cons, List.mem_cons, List.mem_cons, h, ih]
    by_cases hk : k = key x
    · simp [hk]
    · simp [hk]

theorem nodup_map_distinctBy (key : α → β) (xs : List α) :
    ((distinctBy key xs).map key).Nodup := by
  induction xs with
  | nil => exact List.nodup_nil
  | cons x xs ih =>
    have hsub : (((distinctBy key xs).filter fun y => key y ≠ key x).map key).Sublist
        ((distinctBy key xs).map key) := List.filter_sublist.map key
    refine List.nodup_cons.mpr ⟨?_, ih.sublist hsub⟩
    intro hmem
    obtain ⟨y, hy, he⟩ := List.mem_map.mp hmem
    exact absurd he (by simpa using (List.mem_filter.mp hy).2)

theorem distinctBy_append (key : α → β) (xs ys : List α) :
    distinctBy key (xs ++ ys) =
      distinctBy key xs ++ (distinctBy key ys).filter fun y => key y ∉ xs.map key := by
  induction xs with
  | nil => simp [distinctBy]
  | cons x xs ih =>
    have hkeys : ∀ y, (decide (key y ≠ key x) && decide (key y ∉ xs.map key)) =
        decide (key y ∉ (x :: xs).map key) := by
      intro y
      by_cases he : key y = key x
      · simp [he]
      · simp [he]
    rw [List.cons_append, distinctBy, ih, List.filter_append, List.filter_filter, distinctBy,
      List.cons_append]
    simp only [hkeys]

theorem distinctBy_concat_of_mem {key : α → β} {xs : List α} {x : α} (h : key x ∈ xs.map key) :
    distinctBy key (xs ++ [x]) = distinctBy key xs := by
  rw [distinctBy_append]
  simpa [distinctBy] using h

theorem distinctBy_concat_of_not_mem {key : α → β} {xs : List α} {x : α}
    (h : key x ∉ xs.map key) : distinctBy key (xs ++ [x]) = distinctBy key xs ++ [x] := by
  rw [distinctBy_append]
  simpa [distinctBy] using h

/-- Only the keys of the elements matter, and of them only which are equal. -/
theorem distinctBy_congr {γ : Type} [DecidableEq γ] {key : α → β} {other : α → γ} {xs : List α}
    (h : ∀ x ∈ xs, ∀ y ∈ xs, key x = key y ↔ other x = other y) :
    distinctBy key xs = distinctBy other xs := by
  induction xs with
  | nil => rfl
  | cons x xs ih =>
    have htail := ih fun y hy z hz => h y (List.mem_cons_of_mem x hy) z (List.mem_cons_of_mem x hz)
    rw [distinctBy, distinctBy, htail]
    congr 1
    refine List.filter_congr fun y hy => ?_
    have hmem := List.mem_cons_of_mem x ((distinctBy_sublist other xs).mem hy)
    simp only [ne_eq, h y hmem x List.mem_cons_self]

theorem distinctBy_map {γ : Type} (key : γ → β) (f : α → γ) (xs : List α) :
    distinctBy key (xs.map f) = (distinctBy (fun x => key (f x)) xs).map f := by
  induction xs with
  | nil => rfl
  | cons x xs ih =>
    rw [List.map_cons, distinctBy, distinctBy, List.map_cons, ih, List.filter_map]
    rfl

theorem distinctBy_filter (key : α → β) (p : β → Bool) (xs : List α) :
    distinctBy key (xs.filter fun x => p (key x)) =
      (distinctBy key xs).filter fun x => p (key x) := by
  induction xs with
  | nil => rfl
  | cons x xs ih =>
    rw [List.filter_cons, distinctBy, List.filter_cons]
    by_cases hp : p (key x)
    · rw [if_pos hp, if_pos hp, distinctBy, ih, List.filter_filter, List.filter_filter]
      simp only [Bool.and_comm]
    · rw [if_neg hp, if_neg hp, ih, List.filter_filter]
      refine List.filter_congr fun y _ => ?_
      by_cases he : key y = key x
      · simp [he, hp]
      · simp [he]

theorem find?_distinctBy {key : α → β} {k : β} {xs : List α} :
    ((distinctBy key xs).find? fun x => key x = k) = xs.find? fun x => key x = k := by
  induction xs with
  | nil => rfl
  | cons x xs ih =>
    rw [distinctBy]
    by_cases hx : key x = k
    · rw [List.find?_cons_of_pos (by simpa using hx), List.find?_cons_of_pos (by simpa using hx)]
    · rw [List.find?_cons_of_neg (by simpa using hx), List.find?_cons_of_neg (by simpa using hx),
        List.find?_filter, ← ih]
      congr 1
      funext y
      by_cases hy : key y = k
      · simp [hy, Ne.symm hx]
      · simp [hy]

theorem distinctBy_id [BEq β] [LawfulBEq β] (xs : List β) : distinctBy id xs = xs.eraseDups := by
  induction hn : xs.length using Nat.strongRecOn generalizing xs with
  | ind n ih =>
    cases xs with
    | nil => rfl
    | cons x xs =>
      have hlen := List.length_filter_le (fun y => !y == x) xs
      have hrest := ih _ (by simp only [List.length_cons] at hn; omega)
        (xs.filter fun y => !y == x) rfl
      rw [List.eraseDups_cons, ← hrest, distinctBy]
      have hfilter := distinctBy_filter id (fun y => !y == x) xs
      simp only [id_eq] at hfilter ⊢
      rw [hfilter]
      congr 1
      refine List.filter_congr fun y _ => ?_
      by_cases he : y = x
      · simp [he]
      · simp [he]

theorem nodup_eraseDups [BEq β] [LawfulBEq β] (xs : List β) : xs.eraseDups.Nodup := by
  have h := nodup_map_distinctBy id xs
  rwa [List.map_id, distinctBy_id] at h

theorem mem_distinctBy_id {xs : List β} {x : β} : x ∈ distinctBy id xs ↔ x ∈ xs := by
  rw [distinctBy_id, List.mem_eraseDups]

omit [DecidableEq β] in
theorem eq_singleton_of_nodup {xs : List β} {x : β} (hnodup : xs.Nodup)
    (h : ∀ y, y ∈ xs ↔ y = x) : xs = [x] := by
  refine List.perm_singleton.mp ((List.perm_ext_iff_of_nodup hnodup ?_).mpr fun y => ?_)
  · exact List.nodup_singleton x
  · rw [List.mem_singleton, h]

end PetriShorthand
