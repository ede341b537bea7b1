namespace PetriShorthand

/-- Tokens are listed by place in ascending order, so that equal markings are equal lists. -/
structure Marking where
  /-- The place of each token. -/
  tokens : List Nat
  sorted : tokens.Pairwise (· ≤ ·)
  deriving DecidableEq

namespace Marking

theorem pairwise_mergeSort_le (places : List Nat) :
    (places.mergeSort fun p q => p ≤ q).Pairwise (· ≤ ·) :=
  (List.pairwise_mergeSort (by simpa using fun _ _ _ => Nat.le_trans)
    (by simpa using Nat.le_total) places).imp (by simp)

def ofList (places : List Nat) : Marking :=
  ⟨places.mergeSort fun p q => p ≤ q, pairwise_mergeSort_le places⟩

def empty : Marking := ofList []

def add (m : Marking) (place : Nat) : Marking := ofList (place :: m.tokens)

def count (m : Marking) (place : Nat) : Nat := m.tokens.count place

theorem count_ofList (places : List Nat) (p : Nat) : (ofList places).count p = places.count p :=
  (List.mergeSort_perm places _).count_eq p

/-- The marked places in ascending order. -/
def places (m : Marking) : List Nat := m.tokens.eraseDups

theorem mem_places {m : Marking} {p : Nat} : p ∈ m.places ↔ 0 < m.count p := by
  rw [places, List.mem_eraseDups, count, List.count_pos_iff]

def counts (m : Marking) : List (Nat × Nat) := m.places.map fun p => (p, m.count p)

end Marking

end PetriShorthand
