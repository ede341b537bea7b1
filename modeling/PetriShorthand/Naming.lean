import PetriShorthand.Failure

namespace PetriShorthand

/-- Names of nodes: no name stands for two nodes and no node has two names. -/
structure Naming where
  bindings : List (String × Node)
  oneToOne : bindings.Pairwise fun a b => a.1 ≠ b.1 ∧ a.2 ≠ b.2
  deriving DecidableEq

namespace Naming

def empty : Naming := ⟨[], .nil⟩

def node? (naming : Naming) (name : String) : Option Node :=
  (naming.bindings.find? fun b => b.1 = name).map (·.2)

def name? (naming : Naming) (n : Node) : Option String :=
  (naming.bindings.find? fun b => b.2 = n).map (·.1)

/-- A binding is told by its name, and by its node. -/
theorem eq_of_mem {naming : Naming} {a b : String × Node} (ha : a ∈ naming.bindings)
    (hb : b ∈ naming.bindings) (h : a.1 = b.1 ∨ a.2 = b.2) : a = b := by
  refine List.Pairwise.forall_of_forall_of_flip
    (R := fun a b : String × Node => a.1 = b.1 ∨ a.2 = b.2 → a = b) (fun _ _ _ => rfl)
    (naming.oneToOne.imp ?_) (naming.oneToOne.imp ?_) ha hb h
  · exact fun hne h => absurd h (not_or.mpr hne)
  · exact fun hne h => absurd (h.imp Eq.symm Eq.symm) (not_or.mpr hne)

theorem node?_eq_some_iff {naming : Naming} {name : String} {n : Node} :
    naming.node? name = some n ↔ (name, n) ∈ naming.bindings := by
  constructor
  · intro h
    obtain ⟨b, hb, rfl⟩ := Option.map_eq_some_iff.mp h
    have hname : b.1 = name := by simpa using List.find?_some hb
    exact hname ▸ List.mem_of_find?_eq_some hb
  · intro h
    cases hf : naming.bindings.find? fun b => b.1 = name with
    | none => simpa using List.find?_eq_none.mp hf _ h
    | some b =>
      have hname : b.1 = name := by simpa using List.find?_some hf
      rw [node?, hf, eq_of_mem (List.mem_of_find?_eq_some hf) h (.inl hname), Option.map_some]

theorem name?_eq_some_iff {naming : Naming} {name : String} {n : Node} :
    naming.name? n = some name ↔ (name, n) ∈ naming.bindings := by
  constructor
  · intro h
    obtain ⟨b, hb, rfl⟩ := Option.map_eq_some_iff.mp h
    have hnode : b.2 = n := by simpa using List.find?_some hb
    exact hnode ▸ List.mem_of_find?_eq_some hb
  · intro h
    cases hf : naming.bindings.find? fun b => b.2 = n with
    | none => simpa using List.find?_eq_none.mp hf _ h
    | some b =>
      have hnode : b.2 = n := by simpa using List.find?_some hf
      rw [name?, hf, eq_of_mem (List.mem_of_find?_eq_some hf) h (.inr hnode), Option.map_some]

def IsFree (naming : Naming) (n : Node) (name : String) : Prop :=
  ∀ b ∈ naming.bindings, b.1 ≠ name ∧ b.2 ≠ n

instance (naming : Naming) (n : Node) (name : String) : Decidable (naming.IsFree n name) :=
  inferInstanceAs (Decidable (∀ b ∈ _, _))

/-- Binds a name to a node. A pair that is bound already stays; a name or a node that is bound
otherwise is a conflict. -/
def bind (naming : Naming) (n : Node) (name : String) : Except Failure Naming :=
  if (name, n) ∈ naming.bindings then .ok naming
  else if h : naming.IsFree n name then
    .ok ⟨naming.bindings ++ [(name, n)], List.pairwise_append.mpr
      ⟨naming.oneToOne, List.pairwise_singleton _ _,
        fun b hb _ hc => List.mem_singleton.mp hc ▸ h b hb⟩⟩
  else .error (.nameConflict name)

def merge (naming other : Naming) : Except Failure Naming :=
  other.bindings.foldlM (fun naming b => naming.bind b.2 b.1) naming

def Agrees (a b : Naming) : Prop := a.bindings ⊆ b.bindings ∧ b.bindings ⊆ a.bindings

instance (a b : Naming) : Decidable (a.Agrees b) :=
  inferInstanceAs (Decidable ((∀ x, x ∈ _ → x ∈ _) ∧ (∀ x, x ∈ _ → x ∈ _)))

end Naming

end PetriShorthand
