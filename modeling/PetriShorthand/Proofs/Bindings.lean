import PetriShorthand.Naming.Indexed
import PetriShorthand.Proofs.Additions

namespace PetriShorthand

namespace Naming

variable {naming : Naming} {n : Node} {name : String}

/-- A pair is bound where it was bound before or both sides are free; nothing else is added. -/
theorem bind_cases (naming : Naming) (n : Node) (name : String) :
    (((name, n) ∈ naming.bindings ∨ naming.IsFree n name) ∧
      ∃ naming', naming.bind n name = .ok naming' ∧
        ∀ b, b ∈ naming'.bindings ↔ b ∈ naming.bindings ∨ b = (name, n)) ∨
    ((name, n) ∉ naming.bindings ∧ ¬naming.IsFree n name ∧
      naming.bind n name = .error (.nameConflict name)) := by
  by_cases hmem : (name, n) ∈ naming.bindings
  · refine .inl ⟨.inl hmem, naming, if_pos hmem, fun b => ⟨.inl, ?_⟩⟩
    rintro (hb | rfl)
    · exact hb
    · exact hmem
  · by_cases hfree : naming.IsFree n name
    · obtain ⟨naming', hbind, hbindings⟩ := bind_of_isFree hfree
      refine .inl ⟨.inr hfree, naming', hbind, fun b => ?_⟩
      rw [hbindings, List.mem_append, List.mem_singleton]
    · refine .inr ⟨hmem, hfree, ?_⟩
      rw [bind, if_neg hmem, dif_neg hfree]

end Naming

namespace IndexedNaming

/-- The tables have the pairs that are bound. -/
structure Indexes (x : IndexedNaming) (naming : Naming) : Prop where
  node : ∀ name n, x.node? name = some n ↔ (name, n) ∈ naming.bindings
  name : ∀ name n, x.name? n = some name ↔ (name, n) ∈ naming.bindings

/-- What is done to the tables comes to what is done to the names without tables. -/
def Follows (o : Except Failure Unit × IndexedNaming) : Except Failure Naming → Prop
  | .ok naming => o.1 = .ok () ∧ o.2.Indexes naming
  | .error failure => o.1 = .error failure

variable {x y : IndexedNaming} {naming other : Naming} {n : Node} {name : String}

theorem indexes_empty : empty.Indexes .empty := by
  refine ⟨fun name n => ?_, fun name n => ?_⟩
  · rw [node?, empty, Std.HashMap.getElem?_empty]
    exact ⟨nofun, nofun⟩
  · rw [name?, empty, Std.HashMap.getElem?_empty]
    exact ⟨nofun, nofun⟩

def Clashes (x : IndexedNaming) (n : Node) (name : String) : Prop :=
  (∃ n', x.node? name = some n' ∧ n' ≠ n) ∨ ∃ name', x.name? n = some name' ∧ name' ≠ name

theorem any_iff_clashes :
    ((x.node? name).any (· ≠ n) ∨ (x.name? n).any (· ≠ name)) ↔ x.Clashes n name := by
  simp only [Clashes, Option.any_eq_true, decide_eq_true_eq]

theorem bind_of_clashes (h : x.Clashes n name) :
    x.bind n name = (.error (.nameConflict name), x) :=
  if_pos (any_iff_clashes.mpr h)

theorem bind_of_not_clashes (h : ¬x.Clashes n name) :
    x.bind n name = (.ok (), ⟨x.nodes.insert name n, x.names.insert n name⟩) :=
  if_neg fun hany => h (any_iff_clashes.mp hany)

theorem Indexes.clashes_iff (h : x.Indexes naming) :
    x.Clashes n name ↔ (name, n) ∉ naming.bindings ∧ ¬naming.IsFree n name := by
  simp only [Clashes, h.node, h.name]
  constructor
  · rintro (⟨n', hmem, hne⟩ | ⟨name', hmem, hne⟩)
    · refine ⟨fun hmem' => ?_, fun hfree => (hfree _ hmem).1 rfl⟩
      exact hne (Prod.mk.inj (Naming.eq_of_mem hmem hmem' (.inl rfl))).2
    · refine ⟨fun hmem' => ?_, fun hfree => (hfree _ hmem).2 rfl⟩
      exact hne (Prod.mk.inj (Naming.eq_of_mem hmem hmem' (.inr rfl))).1
  · rintro ⟨hnot, hfree⟩
    obtain ⟨⟨name', n'⟩, hmem, hshared⟩ : ∃ b ∈ naming.bindings, ¬(b.1 ≠ name ∧ b.2 ≠ n) := by
      by_contra hnone
      exact hfree fun b hb => by_contra fun hshared => hnone ⟨b, hb, hshared⟩
    by_cases hname : name' = name
    · subst hname
      refine .inl ⟨n', hmem, fun he => hnot ?_⟩
      exact he ▸ hmem
    · have hnode : n' = n := by_contra fun hne => hshared ⟨hname, hne⟩
      exact .inr ⟨name', hnode ▸ hmem, hname⟩

theorem Indexes.insert (h : x.Indexes naming) {naming' : Naming}
    (hmem : ∀ b, b ∈ naming'.bindings ↔ b ∈ naming.bindings ∨ b = (name, n)) :
    Indexes ⟨x.nodes.insert name n, x.names.insert n name⟩ naming' := by
  have hnew : (name, n) ∈ naming'.bindings := (hmem _).mpr (.inr rfl)
  refine ⟨fun name' n' => ?_, fun name' n' => ?_⟩
  · rw [node?, Std.HashMap.getElem?_insert]
    by_cases he : name = name'
    · subst he
      rw [beq_self_eq_true, if_pos rfl, Option.some.injEq]
      refine ⟨fun he => he ▸ hnew, fun hmem' => ?_⟩
      exact (Prod.mk.inj (Naming.eq_of_mem hnew hmem' (.inl rfl))).2
    · rw [if_neg (by simpa using he), hmem]
      refine (h.node name' n').trans ⟨.inl, fun hmem' => hmem'.resolve_right fun hpair => ?_⟩
      exact he (Prod.mk.inj hpair).1.symm
  · rw [name?, Std.HashMap.getElem?_insert]
    by_cases he : n = n'
    · subst he
      rw [beq_self_eq_true, if_pos rfl, Option.some.injEq]
      refine ⟨fun he => he ▸ hnew, fun hmem' => ?_⟩
      exact (Prod.mk.inj (Naming.eq_of_mem hnew hmem' (.inr rfl))).1
    · rw [if_neg (by simpa using he), hmem]
      refine (h.name name' n').trans ⟨.inl, fun hmem' => hmem'.resolve_right fun hpair => ?_⟩
      exact he (Prod.mk.inj hpair).2.symm

theorem Indexes.bind (h : x.Indexes naming) (n : Node) (name : String) :
    Follows (x.bind n name) (naming.bind n name) := by
  rcases naming.bind_cases n name with ⟨hok, naming', hbind, hmem⟩ | ⟨hnot, hfree, hbind⟩
  · have hnone : ¬x.Clashes n name := by
      rw [h.clashes_iff, not_and_not_right]
      exact fun hnot => hok.resolve_left hnot
    rw [hbind, bind_of_not_clashes hnone]
    exact ⟨rfl, h.insert hmem⟩
  · rw [hbind, bind_of_clashes (h.clashes_iff.mpr ⟨hnot, hfree⟩)]
    rfl

theorem bindAll_cons_of_ok {pairs : List (String × Node)} (h : (x.bind n name).1 = .ok ()) :
    x.bindAll ((name, n) :: pairs) = (x.bind n name).2.bindAll pairs := by
  rw [bindAll]
  split
  next he => rw [he]
  next failure _ he =>
    rw [he] at h
    cases h

theorem bindAll_cons_of_error {pairs : List (String × Node)} {failure : Failure}
    (h : (x.bind n name).1 = .error failure) :
    x.bindAll ((name, n) :: pairs) = x.bind n name := by
  rw [bindAll]
  split
  next he =>
    rw [he] at h
    cases h
  next he => rw [he]

theorem Indexes.bindAll (h : x.Indexes naming) (pairs : List (String × Node)) :
    Follows (x.bindAll pairs) (pairs.foldlM (fun naming b => naming.bind b.2 b.1) naming) := by
  induction pairs generalizing x naming with
  | nil => exact ⟨rfl, h⟩
  | cons b pairs ih =>
    obtain ⟨name, n⟩ := b
    have hfirst := h.bind n name
    rw [List.foldlM_cons]
    cases hbind : naming.bind n name with
    | error failure =>
      rw [hbind] at hfirst
      rw [bindAll_cons_of_error hfirst]
      exact hfirst
    | ok naming' =>
      rw [hbind] at hfirst
      rw [bindAll_cons_of_ok hfirst.1]
      exact ih hfirst.2

/-- What fails changes nothing, so some names are bound in any case. -/
theorem Indexes.exists_bind (h : x.Indexes naming) (n : Node) (name : String) :
    ∃ naming', (x.bind n name).2.Indexes naming' := by
  by_cases hclash : x.Clashes n name
  · rw [bind_of_clashes hclash]
    exact ⟨naming, h⟩
  · have hfollows := h.bind n name
    cases hbind : naming.bind n name with
    | ok naming' =>
      rw [hbind] at hfollows
      exact ⟨naming', hfollows.2⟩
    | error failure =>
      rw [hbind, bind_of_not_clashes hclash] at hfollows
      cases hfollows

theorem Indexes.exists_bindAll (h : x.Indexes naming) (pairs : List (String × Node)) :
    ∃ naming', (x.bindAll pairs).2.Indexes naming' := by
  induction pairs generalizing x naming with
  | nil => exact ⟨naming, h⟩
  | cons b pairs ih =>
    obtain ⟨name, n⟩ := b
    obtain ⟨naming', h'⟩ := h.exists_bind n name
    cases hfirst : (x.bind n name).1 with
    | error failure =>
      rw [bindAll_cons_of_error hfirst]
      exact ⟨naming', h'⟩
    | ok _ =>
      rw [bindAll_cons_of_ok hfirst]
      exact ih h'

/-- Tables as they come about, whether or not what is done succeeds. -/
inductive Reached : IndexedNaming → Prop
  | empty : Reached .empty
  | bind {x : IndexedNaming} (n : Node) (name : String) : Reached x → Reached (x.bind n name).2
  | merge {x y : IndexedNaming} {order : List (String × Node)} : Reached x → Reached y →
      order.Perm y.pairs → Reached (x.bindAll order).2

theorem Reached.exists_indexes (hx : x.Reached) : ∃ naming, x.Indexes naming := by
  induction hx with
  | empty => exact ⟨.empty, indexes_empty⟩
  | bind n name _ ih =>
    obtain ⟨naming, h⟩ := ih
    exact h.exists_bind n name
  | merge _ _ _ ih _ =>
    obtain ⟨naming, h⟩ := ih
    exact h.exists_bindAll _

/-- Either table has what the other one has, the pairs are those of the tables, and no two of them
share a name or a node. -/
structure Consistent (x : IndexedNaming) : Prop where
  inverse : ∀ name n, x.node? name = some n ↔ x.name? n = some name
  pairs : ∀ name n, (name, n) ∈ x.pairs ↔ x.node? name = some n
  oneToOne : x.pairs.Pairwise fun a b => a.1 ≠ b.1 ∧ a.2 ≠ b.2
  length : x.length = x.pairs.length

theorem Indexes.consistent (h : x.Indexes naming) : x.Consistent := by
  have hpairs : ∀ name n, (name, n) ∈ x.pairs ↔ x.node? name = some n :=
    fun name n => Std.HashMap.mem_toList_iff_getElem?_eq_some
  refine ⟨fun name n => (h.node name n).trans (h.name name n).symm, hpairs, ?_,
    Std.HashMap.length_toList.symm⟩
  have hkeys : x.pairs.Pairwise fun a b => a.1 ≠ b.1 :=
    Std.HashMap.distinct_keys_toList.imp fun hne => by simpa using hne
  refine hkeys.imp_of_mem fun {a b} ha hb hne => ⟨hne, fun he => hne ?_⟩
  have ha' := (h.node a.1 a.2).mp ((hpairs _ _).mp ha)
  have hb' := (h.node b.1 b.2).mp ((hpairs _ _).mp hb)
  exact (Prod.mk.inj (Naming.eq_of_mem ha' hb' (.inr he))).1

theorem Indexes.perm (h : x.Indexes naming) : naming.bindings.Perm x.pairs := by
  have hconsistent := h.consistent
  have hnodup : naming.bindings.Nodup := by
    refine naming.oneToOne.imp fun hne he => hne.1 ?_
    rw [he]
  have hnodup' : x.pairs.Nodup := by
    refine hconsistent.oneToOne.imp fun hne he => hne.1 ?_
    rw [he]
  refine (List.perm_ext_iff_of_nodup hnodup hnodup').mpr fun b => ?_
  rw [← h.node, hconsistent.pairs]

/-- A pair is bound exactly where neither side is bound otherwise. Then it is there and all else is
as before, for either question; and where it is not bound, the failure says the name, and nothing is
changed. -/
structure Binds (x : IndexedNaming) (n : Node) (name : String)
    (o : Except Failure Unit × IndexedNaming) : Prop where
  succeeds : o.1 = .ok () ↔ (x.node? name = none ∨ x.node? name = some n) ∧
    (x.name? n = none ∨ x.name? n = some name)
  nodes : o.1 = .ok () → ∀ name' n',
    o.2.node? name' = some n' ↔ x.node? name' = some n' ∨ name' = name ∧ n' = n
  names : o.1 = .ok () → ∀ name' n',
    o.2.name? n' = some name' ↔ x.name? n' = some name' ∨ name' = name ∧ n' = n
  fails : ∀ failure, o.1 = .error failure → failure = .nameConflict name ∧ o.2 = x

theorem not_clashes_iff : ¬x.Clashes n name ↔ (x.node? name = none ∨ x.node? name = some n) ∧
    (x.name? n = none ∨ x.name? n = some name) := by
  have hside : ∀ {α : Type} (o : Option α) (a : α),
      (¬∃ a', o = some a' ∧ a' ≠ a) ↔ o = none ∨ o = some a := by
    intro α o a
    cases o with
    | none => simp
    | some b => simp
  rw [Clashes, not_or, hside, hside]

theorem Indexes.binds (h : x.Indexes naming) (n : Node) (name : String) :
    x.Binds n name (x.bind n name) := by
  by_cases hclash : x.Clashes n name
  · have hnot := mt not_clashes_iff.mpr (not_not_intro hclash)
    rw [bind_of_clashes hclash]
    refine ⟨⟨nofun, fun hfree => absurd hfree hnot⟩, nofun, nofun, ?_⟩
    rintro failure ⟨⟩
    exact ⟨rfl, rfl⟩
  · have hfollows := h.bind n name
    rcases naming.bind_cases n name with ⟨-, naming', hbind, hmem⟩ | ⟨hnot, hfree, -⟩
    · rw [hbind] at hfollows
      obtain ⟨hok, h'⟩ := hfollows
      refine ⟨⟨fun _ => not_clashes_iff.mp hclash, fun _ => hok⟩, fun _ name' n' => ?_,
        fun _ name' n' => ?_, fun failure herror => ?_⟩
      · rw [h'.node, hmem, h.node, Prod.mk.injEq]
      · rw [h'.name, hmem, h.name, Prod.mk.injEq]
      · rw [hok] at herror
        cases herror
    · exact absurd (h.clashes_iff.mpr ⟨hnot, hfree⟩) hclash

/-- Whatever was bound or merged, names and nodes are bound one to one: the two tables and the list
of pairs say the same, a binding enters its pair or changes nothing, and names without tables have
the same pairs and go on having them. -/
theorem tables_are_inverse (hx : x.Reached) :
    x.Consistent ∧ (∀ n name, x.Binds n name (x.bind n name)) ∧
    ∃ naming : Naming, x.Indexes naming ∧ naming.bindings.Perm x.pairs ∧
      (∀ n name, Follows (x.bind n name) (naming.bind n name)) ∧
      ∀ other : Naming, Follows (x.bindAll other.bindings) (naming.merge other) := by
  obtain ⟨naming, h⟩ := hx.exists_indexes
  exact ⟨h.consistent, h.binds, naming, h, h.perm, h.bind,
    fun other => h.bindAll other.bindings⟩

/-- A node that has a name is given another one, in vain; then names are merged that have that one
for a place. -/
theorem tables_are_inverse_merged :
    let x := ((empty.bind (.transition 0) "a").2.bind (.transition 0) "b").2
    let z := (x.bindAll (empty.bind (.place 0) "b").2.pairs).2
    x.Reached ∧ z.Reached ∧ x.node? "a" = some (.transition 0) ∧ x.node? "b" = none ∧
      (x.bind (.transition 1) "a").1 ≠ .ok () ∧ x.Consistent ∧ z.Consistent := by
  intro x z
  have hx : x.Reached := .bind _ _ (.bind _ _ .empty)
  have hz : z.Reached := .merge hx (.bind _ _ .empty) (.refl _)
  have ha : x.node? "a" = some (.transition 0) := by
    simp [x, bind, node?, name?, empty]
  have hb : x.node? "b" = none := by
    simp [x, bind, node?, name?, empty]
  obtain ⟨hconsistent, hbinds, -⟩ := tables_are_inverse hx
  refine ⟨hx, hz, ha, hb, fun hok => ?_, hconsistent, (tables_are_inverse hz).1⟩
  obtain ⟨hside, -⟩ := (hbinds _ _).succeeds.mp hok
  rw [ha] at hside
  simp at hside

end IndexedNaming

end PetriShorthand
