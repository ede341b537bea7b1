import PetriShorthand.Proofs.Bindings

namespace PetriShorthand

def AreOneToOne (pairs : List (String × Node)) : Prop :=
  ∀ a ∈ pairs, ∀ b ∈ pairs, a.1 = b.1 ↔ a.2 = b.2

instance (pairs : List (String × Node)) : Decidable (AreOneToOne pairs) :=
  inferInstanceAs (Decidable (∀ a ∈ pairs, ∀ b ∈ pairs, a.1 = b.1 ↔ a.2 = b.2))

theorem AreOneToOne.subset {xs ys : List (String × Node)} (h : AreOneToOne ys) (hsub : xs ⊆ ys) :
    AreOneToOne xs :=
  fun a ha b hb => h a (hsub ha) b (hsub hb)

theorem areOneToOne_congr {xs ys : List (String × Node)} (h : ∀ b, b ∈ xs ↔ b ∈ ys) :
    AreOneToOne xs ↔ AreOneToOne ys :=
  ⟨fun hxs => hxs.subset fun b => (h b).mpr, fun hys => hys.subset fun b => (h b).mp⟩

namespace Naming

variable {naming other : Naming} {n : Node} {name : String}

theorem areOneToOne_bindings (naming : Naming) : AreOneToOne naming.bindings := by
  intro a ha b hb
  constructor
  · exact fun hname => congrArg Prod.snd (eq_of_mem ha hb (.inl hname))
  · exact fun hnode => congrArg Prod.fst (eq_of_mem ha hb (.inr hnode))

theorem mem_or_isFree (h : AreOneToOne (naming.bindings ++ [(name, n)])) :
    (name, n) ∈ naming.bindings ∨ naming.IsFree n name := by
  by_cases hmem : (name, n) ∈ naming.bindings
  · exact .inl hmem
  · refine .inr fun b hb => ?_
    have hpair := h b (List.mem_append_left _ hb) (name, n) (by simp)
    have hne : ¬(b.1 = name ∧ b.2 = n) := by
      rintro ⟨rfl, rfl⟩
      exact hmem hb
    exact ⟨fun hname => hne ⟨hname, hpair.mp hname⟩, fun hnode => hne ⟨hpair.mpr hnode, hnode⟩⟩

theorem bind_fits_cases (naming : Naming) (n : Node) (name : String) :
    (AreOneToOne (naming.bindings ++ [(name, n)]) ∧
      ∃ naming', naming.bind n name = .ok naming' ∧
        ∀ b, b ∈ naming'.bindings ↔ b ∈ naming.bindings ++ [(name, n)]) ∨
    (¬AreOneToOne (naming.bindings ++ [(name, n)]) ∧
      naming.bind n name = .error (.nameConflict name)) := by
  rcases naming.bind_cases n name with ⟨-, naming', hbind, hmem⟩ | ⟨hnot, hfree, hbind⟩
  · have hmem' : ∀ b, b ∈ naming'.bindings ↔ b ∈ naming.bindings ++ [(name, n)] := by
      intro b
      rw [hmem, List.mem_append, List.mem_singleton]
    have hfits := (areOneToOne_congr hmem').mp naming'.areOneToOne_bindings
    exact .inl ⟨hfits, naming', hbind, hmem'⟩
  · exact .inr ⟨fun hfits => (mem_or_isFree hfits).elim hnot hfree, hbind⟩

/-- Pairs are bound one after another exactly if they all fit together with those that are there. A
pair that does not fit those before it does not fit all of them either. -/
theorem bindAll_fits_cases (naming : Naming) (pairs : List (String × Node)) :
    (AreOneToOne (naming.bindings ++ pairs) ∧
      ∃ both, pairs.foldlM (fun naming b => naming.bind b.2 b.1) naming = .ok both ∧
        ∀ b, b ∈ both.bindings ↔ b ∈ naming.bindings ++ pairs) ∨
    (¬AreOneToOne (naming.bindings ++ pairs) ∧
      ∃ failure, pairs.foldlM (fun naming b => naming.bind b.2 b.1) naming = .error failure) := by
  induction pairs generalizing naming with
  | nil =>
    refine .inl ⟨?_, naming, rfl, fun b => ?_⟩
    · rw [List.append_nil]
      exact naming.areOneToOne_bindings
    · rw [List.append_nil]
  | cons b pairs ih =>
    obtain ⟨name, n⟩ := b
    have hsplit : naming.bindings ++ (name, n) :: pairs =
        (naming.bindings ++ [(name, n)]) ++ pairs := by simp
    rcases naming.bind_fits_cases n name with ⟨-, naming', hbind, hmem⟩ | ⟨hnot, hbind⟩
    · have hmem' : ∀ b, b ∈ naming'.bindings ++ pairs ↔
          b ∈ naming.bindings ++ (name, n) :: pairs := by
        intro b
        rw [hsplit, List.mem_append, List.mem_append, hmem]
      have hrest := ih naming'
      simp only [areOneToOne_congr hmem', hmem'] at hrest
      rw [List.foldlM_cons, hbind]
      exact hrest
    · refine .inr ⟨fun hfits => hnot (hfits.subset ?_), .nameConflict name, ?_⟩
      · rw [hsplit]
        exact List.subset_append_left _ _
      · rw [List.foldlM_cons, hbind]
        rfl

theorem exists_merge_iff :
    (∃ both, naming.merge other = .ok both) ↔ AreOneToOne (naming.bindings ++ other.bindings) := by
  rcases naming.bindAll_fits_cases other.bindings with
    ⟨hfits, both, hrun, -⟩ | ⟨hnot, failure, hrun⟩
  · exact ⟨fun _ => hfits, fun _ => ⟨both, hrun⟩⟩
  · refine ⟨fun ⟨both, hok⟩ => ?_, fun hfits => absurd hfits hnot⟩
    rw [merge, hrun] at hok
    cases hok

theorem mem_merge {both : Naming} (h : naming.merge other = .ok both) (b : String × Node) :
    b ∈ both.bindings ↔ b ∈ naming.bindings ∨ b ∈ other.bindings := by
  rcases naming.bindAll_fits_cases other.bindings with ⟨-, both', hrun, hmem⟩ | ⟨-, failure, hrun⟩
  · rw [merge, hrun] at h
    cases h
    rw [hmem, List.mem_append]
  · rw [merge, hrun] at h
    cases h

end Naming

namespace IndexedNaming

variable {x y z : IndexedNaming} {naming other : Naming}

/-- The tables have what those of the other two have together, and nothing else; each pair is listed
once. -/
structure IsUnion (z x y : IndexedNaming) : Prop where
  nodes : ∀ name n, z.node? name = some n ↔ x.node? name = some n ∨ y.node? name = some n
  names : ∀ name n, z.name? n = some name ↔ x.name? n = some name ∨ y.name? n = some name
  pairs : ∀ b, b ∈ z.pairs ↔ b ∈ x.pairs ∨ b ∈ y.pairs
  nodup : z.pairs.Nodup

structure Same (x y : IndexedNaming) : Prop where
  nodes : x.nodes.Equiv y.nodes
  names : x.names.Equiv y.names

theorem Indexes.mem_pairs (h : x.Indexes naming) (b : String × Node) :
    b ∈ x.pairs ↔ b ∈ naming.bindings :=
  h.perm.mem_iff.symm

theorem Indexes.isUnion {both : Naming} (hx : x.Indexes naming) (hy : y.Indexes other)
    (hz : z.Indexes both)
    (hboth : ∀ b, b ∈ both.bindings ↔ b ∈ naming.bindings ∨ b ∈ other.bindings) :
    z.IsUnion x y := by
  refine ⟨fun name n => ?_, fun name n => ?_, fun b => ?_, ?_⟩
  · rw [hz.node, hboth, hx.node, hy.node]
  · rw [hz.name, hboth, hx.name, hy.name]
  · rw [hz.mem_pairs, hboth, hx.mem_pairs, hy.mem_pairs]
  · refine hz.consistent.oneToOne.imp fun hne he => hne.1 ?_
    rw [he]

theorem IsUnion.same {z' : IndexedNaming} (hz : z.IsUnion x y) (hz' : z'.IsUnion x y) :
    z.Same z' := by
  refine ⟨.of_forall_getElem?_eq fun name => ?_, .of_forall_getElem?_eq fun n => ?_⟩
  · refine Option.ext fun n => ?_
    exact (hz.nodes name n).trans (hz'.nodes name n).symm
  · refine Option.ext fun name => ?_
    exact (hz.names name n).trans (hz'.names name n).symm

theorem IsUnion.comm (hz : z.IsUnion x y) : z.IsUnion y x :=
  ⟨fun name n => (hz.nodes name n).trans or_comm, fun name n => (hz.names name n).trans or_comm,
    fun b => (hz.pairs b).trans or_comm, hz.nodup⟩

/-- The pairs of one naming are bound in the tables of another exactly if all fit together, and then
the tables have all of them. -/
theorem Indexes.bindAll_pairs (hx : x.Indexes naming) (hy : y.Indexes other)
    {order : List (String × Node)} (horder : order.Perm y.pairs) :
    ((x.bindAll order).1 = .ok () ↔ AreOneToOne (x.pairs ++ y.pairs)) ∧
      (AreOneToOne (x.pairs ++ y.pairs) → (x.bindAll order).2.IsUnion x y) := by
  have hmem : ∀ b, b ∈ naming.bindings ++ order ↔ b ∈ x.pairs ++ y.pairs :=
    fun b => (hx.perm.append horder).mem_iff
  have hfollows := hx.bindAll order
  rcases naming.bindAll_fits_cases order with ⟨hfits, both, hrun, hboth⟩ | ⟨hnot, failure, hrun⟩
  · rw [hrun] at hfollows
    obtain ⟨hok, hindexes⟩ := hfollows
    have hfits' := (areOneToOne_congr hmem).mp hfits
    refine ⟨⟨fun _ => hfits', fun _ => hok⟩, fun _ => hx.isUnion hy hindexes fun b => ?_⟩
    rw [hboth, hmem, List.mem_append, hx.mem_pairs, hy.mem_pairs]
  · rw [hrun] at hfollows
    have herror : (x.bindAll order).1 = .error failure := hfollows
    have hnot' := mt (areOneToOne_congr hmem).mpr hnot
    refine ⟨⟨fun hok => ?_, fun hfits => absurd hfits hnot'⟩, fun hfits => absurd hfits hnot'⟩
    rw [herror] at hok
    cases hok

/-- Names are merged exactly if those of both together are one to one. Then they are bound, and all
that were there, and nothing else, whatever the order in which they come; merging the other way
round succeeds for the same names and gives the same tables. Names without tables are merged under
the same condition to the same pairs. -/
theorem merging_is_union {order order' : List (String × Node)} (hx : x.Reached) (hy : y.Reached)
    (horder : order.Perm y.pairs) (horder' : order'.Perm x.pairs) :
    let fits := AreOneToOne (x.pairs ++ y.pairs)
    let z := x.bindAll order
    let z' := y.bindAll order'
    (z.1 = .ok () ↔ fits) ∧ (z'.1 = .ok () ↔ fits) ∧
    (fits → z.2.IsUnion x y ∧ z'.2.IsUnion x y ∧ z.2.Same z'.2) ∧
    ∃ naming other : Naming, x.Indexes naming ∧ y.Indexes other ∧
      ((∃ both, naming.merge other = .ok both) ↔ fits) ∧
      ((∃ both, other.merge naming = .ok both) ↔ fits) ∧
      ∀ both both', naming.merge other = .ok both → other.merge naming = .ok both' →
        z.2.Indexes both ∧ both.Agrees both' := by
  intro fits z z'
  obtain ⟨naming, hnaming⟩ := hx.exists_indexes
  obtain ⟨other, hother⟩ := hy.exists_indexes
  have hswap : AreOneToOne (y.pairs ++ x.pairs) ↔ fits :=
    areOneToOne_congr fun b => List.perm_append_comm.mem_iff
  have hbindings : AreOneToOne (naming.bindings ++ other.bindings) ↔ fits :=
    areOneToOne_congr fun b => (hnaming.perm.append hother.perm).mem_iff
  have hbindings' : AreOneToOne (other.bindings ++ naming.bindings) ↔ fits :=
    (areOneToOne_congr fun b => List.perm_append_comm.mem_iff).trans hbindings
  obtain ⟨hok, hunion⟩ := hnaming.bindAll_pairs hother horder
  obtain ⟨hok', hunion'⟩ := hother.bindAll_pairs hnaming horder'
  rw [hswap] at hok' hunion'
  refine ⟨hok, hok', fun hfits => ?_, naming, other, hnaming, hother,
    Naming.exists_merge_iff.trans hbindings, Naming.exists_merge_iff.trans hbindings', ?_⟩
  · have hz := hunion hfits
    have hz' := (hunion' hfits).comm
    exact ⟨hz, hz', hz.same hz'⟩
  · intro both both' hmerge hmerge'
    have hz := hunion (hbindings.mp (Naming.exists_merge_iff.mp ⟨both, hmerge⟩))
    have hmem := Naming.mem_merge hmerge
    have hmem' := Naming.mem_merge hmerge'
    refine ⟨⟨fun name n => ?_, fun name n => ?_⟩, fun b hb => ?_, fun b hb => ?_⟩
    · rw [hz.nodes, hnaming.node, hother.node, hmem]
    · rw [hz.names, hnaming.name, hother.name, hmem]
    · exact (hmem' b).mpr ((hmem b).mp hb).symm
    · exact (hmem b).mpr ((hmem' b).mp hb).symm

/-- Both have the name of a transition, and each has one of its own; the names of the one are bound
in the other back to front. Where that name is the name of a place, neither takes the names of the
other. -/
theorem merging_is_union_shared :
    let x := ((empty.bind (.transition 0) "a").2.bind (.place 0) "p").2
    let y := ((empty.bind (.transition 0) "a").2.bind (.place 1) "q").2
    let y' := (empty.bind (.place 1) "a").2
    x.Reached ∧ y.Reached ∧ y'.Reached ∧
      (x.bindAll y.pairs.reverse).1 = .ok () ∧
      (x.bindAll y.pairs.reverse).2.Same (y.bindAll x.pairs).2 ∧
      (x.bindAll y'.pairs).1 ≠ .ok () ∧ (y'.bindAll x.pairs).1 ≠ .ok () := by
  intro x y y'
  have hx : x.Reached := .bind _ _ (.bind _ _ .empty)
  have hy : y.Reached := .bind _ _ (.bind _ _ .empty)
  have hy' : y'.Reached := .bind _ _ .empty
  have hxs : x.Indexes ⟨[("a", .transition 0), ("p", .place 0)], by decide⟩ :=
    ((indexes_empty.bind (.transition 0) "a").2.bind (.place 0) "p").2
  have hys : y.Indexes ⟨[("a", .transition 0), ("q", .place 1)], by decide⟩ :=
    ((indexes_empty.bind (.transition 0) "a").2.bind (.place 1) "q").2
  have hys' : y'.Indexes ⟨[("a", .place 1)], by decide⟩ := (indexes_empty.bind (.place 1) "a").2
  have hfits : AreOneToOne (x.pairs ++ y.pairs) :=
    (areOneToOne_congr fun b => (hxs.perm.append hys.perm).mem_iff).mp (by decide)
  have hnot : ¬AreOneToOne (x.pairs ++ y'.pairs) :=
    mt (areOneToOne_congr fun b => (hxs.perm.append hys'.perm).mem_iff).mpr (by decide)
  obtain ⟨hok, -, hunion, -⟩ := merging_is_union hx hy (List.reverse_perm _) (.refl _)
  obtain ⟨hfail, hfail', -⟩ := merging_is_union hx hy' (.refl _) (.refl _)
  exact ⟨hx, hy, hy', hok.mpr hfits, (hunion hfits).2.2, mt hfail.mp hnot, mt hfail'.mp hnot⟩

end IndexedNaming

end PetriShorthand
