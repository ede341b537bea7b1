import PetriShorthand.Proofs.Persistence
import PetriShorthand.Proofs.Realization

namespace PetriShorthand

namespace Assembly

variable {s s' s'' : Assembly} {p : Plan} {c : Chain} {created created' both : Naming}
  {ts ts' : List TransitionRef}

/-- Everything of the first assembly is unchanged in the second one, and `created` has exactly the
nodes that the second one has beyond those: places under their labels, and transitions under the
keys of references that describe them. -/
structure Creates (s s' : Assembly) (created : Naming) (ts : List TransitionRef) : Prop
    extends Extends s s' where
  label : s'.net.label = s.net.label
  inherited : s'.inherited = s.inherited
  node : ∀ n, (∃ name, (name, n) ∈ created.bindings) ↔ s'.net.Contains n ∧ ¬s.net.Contains n
  place : ∀ {name i}, (name, .place i) ∈ created.bindings → s'.net.places[i]? = some name
  transition : ∀ {name i}, (name, .transition i) ∈ created.bindings →
    ∃ t ∈ ts, t.key = name ∧ s'.net.transitions[i]? = some t.transition

theorem Extends.contains {n : Node} (h : s.Extends s') (hn : s.net.Contains n) :
    s'.net.Contains n :=
  hn.mono h.places.length_le h.transitions.length_le

theorem getElem?_of_prefix {α : Type} {xs ys : List α} {i : Nat} {x : α} (h : xs <+: ys)
    (hx : xs[i]? = some x) : ys[i]? = some x := by
  obtain ⟨more, rfl⟩ := h
  exact getElem?_append_eq_some_iff.mpr (.inl hx)

theorem mem_of_mem_fresh {α : Type} {key : α → String} {xs : List α} {x : α}
    (h : x ∈ s.fresh key xs) : x ∈ xs :=
  List.mem_of_mem_filter ((distinctBy_sublist _ _).mem h)

theorem exists_position_iff {α : Type} {xs : List α} {m i : Nat} :
    (∃ x j, xs[j]? = some x ∧ i = m + j) ↔ i < m + xs.length ∧ ¬i < m := by
  constructor
  · rintro ⟨x, j, hx, rfl⟩
    have hj := (List.getElem?_eq_some_iff.mp hx).1
    omega
  · rintro ⟨hlt, hge⟩
    have hj : i - m < xs.length := by omega
    exact ⟨xs[i - m], i - m, List.getElem?_eq_getElem hj, by omega⟩

theorem creates_of_carriedOut (hp : p.Describes s c.references)
    (hout : p.CarriedOut s created s') : s.Creates s' created c.transitions := by
  refine ⟨extends_of_carriedOut hp hout, hout.label, hout.inherited, ?_, ?_, ?_⟩
  · intro n
    simp only [hout.created, Plan.mem_bindings]
    cases n with
    | place i =>
      change _ ↔ i < s'.net.places.length ∧ ¬i < s.net.places.length
      rw [hout.places, List.length_append, ← exists_position_iff]
      simp only [Node.place.injEq, reduceCtorEq, and_false, exists_false, or_false]
    | transition i =>
      change _ ↔ i < s'.net.transitions.length ∧ ¬i < s.net.transitions.length
      rw [hout.transitions, List.length_append, List.length_map,
        ← List.length_map TransitionRef.key, ← exists_position_iff]
      simp only [Node.transition.injEq, reduceCtorEq, and_false, exists_false, false_or]
  · intro name i h
    rw [hout.created, Plan.mem_bindings] at h
    rcases h with ⟨j, hj, he⟩ | ⟨j, -, he⟩
    · cases he
      rw [hout.places]
      exact getElem?_append_eq_some_iff.mpr (.inr ⟨j, hj, rfl⟩)
    · cases he
  · intro name i h
    rw [hout.created, Plan.mem_bindings] at h
    rcases h with ⟨j, -, he⟩ | ⟨j, hj, he⟩
    · cases he
    · cases he
      rw [List.getElem?_map, Option.map_eq_some_iff] at hj
      obtain ⟨t, ht, rfl⟩ := hj
      have hmem : t ∈ s.fresh TransitionRef.key c.transitions := by
        rw [← c.filterMap_transition?, ← hp.transitions]
        exact List.mem_of_getElem? ht
      refine ⟨t, mem_of_mem_fresh hmem, rfl, ?_⟩
      rw [hout.transitions]
      exact getElem?_append_eq_some_iff.mpr (.inr ⟨j, by rw [List.getElem?_map, ht]; rfl, rfl⟩)

theorem Creates.trans (h : s.Creates s' created ts) (h' : s'.Creates s'' created' ts')
    (hboth : ∀ b, b ∈ both.bindings ↔ b ∈ created.bindings ∨ b ∈ created'.bindings) :
    s.Creates s'' both (ts ++ ts') := by
  refine ⟨h.toExtends.trans h'.toExtends, h'.label.trans h.label,
    h'.inherited.trans h.inherited, ?_, ?_, ?_⟩
  · intro n
    have hmono : s.net.Contains n → s'.net.Contains n := h.toExtends.contains
    have hmono' : s'.net.Contains n → s''.net.Contains n := h'.toExtends.contains
    simp only [hboth, exists_or, h.node, h'.node]
    tauto
  · intro name i hmem
    rcases (hboth _).mp hmem with hmem | hmem
    · exact getElem?_of_prefix h'.places (h.place hmem)
    · exact h'.place hmem
  · intro name i hmem
    rcases (hboth _).mp hmem with hmem | hmem
    · obtain ⟨t, ht, hkey, hi⟩ := h.transition hmem
      exact ⟨t, List.mem_append_left _ ht, hkey, getElem?_of_prefix h'.transitions hi⟩
    · obtain ⟨t, ht, hkey, hi⟩ := h'.transition hmem
      exact ⟨t, List.mem_append_right _ ht, hkey, hi⟩

section Runs

variable {s₀ : Assembly}

/-- With the chains that are taken, exactly what was made since the start stays named. -/
theorem Creates.takes {cs : List Chain} (h : s₀.Creates s s.naming ts) (hrun : s.Takes cs s') :
    s₀.Creates s' s'.naming (ts ++ cs.flatMap Chain.transitions) := by
  induction hrun generalizing ts with
  | nil s =>
    rw [List.flatMap_nil, List.append_nil]
    exact h
  | cons hp hout _ ih =>
    rw [List.flatMap_cons, ← List.append_assoc]
    refine ih (h.trans (creates_of_carriedOut hp hout) fun b => ?_)
    rw [hout.naming, List.mem_append, hout.created]

/-- Nothing was added yet: the net is new, or one that is gone on with. -/
inductive IsInitial : Assembly → Prop
  | start (label : String) : IsInitial (.start label)
  | ofNet (net : Net) : IsInitial (.ofNet net)

theorem IsInitial.reachable (h : s.IsInitial) : s.Reachable := by
  cases h with
  | start label => exact .start label
  | ofNet net => exact .ofNet net

theorem IsInitial.naming_eq (h : s.IsInitial) : s.naming = .empty := by
  cases h with
  | start label => rfl
  | ofNet net => rfl

theorem IsInitial.creates (h : s.IsInitial) : s.Creates s s.naming [] := by
  rw [h.naming_eq]
  refine ⟨Extends.refl s, rfl, rfl, fun n => ⟨?_, ?_⟩, nofun, nofun⟩
  · rintro ⟨name, hmem⟩
    cases hmem
  · rintro ⟨hn, hnot⟩
    exact absurd hn hnot

end Runs

/-- A chain that is added leaves everything as it was, names exactly what it makes, and adds these
names to those that there are, which they do not meet. Whatever is asked of an assembly, its names
are those of the nodes that were made in it, one to one. -/
theorem adding_names_what_is_new :
    (∀ s : Assembly, s.Reachable → ∀ c created, (s.addChain c).result = .ok created →
      let s' := (s.addChain c).assembly
      s.Creates s' created c.transitions ∧
      (∀ b, b ∈ s'.naming.bindings ↔ b ∈ s.naming.bindings ∨ b ∈ created.bindings) ∧
      ∀ a ∈ s.naming.bindings, ∀ b ∈ created.bindings, a.1 ≠ b.1 ∧ a.2 ≠ b.2) ∧
    ∀ s : Assembly, s.IsInitial → ∀ requests : List Request,
      let s' := s.after requests
      s.Creates s' s'.naming ((s.taken requests).flatMap Chain.transitions) ∧
      ∀ name n, s'.naming.node? name = some n ↔ s'.naming.name? n = some name := by
  refine ⟨fun s hs c created h => ?_, fun s hs requests => ?_⟩
  · obtain ⟨p, hp, hout⟩ := describes_of_addChain_ok hs.grounded h
    have hnaming : (s.addChain c).assembly.naming.bindings =
        s.naming.bindings ++ created.bindings := by rw [hout.naming, hout.created]
    refine ⟨creates_of_carriedOut hp hout, fun b => by rw [hnaming, List.mem_append], ?_⟩
    have honeToOne := (s.addChain c).assembly.naming.oneToOne
    rw [hnaming] at honeToOne
    exact (List.pairwise_append.mp honeToOne).2.2
  · refine ⟨hs.creates.takes (takes_taken hs.reachable.grounded requests), fun name n => ?_⟩
    rw [Naming.node?_eq_some_iff, Naming.name?_eq_some_iff]

/-- A net with a label twice, a transition labelled like them and a heavy arc. The chain takes up
the place that was added last, and describes the heavy transition otherwise. -/
theorem adding_names_what_is_new_repeated :
    let net : Net := ⟨"net", ["a", "a"], [⟨"a", true, none⟩, ⟨"b", false, some .one⟩],
      [⟨.place 1, .transition 1, 3⟩], by decide, by decide⟩
    let s := ofNet net
    let c : Chain := ⟨"a", [⟨⟨"b", none, false, none⟩, "c"⟩, ⟨⟨"b", some "1", false, none⟩, "a"⟩]⟩
    let s' := (s.addChain c).assembly
    s.Reachable ∧ s.IsInitial ∧
      (∃ created, (s.addChain c).result = .ok created ∧
        created.bindings = [("c", .place 2), ("b__1", .transition 2)] ∧
        s.Creates s' created c.transitions) ∧
      s'.net.arcs.map Arc.weight = [3, 1, 1, 1] ∧
      s.Creates (s.after [.chain c]) (s.after [.chain c]).naming
        ((s.taken [.chain c]).flatMap Chain.transitions) := by
  intro net s c s'
  have hs : s.Reachable := .ofNet net
  obtain ⟨created, hresult⟩ : ∃ created, (s.addChain c).result = .ok created :=
    exists_eq_ok (by decide +kernel)
  have hcreated : (s.addChain c).result.map Naming.bindings =
      .ok [("c", .place 2), ("b__1", .transition 2)] := by decide +kernel
  rw [hresult] at hcreated
  obtain ⟨hcreates, -, -⟩ := adding_names_what_is_new.1 s hs c created hresult
  exact ⟨hs, .ofNet net, ⟨created, hresult, Except.ok.inj hcreated, hcreates⟩, by decide +kernel,
    (adding_names_what_is_new.2 s (.ofNet net) [.chain c]).1⟩

end Assembly

end PetriShorthand
