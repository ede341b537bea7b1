import PetriShorthand.Proofs.Acceptance

namespace PetriShorthand

/-- Where the one list ends with the element with which the other begins, the neighbours in both
are those in the lists put together. -/
theorem links_append_tail {α : Type} {xs ys : List α} (h : xs.getLast? = ys.head?) :
    links (xs ++ ys.tail) = links xs ++ links ys := by
  induction xs with
  | nil =>
    rw [List.getLast?_nil, eq_comm, List.head?_eq_none_iff] at h
    rw [h]
    rfl
  | cons x xs ih =>
    cases xs with
    | nil =>
      rw [List.getLast?_singleton, eq_comm, List.head?_eq_some_iff] at h
      obtain ⟨ys, rfl⟩ := h
      rfl
    | cons x' xs =>
      rw [List.getLast?_cons_cons] at h
      exact congrArg ((x, x') :: ·) (ih h)

theorem Chain.references_append (head label : String) (xs ys : List Step) :
    (Chain.mk head (xs ++ ys)).references =
      (Chain.mk head xs).references ++ (Chain.mk label ys).references.tail := by
  rw [references, List.flatMap_append]
  rfl

theorem Chain.getLast?_references (head : String) {xs : List Step} {st : Step}
    (h : xs.getLast? = some st) :
    (Chain.mk head xs).references.getLast? = some (.place st.place) := by
  obtain ⟨before, rfl⟩ := List.getLast?_eq_some_iff.mp h
  rw [references, List.flatMap_append, List.flatMap_singleton, List.getLast?_cons,
    List.getLast?_append]
  rfl

theorem Addition.bindings_append {α : Type} {a : Addition α} {net net' : Net} {xs ys : List α}
    (h : a.number net' = a.number net + xs.length) :
    a.bindings net (xs ++ ys) = a.bindings net xs ++ a.bindings net' ys := by
  rw [bindings, List.mapIdx_append, bindings, bindings, h]
  simp only [Nat.add_assoc, Nat.add_comm xs.length]

namespace Assembly

section Fresh

variable {α : Type} {s s' : Assembly} {key : α → String} {xs ys : List α}

theorem fresh_append (h : ∀ y ∈ ys,
    s'.resolve (key y) = none ↔ s.resolve (key y) = none ∧ key y ∉ xs.map key) :
    s.fresh key (xs ++ ys) = s.fresh key xs ++ s'.fresh key ys := by
  have hfilter : ∀ (s : Assembly), s.fresh key ys =
      (distinctBy key ys).filter fun y => (s.resolve (key y)).isNone :=
    fun s => distinctBy_filter key (fun name => (s.resolve name).isNone) ys
  rw [fresh, List.filter_append, distinctBy_append, hfilter s', ← fresh, ← fresh, hfilter s,
    List.filter_filter]
  congr 1
  refine List.filter_congr fun y hy => ?_
  rw [Bool.eq_iff_iff, Bool.and_eq_true, decide_eq_true_iff, Option.isNone_iff_eq_none,
    Option.isNone_iff_eq_none, h y ((distinctBy_sublist key ys).mem hy), and_comm]
  -- among names that stand for nothing, those of the first list are the new ones of the first list
  refine and_congr_right fun hnone => not_congr ?_
  simp only [List.mem_map, List.mem_filter, Option.isNone_iff_eq_none]
  constructor
  · rintro ⟨x, ⟨hx, -⟩, he⟩
    exact ⟨x, hx, he⟩
  · rintro ⟨x, hx, he⟩
    exact ⟨x, ⟨hx, he ▸ hnone⟩, he⟩

theorem fresh_cons_of_some {x : α} {n : Node} (h : s.resolve (key x) = some n) :
    s.fresh key (x :: xs) = s.fresh key xs := by
  rw [fresh, List.filter_cons_of_neg (by simp [h]), fresh]

end Fresh

variable {s s' s₁ s₂ : Assembly} {p p₁ p₂ : Plan} {created created₁ created₂ : Naming}
  {refs refs' : List Reference} {r : Reference}

/-- What references make new is what the first ones make new, and then what the others do. They may
begin with the last of the first ones once more. -/
theorem fresh_pick_append {α : Type} {pick : Reference → Option α} {key : α → String}
    {kind : NodeKind} (hpick : Reference.Picks pick key kind) (hp₁ : p₁.Describes s refs)
    (hout₁ : p₁.CarriedOut s created₁ s₁) (hr : r ∈ refs) (hfits : s₁.Fits refs') :
    s.fresh key ((refs ++ refs').filterMap pick) =
      s.fresh key (refs.filterMap pick) ++ s₁.fresh key ((r :: refs').filterMap pick) := by
  have hagain : s₁.fresh key ((r :: refs').filterMap pick) =
      s₁.fresh key (refs'.filterMap pick) := by
    obtain ⟨n, hn, -⟩ := exists_resolve_of_added hp₁ hout₁ hr
    cases hx : pick r with
    | none => rw [List.filterMap_cons_none hx]
    | some x =>
      rw [(hpick.name hx).1] at hn
      rw [List.filterMap_cons_some hx, fresh_cons_of_some hn]
  rw [List.filterMap_append, hagain]
  refine fresh_append fun y hy => ?_
  obtain ⟨r', hr', hy⟩ := List.mem_filterMap.mp hy
  obtain ⟨hname, hkind⟩ := hpick.name hy
  have hfree := resolve_eq_none_iff_of_added hp₁ hout₁ (hfits.known r' hr')
  rw [hname, hkind] at hfree
  rw [hfree]
  refine and_congr_right fun _ => ?_
  constructor
  · intro h hmem
    obtain ⟨x, hx, he⟩ := List.mem_map.mp hmem
    obtain ⟨r'', hr'', hx⟩ := List.mem_filterMap.mp hx
    obtain ⟨hname', hkind'⟩ := hpick.name hx
    exact h r'' hr'' hkind' (hname'.trans he)
  · intro h r'' hr'' hkind' he
    obtain ⟨x, hx⟩ := hpick.all hkind'
    have hmem : x ∈ refs.filterMap pick := List.mem_filterMap.mpr ⟨r'', hr'', hx⟩
    exact h (List.mem_map.mpr ⟨x, hmem, (hpick.name hx).1.symm.trans he⟩)

/-- The references of a chain fit exactly if those of its first piece do, and then those of its
second piece, which begins with the last of the first. -/
theorem fits_cut_iff (hp₁ : p₁.Describes s refs) (hout₁ : p₁.CarriedOut s created₁ s₁)
    (hr : r ∈ refs) : s.Fits (refs ++ refs') ↔ s₁.Fits (r :: refs') := by
  rw [← fits_append_iff hp₁ hout₁]
  refine ⟨fun h => h.subset ?_, fun h => h.subset ?_⟩
  · intro q hq
    rcases List.mem_append.mp hq with hq | hq
    · exact List.mem_append_left _ hq
    · rcases List.mem_cons.mp hq with rfl | hq
      · exact List.mem_append_left _ hr
      · exact List.mem_append_right _ hq
  · exact List.append_subset.mpr ⟨List.subset_append_left _ _,
      fun q hq => List.mem_append_right _ (List.mem_cons_of_mem _ hq)⟩

/-- Both have the same net and give the same answers about names. -/
structure Matches (s s' : Assembly) : Prop where
  net : s.net = s'.net
  node : ∀ name, s.naming.node? name = s'.naming.node? name
  name : ∀ n, s.naming.name? n = s'.naming.name? n
  resolve : ∀ name, s.resolve name = s'.resolve name

theorem matches_of_same_mem (hnet : s.net = s'.net) (hinherited : s.inherited = s'.inherited)
    (h : ∀ b, b ∈ s.naming.bindings ↔ b ∈ s'.naming.bindings) : s.Matches s' := by
  have hnode : ∀ name, s.naming.node? name = s'.naming.node? name := by
    intro name
    refine Option.ext fun n => ?_
    rw [Naming.node?_eq_some_iff, Naming.node?_eq_some_iff, h]
  refine ⟨hnet, hnode, fun n => Option.ext fun name => ?_, fun name => ?_⟩
  · rw [Naming.name?_eq_some_iff, Naming.name?_eq_some_iff, h]
  · rw [Assembly.resolve, Assembly.resolve, hnode, hinherited]

section Cut

variable (hp : p.Describes s (refs ++ refs')) (hout : p.CarriedOut s created s')
  (hp₁ : p₁.Describes s refs) (hout₁ : p₁.CarriedOut s created₁ s₁)
  (hp₂ : p₂.Describes s₁ (r :: refs')) (hout₂ : p₂.CarriedOut s₁ created₂ s₂)
  (hr : refs.getLast? = some r)

include hp hp₁ hout₁ hp₂ hr

theorem places_of_cut : p.places = p₁.places ++ p₂.places := by
  have hfits := (fits_append_iff hp₁ hout₁).mp (fits_of_describes hp)
  rw [hp.places, fresh_pick_append Reference.picks_place? hp₁ hout₁ (List.mem_of_getLast? hr) hfits,
    hp₁.places, hp₂.places]

theorem transitions_of_cut : p.transitions = p₁.transitions ++ p₂.transitions := by
  have hfits := (fits_append_iff hp₁ hout₁).mp (fits_of_describes hp)
  rw [hp.transitions,
    fresh_pick_append Reference.picks_transition? hp₁ hout₁ (List.mem_of_getLast? hr) hfits,
    hp₁.transitions, hp₂.transitions]

theorem mem_bindings_of_cut (b : String × Node) :
    b ∈ p.bindings s.net ↔ b ∈ p₁.bindings s.net ∨ b ∈ p₂.bindings s₁.net := by
  have hplaces : Addition.places.bindings s.net p.places =
      Addition.places.bindings s.net p₁.places ++ Addition.places.bindings s₁.net p₂.places := by
    rw [places_of_cut hp hp₁ hout₁ hp₂ hr]
    exact Addition.bindings_append (by simp [Addition.places, hout₁.places])
  have htransitions : Addition.transitions.bindings s.net p.transitions =
      Addition.transitions.bindings s.net p₁.transitions ++
        Addition.transitions.bindings s₁.net p₂.transitions := by
    rw [transitions_of_cut hp hp₁ hout₁ hp₂ hr]
    exact Addition.bindings_append (by simp [Addition.transitions, hout₁.transitions])
  simp only [Plan.bindings, hplaces, htransitions, List.mem_append]
  tauto

include hout hout₂

theorem mem_naming_of_cut (b : String × Node) :
    b ∈ s'.naming.bindings ↔ b ∈ s₂.naming.bindings := by
  rw [hout.naming, hout₂.naming, hout₁.naming, List.mem_append, List.mem_append, List.mem_append,
    mem_bindings_of_cut hp hp₁ hout₁ hp₂ hr, or_assoc]

theorem resolve_of_cut (name : String) : s'.resolve name = s₂.resolve name := by
  have hnode : s'.naming.node? name = s₂.naming.node? name := by
    refine Option.ext fun n => ?_
    rw [Naming.node?_eq_some_iff, Naming.node?_eq_some_iff,
      mem_naming_of_cut hp hout hp₁ hout₁ hp₂ hout₂ hr]
  rw [Assembly.resolve, Assembly.resolve, hnode, hout.inherited, hout₂.inherited, hout₁.inherited]

/-- The path leads along the paths of the pieces, which meet where the chain is cut. -/
theorem path_of_cut : p.path = p₁.path ++ p₂.path.tail ∧ p₁.path.getLast? = p₂.path.head? := by
  have hwhole : p.path.map some = (refs ++ refs').map fun q => s₂.resolve q.name := by
    rw [← hp.path]
    refine List.map_congr_left fun q _ => ?_
    rw [← hout.resolve_eq hp, resolve_of_cut hp hout hp₁ hout₁ hp₂ hout₂ hr]
  have hfirst : p₁.path.map some = refs.map fun q => s₂.resolve q.name := by
    rw [← hp₁.path]
    refine List.map_congr_left fun q hq => ?_
    obtain ⟨n, hn, -⟩ := exists_resolve_of_added hp₁ hout₁ hq
    rw [hout₂.resolve_of_some hp₂ hn, ← hout₁.resolve_eq hp₁, hn]
  have hsecond : p₂.path.map some = (r :: refs').map fun q => s₂.resolve q.name := by
    simp only [← hp₂.path, hout₂.resolve_eq hp₂]
  have hsome : Function.Injective (some : Node → Option Node) := fun _ _ => Option.some.inj
  refine ⟨List.map_injective_iff.mpr hsome ?_, Option.map_injective hsome ?_⟩
  · rw [hwhole, List.map_append, List.map_append, hfirst, List.map_tail, hsecond]
    rfl
  · rw [← List.getLast?_map, hfirst, ← List.head?_map, hsecond, List.getLast?_map, hr]
    rfl

theorem arcs_of_cut : s'.net.arcs = s₂.net.arcs := by
  obtain ⟨hpath, hmeet⟩ := path_of_cut hp hout hp₁ hout₁ hp₂ hout₂ hr
  rw [hout.arcs, hout₂.arcs, hpath, links_append_tail hmeet, distinctBy_append, List.filter_append,
    List.map_append, ← List.append_assoc, ← hout₁.arcs, List.filter_filter]
  congr 2
  refine List.filter_congr fun l _ => ?_
  rw [Bool.eq_iff_iff]
  simp only [Bool.and_eq_true, decide_eq_true_eq, List.map_id, id_eq, hout₁.mem_ends_iff, not_or]

theorem net_of_cut : s'.net = s₂.net := by
  refine Net.ext ?_ ?_ ?_ (arcs_of_cut hp hout hp₁ hout₁ hp₂ hout₂ hr)
  · rw [hout.label, hout₂.label, hout₁.label]
  · rw [hout.places, hout₂.places, hout₁.places, places_of_cut hp hp₁ hout₁ hp₂ hr,
      List.append_assoc]
  · rw [hout.transitions, hout₂.transitions, hout₁.transitions,
      transitions_of_cut hp hp₁ hout₁ hp₂ hr, List.map_append, List.append_assoc]

end Cut

/-- A chain can be added exactly if its pieces can be added one after the other, and then it makes
the same net with the same names, and creates what they create. -/
theorem adding_pieces (hs : s.Reachable) (head : String) {xs : List Step} (ys : List Step)
    {last : Step} (hlast : xs.getLast? = some last) :
    let whole := s.addChain ⟨head, xs ++ ys⟩
    let first := s.addChain ⟨head, xs⟩
    let second := first.assembly.addChain ⟨last.place, ys⟩
    ((∃ created, whole.result = .ok created) ↔
      (∃ created₁, first.result = .ok created₁) ∧ ∃ created₂, second.result = .ok created₂) ∧
    ∀ created created₁ created₂, whole.result = .ok created → first.result = .ok created₁ →
      second.result = .ok created₂ → whole.assembly.Matches second.assembly ∧
        ∀ b, b ∈ created.bindings ↔ b ∈ created₁.bindings ∨ b ∈ created₂.bindings := by
  intro whole first second
  have hs := hs.grounded
  have hs₁ : first.assembly.Grounded := hs.addChain _
  have hrefs := Chain.references_append head last.place xs ys
  have hcut := Chain.getLast?_references head hlast
  have hmem := List.mem_of_getLast? hcut
  refine ⟨?_, fun created created₁ created₂ h h₁ h₂ => ?_⟩
  · rw [exists_addChain_ok_iff hs, exists_addChain_ok_iff hs₁, hrefs]
    constructor
    · intro h
      have hfirst := (exists_addChain_ok_iff hs _).mpr (h.subset (List.subset_append_left _ _))
      obtain ⟨created₁, h₁⟩ := hfirst
      obtain ⟨p₁, hp₁, hout₁⟩ := describes_of_addChain_ok hs h₁
      exact ⟨⟨created₁, h₁⟩, (fits_cut_iff hp₁ hout₁ hmem).mp h⟩
    · rintro ⟨⟨created₁, h₁⟩, h⟩
      obtain ⟨p₁, hp₁, hout₁⟩ := describes_of_addChain_ok hs h₁
      exact (fits_cut_iff hp₁ hout₁ hmem).mpr h
  · obtain ⟨p, hp, hout⟩ := describes_of_addChain_ok hs h
    obtain ⟨p₁, hp₁, hout₁⟩ := describes_of_addChain_ok hs h₁
    obtain ⟨p₂, hp₂, hout₂⟩ := describes_of_addChain_ok hs₁ h₂
    rw [hrefs] at hp
    have hnet := net_of_cut hp hout hp₁ hout₁ hp₂ hout₂ hcut
    have hnaming := mem_naming_of_cut hp hout hp₁ hout₁ hp₂ hout₂ hcut
    refine ⟨matches_of_same_mem hnet ?_ hnaming, fun b => ?_⟩
    · rw [hout.inherited, hout₂.inherited, hout₁.inherited]
    · rw [hout.created, hout₁.created, hout₂.created]
      exact mem_bindings_of_cut hp hp₁ hout₁ hp₂ hcut b

/-- A net that has a label twice is gone on with. Behind the cut the chain comes back to a place and
to a transition from before it, which it describes otherwise; the nodes are named in another
order. -/
theorem adding_pieces_reuse :
    let s := ofNet (((Net.empty "net").addPlace "a").addPlace "a")
    let xs : List Step := [⟨⟨"t", some "1", false, none⟩, "b"⟩]
    let ys : List Step :=
      [⟨⟨"u", none, false, none⟩, "a"⟩, ⟨⟨"t", some "1", false, some .one⟩, "c"⟩]
    let whole := s.addChain ⟨"a", xs ++ ys⟩
    let second := (s.addChain ⟨"a", xs⟩).assembly.addChain ⟨"b", ys⟩
    s.Reachable ∧ xs.getLast? = some ⟨⟨"t", some "1", false, none⟩, "b"⟩ ∧
      whole.assembly.naming.bindings ≠ second.assembly.naming.bindings ∧
      whole.assembly.Matches second.assembly := by
  intro s xs ys whole second
  have hs : s.Reachable := .ofNet _
  have hlast : xs.getLast? = some ⟨⟨"t", some "1", false, none⟩, "b"⟩ := rfl
  obtain ⟨hsuccess, hsame⟩ := adding_pieces hs "a" ys hlast
  have hcreated : ∃ created, whole.result = .ok created := exists_eq_ok (by decide +kernel)
  obtain ⟨⟨created₁, h₁⟩, created₂, h₂⟩ := hsuccess.mp hcreated
  obtain ⟨created, h⟩ := hcreated
  exact ⟨hs, hlast, by decide +kernel, (hsame created created₁ created₂ h h₁ h₂).1⟩

end Assembly

end PetriShorthand
