import PetriShorthand.Proofs.Keys
import PetriShorthand.Proofs.Reachable
import PetriShorthand.Proofs.Realization

namespace PetriShorthand

section Results

variable {ε α β : Type} {f : α → Except ε β} {x : α} {xs : List α} {ys : List β}

theorem mapM_cons_eq_ok_iff : (x :: xs).mapM f = .ok ys ↔
    ∃ y ys', f x = .ok y ∧ xs.mapM f = .ok ys' ∧ ys = y :: ys' := by
  rw [List.mapM_cons]
  constructor
  · intro h
    cases hx : f x with
    | error e =>
      rw [hx] at h
      cases h
    | ok y =>
      cases hxs : xs.mapM f with
      | error e =>
        rw [hx, hxs] at h
        cases h
      | ok ys' =>
        rw [hx, hxs] at h
        cases h
        exact ⟨y, ys', rfl, rfl, rfl⟩
  · rintro ⟨y, ys', hx, hxs, rfl⟩
    rw [hx, hxs]
    rfl

theorem mem_of_mapM (h : xs.mapM f = .ok ys) :
    (∀ x ∈ xs, ∃ y, f x = .ok y) ∧ ∀ y, y ∈ ys ↔ ∃ x ∈ xs, f x = .ok y := by
  induction xs generalizing ys with
  | nil =>
    cases h
    exact ⟨nofun, by simp⟩
  | cons x xs ih =>
    obtain ⟨y, ys', hx, hxs, rfl⟩ := mapM_cons_eq_ok_iff.mp h
    obtain ⟨hall, hmem⟩ := ih hxs
    refine ⟨List.forall_mem_cons.mpr ⟨⟨y, hx⟩, hall⟩, fun z => ?_⟩
    rw [List.mem_cons, hmem, List.exists_mem_cons_iff, hx, Except.ok.injEq, eq_comm]

theorem exists_mapM (h : ∀ x ∈ xs, ∃ y, f x = .ok y) : ∃ ys, xs.mapM f = .ok ys := by
  induction xs with
  | nil => exact ⟨[], rfl⟩
  | cons x xs ih =>
    obtain ⟨⟨y, hx⟩, hall⟩ := List.forall_mem_cons.mp h
    obtain ⟨ys, hxs⟩ := ih hall
    exact ⟨y :: ys, mapM_cons_eq_ok_iff.mpr ⟨y, ys, hx, hxs, rfl⟩⟩

theorem exists_mapM_of_same_mem {xs' : List α} (h : ∀ x, x ∈ xs ↔ x ∈ xs')
    (hxs : xs.mapM f = .ok ys) : ∃ ys', xs'.mapM f = .ok ys' ∧ ∀ y, y ∈ ys ↔ y ∈ ys' := by
  obtain ⟨hall, hmem⟩ := mem_of_mapM hxs
  obtain ⟨ys', hxs'⟩ := exists_mapM fun x hx => hall x ((h x).mpr hx)
  obtain ⟨-, hmem'⟩ := mem_of_mapM hxs'
  refine ⟨ys', hxs', fun y => ?_⟩
  rw [hmem, hmem']
  exact exists_congr fun x => and_congr_left fun _ => h x

end Results

/-- A node of a chain, known by what the chain writes. -/
inductive ChainNode where
  | place (label : String)
  | transition (label : String) (suffix : Option String)
  deriving DecidableEq

def TransitionRef.identity (t : TransitionRef) : String × Option String := (t.label, t.suffix)

def Reference.node : Reference → ChainNode
  | .place label => .place label
  | .transition t => .transition t.label t.suffix

namespace Meaning

def places (cs : List Chain) : List String := (cs.flatMap Chain.places).eraseDups

def transitions (cs : List Chain) : List TransitionRef :=
  distinctBy TransitionRef.identity (cs.flatMap Chain.transitions)

def links (cs : List Chain) : List (ChainNode × ChainNode) :=
  (cs.flatMap fun c => PetriShorthand.links (c.references.map Reference.node)).eraseDups

/-- Nodes have the numbers in which they first come up. -/
def node (cs : List Chain) : ChainNode → Node
  | .place label => .place ((places cs).idxOf label)
  | .transition label suffix =>
    .transition (((transitions cs).map TransitionRef.identity).idxOf (label, suffix))

def keys (cs : List Chain) : List String := (transitions cs).map TransitionRef.key

end Meaning

namespace Assembly

variable {s s' : Assembly} {cs : List Chain} {c : Chain} {created : Naming}

theorem realizes_of_foldlM {texts : List String} (hs : s.Grounded) (hr : s.Realizes cs)
    (h : texts.foldlM (fun s text => let o := s.addText text; o.result.map fun _ => o.assembly) s =
      .ok s') :
    ∃ cs', texts.mapM Chain.ofText = .ok cs' ∧ s'.Realizes (cs ++ cs') ∧
      s'.net.label = s.net.label := by
  induction texts generalizing s cs with
  | nil =>
    cases h
    exact ⟨[], rfl, by rwa [List.append_nil], rfl⟩
  | cons text texts ih =>
    rw [List.foldlM_cons] at h
    dsimp only at h
    cases hresult : (s.addText text).result with
    | error failure =>
      rw [hresult] at h
      cases h
    | ok created =>
      rw [hresult] at h
      obtain ⟨c, p, hread, hd, hout⟩ := addText_of_ok hs hresult
      obtain ⟨cs', hcs', hrealizes, hlabel⟩ := ih (hs.addText text) (hr.append hd hout) h
      refine ⟨c :: cs', ?_, ?_, hlabel.trans hout.label⟩
      · exact mapM_cons_eq_ok_iff.mpr ⟨c, cs', hread, hcs', rfl⟩
      · rwa [List.append_cons]

/-- The labels of the transitions have no underscores, as those that come from texts. -/
def ArePlain (cs : List Chain) : Prop := ∀ t ∈ cs.flatMap Chain.transitions, t.HasPlainLabel

theorem arePlain_of_ofText (h : ∀ c ∈ cs, ∃ text, Chain.ofText text = .ok c) : ArePlain cs := by
  intro t ht
  obtain ⟨c, hc, ht⟩ := List.mem_flatMap.mp ht
  obtain ⟨text, hread⟩ := h c hc
  exact Chain.hasPlainLabel_of_ofText hread t ht

theorem arePlain_of_mapM {texts : List String} {cs : List Chain}
    (h : texts.mapM Chain.ofText = .ok cs) : ArePlain cs := by
  refine arePlain_of_ofText fun c hc => ?_
  obtain ⟨text, -, hread⟩ := ((mem_of_mapM h).2 c).mp hc
  exact ⟨text, hread⟩

theorem ArePlain.transitions_eq (h : ArePlain cs) :
    distinctBy TransitionRef.key (cs.flatMap Chain.transitions) = Meaning.transitions cs :=
  distinctBy_congr fun t ht u hu => (h t ht).key_eq_iff (h u hu)

theorem nodup_places (cs : List Chain) : (Meaning.places cs).Nodup := nodup_eraseDups _

theorem ArePlain.nodup_keys (h : ArePlain cs) : (Meaning.keys cs).Nodup := by
  rw [Meaning.keys, ← h.transitions_eq]
  exact nodup_map_distinctBy _ _

theorem idxOf_eq_of_getElem? {α : Type} [BEq α] [LawfulBEq α] {xs : List α} {x : α} {i : Nat}
    (hnodup : xs.Nodup) (h : xs[i]? = some x) : xs.idxOf x = i := by
  obtain ⟨hi, rfl⟩ := List.getElem?_eq_some_iff.mp h
  exact hnodup.idxOf_getElem i hi

theorem node_of_getElem?_places {i : Nat} {label : String}
    (h : (Meaning.places cs)[i]? = some label) :
    Meaning.node cs (Reference.place label).node = .place i :=
  congrArg Node.place (idxOf_eq_of_getElem? (nodup_places cs) h)

theorem node_of_getElem?_transitions {i : Nat} {t : TransitionRef}
    (h : ((Meaning.transitions cs).map TransitionRef.identity)[i]? = some t.identity) :
    Meaning.node cs (Reference.transition t).node = .transition i :=
  congrArg Node.transition (idxOf_eq_of_getElem? (nodup_map_distinctBy _ _) h)

/-- A reference stands for the node that it means. -/
theorem Realizes.eq_node {r : Reference} {n : Node} (h : s.Realizes cs) (hplain : ArePlain cs)
    (hc : c ∈ cs) (hr : r ∈ c.references) (hn : s.resolve r.name = some n) :
    n = Meaning.node cs r.node := by
  obtain ⟨n', hn', hkind⟩ := h.kinds c hc r hr
  rw [hn] at hn'
  cases hn'
  have hnamed := (h.naming r.name n).mp (h.resolve_eq_some_iff.mp hn)
  rw [hplain.transitions_eq] at hnamed
  cases r with
  | place label =>
    cases n with
    | transition i => cases hkind
    | place i =>
      have hplaces : (Meaning.places cs)[i]? = some label := by
        rw [Meaning.places, ← distinctBy_id]
        exact hnamed
      exact (node_of_getElem?_places hplaces).symm
  | transition t =>
    cases n with
    | place i => cases hkind
    | transition i =>
      obtain ⟨u, hu, hkey⟩ : ∃ u, (Meaning.transitions cs)[i]? = some u ∧ u.key = t.key := by
        have hkeys : ((Meaning.transitions cs).map TransitionRef.key)[i]? = some t.key := hnamed
        rw [List.getElem?_map] at hkeys
        exact Option.map_eq_some_iff.mp hkeys
      have htmem : t ∈ cs.flatMap Chain.transitions :=
        List.mem_flatMap.mpr ⟨c, hc, Chain.mem_transitions_iff.mpr hr⟩
      have humem : u ∈ cs.flatMap Chain.transitions :=
        (distinctBy_sublist _ _).mem (List.mem_of_getElem? hu)
      have hsame : u.identity = t.identity :=
        ((hplain u humem).key_eq_iff (hplain t htmem)).mp hkey
      have hidentity : ((Meaning.transitions cs).map TransitionRef.identity)[i]? =
          some t.identity := by
        rw [List.getElem?_map, hu, Option.map_some, hsame]
      exact (node_of_getElem?_transitions hidentity).symm

theorem node_inj {r r' : Reference} (hc : c ∈ cs) (hr : r ∈ c.references)
    (h : Meaning.node cs r.node = Meaning.node cs r'.node) : r.node = r'.node := by
  cases r with
  | place label =>
    cases r' with
    | transition t => cases h
    | place label' =>
      have hmem : label ∈ Meaning.places cs :=
        List.mem_eraseDups.mpr (List.mem_flatMap.mpr ⟨c, hc, Chain.mem_places_iff.mpr hr⟩)
      have hidx : (Meaning.places cs).idxOf label = (Meaning.places cs).idxOf label' :=
        Node.place.inj h
      exact congrArg ChainNode.place ((List.idxOf_inj hmem).mp hidx)
  | transition t =>
    cases r' with
    | place label => cases h
    | transition u =>
      have hmem : t.identity ∈ (Meaning.transitions cs).map TransitionRef.identity := by
        rw [Meaning.transitions, mem_map_distinctBy]
        exact List.mem_map_of_mem
          (List.mem_flatMap.mpr ⟨c, hc, Chain.mem_transitions_iff.mpr hr⟩)
      have hidx : ((Meaning.transitions cs).map TransitionRef.identity).idxOf t.identity =
          ((Meaning.transitions cs).map TransitionRef.identity).idxOf u.identity :=
        Node.transition.inj h
      obtain ⟨hlabel, hsuffix⟩ := Prod.mk.inj ((List.idxOf_inj hmem).mp hidx)
      show ChainNode.transition _ _ = ChainNode.transition _ _
      rw [hlabel, hsuffix]

theorem Realizes.paths_eq {paths : List (List Node)} (h : s.Realizes cs) (hplain : ArePlain cs)
    (hpaths : (cs.map fun c => c.references.map fun r => s.resolve r.name) =
      paths.map (·.map some)) :
    paths = cs.map fun c => (c.references.map Reference.node).map (Meaning.node cs) := by
  have hsome : Function.Injective (List.map (some : Node → Option Node)) :=
    List.map_injective_iff.mpr fun _ _ => Option.some.inj
  refine List.map_injective_iff.mpr hsome ?_
  rw [← hpaths, List.map_map]
  refine List.map_congr_left fun c hc => ?_
  simp only [Function.comp_apply, List.map_map]
  refine List.map_congr_left fun r hr => ?_
  obtain ⟨n, hn, -⟩ := h.kinds c hc r hr
  rw [hn, h.eq_node hplain hc hr hn]
  rfl

theorem exists_references_of_mem_links {l : ChainNode × ChainNode}
    (hl : l ∈ cs.flatMap fun c => links (c.references.map Reference.node)) :
    ∃ c ∈ cs, ∃ r ∈ c.references, ∃ r' ∈ c.references, r.node = l.1 ∧ r'.node = l.2 := by
  obtain ⟨c, hc, hl⟩ := List.mem_flatMap.mp hl
  obtain ⟨hsource, htarget⟩ := List.of_mem_zip hl
  obtain ⟨r, hr, hnode⟩ := List.mem_map.mp hsource
  obtain ⟨r', hr', hnode'⟩ := List.mem_map.mp (List.mem_of_mem_tail htarget)
  exact ⟨c, hc, r, hr, r', hr', hnode, hnode'⟩

theorem link_inj {l l' : ChainNode × ChainNode}
    (hl : l ∈ cs.flatMap fun c => links (c.references.map Reference.node))
    (hl' : l' ∈ cs.flatMap fun c => links (c.references.map Reference.node))
    (h : Prod.map (Meaning.node cs) (Meaning.node cs) l =
      Prod.map (Meaning.node cs) (Meaning.node cs) l') : l = l' := by
  obtain ⟨c, hc, r₁, hr₁, r₂, hr₂, h₁, h₂⟩ := exists_references_of_mem_links hl
  obtain ⟨c', -, r₁', -, r₂', -, h₁', h₂'⟩ := exists_references_of_mem_links hl'
  obtain ⟨hsource, htarget⟩ := Prod.mk.inj h
  rw [← h₁, ← h₁'] at hsource
  rw [← h₂, ← h₂'] at htarget
  have hfirst := node_inj hc hr₁ hsource
  have hsecond := node_inj hc hr₂ htarget
  rw [h₁, h₁'] at hfirst
  rw [h₂, h₂'] at hsecond
  exact Prod.ext hfirst hsecond

theorem Realizes.arcs_eq (h : s.Realizes cs) (hplain : ArePlain cs) :
    s.net.arcs = (Meaning.links cs).map fun l =>
      .single (Meaning.node cs l.1, Meaning.node cs l.2) := by
  obtain ⟨paths, hpaths, harcs⟩ := h.arcs
  have hlinks : paths.flatMap links = (cs.flatMap fun c => links (c.references.map
      Reference.node)).map (Prod.map (Meaning.node cs) (Meaning.node cs)) := by
    rw [h.paths_eq hplain hpaths, List.flatMap_map, List.map_flatMap]
    simp only [links_map]
  -- numbering the nodes neither joins links nor tells them apart, so first occurrences stay first
  have hinj : ∀ l ∈ cs.flatMap fun c => links (c.references.map Reference.node),
      ∀ l' ∈ cs.flatMap fun c => links (c.references.map Reference.node),
      id (Prod.map (Meaning.node cs) (Meaning.node cs) l) =
        id (Prod.map (Meaning.node cs) (Meaning.node cs) l') ↔ id l = id l' := by
    intro l hl l' hl'
    exact ⟨link_inj hl hl', congrArg (Prod.map (Meaning.node cs) (Meaning.node cs))⟩
  rw [harcs, hlinks, distinctBy_map, distinctBy_congr hinj, distinctBy_id, List.map_map]
  rfl

/-- An assembly of texts has what their chains mean: places and transitions as they first come up,
with what is first said of them, an arc of weight 1 for every two neighbours, and a name for each
node. -/
theorem ofTexts_means {label : String} {texts : List String} {s : Assembly}
    (h : ofTexts label texts = .ok s) :
    ∃ cs, texts.mapM Chain.ofText = .ok cs ∧ s.net.label = label ∧
      s.net.places = Meaning.places cs ∧
      s.net.transitions = (Meaning.transitions cs).map TransitionRef.transition ∧
      s.net.arcs = (Meaning.links cs).map (fun l =>
        ⟨Meaning.node cs l.1, Meaning.node cs l.2, 1⟩) ∧
      (∀ name n, s.naming.node? name = some n ↔
        Names (Meaning.places cs) (Meaning.keys cs) name n) ∧
      (∀ name n, s.naming.name? n = some name ↔
        Names (Meaning.places cs) (Meaning.keys cs) name n) := by
  obtain ⟨cs, hcs, hr, hlabel⟩ := realizes_of_foldlM (grounded_start label) (realizes_start label) h
  rw [List.nil_append] at hr
  have hplain := arePlain_of_mapM hcs
  have hnames : ∀ name n, (name, n) ∈ s.naming.bindings ↔
      Names (Meaning.places cs) (Meaning.keys cs) name n := by
    intro name n
    rw [hr.naming, hplain.transitions_eq, distinctBy_id]
    rfl
  refine ⟨cs, hcs, hlabel, ?_, ?_, hr.arcs_eq hplain, ?_, ?_⟩
  · rw [hr.places, distinctBy_id, Meaning.places]
  · rw [hr.transitions, hplain.transitions_eq]
  · intro name n
    rw [Naming.node?_eq_some_iff, hnames]
  · intro name n
    rw [Naming.name?_eq_some_iff, hnames]

/-- The second chain comes back to nodes of the first and repeats two of its arcs. -/
theorem ofTexts_means_reuse :
    let texts := ["a -> [b__1] -> c", "c -> \x7bb__2\x7d -> a -> \x7bb__1\x7d -> c"]
    ∃ s, ofTexts "net" texts = .ok s ∧ s.net.places = ["a", "c"] ∧
      s.net.transitions = [⟨"b", false, none⟩, ⟨"b", false, some .one⟩] ∧
      s.net.arcs = [⟨.place 0, .transition 0, 1⟩, ⟨.transition 0, .place 1, 1⟩,
        ⟨.place 1, .transition 1, 1⟩, ⟨.transition 1, .place 0, 1⟩] ∧
      s.naming.name? (.transition 1) = some "b__2" := by
  intro texts
  have hread : texts.mapM Chain.ofText =
      .ok [⟨"a", [⟨⟨"b", some "1", false, none⟩, "c"⟩]⟩,
        ⟨"c", [⟨⟨"b", some "2", false, some .one⟩, "a"⟩,
          ⟨⟨"b", some "1", false, some .one⟩, "c"⟩]⟩] := by decide +kernel
  have hsome : (ofTexts "net" texts).toOption.isSome := by decide +kernel
  cases hs : ofTexts "net" texts with
  | error failure =>
    rw [hs] at hsome
    cases hsome
  | ok s =>
    obtain ⟨cs, hcs, -, hplaces, htransitions, harcs, -, hnames⟩ := ofTexts_means hs
    rw [hread] at hcs
    cases hcs
    refine ⟨s, rfl, hplaces.trans (by decide), htransitions.trans (by decide +kernel),
      harcs.trans (by decide), (hnames _ _).mpr ?_⟩
    show _ = some "b__2"
    decide

end Assembly

end PetriShorthand
