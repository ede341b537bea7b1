import PetriShorthand.Assembly.Plan
import PetriShorthand.Proofs.FirstOccurrence

namespace PetriShorthand

/-- A node as a chain refers to it. -/
inductive Reference where
  | place (label : String)
  | transition (t : TransitionRef)
  deriving DecidableEq

namespace Reference

def name : Reference → String
  | place label => label
  | transition t => t.key

def kind : Reference → NodeKind
  | place _ => .place
  | transition _ => .transition

def place? : Reference → Option String
  | place label => some label
  | transition _ => none

def transition? : Reference → Option TransitionRef
  | place _ => none
  | transition t => some t

/-- The references of one kind, and the names by which they are told apart. -/
structure Picks {α : Type} (pick : Reference → Option α) (key : α → String) (kind : NodeKind) :
    Prop where
  name : ∀ {r x}, pick r = some x → r.name = key x ∧ r.kind = kind
  all : ∀ {r : Reference}, r.kind = kind → ∃ x, pick r = some x

theorem picks_place? : Picks place? id .place := by
  refine ⟨fun {r x} h => ?_, fun {r} h => ?_⟩
  · cases r with
    | place label => exact ⟨Option.some.inj h, rfl⟩
    | transition t => cases h
  · cases r with
    | place label => exact ⟨label, rfl⟩
    | transition t => cases h

theorem picks_transition? : Picks transition? TransitionRef.key .transition := by
  refine ⟨fun {r x} h => ?_, fun {r} h => ?_⟩
  · cases r with
    | place label => cases h
    | transition t => exact ⟨congrArg TransitionRef.key (Option.some.inj h), rfl⟩
  · cases r with
    | place label => cases h
    | transition t => exact ⟨t, rfl⟩

end Reference

namespace Chain

def references (c : Chain) : List Reference :=
  .place c.head :: c.steps.flatMap fun st => [.transition st.transition, .place st.place]

def transitions (c : Chain) : List TransitionRef := c.steps.map (·.transition)

theorem filterMap_place? (c : Chain) : c.references.filterMap Reference.place? = c.places := by
  rw [references, List.filterMap_cons, List.filterMap_flatMap]
  show c.head :: c.steps.flatMap (fun st => [st.place]) = c.places
  rw [← List.map_eq_flatMap]
  rfl

theorem filterMap_transition? (c : Chain) :
    c.references.filterMap Reference.transition? = c.transitions := by
  rw [references, List.filterMap_cons, List.filterMap_flatMap]
  show c.steps.flatMap (fun st => [st.transition]) = c.transitions
  rw [← List.map_eq_flatMap]
  rfl

theorem mem_places_iff {c : Chain} {label : String} :
    label ∈ c.places ↔ .place label ∈ c.references := by
  rw [← c.filterMap_place?, List.mem_filterMap]
  constructor
  · rintro ⟨r, hr, he⟩
    cases r with
    | place l => exact Option.some.inj he ▸ hr
    | transition t => cases he
  · intro hr
    exact ⟨_, hr, rfl⟩

theorem mem_transitions_iff {c : Chain} {t : TransitionRef} :
    t ∈ c.transitions ↔ .transition t ∈ c.references := by
  rw [← c.filterMap_transition?, List.mem_filterMap]
  constructor
  · rintro ⟨r, hr, he⟩
    cases r with
    | place l => cases he
    | transition u => exact Option.some.inj he ▸ hr
  · intro hr
    exact ⟨_, hr, rfl⟩

end Chain

namespace Assembly

variable {α : Type} {s : Assembly} {key : α → String} {xs : List α} {x : α}

/-- The first elements whose keys stand for nothing yet. -/
def fresh (s : Assembly) (key : α → String) (xs : List α) : List α :=
  distinctBy key (xs.filter fun x => (s.resolve (key x)).isNone)

theorem mem_map_fresh (key : α → String) {name : String} :
    name ∈ (s.fresh key xs).map key ↔ name ∈ xs.map key ∧ s.resolve name = none := by
  rw [fresh, mem_map_distinctBy]
  simp only [List.mem_map, List.mem_filter, Option.isNone_iff_eq_none]
  constructor
  · rintro ⟨x, ⟨hx, hnone⟩, rfl⟩
    exact ⟨⟨x, hx, rfl⟩, hnone⟩
  · rintro ⟨⟨x, hx, rfl⟩, hnone⟩
    exact ⟨x, ⟨hx, hnone⟩, rfl⟩

theorem nodup_map_fresh : ((s.fresh key xs).map key).Nodup := nodup_map_distinctBy _ _

theorem fresh_concat_known (key : α → String)
    (h : s.resolve (key x) ≠ none ∨ key x ∈ (s.fresh key xs).map key) :
    s.fresh key (xs ++ [x]) = s.fresh key xs := by
  rw [fresh, List.filter_append]
  by_cases hnone : s.resolve (key x) = none
  · have hmem := h.resolve_left (not_not_intro hnone)
    rw [List.filter_cons_of_pos (by simpa using hnone), List.filter_nil]
    exact distinctBy_concat_of_mem (mem_map_distinctBy.mp hmem)
  · rw [List.filter_cons_of_neg (by simpa using hnone), List.filter_nil, List.append_nil]
    rfl

theorem fresh_concat_new (key : α → String) (h : s.resolve (key x) = none)
    (hnew : key x ∉ (s.fresh key xs).map key) :
    s.fresh key (xs ++ [x]) = s.fresh key xs ++ [x] := by
  rw [fresh, List.filter_append, List.filter_cons_of_pos (by simpa using h), List.filter_nil]
  exact distinctBy_concat_of_not_mem fun hmem => hnew (mem_map_distinctBy.mpr hmem)

end Assembly

namespace Plan

variable {s : Assembly} {p : Plan} {r : Reference}

theorem newPlace?_eq_none_iff {net : Net} {label : String} :
    p.newPlace? net label = none ↔ label ∉ p.places := by
  rw [newPlace?, Option.map_eq_none_iff, List.idxOf?_eq_none_iff]

theorem newTransition?_eq_none_iff {net : Net} {key : String} :
    p.newTransition? net key = none ↔ key ∉ p.transitions.map TransitionRef.key := by
  rw [newTransition?, Option.map_eq_none_iff, List.findIdx?_eq_none_iff]
  simp only [List.mem_map, decide_eq_false_iff_not, not_exists, not_and]

theorem resolve_eq_none_iff {name : String} :
    p.resolve s name = none ↔ s.resolve name = none ∧ name ∉ p.places ∧
      name ∉ p.transitions.map TransitionRef.key := by
  rw [resolve, Option.or_eq_none_iff, Option.or_eq_none_iff, newPlace?_eq_none_iff,
    newTransition?_eq_none_iff]

def nextNode (s : Assembly) (p : Plan) : Reference → Node
  | .place _ => .place (s.net.places.length + p.places.length)
  | .transition _ => .transition (s.net.transitions.length + p.transitions.length)

def add (s : Assembly) (p : Plan) : Reference → Plan
  | .place label => p.addPlace s label
  | .transition t => p.addTransition s t

def reuse (s : Assembly) (p : Plan) : Reference → Node → Plan
  | .transition t, .transition i => (p.compareWeight s i t).visit (.transition i)
  | _, n => p.visit n

theorem kind_nextNode : (p.nextNode s r).kind = r.kind := by
  cases r with
  | place label => rfl
  | transition t => rfl

theorem path_add : (p.add s r).path = p.path ++ [p.nextNode s r] := by
  cases r with
  | place label => rfl
  | transition t => rfl

theorem reuse_eq (n : Node) : (p.reuse s r n).places = p.places ∧
    (p.reuse s r n).transitions = p.transitions ∧ (p.reuse s r n).path = p.path ++ [n] := by
  cases r with
  | place label => exact ⟨rfl, rfl, rfl⟩
  | transition t =>
    cases n with
    | place i => exact ⟨rfl, rfl, rfl⟩
    | transition i =>
      simp only [reuse, visit, compareWeight]
      split
      · exact ⟨rfl, rfl, rfl⟩
      · split
        · exact ⟨rfl, rfl, rfl⟩
        · exact ⟨rfl, rfl, rfl⟩

theorem resolve_reuse (n : Node) (name : String) :
    (p.reuse s r n).resolve s name = p.resolve s name := by
  obtain ⟨hplaces, htransitions, -⟩ := p.reuse_eq (s := s) (r := r) n
  simp only [resolve, newPlace?, newTransition?, hplaces, htransitions]

theorem newPlace?_addPlace (net : Net) (label name : String) :
    (p.addPlace s label).newPlace? net name = (p.newPlace? net name).or
      (if label = name then some (.place (net.places.length + p.places.length)) else none) := by
  have happend : (p.places ++ [label]).idxOf? name = (p.places.idxOf? name).or
      (if label = name then some p.places.length else none) := by
    rw [List.idxOf?, List.findIdx?_append, List.findIdx?_singleton, ← List.idxOf?]
    by_cases he : label = name
    · simp [he]
    · simp [he]
  change ((p.places ++ [label]).idxOf? name).map _ = _
  rw [happend, Option.map_or, newPlace?]
  by_cases he : label = name
  · rw [if_pos he, if_pos he, Option.map_some]
  · rw [if_neg he, if_neg he, Option.map_none]

theorem newTransition?_addTransition (net : Net) (t : TransitionRef) (key : String) :
    (p.addTransition s t).newTransition? net key = (p.newTransition? net key).or
      (if t.key = key then some (.transition (net.transitions.length + p.transitions.length))
        else none) := by
  change ((p.transitions ++ [t]).findIdx? _).map _ = _
  rw [List.findIdx?_append, List.findIdx?_singleton, Option.map_or, newTransition?]
  by_cases he : t.key = key
  · simp [he]
  · simp [he]

theorem resolve_add_self (h : p.resolve s r.name = none) :
    (p.add s r).resolve s r.name = some (p.nextNode s r) := by
  obtain ⟨hs, hplace, htransition⟩ := resolve_eq_none_iff.mp h
  cases r with
  | place label =>
    simp only [Reference.name] at hs hplace htransition ⊢
    change (s.resolve label).or (((p.addPlace s label).newPlace? s.net label).or
      (p.newTransition? s.net label)) = _
    rw [newPlace?_addPlace, hs, newPlace?_eq_none_iff.mpr hplace, if_pos rfl]
    rfl
  | transition t =>
    simp only [Reference.name] at hs hplace htransition ⊢
    change (s.resolve t.key).or ((p.newPlace? s.net t.key).or
      ((p.addTransition s t).newTransition? s.net t.key)) = _
    rw [newTransition?_addTransition, hs, newPlace?_eq_none_iff.mpr hplace,
      newTransition?_eq_none_iff.mpr htransition, if_pos rfl]
    rfl

theorem resolve_add_of_ne {name : String} (h : name ≠ r.name) :
    (p.add s r).resolve s name = p.resolve s name := by
  cases r with
  | place label =>
    change (s.resolve name).or (((p.addPlace s label).newPlace? s.net name).or
      (p.newTransition? s.net name)) = _
    rw [newPlace?_addPlace, if_neg (show label ≠ name from Ne.symm h), Option.or_none, resolve]
  | transition t =>
    change (s.resolve name).or ((p.newPlace? s.net name).or
      ((p.addTransition s t).newTransition? s.net name)) = _
    rw [newTransition?_addTransition, if_neg (show t.key ≠ name from Ne.symm h), Option.or_none,
      resolve]

theorem resolve_add_of_some {name : String} {n : Node} (h : p.resolve s r.name = none)
    (hn : p.resolve s name = some n) : (p.add s r).resolve s name = some n := by
  have hne : name ≠ r.name := by
    intro he
    rw [he, h] at hn
    cases hn
  rw [resolve_add_of_ne hne, hn]

/-- The plan for references that all fit: it creates a node for each name that stands for none and
visits the nodes for which the names stand. -/
structure Describes (s : Assembly) (refs : List Reference) (p : Plan) : Prop where
  places : p.places = s.fresh id (refs.filterMap Reference.place?)
  transitions : p.transitions = s.fresh TransitionRef.key (refs.filterMap Reference.transition?)
  path : refs.map (fun r => p.resolve s r.name) = p.path.map some
  kinds : refs.map Reference.kind = p.path.map Node.kind

theorem describes_empty : Describes s [] empty := ⟨rfl, rfl, rfl, rfl⟩

/-- A name that one of the references has stands for a node of the kind of that reference. -/
theorem Describes.exists_resolve {refs : List Reference} (h : p.Describes s refs)
    (hr : r ∈ refs) : ∃ n, p.resolve s r.name = some n ∧ n.kind = r.kind := by
  obtain ⟨i, hi, rfl⟩ := List.mem_iff_getElem.mp hr
  have hpath := congrArg (·[i]?) h.path
  have hkinds := congrArg (·[i]?) h.kinds
  simp only [List.getElem?_map, List.getElem?_eq_getElem hi, Option.map_some] at hpath hkinds
  cases hn : p.path[i]? with
  | none => simp [hn] at hpath
  | some n =>
    rw [hn] at hpath hkinds
    exact ⟨n, Option.some.inj hpath, (Option.some.inj hkinds).symm⟩

theorem mem_places_iff {refs : List Reference} {label : String} (h : p.Describes s refs) :
    label ∈ p.places ↔ .place label ∈ refs ∧ s.resolve label = none := by
  have hmem : label ∈ p.places ↔
      label ∈ refs.filterMap Reference.place? ∧ s.resolve label = none := by
    rw [h.places, ← List.map_id (s.fresh _ _), Assembly.mem_map_fresh, List.map_id]
  rw [hmem, List.mem_filterMap]
  refine and_congr_left fun _ => ⟨?_, fun hr => ⟨_, hr, rfl⟩⟩
  rintro ⟨r, hr, he⟩
  cases r with
  | place l => rwa [← Option.some.inj he]
  | transition t => cases he

theorem mem_keys_iff {refs : List Reference} {key : String} (h : p.Describes s refs) :
    key ∈ p.transitions.map TransitionRef.key ↔
      (∃ t, .transition t ∈ refs ∧ t.key = key) ∧ s.resolve key = none := by
  rw [h.transitions, Assembly.mem_map_fresh, List.mem_map]
  refine and_congr_left fun _ => ⟨?_, ?_⟩
  · rintro ⟨t, ht, rfl⟩
    obtain ⟨r, hr, he⟩ := List.mem_filterMap.mp ht
    cases r with
    | place l => cases he
    | transition u => exact ⟨t, Option.some.inj he ▸ hr, rfl⟩
  · rintro ⟨t, ht, rfl⟩
    exact ⟨t, List.mem_filterMap.mpr ⟨_, ht, rfl⟩, rfl⟩

theorem Describes.kind_eq {refs : List Reference} {n : Node} (h : p.Describes s refs)
    (hr : r ∈ refs) (hn : s.resolve r.name = some n) : n.kind = r.kind := by
  obtain ⟨n', hn', hkind⟩ := h.exists_resolve hr
  rw [resolve, hn, Option.some_or] at hn'
  cases hn'
  exact hkind

theorem Describes.exists_reference {refs : List Reference} {name : String} {n : Node}
    (h : p.Describes s refs) (hn : p.resolve s name = some n) :
    s.resolve name = some n ∨ ∃ r ∈ refs, r.name = name ∧ r.kind = n.kind := by
  rcases Option.or_eq_some_iff.mp hn with hold | ⟨-, hnew⟩
  · exact .inl hold
  refine .inr ?_
  rcases Option.or_eq_some_iff.mp hnew with hplace | ⟨-, htransition⟩
  · obtain ⟨i, hi, rfl⟩ := Option.map_eq_some_iff.mp hplace
    have hmem : name ∈ p.places := List.isSome_idxOf?.mp (by rw [hi]; rfl)
    obtain ⟨hr, -⟩ := (mem_places_iff h).mp hmem
    exact ⟨_, hr, rfl, rfl⟩
  · obtain ⟨i, hi, rfl⟩ := Option.map_eq_some_iff.mp htransition
    obtain ⟨hlt, hkey, -⟩ := List.findIdx?_eq_some_iff_getElem.mp hi
    have hmem : name ∈ p.transitions.map TransitionRef.key :=
      List.mem_map.mpr ⟨_, List.getElem_mem hlt, of_decide_eq_true hkey⟩
    obtain ⟨⟨t, ht, rfl⟩, -⟩ := (mem_keys_iff h).mp hmem
    exact ⟨_, ht, rfl, rfl⟩

theorem Describes.not_mem_keys {refs : List Reference} {label : String} (h : p.Describes s refs)
    (hl : label ∈ p.places) : label ∉ p.transitions.map TransitionRef.key := by
  intro hk
  obtain ⟨hplace, -⟩ := (mem_places_iff h).mp hl
  obtain ⟨⟨t, ht, he⟩, -⟩ := (mem_keys_iff h).mp hk
  obtain ⟨m, hm, hkm⟩ := h.exists_resolve hplace
  obtain ⟨n, hn, hkn⟩ := h.exists_resolve ht
  have hsame : m = n := by
    rw [Reference.name, he] at hn
    exact Option.some.inj (hm.symm.trans hn)
  rw [← hsame, hkm] at hkn
  cases hkn

theorem Describes.add {refs : List Reference} (h : p.Describes s refs)
    (hnone : p.resolve s r.name = none) : (p.add s r).Describes s (refs ++ [r]) := by
  obtain ⟨hs, hplace, htransition⟩ := resolve_eq_none_iff.mp hnone
  have hkeep : refs.map (fun q => (p.add s r).resolve s q.name) =
      refs.map fun q => p.resolve s q.name := by
    refine List.map_congr_left fun q hq => ?_
    obtain ⟨n, hn, -⟩ := h.exists_resolve hq
    rw [hn, resolve_add_of_some hnone hn]
  refine ⟨?_, ?_, ?_, ?_⟩
  · rw [List.filterMap_append]
    cases r with
    | place label =>
      have hnew : id label ∉ (s.fresh id (refs.filterMap Reference.place?)).map id := by
        rwa [← h.places, List.map_id]
      have hlast := Assembly.fresh_concat_new id hs hnew
      exact (congrArg (· ++ [label]) h.places).trans hlast.symm
    | transition t =>
      change p.places = s.fresh id (_ ++ [])
      rw [List.append_nil, h.places]
  · rw [List.filterMap_append]
    cases r with
    | place label =>
      change p.transitions = s.fresh TransitionRef.key (_ ++ [])
      rw [List.append_nil, h.transitions]
    | transition t =>
      have hnew : t.key ∉ (s.fresh TransitionRef.key
          (refs.filterMap Reference.transition?)).map TransitionRef.key := by
        rwa [← h.transitions]
      have hlast := Assembly.fresh_concat_new TransitionRef.key hs hnew
      exact (congrArg (· ++ [t]) h.transitions).trans hlast.symm
  · rw [List.map_append, hkeep, h.path, path_add, List.map_append, List.map_singleton,
      List.map_singleton, resolve_add_self hnone]
  · rw [List.map_append, h.kinds, path_add, List.map_append, List.map_singleton,
      List.map_singleton, kind_nextNode]

theorem known_of_kind_place {label : String} {n : Node} (hn : p.resolve s label = some n)
    (hkind : n.kind = .place) : s.resolve label ≠ none ∨ label ∈ p.places := by
  by_contra hcon
  obtain ⟨hs, hplace⟩ := not_or.mp hcon
  rw [resolve, not_not.mp hs, newPlace?_eq_none_iff.mpr hplace, Option.none_or, Option.none_or,
    newTransition?] at hn
  obtain ⟨i, -, rfl⟩ := Option.map_eq_some_iff.mp hn
  cases hkind

theorem known_of_kind_transition {key : String} {n : Node} (hn : p.resolve s key = some n)
    (hkind : n.kind = .transition) :
    s.resolve key ≠ none ∨ key ∈ p.transitions.map TransitionRef.key := by
  by_contra hcon
  obtain ⟨hs, htransition⟩ := not_or.mp hcon
  rw [resolve, not_not.mp hs, newTransition?_eq_none_iff.mpr htransition, Option.none_or,
    Option.or_none, newPlace?] at hn
  obtain ⟨i, -, rfl⟩ := Option.map_eq_some_iff.mp hn
  cases hkind

theorem Describes.reuse {refs : List Reference} {n : Node} (h : p.Describes s refs)
    (hn : p.resolve s r.name = some n) (hkind : n.kind = r.kind) :
    (p.reuse s r n).Describes s (refs ++ [r]) := by
  obtain ⟨hplaces, htransitions, hpath⟩ := p.reuse_eq (s := s) (r := r) n
  refine ⟨?_, ?_, ?_, ?_⟩
  · rw [hplaces, List.filterMap_append]
    cases r with
    | place label =>
      have hknown := known_of_kind_place hn hkind
      rw [h.places, ← List.map_id (s.fresh _ _)] at hknown
      exact h.places.trans (Assembly.fresh_concat_known id hknown).symm
    | transition t =>
      change p.places = s.fresh id (_ ++ [])
      rw [List.append_nil, h.places]
  · rw [htransitions, List.filterMap_append]
    cases r with
    | place label =>
      change p.transitions = s.fresh TransitionRef.key (_ ++ [])
      rw [List.append_nil, h.transitions]
    | transition t =>
      have hknown := known_of_kind_transition hn hkind
      rw [h.transitions] at hknown
      exact h.transitions.trans (Assembly.fresh_concat_known TransitionRef.key hknown).symm
  · simp only [resolve_reuse]
    rw [List.map_append, h.path, hpath, List.map_append, List.map_singleton, List.map_singleton, hn]
  · rw [List.map_append, h.kinds, hpath, List.map_append, List.map_singleton, List.map_singleton,
      hkind]

end Plan

end PetriShorthand
