import Mathlib.Data.List.Sort
import PetriShorthand.Net.Indexed.Surroundings
import PetriShorthand.Net.Neighbours
import PetriShorthand.Proofs.Indexes

namespace PetriShorthand

namespace Net

variable {net : Net} {m n : Node} {direction : Direction}

def Joins (net : Net) (source target : Node) : Prop := ∃ a ∈ net.arcs, a.Leads source target

theorem mem_neighbours : m ∈ net.neighbours n direction ↔
    ∃ a ∈ net.arcs, a.nearEnd direction = n ∧ a.farEnd direction = m := by
  simp only [neighbours, List.mem_map, mem_arcsAt, and_assoc]

theorem mem_postset : m ∈ net.postset n ↔ net.Joins n m := mem_neighbours

theorem mem_preset : m ∈ net.preset n ↔ net.Joins m n := by
  refine mem_neighbours.trans (exists_congr fun a => and_congr_right fun _ => ?_)
  exact and_comm

theorem kind_of_mem_neighbours (h : m ∈ net.neighbours n direction) :
    n.kind ≠ m.kind ∧ net.Contains m := by
  obtain ⟨a, ha, rfl, rfl⟩ := mem_neighbours.mp h
  obtain ⟨hkind, hsource, htarget⟩ := net.joinable a ha
  cases direction with
  | incoming => exact ⟨hkind.symm, hsource⟩
  | outgoing => exact ⟨hkind, htarget⟩

theorem leads_of_ends {a b : Arc} (hnear : a.nearEnd direction = b.nearEnd direction)
    (hfar : a.farEnd direction = b.farEnd direction) : b.Leads a.source a.target := by
  cases direction with
  | incoming => exact ⟨hfar.symm, hnear.symm⟩
  | outgoing => exact ⟨hnear.symm, hfar.symm⟩

theorem nodup_neighbours (net : Net) (n : Node) (direction : Direction) :
    (net.neighbours n direction).Nodup := by
  refine List.pairwise_map.mpr ((net.distinct.filter _).imp_of_mem fun {a b} ha hb hne hfar => ?_)
  have hnear : a.nearEnd direction = b.nearEnd direction :=
    (mem_arcsAt.mp ha).2.trans (mem_arcsAt.mp hb).2.symm
  exact hne (leads_of_ends hnear hfar)

/-- The transitions beyond the neighbours of a transition, looked for in two directions. -/
def beyond (net : Net) (t : Nat) (first second : Direction) : List Nat :=
  net.transitionsWhere fun u =>
    (net.neighbours (.transition t) first).any fun place => u ∈ net.neighbours place second

theorem mem_beyond {t u : Nat} {first second : Direction} :
    u ∈ net.beyond t first second ↔ ∃ place ∈ net.neighbours (.transition t) first,
      .transition u ∈ net.neighbours place second := by
  simp only [beyond, transitionsWhere, List.mem_filter, List.mem_range, List.any_eq_true,
    decide_eq_true_eq, and_iff_right_iff_imp]
  rintro ⟨place, -, hu⟩
  exact (kind_of_mem_neighbours hu).2

/-- What lies between two transitions is a place. -/
theorem mem_beyond_iff_place {t u : Nat} {first second : Direction} :
    u ∈ net.beyond t first second ↔ ∃ i, .place i ∈ net.neighbours (.transition t) first ∧
      .transition u ∈ net.neighbours (.place i) second := by
  rw [mem_beyond]
  constructor
  · rintro ⟨place, hplace, hu⟩
    have hkind := (kind_of_mem_neighbours hplace).1
    cases place with
    | place i => exact ⟨i, hplace, hu⟩
    | transition i => exact absurd rfl hkind
  · exact fun ⟨i, hplace, hu⟩ => ⟨.place i, hplace, hu⟩

theorem ascending_beyond (net : Net) (t : Nat) (first second : Direction) :
    (net.beyond t first second).Pairwise (· < ·) :=
  List.pairwise_lt_range.filter _

theorem mem_successors {t u : Nat} : u ∈ net.successors t ↔
    ∃ i, net.Joins (.transition t) (.place i) ∧ net.Joins (.place i) (.transition u) := by
  refine mem_beyond_iff_place.trans (exists_congr fun i => ?_)
  exact and_congr mem_postset mem_postset

theorem mem_predecessors {t u : Nat} : u ∈ net.predecessors t ↔
    ∃ i, net.Joins (.transition u) (.place i) ∧ net.Joins (.place i) (.transition t) := by
  refine mem_beyond_iff_place.trans (exists_congr fun i => ?_)
  exact (and_congr mem_preset mem_preset).trans and_comm

theorem mem_siblings {t u : Nat} : u ∈ net.siblings t ↔
    ∃ i, net.Joins (.place i) (.transition t) ∧ net.Joins (.place i) (.transition u) := by
  refine mem_beyond_iff_place.trans (exists_congr fun i => ?_)
  exact and_congr mem_preset mem_postset

end Net

namespace IndexedNet

variable {x : IndexedNet} {net : Net}

theorem Indexes.arcsAt? (h : x.Indexes net) (n : Node) (direction : Direction) :
    x.arcsAt? n direction = some (net.arcsAt n direction) := by
  rw [h.consistent.seen, h.arcs]
  rfl

theorem Indexes.neighbours? (h : x.Indexes net) (n : Node) (direction : Direction) :
    x.neighbours? n direction = some (net.neighbours n direction) := by
  rw [IndexedNet.neighbours?, h.arcsAt?]
  rfl

theorem mem_toList_ofList {nodes : List Node} {u : Nat} :
    u ∈ (Std.TreeSet.ofList (nodes.filterMap Node.transition?)).toList ↔ .transition u ∈ nodes := by
  rw [Std.TreeSet.mem_toList, Std.TreeSet.mem_ofList, List.contains_iff_mem, List.mem_filterMap]
  constructor
  · rintro ⟨n, hn, hu⟩
    cases n with
    | place i => cases hu
    | transition i =>
      cases hu
      exact hn
  · exact fun hu => ⟨_, hu, rfl⟩

theorem Indexes.beyond? (h : x.Indexes net) (t : Nat) (first second : Direction) :
    x.beyond? t first second = some (net.beyond t first second) := by
  let places := net.neighbours (.transition t) first
  let nodes := places.map fun place => net.neighbours place second
  have hnodes : places.mapM (x.neighbours? · second) = some nodes := by
    refine mapM_eq_some_of_map ?_
    rw [List.map_map]
    exact List.map_congr_left fun place _ => h.neighbours? place second
  have hmem : ∀ u, .transition u ∈ nodes.flatten ↔ u ∈ net.beyond t first second :=
    fun u => List.mem_flatMap.trans Net.mem_beyond.symm
  let collected := Std.TreeSet.ofList (nodes.flatten.filterMap Node.transition?)
  have hascending : collected.toList.Pairwise (· < ·) :=
    Std.TreeSet.ordered_toList.imp Nat.compare_eq_lt.mp
  have hcollected : collected.toList = net.beyond t first second :=
    hascending.eq_of_mem_iff (net.ascending_beyond t first second)
      fun u => mem_toList_ofList.trans (hmem u)
  rw [IndexedNet.beyond?, h.neighbours?, ← hcollected]
  show (places.mapM (x.neighbours? · second)).bind _ = _
  rw [hnodes]
  rfl

/-- The neighbours of a node, and the transitions beyond those of a transition, are told by the arcs
alone, each of them once, and the tables give just these. Hence what is behind one node has that
node before it, and those that take from one place are siblings of each other. -/
theorem neighbourhoods_follow_arcs (label : String) (changes : List Change) :
    let x := changes.foldl IndexedNet.change (.empty label)
    let net := changes.foldl Net.change (.empty label)
    x.Indexes net ∧
    (∀ n direction, x.neighbours? n direction = some (net.neighbours n direction)) ∧
    (∀ t, x.successors? t = some (net.successors t) ∧
      x.predecessors? t = some (net.predecessors t) ∧ x.siblings? t = some (net.siblings t)) ∧
    (∀ a b, (b ∈ net.successors a ↔
        ∃ i, net.Joins (.transition a) (.place i) ∧ net.Joins (.place i) (.transition b)) ∧
      (b ∈ net.successors a ↔ a ∈ net.predecessors b) ∧
      (b ∈ net.siblings a ↔
        ∃ i, net.Joins (.place i) (.transition a) ∧ net.Joins (.place i) (.transition b)) ∧
      (b ∈ net.siblings a ↔ a ∈ net.siblings b) ∧
      (a ∈ net.siblings a ↔ ∃ i, net.Joins (.place i) (.transition a))) ∧
    ∀ m n, (n ∈ net.postset m ↔ net.Joins m n) ∧ (n ∈ net.postset m ↔ m ∈ net.preset n) ∧
      (net.postset m).Nodup ∧ (net.preset n).Nodup := by
  intro x net
  have h : x.Indexes net := (indexes_empty label).foldl_change changes
  refine ⟨h, h.neighbours?, fun t => ⟨h.beyond? t _ _, h.beyond? t _ _, h.beyond? t _ _⟩,
    fun a b => ⟨Net.mem_successors, ?_, Net.mem_siblings, ?_, ?_⟩, fun m n => ⟨Net.mem_postset, ?_,
      net.nodup_neighbours m _, net.nodup_neighbours n _⟩⟩
  · exact Net.mem_successors.trans Net.mem_predecessors.symm
  · refine Net.mem_siblings.trans (Iff.trans (exists_congr fun i => ?_) Net.mem_siblings.symm)
    exact and_comm
  · refine Net.mem_siblings.trans (exists_congr fun i => ?_)
    exact and_self_iff
  · exact Net.mem_postset.trans Net.mem_preset.symm

end IndexedNet

end PetriShorthand
