import PetriShorthand.Proofs.Additions

namespace PetriShorthand

def links {α : Type} (xs : List α) : List (α × α) := xs.zip xs.tail

theorem links_map {α β : Type} (f : α → β) (xs : List α) :
    links (xs.map f) = (links xs).map (Prod.map f f) := by
  rw [links, links, ← List.map_tail, List.zip_map]

theorem Chain.ne_of_mem_links {c : Chain} {l : NodeKind × NodeKind}
    (h : l ∈ links (c.references.map Reference.kind)) : l.1 ≠ l.2 := by
  obtain ⟨head, steps⟩ := c
  induction steps generalizing head with
  | nil => cases h
  | cons st steps ih =>
    rcases List.mem_cons.mp h with rfl | h
    · nofun
    · rcases List.mem_cons.mp h with rfl | h
      · nofun
      · exact ih st.place h

def Arc.ends (a : Arc) : Node × Node := (a.source, a.target)

def Arc.single (ends : Node × Node) : Arc := ⟨ends.1, ends.2, 1⟩

namespace Net

theorem mem_ends_iff {net : Net} {source target : Node} :
    (source, target) ∈ net.arcs.map Arc.ends ↔ ∃ a ∈ net.arcs, a.Leads source target := by
  rw [List.mem_map]
  refine exists_congr fun a => and_congr_right fun _ => ?_
  rw [Arc.ends, Prod.mk.injEq, Arc.Leads]

theorem addArc_of_joinable {net : Net} {source target : Node}
    (h : Joinable net.places.length net.transitions.length source target) :
    ∃ i net', net.addArc source target = .ok (i, net') ∧ net'.label = net.label ∧
      net'.places = net.places ∧ net'.transitions = net.transitions ∧
      net'.arcs = if (source, target) ∈ net.arcs.map Arc.ends then net.arcs
        else net.arcs ++ [.single (source, target)] := by
  rw [addArc]
  cases hf : net.findArc? source target with
  | some i =>
    obtain ⟨a, ha, hl⟩ := findArc?_eq_some_iff.mp hf
    have hmem := mem_ends_iff.mpr ⟨a, List.mem_of_getElem? ha, hl⟩
    exact ⟨i, net, rfl, rfl, rfl, rfl, (if_pos hmem).symm⟩
  | none =>
    have hnone := findArc?_eq_none_iff.mp hf
    have hnot : (source, target) ∉ net.arcs.map Arc.ends := by
      intro hmem
      obtain ⟨a, ha, hl⟩ := mem_ends_iff.mp hmem
      exact hnone a ha hl
    rw [if_neg hnot]
    exact ⟨net.arcs.length, _, dif_pos ⟨h, hnone⟩, rfl, rfl, rfl, rfl⟩

end Net

/-- Arcs along links that may be joined succeed; links that are there already add nothing. -/
theorem Building.forM_arc {pairs : List (Node × Node)} {s : Assembly}
    (h : ∀ l ∈ pairs, Joinable s.net.places.length s.net.transitions.length l.1 l.2) :
    ∃ net, (pairs.forM fun (source, target) => arc source target) s = (.ok (), { s with net }) ∧
      net.label = s.net.label ∧ net.places = s.net.places ∧
      net.transitions = s.net.transitions ∧
      net.arcs = s.net.arcs ++
        ((distinctBy id pairs).filter fun l => l ∉ s.net.arcs.map Arc.ends).map Arc.single := by
  induction pairs generalizing s with
  | nil => exact ⟨s.net, rfl, rfl, rfl, rfl, by simp [distinctBy]⟩
  | cons l pairs ih =>
    obtain ⟨source, target⟩ := l
    obtain ⟨i, net, hadd, hlabel, hplaces, htransitions, harcs⟩ :=
      Net.addArc_of_joinable (h (source, target) List.mem_cons_self)
    have hrun : (arc source target : Building Unit) s = (.ok (), { s with net }) := by
      have hlift : (liftExcept (s.net.addArc source target) : Building (Nat × Net)) s =
          (.ok (i, net), s) := by
        rw [hadd]
        rfl
      exact bind_run_ok hlift
    have hrest : ∀ l ∈ pairs, Joinable net.places.length net.transitions.length l.1 l.2 := by
      intro l hl
      rw [hplaces, htransitions]
      exact h l (List.mem_cons_of_mem _ hl)
    obtain ⟨net', hrun', hlabel', hplaces', htransitions', harcs'⟩ :=
      @ih { s with net } hrest
    refine ⟨net', (bind_run_ok hrun).trans hrun', hlabel'.trans hlabel, hplaces'.trans hplaces,
      htransitions'.trans htransitions, ?_⟩
    -- later occurrences of the first link add nothing: its arc was there before or is there now
    by_cases hmem : (source, target) ∈ s.net.arcs.map Arc.ends
    · rw [if_pos hmem] at harcs
      rw [harcs', harcs, distinctBy, List.filter_cons_of_neg (by simpa using hmem),
        List.filter_filter]
      congr 2
      refine List.filter_congr fun l _ => ?_
      by_cases he : l = (source, target)
      · simp [he, hmem]
      · simp [he]
    · rw [if_neg hmem] at harcs
      rw [harcs', harcs, distinctBy, List.filter_cons_of_pos (by simpa using hmem),
        List.filter_filter, List.map_cons, List.append_assoc, List.singleton_append]
      congr 3
      refine List.filter_congr fun l _ => ?_
      rw [List.map_append, List.map_singleton]
      by_cases he : l = (source, target)
      · simp [he, Arc.ends, Arc.single]
      · simp [he, Arc.ends, Arc.single, Prod.ext_iff]

end PetriShorthand
