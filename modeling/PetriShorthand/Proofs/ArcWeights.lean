import Mathlib.Algebra.GroupWithZero.Nat
import PetriShorthand.Proofs.Relabelling

namespace PetriShorthand

/-- An arc that was inserted between two ends with success. -/
structure Insertion where
  /-- The weight to add; `none` where only an arc is asked for. -/
  weight : Option Nat
  arc : Nat

/-- The weight that the first insertion brings and the later ones add. An arc that is asked for
without a weight weighs 1 if there was none before. -/
def Insertion.total (first : Insertion) (later : List Insertion) : Nat :=
  first.weight.getD 1 + (later.map fun k => k.weight.getD 0).sum

namespace IndexedNet

/-- What a change inserts between the ends; one that fails inserts nothing. -/
def insertion? (x : IndexedNet) (source target : Node) : Change → Option Insertion
  | .addArc s t =>
    if s = source ∧ t = target then (x.addArc s t).1.toOption.map (⟨none, ·⟩) else none
  | .addArcWeight s t w =>
    if s = source ∧ t = target then (x.addArcWeight s t w).1.toOption.map (⟨some w, ·⟩) else none
  | _ => none

def insertions (x : IndexedNet) (source target : Node) : List Change → List Insertion
  | [] => []
  | c :: changes =>
    (x.insertion? source target c).toList ++ (x.change c).insertions source target changes

def insert (x : IndexedNet) (source target : Node) :
    Option Nat → Except Failure Nat × IndexedNet
  | none => x.addArc source target
  | some w => x.addArcWeight source target w

variable {x x' : IndexedNet} {net : Net} {source target : Node} {ks : List Insertion}

theorem pushArc_cases (x : IndexedNet) (source target : Node) (weight : Nat) :
    (∃ x', x.pushArc source target weight = (.ok x.arcs.length, x') ∧
      x'.arcs = x.arcs ++ [⟨source, target, weight⟩]) ∨
    ∃ failure, x.pushArc source target weight = (.error failure, x) := by
  rw [pushArc]
  split
  · exact .inr ⟨_, rfl⟩
  · exact .inl ⟨_, rfl, rfl⟩

/-- The arc that is found takes the weight. Where none is found, there is a new one behind the
others, or a failure that changes nothing. -/
theorem insert_cases (x : IndexedNet) (source target : Node) (weight : Option Nat) :
    (∃ i x', x.findArc? source target = some i ∧ x.insert source target weight = (.ok i, x') ∧
      x'.arcs = x.arcs.modify i (weight.elim id Arc.addWeight)) ∨
    (x.findArc? source target = none ∧
      ((∃ x', x.insert source target weight = (.ok x.arcs.length, x') ∧
        x'.arcs = x.arcs ++ [⟨source, target, min (weight.getD 1) Arc.maxWeight⟩]) ∨
      ∃ failure, x.insert source target weight = (.error failure, x))) := by
  cases weight with
  | none =>
    rw [insert, addArc]
    cases hfound : x.findArc? source target with
    | some i => exact .inl ⟨i, x, rfl, rfl, (List.modify_id i x.arcs).symm⟩
    | none => exact .inr ⟨rfl, x.pushArc_cases source target 1⟩
  | some w =>
    rw [insert, addArcWeight]
    cases hfound : x.findArc? source target with
    | some i => exact .inl ⟨i, _, rfl, rfl, rfl⟩
    | none => exact .inr ⟨rfl, x.pushArc_cases source target _⟩

theorem insert_failed {weight : Option Nat} {failure : Failure}
    (h : x.insert source target weight = (.error failure, x')) : x' = x := by
  rcases x.insert_cases source target weight with
    ⟨_, _, -, hother, -⟩ | ⟨-, ⟨_, hother, -⟩ | ⟨_, hother⟩⟩
  · rw [h] at hother
    cases hother
  · rw [h] at hother
    cases hother
  · rw [h] at hother
    exact (Prod.mk.inj hother).2

theorem Indexes.change_cases (h : x.Indexes net) (source target : Node) (c : Change) :
    (∃ s t weight, x.change c = (x.insert s t weight).2 ∧
      x.insertion? source target c =
        if s = source ∧ t = target then (x.insert s t weight).1.toOption.map (⟨weight, ·⟩)
        else none) ∨
    ((x.change c).arcs = x.arcs ∧ x.insertion? source target c = none) := by
  cases c with
  | addPlace label => exact .inr ⟨rfl, rfl⟩
  | addTransition t => exact .inr ⟨rfl, rfl⟩
  | addArc s t => exact .inl ⟨s, t, none, rfl, rfl⟩
  | addArcWeight s t w => exact .inl ⟨s, t, some w, rfl, rfl⟩
  | relabel naming =>
    refine .inr ⟨?_, rfl⟩
    rw [(h.change _).arcs, h.arcs, Net.change]
    rcases net.relabel_cases naming with ⟨i, -, -, -, hrun⟩ | ⟨-, net', hrun, -, -, -, harcs⟩
    · rw [hrun]
      rfl
    · rw [hrun]
      exact harcs

/-- One arc leads from the one end to the other if anything was inserted between them; it has the
number that was answered every time, and the weight that was asked for. -/
def Bears (x : IndexedNet) (source target : Node) : List Insertion → Prop
  | [] => x.findArc? source target = none
  | first :: later => (∀ k ∈ later, k.arc = first.arc) ∧
    x.arcs[first.arc]? = some ⟨source, target, min (first.total later) Arc.maxWeight⟩

theorem Bears.findArc? {first : Insertion} {later : List Insertion} (h : x.Consistent)
    (hb : x.Bears source target (first :: later)) : x.findArc? source target = some first.arc :=
  (h.found source target first.arc).mpr ⟨_, hb.2, rfl, rfl⟩

theorem Bears.of_same (h : x.Consistent) (h' : x'.Consistent) (hb : x.Bears source target ks)
    (hsame : ∀ (i : Nat) (a : Arc), a.Leads source target →
      (x'.arcs[i]? = some a ↔ x.arcs[i]? = some a)) :
    x'.Bears source target ks := by
  cases ks with
  | nil =>
    refine Option.eq_none_iff_forall_ne_some.mpr fun i hi => ?_
    obtain ⟨a, ha, hl⟩ := (h'.found source target i).mp hi
    have hold := (h.found source target i).mpr ⟨a, (hsame i a hl).mp ha, hl⟩
    rw [show x.findArc? source target = none from hb] at hold
    cases hold
  | cons first later => exact ⟨hb.1, (hsame _ _ ⟨rfl, rfl⟩).mpr hb.2⟩

theorem elim_addWeight (weight : Option Nat) (source target : Node) (w : Nat) :
    weight.elim id Arc.addWeight ⟨source, target, min w Arc.maxWeight⟩ =
      ⟨source, target, min (w + weight.getD 0) Arc.maxWeight⟩ := by
  cases weight with
  | none => rfl
  | some v =>
    have hmin : min (min w Arc.maxWeight + v) Arc.maxWeight = min (w + v) Arc.maxWeight := by omega
    exact congrArg (Arc.mk source target) hmin

theorem Bears.insert {weight : Option Nat} {i : Nat} (h : x.Consistent)
    (hb : x.Bears source target ks) (hrun : x.insert source target weight = (.ok i, x')) :
    x'.Bears source target (ks ++ [⟨weight, i⟩]) := by
  cases ks with
  | nil =>
    rcases x.insert_cases source target weight with
      ⟨j, _, hfound, -⟩ | ⟨-, ⟨_, hnew, harcs⟩ | ⟨failure, hfail⟩⟩
    · rw [show x.findArc? source target = none from hb] at hfound
      cases hfound
    · rw [hrun] at hnew
      cases hnew
      refine ⟨nofun, ?_⟩
      rw [harcs, List.getElem?_concat_length]
      rfl
    · rw [hrun] at hfail
      cases hfail
  | cons first later =>
    rcases x.insert_cases source target weight with
      ⟨j, _, hfound, hadd, harcs⟩ | ⟨hfound, -⟩
    · rw [hrun] at hadd
      cases hadd
      rw [hb.findArc? h] at hfound
      cases hfound
      refine ⟨fun k hk => ?_, ?_⟩
      · rcases List.mem_append.mp hk with hk | hk
        · exact hb.1 k hk
        · rw [List.mem_singleton.mp hk]
      · rw [harcs, List.getElem?_modify_eq, hb.2, Option.map_eq_map, Option.map_some,
          elim_addWeight]
        simp [Insertion.total, Nat.add_assoc]
    · rw [hb.findArc? h] at hfound
      cases hfound

/-- What is inserted between other ends leaves an arc as it is. -/
theorem insert_of_other {s t : Node} (h : x.Consistent) (hother : ¬(s = source ∧ t = target))
    (weight : Option Nat) {i : Nat} {a : Arc} (ha : a.Leads source target) :
    (x.insert s t weight).2.arcs[i]? = some a ↔ x.arcs[i]? = some a := by
  have hends : ∀ {b : Arc}, b.Leads s t → b ≠ a := by
    rintro b hb rfl
    exact hother ⟨hb.1.symm.trans ha.1, hb.2.symm.trans ha.2⟩
  rcases x.insert_cases s t weight with
    ⟨j, x', hfound, hrun, harcs⟩ | ⟨-, ⟨x', hrun, harcs⟩ | ⟨failure, hrun⟩⟩
  · obtain ⟨b, hb, hl⟩ := (h.found s t j).mp hfound
    have hl' : (weight.elim id Arc.addWeight b).Leads s t := by
      cases weight with
      | none => exact hl
      | some w => exact hl
    rw [hrun, harcs]
    by_cases hij : j = i
    · subst hij
      rw [List.getElem?_modify_eq, hb, Option.map_eq_map, Option.map_some, Option.some.injEq,
        Option.some.injEq]
      exact ⟨fun he => absurd he (hends hl'), fun he => absurd he (hends hl)⟩
    · rw [List.getElem?_modify_ne _ _ hij]
  · rw [hrun, harcs]
    by_cases hi : i < x.arcs.length
    · rw [List.getElem?_append_left hi]
    · have hend := Nat.le_of_not_lt hi
      rw [List.getElem?_append_right hend, List.getElem?_eq_none hend]
      refine ⟨fun ha => absurd (List.mem_singleton.mp (List.mem_of_getElem? ha)).symm ?_, nofun⟩
      exact hends ⟨rfl, rfl⟩
  · rw [hrun]

theorem Bears.change (h : x.Indexes net) (hb : x.Bears source target ks) (c : Change) :
    (x.change c).Bears source target (ks ++ (x.insertion? source target c).toList) := by
  have hconsistent := h.consistent
  have hconsistent' := (h.change c).consistent
  rcases h.change_cases source target c with ⟨s, t, weight, hchange, hinsertion⟩ | ⟨harcs, hnone⟩
  · rw [hchange] at hconsistent'
    rw [hchange, hinsertion]
    by_cases hends : s = source ∧ t = target
    · obtain ⟨rfl, rfl⟩ := hends
      rw [if_pos ⟨rfl, rfl⟩]
      cases hrun : x.insert s t weight with
      | mk result x' =>
        cases result with
        | ok i => exact hb.insert hconsistent hrun
        | error failure =>
          rw [insert_failed hrun]
          exact (List.append_nil ks).symm ▸ hb
    · rw [if_neg hends, Option.toList_none, List.append_nil]
      exact hb.of_same hconsistent hconsistent'
        fun i a ha => insert_of_other hconsistent hends weight ha
  · rw [hnone, Option.toList_none, List.append_nil]
    refine hb.of_same hconsistent hconsistent' fun i a _ => ?_
    rw [harcs]

theorem Bears.foldl_change (h : x.Indexes net) (hb : x.Bears source target ks)
    (changes : List Change) :
    (changes.foldl IndexedNet.change x).Bears source target
      (ks ++ x.insertions source target changes) := by
  induction changes generalizing x net ks with
  | nil => exact (List.append_nil ks).symm ▸ hb
  | cons c changes ih =>
    rw [insertions, ← List.append_assoc]
    exact ih (h.change c) (hb.change h c)

theorem Consistent.filter_leads (h : x.Consistent) {i : Nat} {a : Arc} (ha : x.arcs[i]? = some a)
    (hl : a.Leads source target) : (x.arcs.filter fun b => b.Leads source target) = [a] := by
  have hnodup : (x.arcs.filter fun b => b.Leads source target).Nodup :=
    (h.distinct.of_map Arc.ends).filter _
  refine eq_singleton_of_nodup hnodup fun b => ?_
  rw [List.mem_filter, decide_eq_true_eq]
  refine ⟨fun ⟨hb, hl'⟩ => ?_, ?_⟩
  · exact List.inj_on_of_nodup_map h.distinct hb (List.mem_of_getElem? ha)
      (Prod.ext (hl'.1.trans hl.1.symm) (hl'.2.trans hl.2.symm))
  · rintro rfl
    exact ⟨List.mem_of_getElem? ha, hl⟩

/-- No arc joins two ends where nothing was inserted between them. Otherwise every insertion was
answered with the number of the one arc that joins them, and this weighs what they come to, up to
the greatest weight; what was done between other ends is of no account. -/
theorem weights_add_up (label : String) (changes : List Change) (source target : Node) :
    let x := changes.foldl IndexedNet.change (.empty label)
    match (empty label).insertions source target changes with
    | [] => x.findArc? source target = none ∧
        (x.arcs.filter fun a => a.Leads source target) = []
    | first :: later => (∀ k ∈ later, k.arc = first.arc) ∧
        x.findArc? source target = some first.arc ∧
        ∃ a, x.arcs[first.arc]? = some a ∧ a.weight = min (first.total later) Arc.maxWeight ∧
          (x.arcs.filter fun a => a.Leads source target) = [a] := by
  intro x
  have h : (empty label).Indexes (.empty label) := indexes_empty label
  have hconsistent : x.Consistent := (h.foldl_change changes).consistent
  have hstart : (empty label).Bears source target [] := h.found source target
  have hb := hstart.foldl_change h changes
  rw [List.nil_append] at hb
  cases hks : (empty label).insertions source target changes with
  | nil =>
    rw [hks] at hb
    refine ⟨hb, List.filter_eq_nil_iff.mpr fun a ha hl => ?_⟩
    obtain ⟨i, hi⟩ := List.mem_iff_getElem?.mp ha
    have hfound := (hconsistent.found source target i).mpr ⟨a, hi, by simpa using hl⟩
    rw [show x.findArc? source target = none from hb] at hfound
    cases hfound
  | cons first later =>
    rw [hks] at hb
    exact ⟨hb.1, hb.findArc? hconsistent, _, hb.2, rfl,
      hconsistent.filter_leads hb.2 ⟨rfl, rfl⟩⟩

end IndexedNet

end PetriShorthand
