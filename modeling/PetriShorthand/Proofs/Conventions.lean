import PetriShorthand.Proofs.Transfers

namespace PetriShorthand

namespace Net

variable {net net' : Net} {direction : Direction} {label : String} {labels : List String}

/-- Some place with the label is bare in the direction. -/
def Offers (net : Net) (direction : Direction) (label : String) : Prop :=
  ∃ p, net.places[p]? = some label ∧ net.IsBare p direction

theorem mem_barePlaces {p : Nat} : p ∈ net.barePlaces label direction ↔
    net.places[p]? = some label ∧ net.IsBare p direction := by
  rw [barePlaces, List.mem_filter, mem_placesLabelled, decide_eq_true_eq]

theorem nodup_barePlaces (net : Net) (label : String) (direction : Direction) :
    (net.barePlaces label direction).Nodup :=
  (List.nodup_range.filter _).filter _

theorem barePlaces_ne_nil_iff : net.barePlaces label direction ≠ [] ↔
    net.Offers direction label := by
  rw [← List.isEmpty_eq_false_iff, List.isEmpty_eq_false_iff_exists_mem]
  exact exists_congr fun p => mem_barePlaces

def firstLabel? (net : Net) (labels : List String) (direction : Direction) : Option String :=
  labels.find? fun l => net.barePlaces l direction ≠ []

theorem firstLabelMarking_eq (net : Net) (labels : List String) (direction : Direction) :
    net.firstLabelMarking labels direction =
      .ofList (((net.firstLabel? labels direction).map fun l => net.barePlaces l direction).getD
        []) := by
  rw [firstLabelMarking, List.find?_map]
  rfl

theorem firstLabel?_eq_none_iff :
    net.firstLabel? labels direction = none ↔ ∀ l ∈ labels, ¬net.Offers direction l := by
  rw [firstLabel?, List.find?_eq_none]
  refine forall_congr' fun l => forall_congr' fun _ => not_congr ?_
  rw [decide_eq_true_eq, barePlaces_ne_nil_iff]

theorem firstLabel?_eq_some_iff : net.firstLabel? labels direction = some label ↔
    net.Offers direction label ∧ ∃ before after, labels = before ++ label :: after ∧
      ∀ l ∈ before, ¬net.Offers direction l := by
  rw [firstLabel?, List.find?_eq_some_iff_append, decide_eq_true_eq, barePlaces_ne_nil_iff]
  simp only [Bool.not_eq_true', decide_eq_false_iff_not, barePlaces_ne_nil_iff]

/-- There is one token on every place that is bare and has the first of the labels for which any
place is; and none elsewhere, nor anywhere if there is no such label. -/
structure MarksFirst (net : Net) (direction : Direction) (labels : List String) (m : Marking) :
    Prop where
  first : ∀ before label after, labels = before ++ label :: after →
    (∀ l ∈ before, ¬net.Offers direction l) → net.Offers direction label →
      ∀ p, m.count p = if net.places[p]? = some label ∧ net.IsBare p direction then 1 else 0
  none : (∀ l ∈ labels, ¬net.Offers direction l) → m = .empty

theorem marksFirst_firstLabelMarking (net : Net) (labels : List String) (direction : Direction) :
    net.MarksFirst direction labels (net.firstLabelMarking labels direction) := by
  refine ⟨fun before label after hlabels hbefore hoffers p => ?_, fun hnone => ?_⟩
  · have hfirst := firstLabel?_eq_some_iff.mpr ⟨hoffers, before, after, hlabels, hbefore⟩
    rw [firstLabelMarking_eq, hfirst, Option.map_some, Option.getD_some, Marking.count_ofList,
      (nodup_barePlaces net label direction).count]
    simp only [mem_barePlaces]
  · rw [firstLabelMarking_eq, firstLabel?_eq_none_iff.mpr hnone]
    rfl

theorem firstLabelMarking_eq_empty_iff : net.firstLabelMarking labels direction = .empty ↔
    ∀ l ∈ labels, ¬net.Offers direction l := by
  refine ⟨fun hempty => ?_, (marksFirst_firstLabelMarking net labels direction).none⟩
  cases hfirst : net.firstLabel? labels direction with
  | none => exact firstLabel?_eq_none_iff.mp hfirst
  | some label =>
    obtain ⟨hoffers, before, after, hlabels, hbefore⟩ := firstLabel?_eq_some_iff.mp hfirst
    obtain ⟨p, hp⟩ := hoffers
    have hcount := (marksFirst_firstLabelMarking net labels direction).first before label after
      hlabels hbefore ⟨p, hp⟩ p
    rw [if_pos hp, hempty, Marking.empty, Marking.count_ofList] at hcount
    cases hcount

theorem isBare_of_marked {p : Nat} (hp : 0 < (net.firstLabelMarking labels direction).count p) :
    net.IsBare p direction ∧ p < net.places.length := by
  rw [firstLabelMarking_eq, Marking.count_ofList, List.count_pos_iff] at hp
  cases hfirst : net.firstLabel? labels direction with
  | none =>
    rw [hfirst] at hp
    cases hp
  | some label =>
    rw [hfirst] at hp
    obtain ⟨hlabel, hbare⟩ := mem_barePlaces.mp hp
    exact ⟨hbare, (List.getElem?_eq_some_iff.mp hlabel).1⟩

theorem finalMarkings_cases (conventions : Conventions) (net : Net) :
    (conventions.finalMarkings net = [] ∧
      ∀ l ∈ conventions.finalLabels, ¬net.Offers .outgoing l) ∨
    ∃ m, conventions.finalMarkings net = [m] ∧
      m = net.firstLabelMarking conventions.finalLabels .outgoing ∧
      ∃ l ∈ conventions.finalLabels, net.Offers .outgoing l := by
  rw [Conventions.finalMarkings]
  split
  next hempty => exact .inl ⟨rfl, firstLabelMarking_eq_empty_iff.mp hempty⟩
  next hmarks =>
    rw [firstLabelMarking_eq_empty_iff] at hmarks
    refine .inr ⟨_, rfl, rfl, ?_⟩
    by_contra hnone
    exact hmarks fun l hl hoffers => hnone ⟨l, hl, hoffers⟩

theorem eq_of_mem_finalMarkings {conventions : Conventions} {m : Marking}
    (hm : m ∈ conventions.finalMarkings net) :
    m = net.firstLabelMarking conventions.finalLabels .outgoing := by
  rcases finalMarkings_cases conventions net with ⟨hnone, -⟩ | ⟨m', hone, hm', -⟩
  · rw [hnone] at hm
    cases hm
  · rw [hone] at hm
    rw [List.mem_singleton.mp hm, hm']

theorem firstLabelMarking_cases (hnodup : net.places.Nodup) (labels : List String)
    (direction : Direction) :
    (net.firstLabel? labels direction = none ∧
      net.firstLabelMarking labels direction = .empty) ∨
    ∃ label p, net.firstLabel? labels direction = some label ∧ net.places[p]? = some label ∧
      net.IsBare p direction ∧ net.firstLabelMarking labels direction = .ofList [p] := by
  rw [firstLabelMarking_eq]
  cases hfirst : net.firstLabel? labels direction with
  | none => exact .inl ⟨rfl, rfl⟩
  | some label =>
    obtain ⟨⟨p, hp, hbare⟩, -⟩ := firstLabel?_eq_some_iff.mp hfirst
    have hone : net.barePlaces label direction = [p] := by
      refine eq_singleton_of_nodup (nodup_barePlaces net label direction) fun q => ?_
      rw [mem_barePlaces]
      refine ⟨fun hq => ?_, ?_⟩
      · have hlt := (List.getElem?_eq_some_iff.mp hq.1).1
        exact (List.getElem?_inj hlt hnodup).mp (hq.1.trans hp.symm)
      · rintro rfl
        exact ⟨hp, hbare⟩
    refine .inr ⟨label, p, rfl, hp, hbare, ?_⟩
    rw [Option.map_some, Option.getD_some, hone]

theorem tokens_empty : Marking.empty.tokens = [] := List.mergeSort_nil

theorem tokens_ofList_singleton (p : Nat) : (Marking.ofList [p]).tokens = [p] :=
  List.mergeSort_singleton p

theorem tokens_length_le_one (hnodup : net.places.Nodup) (labels : List String)
    (direction : Direction) :
    (net.firstLabelMarking labels direction).tokens.length ≤ 1 := by
  rcases firstLabelMarking_cases hnodup labels direction with
    ⟨-, hempty⟩ | ⟨label, p, -, -, -, hone⟩
  · rw [hempty, tokens_empty]
    exact Nat.zero_le 1
  · rw [hone, tokens_ofList_singleton]
    exact Nat.le_refl 1

def labelsOf (net : Net) (m : Marking) : List (Option String) :=
  m.tokens.map fun p => net.places[p]?

theorem labelsOf_firstLabelMarking (hnodup : net.places.Nodup) (labels : List String)
    (direction : Direction) :
    net.labelsOf (net.firstLabelMarking labels direction) =
      (net.firstLabel? labels direction).toList.map some := by
  rcases firstLabelMarking_cases hnodup labels direction with
    ⟨hfirst, hmarking⟩ | ⟨label, p, hfirst, hp, -, hmarking⟩
  · rw [hfirst, hmarking, labelsOf, tokens_empty]
    rfl
  · rw [hfirst, hmarking, labelsOf, tokens_ofList_singleton, List.map_singleton, hp]
    rfl

theorem labelsOf_finals (hnodup : net.places.Nodup) (conventions : Conventions) :
    (conventions.finalMarkings net).map net.labelsOf =
      [net.labelsOf (net.firstLabelMarking conventions.finalLabels .outgoing)].filter (· ≠ []) := by
  rw [labelsOf_firstLabelMarking hnodup]
  rcases finalMarkings_cases conventions net with ⟨hnone, hlabels⟩ | ⟨m, hone, rfl, l, hl, hoffers⟩
  · rw [hnone, firstLabel?_eq_none_iff.mpr hlabels]
    rfl
  · rw [hone, List.map_singleton, labelsOf_firstLabelMarking hnodup]
    cases hfirst : net.firstLabel? conventions.finalLabels .outgoing with
    | none => exact absurd hoffers (firstLabel?_eq_none_iff.mp hfirst l hl)
    | some label => rfl

theorem firstLabel?_congr (h : ∀ l, net.Offers direction l ↔ net'.Offers direction l)
    (labels : List String) :
    net.firstLabel? labels direction = net'.firstLabel? labels direction := by
  rw [firstLabel?, firstLabel?]
  congr 1
  funext l
  rw [decide_eq_decide, barePlaces_ne_nil_iff, barePlaces_ne_nil_iff]
  exact h l

end Net

theorem Marking.count_filter_range_pos {n p : Nat} {q : Nat → Bool} (hp : p < n)
    (hq : q p = true) : 0 < (ofList ((List.range n).filter q)).count p := by
  rw [count_ofList]
  exact List.count_pos_iff.mpr (List.mem_filter.mpr ⟨List.mem_range.mpr hp, hq⟩)

end PetriShorthand
