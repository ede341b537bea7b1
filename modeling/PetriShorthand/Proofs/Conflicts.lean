import PetriShorthand.Proofs.Acceptance

namespace PetriShorthand

namespace Assembly

/-- The name stands for a node of the kind, or one of the references uses it for the kind. -/
def UsesFor (s : Assembly) (refs : List Reference) (name : String) (kind : NodeKind) : Prop :=
  (∃ n, s.resolve name = some n ∧ n.kind = kind) ∨ ∃ r ∈ refs, r.name = name ∧ r.kind = kind

/-- Behind the references, the name of the next one is in use for the kind `existing`, which is not
its own. -/
def Conflicts (s : Assembly) (before : List Reference) (r : Reference) (existing : NodeKind) :
    Prop :=
  s.UsesFor before r.name existing ∧ existing ≠ r.kind

/-- The reference is the first of all that conflicts with what is in use. -/
def FirstConflict (s : Assembly) (refs : List Reference) (r : Reference) (existing : NodeKind) :
    Prop :=
  ∃ before after, refs = before ++ r :: after ∧ s.Conflicts before r existing ∧
    ∀ earlier r' between, before = earlier ++ r' :: between → ∀ kind, ¬s.Conflicts earlier r' kind

/-- No label of a place stands for a transition or is the key of one in the chain, and no key of a
transition stands for a place. -/
structure KeepsKinds (s : Assembly) (c : Chain) : Prop where
  places : ∀ label ∈ c.places,
    (∀ n, s.resolve label = some n → n.kind ≠ .transition) ∧ label ∉ c.keys
  keys : ∀ key ∈ c.keys, ∀ n, s.resolve key = some n → n.kind ≠ .place

variable {s : Assembly} {c : Chain} {refs before after : List Reference} {r r' : Reference}
  {existing existing' : NodeKind}

theorem mem_keys_iff {key : String} :
    key ∈ c.keys ↔ ∃ t, .transition t ∈ c.references ∧ t.key = key := by
  have hkeys : c.keys = c.transitions.map TransitionRef.key := by
    rw [Chain.keys, Chain.transitions, List.map_map]
    rfl
  simp only [hkeys, List.mem_map, Chain.mem_transitions_iff]

theorem fits_references_iff : s.Fits c.references ↔ s.KeepsKinds c := by
  constructor
  · intro h
    refine ⟨fun label hlabel => ?_, fun key hkey n hn hkind => ?_⟩
    · have hplace := Chain.mem_places_iff.mp hlabel
      refine ⟨fun n hn hkind => ?_, fun hkey => ?_⟩
      · have hsame : n.kind = .place := h.known _ hplace n hn
        rw [hkind] at hsame
        cases hsame
      · obtain ⟨t, ht, he⟩ := mem_keys_iff.mp hkey
        cases h.among _ hplace _ ht he.symm
    · obtain ⟨t, ht, rfl⟩ := mem_keys_iff.mp hkey
      have hsame : n.kind = .transition := h.known _ ht n hn
      rw [hkind] at hsame
      cases hsame
  · intro h
    refine ⟨fun r hr n hn => ?_, fun r hr r' hr' hname => ?_⟩
    · cases r with
      | place label =>
        have hkind := (h.places label (Chain.mem_places_iff.mpr hr)).1 n hn
        exact NodeKind.eq_of_ne hkind nofun
      | transition t =>
        have hkind := h.keys t.key (mem_keys_iff.mpr ⟨t, hr, rfl⟩) n hn
        exact NodeKind.eq_of_ne hkind nofun
    · cases r with
      | place label =>
        cases r' with
        | place label' => rfl
        | transition t =>
          have hnot := (h.places label (Chain.mem_places_iff.mpr hr)).2
          exact absurd (mem_keys_iff.mpr ⟨t, hr', hname.symm⟩) hnot
      | transition t =>
        cases r' with
        | place label =>
          have hnot := (h.places label (Chain.mem_places_iff.mpr hr')).2
          exact absurd (mem_keys_iff.mpr ⟨t, hr, hname⟩) hnot
        | transition t' => rfl

theorem Fits.not_conflicts (h : s.Fits (before ++ r :: after)) :
    ¬s.Conflicts before r existing := by
  have hr : r ∈ before ++ r :: after := by simp
  rintro ⟨⟨n, hn, hkind⟩ | ⟨r', hr', hname, hkind⟩, hne⟩
  · exact hne (hkind.symm.trans (h.known r hr n hn))
  · exact hne (hkind.symm.trans (h.among r' (List.mem_append_left _ hr') r hr hname))

theorem FirstConflict.eq_nil {more after' : List Reference}
    (hfirst : ∀ earlier r' between, before ++ more = earlier ++ r' :: between →
      ∀ kind, ¬s.Conflicts earlier r' kind)
    (he : r :: after = more ++ after') (h : s.Conflicts before r existing) : more = [] := by
  cases more with
  | nil => rfl
  | cons r' more =>
    obtain ⟨rfl, -⟩ := List.cons.inj he
    exact absurd h (hfirst before r more rfl existing)

theorem FirstConflict.unique (h : s.FirstConflict refs r existing)
    (h' : s.FirstConflict refs r' existing') : r = r' ∧ existing = existing' := by
  obtain ⟨before, after, rfl, hr, hfirst⟩ := h
  obtain ⟨before', after', he, hr', hfirst'⟩ := h'
  have hsame : r = r' := by
    rcases List.append_eq_append_iff.mp he with ⟨more, rfl, hmore⟩ | ⟨more, rfl, hmore⟩
    · have hnil := eq_nil hfirst' hmore hr
      rw [hnil] at hmore
      exact (List.cons.inj hmore).1
    · have hnil := eq_nil hfirst hmore hr'
      rw [hnil] at hmore
      exact (List.cons.inj hmore).1.symm
  subst hsame
  exact ⟨rfl, NodeKind.eq_of_ne hr.2 hr'.2⟩

theorem firstConflict_of_describes {p : Plan} {n : Node} (hp : p.Describes s before)
    (hn : p.resolve s r.name = some n) (hkind : n.kind ≠ r.kind) (after : List Reference) :
    s.FirstConflict (before ++ r :: after) r n.kind := by
  refine ⟨before, after, rfl, ⟨?_, hkind⟩, ?_⟩
  · rcases hp.exists_reference hn with hold | hreference
    · exact .inl ⟨n, hold, rfl⟩
    · exact .inr hreference
  · rintro earlier r' between rfl kind
    exact (fits_of_describes hp).not_conflicts

theorem addChain_error_iff (hs : s.Grounded) (c : Chain) (failure : Failure) :
    (s.addChain c).result = .error failure ↔
      ∃ r existing, s.FirstConflict c.references r existing ∧
        failure = .kindConflict r.name existing r.kind := by
  rcases addChain_cases hs c with
    ⟨p, created, s', hp, -, he⟩ | ⟨p, before, r, after, n, hrefs, hp, hn, hkind, he⟩
  · rw [he]
    refine ⟨nofun, ?_⟩
    rintro ⟨r, existing, ⟨before, after, hrefs, hconflict, -⟩, -⟩
    have hfits : s.Fits (before ++ r :: after) := hrefs ▸ fits_of_describes hp
    exact absurd hconflict hfits.not_conflicts
  · have hfirst := firstConflict_of_describes hp hn hkind after
    rw [he, hrefs]
    constructor
    · rintro ⟨⟩
      exact ⟨r, n.kind, hfirst, rfl⟩
    · rintro ⟨r', existing, hfirst', rfl⟩
      obtain ⟨rfl, rfl⟩ := hfirst.unique hfirst'
      rfl

/-- Adding a chain succeeds exactly if no name in it goes against the kind that it has, be it in the
assembly or in the chain. Where it fails, it does so at the first reference whose name is in use for
the other kind, and the failure says that name, the kind that it has and the kind that is asked
for. -/
theorem first_conflict_decides (hs : s.Reachable) (c : Chain) :
    ((∃ created, (s.addChain c).result = .ok created) ↔ s.KeepsKinds c) ∧
    ∀ failure, (s.addChain c).result = .error failure ↔
      ∃ r existing, s.FirstConflict c.references r existing ∧
        failure = .kindConflict r.name existing r.kind :=
  ⟨(exists_addChain_ok_iff hs.grounded c).trans fits_references_iff,
    addChain_error_iff hs.grounded c⟩

/-- A place comes second that is called like the key of a transition before it. Behind it, the chain
uses a transition of the net as a place, and its head as a transition. -/
theorem first_conflict_decides_key :
    let s := ofNet ((Net.empty "net").addTransition ⟨"t", false, none⟩)
    let c : Chain :=
      ⟨"a", [⟨⟨"b", some "1", false, none⟩, "b__1"⟩, ⟨⟨"a", none, false, none⟩, "t"⟩]⟩
    s.Reachable ∧ ¬s.KeepsKinds c ∧
      s.FirstConflict c.references (.place "b__1") .transition ∧
      (s.addChain c).result = .error (.kindConflict "b__1" .transition .place) := by
  intro s c
  have hs : s.Reachable := .ofNet _
  have herror : (s.addChain c).result = .error (.kindConflict "b__1" .transition .place) := by
    decide +kernel
  obtain ⟨hsuccess, hfailure⟩ := first_conflict_decides hs c
  have hkinds : ¬s.KeepsKinds c := by
    intro h
    obtain ⟨created, hok⟩ := hsuccess.mpr h
    rw [herror] at hok
    cases hok
  obtain ⟨r, existing, hfirst, hcause⟩ := (hfailure _).mp herror
  obtain ⟨hname, rfl, hkind⟩ := Failure.kindConflict.inj hcause
  have hr : r = .place "b__1" := by
    cases r with
    | place label => exact congrArg Reference.place hname.symm
    | transition t => cases hkind
  exact ⟨hs, hkinds, hr ▸ hfirst, herror⟩

end Assembly

end PetriShorthand
