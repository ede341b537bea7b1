import PetriShorthand.Proofs.Written

namespace PetriShorthand

/-- No name is used both for a place and for a transition. -/
def NamesFit (cs : List Chain) : Prop :=
  ∀ r ∈ cs.flatMap Chain.references, ∀ r' ∈ cs.flatMap Chain.references,
    r.name = r'.name → r.kind = r'.kind

theorem NamesFit.subset {cs cs' : List Chain} (h : NamesFit cs) (hsub : cs' ⊆ cs) :
    NamesFit cs' := by
  have hrefs : ∀ r ∈ cs'.flatMap Chain.references, r ∈ cs.flatMap Chain.references := by
    intro r hr
    obtain ⟨c, hc, hr⟩ := List.mem_flatMap.mp hr
    exact List.mem_flatMap.mpr ⟨c, hsub hc, hr⟩
  exact fun r hr r' hr' => h r (hrefs r hr) r' (hrefs r' hr')

namespace Assembly

variable {s : Assembly} {cs cs' : List Chain} {c : Chain} {texts : List String}

theorem Realizes.exists_reference (h : s.Realizes cs) {name : String} {n : Node}
    (hn : s.resolve name = some n) :
    ∃ r ∈ cs.flatMap Chain.references, r.name = name ∧ r.kind = n.kind := by
  have hnamed := (h.naming name n).mp (h.resolve_eq_some_iff.mp hn)
  cases n with
  | place i =>
    have hmem : name ∈ distinctBy id (cs.flatMap Chain.places) := List.mem_of_getElem? hnamed
    obtain ⟨c, hc, hl⟩ := List.mem_flatMap.mp (mem_distinctBy_id.mp hmem)
    exact ⟨_, List.mem_flatMap.mpr ⟨c, hc, Chain.mem_places_iff.mp hl⟩, rfl, rfl⟩
  | transition i =>
    have hmem := List.mem_of_getElem? hnamed
    rw [mem_map_distinctBy] at hmem
    obtain ⟨t, ht, rfl⟩ := List.mem_map.mp hmem
    obtain ⟨c, hc, ht⟩ := List.mem_flatMap.mp ht
    exact ⟨_, List.mem_flatMap.mpr ⟨c, hc, Chain.mem_transitions_iff.mp ht⟩, rfl, rfl⟩

theorem Realizes.namesFit (h : s.Realizes cs) : NamesFit cs := by
  intro r hr r' hr' hname
  obtain ⟨c, hc, hr⟩ := List.mem_flatMap.mp hr
  obtain ⟨c', hc', hr'⟩ := List.mem_flatMap.mp hr'
  obtain ⟨n, hn, hkind⟩ := h.kinds c hc r hr
  obtain ⟨n', hn', hkind'⟩ := h.kinds c' hc' r' hr'
  rw [hname, hn'] at hn
  cases hn
  rw [← hkind, ← hkind']

theorem Realizes.addText_ok (hs : s.Grounded) (h : s.Realizes cs) {text : String}
    (hread : Chain.ofText text = .ok c) (hfit : NamesFit (cs ++ [c])) :
    ∃ created, (s.addText text).result = .ok created := by
  rw [addText, hread]
  dsimp only
  rcases addChain_cases hs c with ⟨p, created, s', -, -, he⟩ | ⟨p, before, r, after, n, hrest⟩
  · rw [he]
    exact ⟨created, rfl⟩
  · obtain ⟨hrefs, hd, hn, hkind, -⟩ := hrest
    have hr : r ∈ (cs ++ [c]).flatMap Chain.references := by simp [hrefs]
    obtain ⟨r', hr', hname, hkind'⟩ : ∃ r' ∈ (cs ++ [c]).flatMap Chain.references,
        r'.name = r.name ∧ r'.kind = n.kind := by
      rcases hd.exists_reference hn with hold | ⟨r', hr', hrest⟩
      · obtain ⟨r', hr', hrest⟩ := h.exists_reference hold
        refine ⟨r', ?_, hrest⟩
        rw [List.flatMap_append]
        exact List.mem_append_left _ hr'
      · exact ⟨r', by simp [hrefs, hr'], hrest⟩
    exact absurd (hkind'.symm.trans (hfit r' hr' r hr hname)) hkind

theorem exists_foldlM_of_namesFit (hs : s.Grounded) (h : s.Realizes cs)
    (hread : texts.mapM Chain.ofText = .ok cs') (hfit : NamesFit (cs ++ cs')) :
    ∃ s', texts.foldlM
      (fun s text => let o := s.addText text; o.result.map fun _ => o.assembly) s = .ok s' := by
  induction texts generalizing s cs cs' with
  | nil => exact ⟨s, rfl⟩
  | cons text texts ih =>
    obtain ⟨c, cs', hc, hrest, rfl⟩ := mapM_cons_eq_ok_iff.mp hread
    rw [List.append_cons] at hfit
    obtain ⟨created, hresult⟩ := h.addText_ok hs hc (hfit.subset (List.subset_append_left _ _))
    obtain ⟨c', p, hc', hd, hout⟩ := addText_of_ok hs hresult
    rw [hc] at hc'
    cases hc'
    obtain ⟨s', hs'⟩ := ih (hs.addText text) (h.append hd hout) hrest hfit
    refine ⟨s', ?_⟩
    rw [List.foldlM_cons]
    dsimp only
    rw [hresult]
    exact hs'

theorem exists_ofTexts_iff (label : String) (texts : List String) :
    (∃ s, ofTexts label texts = .ok s) ↔
      ∃ cs, texts.mapM Chain.ofText = .ok cs ∧ NamesFit cs := by
  constructor
  · rintro ⟨s, hs⟩
    obtain ⟨cs, hcs, hr, -⟩ := realizes_of_foldlM (grounded_start label) (realizes_start label) hs
    exact ⟨cs, hcs, hr.namesFit⟩
  · rintro ⟨cs, hcs, hfit⟩
    exact exists_foldlM_of_namesFit (grounded_start label) (realizes_start label) hcs hfit

end Assembly

end PetriShorthand
