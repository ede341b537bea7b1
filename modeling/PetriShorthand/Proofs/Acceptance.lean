import PetriShorthand.Proofs.Reachable

namespace PetriShorthand

theorem exists_eq_ok {ε α : Type} {r : Except ε α} (h : r.toOption.isSome) :
    ∃ a, r = .ok a := by
  cases r with
  | ok a => exact ⟨a, rfl⟩
  | error failure => cases h

namespace Assembly

/-- No reference goes against what its name stands for, and no two of them use one name for both
kinds. -/
structure Fits (s : Assembly) (refs : List Reference) : Prop where
  known : ∀ r ∈ refs, ∀ n, s.resolve r.name = some n → n.kind = r.kind
  among : ∀ r ∈ refs, ∀ r' ∈ refs, r.name = r'.name → r.kind = r'.kind

variable {s s' : Assembly} {p : Plan} {refs refs' : List Reference} {created : Naming}

theorem Fits.subset (h : s.Fits refs) (hsub : refs' ⊆ refs) : s.Fits refs' :=
  ⟨fun r hr => h.known r (hsub hr), fun r hr r' hr' => h.among r (hsub hr) r' (hsub hr')⟩

theorem fits_of_describes (h : p.Describes s refs) : s.Fits refs := by
  refine ⟨fun r hr n hn => h.kind_eq hr hn, fun r hr r' hr' hname => ?_⟩
  obtain ⟨n, hn, hkind⟩ := h.exists_resolve hr
  obtain ⟨n', hn', hkind'⟩ := h.exists_resolve hr'
  rw [hname, hn'] at hn
  cases hn
  rw [← hkind, ← hkind']

/-- A chain is added without failure exactly if its references fit. -/
theorem exists_addChain_ok_iff (hs : s.Grounded) (c : Chain) :
    (∃ created, (s.addChain c).result = .ok created) ↔ s.Fits c.references := by
  constructor
  · rintro ⟨created, h⟩
    rcases addChain_cases hs c with ⟨p, -, -, hd, -, -⟩ | ⟨p, before, r, after, n, hrest⟩
    · exact fits_of_describes hd
    · obtain ⟨-, -, -, -, he⟩ := hrest
      rw [he] at h
      cases h
  · intro h
    rcases addChain_cases hs c with ⟨p, created, s', -, -, he⟩ | ⟨p, before, r, after, n, hrest⟩
    · exact ⟨created, by rw [he]⟩
    · obtain ⟨hrefs, hd, hn, hkind, -⟩ := hrest
      have hr : r ∈ c.references := by simp [hrefs]
      rcases hd.exists_reference hn with hold | ⟨r', hr', hname, hkind'⟩
      · exact absurd (h.known r hr n hold) hkind
      · have hr'mem : r' ∈ c.references := by simp [hrefs, hr']
        exact absurd (hkind'.symm.trans (h.among r' hr'mem r hr hname)) hkind

theorem describes_of_addChain_ok {c : Chain} (hs : s.Grounded)
    (h : (s.addChain c).result = .ok created) :
    ∃ p, Plan.Describes s c.references p ∧ p.CarriedOut s created (s.addChain c).assembly := by
  rcases addChain_cases hs c with ⟨p, created', s', hd, hout, he⟩ | ⟨p, before, r, after, n, hrest⟩
  · rw [he] at h ⊢
    cases h
    exact ⟨p, hd, hout⟩
  · obtain ⟨-, -, -, -, he⟩ := hrest
    rw [he] at h
    cases h

theorem exists_resolve_of_added {r : Reference} (hp : p.Describes s refs)
    (hout : p.CarriedOut s created s') (hr : r ∈ refs) :
    ∃ n, s'.resolve r.name = some n ∧ n.kind = r.kind := by
  rw [hout.resolve_eq hp]
  exact hp.exists_resolve hr

/-- References fit behind those that were added exactly if all of them fit together. -/
theorem fits_append_iff (hp : p.Describes s refs) (hout : p.CarriedOut s created s') :
    s.Fits (refs ++ refs') ↔ s'.Fits refs' := by
  constructor
  · intro h
    refine ⟨fun r hr n hn => ?_, (h.subset (List.subset_append_right _ _)).among⟩
    rw [hout.resolve_eq hp] at hn
    rcases hp.exists_reference hn with hold | ⟨r', hr', hname, hkind⟩
    · exact h.known r (List.mem_append_right _ hr) n hold
    · rw [← hkind]
      exact h.among r' (List.mem_append_left _ hr') r (List.mem_append_right _ hr) hname
  · intro h
    have hfirst := fits_of_describes hp
    have hmixed : ∀ r ∈ refs, ∀ r' ∈ refs', r.name = r'.name → r.kind = r'.kind := by
      intro r hr r' hr' hname
      obtain ⟨n, hn, hkind⟩ := exists_resolve_of_added hp hout hr
      rw [hname] at hn
      rw [← hkind, h.known r' hr' n hn]
    refine ⟨fun r hr n hn => ?_, fun r hr r' hr' hname => ?_⟩
    · rcases List.mem_append.mp hr with hr | hr
      · exact hfirst.known r hr n hn
      · exact h.known r hr n (hout.resolve_of_some hp hn)
    · rcases List.mem_append.mp hr with hr | hr
      · rcases List.mem_append.mp hr' with hr' | hr'
        · exact hfirst.among r hr r' hr' hname
        · exact hmixed r hr r' hr' hname
      · rcases List.mem_append.mp hr' with hr' | hr'
        · exact (hmixed r' hr' r hr hname.symm).symm
        · exact h.among r hr r' hr' hname

theorem resolve_eq_none_iff_of_added {r : Reference} (hp : p.Describes s refs)
    (hout : p.CarriedOut s created s') (hr : ∀ n, s'.resolve r.name = some n → n.kind = r.kind) :
    s'.resolve r.name = none ↔
      s.resolve r.name = none ∧ ∀ r' ∈ refs, r'.kind = r.kind → r'.name ≠ r.name := by
  constructor
  · intro hnone
    refine ⟨?_, fun r' hr' _ hname => ?_⟩
    · cases hn : s.resolve r.name with
      | none => rfl
      | some n =>
        rw [hout.resolve_of_some hp hn] at hnone
        cases hnone
    · obtain ⟨n, hn, -⟩ := exists_resolve_of_added hp hout hr'
      rw [hname, hnone] at hn
      cases hn
  · rintro ⟨hnone, hnew⟩
    cases hn : s'.resolve r.name with
    | none => rfl
    | some n =>
      have hkind := hr n hn
      rw [hout.resolve_eq hp] at hn
      rcases hp.exists_reference hn with hold | ⟨r', hr', hname, hkind'⟩
      · rw [hnone] at hold
        cases hold
      · exact absurd hname (hnew r' hr' (hkind'.trans hkind))

end Assembly

end PetriShorthand
