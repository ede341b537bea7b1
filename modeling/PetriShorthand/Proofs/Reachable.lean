import PetriShorthand.Proofs.CarryingOut

namespace PetriShorthand

namespace Assembly

variable {s : Assembly}

theorem addChain_cases (hs : s.Grounded) (c : Chain) :
    (∃ (p : Plan) (created : Naming) (s' : Assembly),
      p.Describes s c.references ∧ p.CarriedOut s created s' ∧
      s.addChain c = ⟨.ok created, s', p.redescriptions⟩) ∨
    (∃ (p : Plan) (before : List Reference) (r : Reference) (after : List Reference) (n : Node),
      c.references = before ++ r :: after ∧ p.Describes s before ∧
      p.resolve s r.name = some n ∧ n.kind ≠ r.kind ∧
      s.addChain c = ⟨.error (.kindConflict r.name n.kind r.kind), s, p.redescriptions⟩) := by
  rcases Planning.chain_cases s c with
    ⟨p, hrun, hd⟩ | ⟨p, before, r, after, n, he, hd, hn, hk, hrun⟩
  · obtain ⟨created, s', hout, hcarried⟩ := Plan.carryOut_run hs hd
    refine .inl ⟨p, created, s', hd, hcarried, ?_⟩
    rw [addChain, hrun]
    dsimp only
    rw [hout]
  · refine .inr ⟨p, before, r, after, n, he, hd, hn, hk, ?_⟩
    rw [addChain, hrun]

theorem grounded_start (label : String) : (start label).Grounded := ⟨nofun, nofun⟩

theorem grounded_ofNet (net : Net) : (ofNet net).Grounded := by
  refine ⟨nofun, fun b hb => ?_⟩
  rcases List.mem_append.mp hb with hb | hb
  · obtain ⟨i, hi, rfl⟩ := List.mem_mapIdx.mp (List.mem_reverse.mp hb)
    exact hi
  · obtain ⟨i, hi, rfl⟩ := List.mem_mapIdx.mp (List.mem_reverse.mp hb)
    exact hi

theorem Grounded.addChain (hs : s.Grounded) (c : Chain) : (s.addChain c).assembly.Grounded := by
  rcases addChain_cases hs c with ⟨p, created, s', -, hout, he⟩ | ⟨p, before, r, after, n, hrest⟩
  · rw [he]
    exact hout.grounded hs
  · obtain ⟨-, -, -, -, he⟩ := hrest
    rw [he]
    exact hs

theorem Grounded.addText (hs : s.Grounded) (text : String) :
    (s.addText text).assembly.Grounded := by
  rw [Assembly.addText]
  split
  · exact hs
  · exact hs.addChain _

theorem Grounded.addTexts (hs : s.Grounded) (created : Naming) (texts : List String) :
    (s.addTexts created texts).assembly.Grounded := by
  induction texts generalizing s created with
  | nil => exact hs
  | cons text texts ih =>
    rw [Assembly.addTexts]
    dsimp only
    split
    · exact hs.addText text
    · exact ih (hs.addText text) _

/-- Assemblies that come about by additions, whether or not these succeed. -/
inductive Reachable : Assembly → Prop
  | start (label : String) : Reachable (.start label)
  | ofNet (net : Net) : Reachable (.ofNet net)
  | addChain {s : Assembly} (c : Chain) : Reachable s → Reachable (s.addChain c).assembly
  | addText {s : Assembly} (text : String) : Reachable s → Reachable (s.addText text).assembly
  | addLines {s : Assembly} (text : String) : Reachable s → Reachable (s.addLines text).assembly

theorem Reachable.grounded (hs : s.Reachable) : s.Grounded := by
  induction hs with
  | start label => exact grounded_start label
  | ofNet net => exact grounded_ofNet net
  | addChain c _ ih => exact ih.addChain c
  | addText text _ ih => exact ih.addText text
  | addLines text _ ih => exact ih.addTexts _ _

/-- A failure to add a chain is always about a name of the other kind, found before anything is
done. -/
theorem addChain_failed {c : Chain} {failure : Failure} (hs : s.Grounded)
    (h : (s.addChain c).result = .error failure) :
    (s.addChain c).assembly = s ∧
      ∃ r ∈ c.references, ∃ existing, existing ≠ r.kind ∧
        failure = .kindConflict r.name existing r.kind := by
  rcases addChain_cases hs c with ⟨p, created, s', -, -, he⟩ | ⟨p, before, r, after, n, hrest⟩
  · rw [he] at h
    cases h
  · obtain ⟨hrefs, -, -, hk, he⟩ := hrest
    rw [he] at h ⊢
    cases h
    exact ⟨rfl, r, by simp [hrefs], n.kind, hk, rfl⟩

theorem addText_of_ok {text : String} {created : Naming} (hs : s.Grounded)
    (h : (s.addText text).result = .ok created) :
    ∃ c p, Chain.ofText text = .ok c ∧ Plan.Describes s c.references p ∧
      p.CarriedOut s created (s.addText text).assembly := by
  rw [addText] at h ⊢
  split at h
  next => cases h
  next c hread =>
    rcases addChain_cases hs c with
      ⟨p, created', s', hd, hout, he⟩ | ⟨p, before, r, after, n, hrest⟩
    · rw [he] at h
      cases h
      rw [hread, he]
      exact ⟨c, p, rfl, hd, hout⟩
    · obtain ⟨-, -, -, -, he⟩ := hrest
      rw [he] at h
      cases h

theorem addText_failed {text : String} {failure : Failure} (hs : s.Grounded)
    (h : (s.addText text).result = .error failure) : (s.addText text).assembly = s := by
  rw [addText] at h ⊢
  split at h
  next => rfl
  next c hread => exact (addChain_failed hs h).1

/-- What fails changes nothing, and nothing fails after planning. -/
theorem failure_changes_nothing (hs : s.Reachable) :
    (∀ c p, Planning.chain s c .empty = (.ok (), p) →
      ∃ created s', Building.carryOut p s = (.ok created, s')) ∧
    (∀ c failure, (s.addChain c).result = .error failure →
      (s.addChain c).assembly = s ∧ ∃ r ∈ c.references, ∃ existing, existing ≠ r.kind ∧
        failure = .kindConflict r.name existing r.kind) ∧
    (∀ text failure, (s.addText text).result = .error failure →
      (s.addText text).assembly = s ∧ (Chain.ofText text = .error failure ∨
        ∃ name existing requested, failure = .kindConflict name existing requested)) := by
  refine ⟨?_, fun c failure => addChain_failed hs.grounded, ?_⟩
  · intro c p hrun
    rcases Planning.chain_cases s c with ⟨q, hq, hd⟩ | ⟨q, before, r, after, n, -, -, -, -, hq⟩
    · rw [hrun] at hq
      cases hq
      obtain ⟨created, s', hout, -⟩ := Plan.carryOut_run hs.grounded hd
      exact ⟨created, s', hout⟩
    · rw [hrun] at hq
      cases hq
  · intro text failure h
    rw [addText] at h ⊢
    split at h
    next failure' hread =>
      cases h
      exact ⟨rfl, .inl hread⟩
    next c hread =>
      obtain ⟨hsame, r, -, existing, -, hf⟩ := addChain_failed hs.grounded h
      exact ⟨hsame, .inr ⟨_, _, _, hf⟩⟩

/-- A net with a label twice and a label that looks like a key; the last reference of the chain
clashes with a transition that the chain itself introduces. -/
theorem failure_changes_nothing_clash :
    let s := ofNet ((((Net.empty "net").addPlace "a").addPlace "a").addTransition
      ⟨"b__1", false, none⟩)
    let c : Chain := ⟨"a", [⟨⟨"b", some "1", false, none⟩, "p"⟩, ⟨⟨"q", none, true, none⟩, "q"⟩]⟩
    s.Reachable ∧ (s.addChain c).result = .error (.kindConflict "q" .transition .place) ∧
      (s.addChain c).assembly = s := by
  refine ⟨.ofNet _, by decide, ?_⟩
  exact ((failure_changes_nothing (.ofNet _)).2.1 _ (.kindConflict "q" .transition .place)
    (by decide)).1

end Assembly

end PetriShorthand
