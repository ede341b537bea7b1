import PetriShorthand.Proofs.Acceptance

namespace PetriShorthand

structure Outcome.Alike (R : Assembly → Assembly → Prop) (o o' : Outcome) : Prop where
  result : o.result = o'.result
  redescriptions : o.redescriptions = o'.redescriptions
  assembly : R o.assembly o'.assembly

namespace Assembly

/-- Related assemblies make the same plans, and carrying these out creates the same names and leads
to related assemblies. -/
structure Simulates (R : Assembly → Assembly → Prop) : Prop where
  chain : ∀ {s t}, R s t → ∀ c, Planning.chain s c = Planning.chain t c
  carriedOut : ∀ {s t s' t' : Assembly} {c : Chain} {p : Plan} {created created' : Naming}, R s t →
    p.Describes s c.references → p.Describes t c.references → p.CarriedOut s created s' →
      p.CarriedOut t created' t' → created = created' ∧ R s' t'

variable {R : Assembly → Assembly → Prop} {s t : Assembly}

theorem Simulates.addChain (hR : Simulates R) (h : R s t) (hs : s.Grounded) (ht : t.Grounded)
    (c : Chain) : (s.addChain c).Alike R (t.addChain c) := by
  have hchain := hR.chain h c
  rcases Planning.chain_cases s c with
    ⟨p, hrun, hp⟩ | ⟨p, before, r, after, n, -, -, -, -, hrun⟩
  · have hp' : p.Describes t c.references := Planning.describes_of_chain (hchain ▸ hrun)
    obtain ⟨created, s', hcarry, hout⟩ := Plan.carryOut_run hs hp
    obtain ⟨created', t', hcarry', hout'⟩ := Plan.carryOut_run ht hp'
    obtain ⟨rfl, hafter⟩ := hR.carriedOut h hp hp' hout hout'
    rw [Assembly.addChain, Assembly.addChain, ← hchain, hrun]
    dsimp only
    rw [hcarry, hcarry']
    exact ⟨rfl, rfl, hafter⟩
  · rw [Assembly.addChain, Assembly.addChain, ← hchain, hrun]
    exact ⟨rfl, rfl, h⟩

theorem Simulates.addText (hR : Simulates R) (h : R s t) (hs : s.Grounded) (ht : t.Grounded)
    (text : String) : (s.addText text).Alike R (t.addText text) := by
  rw [Assembly.addText, Assembly.addText]
  cases Chain.ofText text with
  | error failure => exact ⟨rfl, rfl, h⟩
  | ok c => exact hR.addChain h hs ht c

theorem Simulates.addTexts (hR : Simulates R) (h : R s t) (hs : s.Grounded) (ht : t.Grounded)
    (created : Naming) (texts : List String) :
    (s.addTexts created texts).Alike R (t.addTexts created texts) := by
  induction texts generalizing s t created with
  | nil => exact ⟨rfl, rfl, h⟩
  | cons text texts ih =>
    have hfirst := hR.addText h hs ht text
    rw [Assembly.addTexts, Assembly.addTexts, hfirst.result]
    dsimp only
    cases (t.addText text).result >>= created.merge with
    | error failure => exact ⟨rfl, hfirst.redescriptions, hfirst.assembly⟩
    | ok created =>
      have hrest := ih hfirst.assembly (hs.addText text) (ht.addText text) created
      refine ⟨hrest.result, ?_, hrest.assembly⟩
      dsimp only
      rw [hfirst.redescriptions, hrest.redescriptions]

end Assembly

end PetriShorthand
