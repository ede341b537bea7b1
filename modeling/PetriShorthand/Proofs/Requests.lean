import PetriShorthand.Proofs.Lines
import PetriShorthand.Proofs.Lookups
import PetriShorthand.Proofs.Persistence

namespace PetriShorthand

/-- Both fail alike, or succeed with related results. -/
inductive SameResult {α β : Type} (R : α → β → Prop) : Except Failure α → Except Failure β → Prop
  | ok {a : α} {b : β} : R a b → SameResult R (.ok a) (.ok b)
  | error (failure : Failure) : SameResult R (.error failure) (.error failure)

namespace SameResult

variable {α β : Type} {R : α → β → Prop} {o : Except Failure α}

theorem eq_error {failure : Failure} (h : SameResult R o (.error failure)) :
    o = .error failure := by
  cases h
  rfl

theorem exists_ok {b : β} (h : SameResult R o (.ok b)) : ∃ a, o = .ok a ∧ R a b := by
  cases h with
  | ok hab => exact ⟨_, rfl, hab⟩

end SameResult

structure IndexedOutcome.Indexes (o : IndexedOutcome) (o' : Outcome) : Prop where
  result : SameResult IndexedNaming.Indexes o.result o'.result
  redescriptions : o.redescriptions = o'.redescriptions
  assembly : o.assembly.Indexes o'.assembly

namespace IndexedAssembly

variable {x : IndexedAssembly} {s : Assembly}

/-- What fails is found out before anything is done, so no table has changed then. -/
theorem Indexes.addChain (h : x.Indexes s) (hs : s.Grounded) (c : Chain) :
    ∃ o, x.addChain? c = some o ∧ o.Indexes (s.addChain c) ∧
      ∀ failure, o.result = .error failure → o.assembly = x := by
  obtain ⟨hresult, hq⟩ := IndexedPlanning.alike_chain h c _ _ (IndexedPlan.indexes_empty h)
  rw [addChain?, Assembly.addChain]
  cases hchain : IndexedPlanning.chain x c .empty with
  | mk out q =>
    rw [hchain] at hresult hq
    rcases Planning.chain_cases s c with ⟨p, hrun, hp⟩ | ⟨p, before, r, after, n, -, -, -, -, hrun⟩
    · rw [hrun] at hresult hq ⊢
      obtain rfl : out = .ok () := hresult
      obtain ⟨naming, s', hcarried, -⟩ := Plan.carryOut_run hs hp
      obtain ⟨created, x', hcarried', hcreated, hx'⟩ := IndexedBuilding.carryOut_run h hq hcarried
      dsimp only
      rw [hcarried, hcarried']
      exact ⟨_, rfl, ⟨.ok hcreated, hq.redescriptions, hx'⟩, fun _ he => by cases he⟩
    · rw [hrun] at hresult hq ⊢
      obtain rfl : out = .error _ := hresult
      exact ⟨_, rfl, ⟨.error _, hq.redescriptions, h⟩, fun _ _ => rfl⟩

theorem Indexes.addText (h : x.Indexes s) (hs : s.Grounded) (text : String) :
    ∃ o, x.addText? text = some o ∧ o.Indexes (s.addText text) ∧
      ∀ failure, o.result = .error failure → o.assembly = x := by
  rw [addText?, Assembly.addText]
  cases Chain.ofText text with
  | error failure => exact ⟨_, rfl, ⟨.error failure, rfl, h⟩, fun _ _ => rfl⟩
  | ok c => exact h.addChain hs c

theorem Indexes.addTexts (h : x.Indexes s) (hs : s.Grounded) {created : IndexedNaming}
    {naming : Naming} (hcreated : created.Indexes naming)
    (hsub : naming.bindings ⊆ s.naming.bindings) (texts : List String) :
    ∃ o, x.addTexts? created texts = some o ∧ o.Indexes (s.addTexts naming texts) := by
  induction texts generalizing x s created naming with
  | nil => exact ⟨_, rfl, .ok hcreated, rfl, h⟩
  | cons text texts ih =>
    obtain ⟨first, hfirst, hfollows, -⟩ := h.addText hs text
    have hsame := hfollows.result
    rw [addTexts?, Assembly.addTexts, hfirst]
    dsimp only [Option.bind_eq_bind, Option.bind_some]
    cases hresult : (s.addText text).result with
    | error failure =>
      rw [hresult] at hsame
      have hfailed := hsame.eq_error
      rw [hfailed]
      refine ⟨first, rfl, ?_, hfollows.redescriptions, hfollows.assembly⟩
      rw [hfailed]
      exact .error failure
    | ok delta =>
      rw [hresult] at hsame
      obtain ⟨delta', hdelta', hdelta⟩ := hsame.exists_ok
      obtain ⟨both, hmerge, -, hboth⟩ := Assembly.exists_merge_of_addText hs hresult hsub
      obtain ⟨hok, hmerged⟩ := hcreated.merge hdelta hmerge
      have hjoined : (.ok delta >>= naming.merge : Except Failure Naming) = .ok both := hmerge
      obtain ⟨rest, hrest, hfollows'⟩ := ih hfollows.assembly (hs.addText text) hmerged hboth
      rw [hdelta', hjoined]
      dsimp only
      cases htables : created.bindAll delta'.pairs with
      | mk out tables =>
        rw [htables] at hok hrest
        obtain rfl : out = .ok () := hok
        dsimp only at hrest ⊢
        rw [hrest]
        refine ⟨_, rfl, hfollows'.result, ?_, hfollows'.assembly⟩
        simp only [hfollows.redescriptions, hfollows'.redescriptions]

theorem Indexes.addAll (h : x.Indexes s) (hs : s.Grounded) (texts : List String) :
    ∃ r, x.addAll? texts = some r ∧ SameResult IndexedAssembly.Indexes r
      (texts.foldlM (fun s text => let o := s.addText text; o.result.map fun _ => o.assembly)
        s) := by
  induction texts generalizing x s with
  | nil => exact ⟨_, rfl, .ok h⟩
  | cons text texts ih =>
    obtain ⟨o, ho, hfollows, -⟩ := h.addText hs text
    have hsame := hfollows.result
    rw [addAll?, ho, List.foldlM_cons]
    dsimp only [Option.bind_eq_bind, Option.bind_some]
    cases hresult : (s.addText text).result with
    | error failure =>
      rw [hresult] at hsame
      rw [hsame.eq_error]
      exact ⟨_, rfl, .error failure⟩
    | ok created =>
      rw [hresult] at hsame
      obtain ⟨created', hcreated', -⟩ := hsame.exists_ok
      rw [hcreated']
      exact ih hfollows.assembly (hs.addText text)

def answer? (x : IndexedAssembly) : Assembly.Request → Option IndexedOutcome
  | .chain c => x.addChain? c
  | .text text => x.addText? text
  | .lines text => x.addLines? text

def after? (x : IndexedAssembly) (requests : List Assembly.Request) : Option IndexedAssembly :=
  requests.foldlM (fun x request => (x.answer? request).map (·.assembly)) x

theorem Indexes.answer (h : x.Indexes s) (hs : s.Grounded) (request : Assembly.Request) :
    ∃ o, x.answer? request = some o ∧ o.Indexes (s.answer request) := by
  cases request with
  | chain c =>
    obtain ⟨o, ho, hfollows, -⟩ := h.addChain hs c
    exact ⟨o, ho, hfollows⟩
  | text text =>
    obtain ⟨o, ho, hfollows, -⟩ := h.addText hs text
    exact ⟨o, ho, hfollows⟩
  | lines text => exact h.addTexts hs IndexedNaming.indexes_empty (List.nil_subset _) _

theorem Indexes.after (h : x.Indexes s) (hs : s.Grounded) (requests : List Assembly.Request) :
    ∃ x', x.after? requests = some x' ∧ x'.Indexes (s.after requests) := by
  induction requests generalizing x s with
  | nil => exact ⟨x, rfl, h⟩
  | cons request requests ih =>
    obtain ⟨o, ho, hfollows⟩ := h.answer hs request
    obtain ⟨x', hx', hindexes⟩ := ih hfollows.assembly (hs.answer request)
    refine ⟨x', ?_, hindexes⟩
    rw [after?, List.foldlM_cons, ho]
    exact hx'

/-- An assembly with tables and one without, both new or both going on with the same net. -/
inductive Begin : IndexedAssembly → Assembly → Prop
  | start (label : String) : Begin (.start label) (.start label)
  | ofNet {x : IndexedNet} {net : Net} : x.Indexes net → Begin (.ofNet x) (.ofNet net)

theorem Begin.indexes (h : Begin x s) : x.Indexes s := by
  cases h with
  | start label => exact indexes_start label
  | ofNet h => exact indexes_ofNet h

theorem Begin.grounded (h : Begin x s) : s.Grounded := by
  cases h with
  | start label => exact Assembly.grounded_start label
  | ofNet _ => exact Assembly.grounded_ofNet _

/-- Whatever is asked of an assembly with tables, no plan asks for a node that is not there, and the
tables go on saying what an assembly without them says. The next request comes to the same for both:
it fails with the same failure or creates the same names, and the same weights are left aside. A
text that cannot be added leaves every table as it is. -/
theorem tables_answer_alike (h : Begin x s) (requests : List Assembly.Request) :
    ∃ x', x.after? requests = some x' ∧ x'.Indexes (s.after requests) ∧ x'.net.Consistent ∧
      x'.naming.Consistent ∧
      (∀ request, ∃ o, x'.answer? request = some o ∧
        o.Indexes ((s.after requests).answer request)) ∧
      ∀ text, ∃ o, x'.addText? text = some o ∧
        ∀ failure, o.result = .error failure → o.assembly = x' := by
  have hs := h.grounded.after requests
  obtain ⟨x', hx', hindexes⟩ := h.indexes.after h.grounded requests
  refine ⟨x', hx', hindexes, hindexes.net.consistent, hindexes.naming.consistent,
    fun request => hindexes.answer hs request, fun text => ?_⟩
  obtain ⟨o, ho, -, hfailed⟩ := hindexes.addText hs text
  exact ⟨o, ho, hfailed⟩

/-- Texts that are added to a new assembly come to the same with tables and without. -/
theorem texts_answer_alike (label : String) (texts : List String) :
    ∃ r, ofTexts? label texts = some r ∧
      SameResult IndexedAssembly.Indexes r (Assembly.ofTexts label texts) :=
  (indexes_start label).addAll (Assembly.grounded_start label) texts

end IndexedAssembly

end PetriShorthand
