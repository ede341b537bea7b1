import PetriShorthand.Proofs.Plans

namespace PetriShorthand

section Runs

variable {ε σ α β : Type} {x : ExceptT ε (StateM σ) α} {f : α → ExceptT ε (StateM σ) β} {s s' : σ}

theorem bind_run_ok {a : α} (h : x s = (.ok a, s')) : (x >>= f) s = f a s' := by
  change ExceptT.bindCont f (x s).1 (x s).2 = _
  rw [h]
  rfl

theorem bind_run_error {failure : ε} (h : x s = (.error failure, s')) :
    (x >>= f) s = (.error failure, s') := by
  change ExceptT.bindCont f (x s).1 (x s).2 = _
  rw [h]
  rfl

end Runs

namespace Planning

def refer (s : Assembly) : Reference → Planning Unit
  | .place label => place s label
  | .transition t => transition s t

theorem chain_eq_forM (s : Assembly) (c : Chain) : chain s c = c.references.forM (refer s) := by
  have hsteps : ∀ steps : List Step, forM steps (step s) =
      forM (steps.flatMap fun st => [.transition st.transition, .place st.place]) (refer s) := by
    intro steps
    induction steps with
    | nil => rfl
    | cons st steps ih =>
      simp only [List.flatMap_cons, List.forM_append, List.forM_cons, List.forM_nil, ih, step,
        refer, bind_assoc, bind_pure_unit]
  rw [chain, List.forM_eq_forM, hsteps]
  rfl

variable {s : Assembly} {r : Reference} {p p' : Plan} {out : Except Failure Unit}

theorem place_run (label : String) : place s label p =
    match p.resolve s label with
    | some (.place i) => (.ok (), p.visit (.place i))
    | some (.transition _) => (.error (.kindConflict label .transition .place), p)
    | none => (.ok (), p.addPlace s label) := by
  change (match p.resolve s label with
    | some (.place i) => modify (Plan.visit (.place i))
    | some (.transition _) => throw (.kindConflict label .transition .place)
    | none => modify (Plan.addPlace s label) : Planning Unit) p = _
  rcases p.resolve s label with _ | i | i
  · rfl
  · rfl
  · rfl

theorem transition_run (t : TransitionRef) : transition s t p =
    match p.resolve s t.key with
    | some (.transition i) => (.ok (), (p.compareWeight s i t).visit (.transition i))
    | some (.place _) => (.error (.kindConflict t.key .place .transition), p)
    | none => (.ok (), p.addTransition s t) := by
  change (match p.resolve s t.key with
    | some (.transition i) => modify fun p => (p.compareWeight s i t).visit (.transition i)
    | some (.place _) => throw (.kindConflict t.key .place .transition)
    | none => modify (Plan.addTransition s t) : Planning Unit) p = _
  rcases p.resolve s t.key with _ | i | i
  · rfl
  · rfl
  · rfl

theorem refer_cases (h : refer s r p = (out, p')) :
    (p.resolve s r.name = none ∧ out = .ok () ∧ p' = p.add s r) ∨
    (∃ n, p.resolve s r.name = some n ∧ n.kind = r.kind ∧ out = .ok () ∧ p' = p.reuse s r n) ∨
    (∃ n, p.resolve s r.name = some n ∧ n.kind ≠ r.kind ∧
      out = .error (.kindConflict r.name n.kind r.kind) ∧ p' = p) := by
  cases r with
  | place label =>
    rw [refer, place_run] at h
    split at h
    next i hi =>
      cases h
      exact .inr (.inl ⟨_, hi, rfl, rfl, rfl⟩)
    next i hi =>
      cases h
      exact .inr (.inr ⟨_, hi, nofun, rfl, rfl⟩)
    next hi =>
      cases h
      exact .inl ⟨hi, rfl, rfl⟩
  | transition t =>
    rw [refer, transition_run] at h
    split at h
    next i hi =>
      cases h
      exact .inr (.inl ⟨_, hi, rfl, rfl, rfl⟩)
    next i hi =>
      cases h
      exact .inr (.inr ⟨_, hi, nofun, rfl, rfl⟩)
    next hi =>
      cases h
      exact .inl ⟨hi, rfl, rfl⟩

theorem describes_of_refer {refs : List Reference} (hp : p.Describes s refs)
    (h : refer s r p = (out, p')) :
    (out = .ok () ∧ p'.Describes s (refs ++ [r])) ∨
    (∃ n, p.resolve s r.name = some n ∧ n.kind ≠ r.kind ∧
      out = .error (.kindConflict r.name n.kind r.kind) ∧ p' = p) := by
  rcases refer_cases h with ⟨hn, rfl, rfl⟩ | ⟨n, hn, hk, rfl, rfl⟩ | hconflict
  · exact .inl ⟨rfl, hp.add hn⟩
  · exact .inl ⟨rfl, hp.reuse hn hk⟩
  · exact .inr hconflict

theorem forM_refer_cases {refs done : List Reference} (hp : p.Describes s done)
    (h : refs.forM (refer s) p = (out, p')) :
    (out = .ok () ∧ p'.Describes s (done ++ refs)) ∨
    (∃ before r after n, refs = before ++ r :: after ∧ p'.Describes s (done ++ before) ∧
      p'.resolve s r.name = some n ∧ n.kind ≠ r.kind ∧
      out = .error (.kindConflict r.name n.kind r.kind)) := by
  induction refs generalizing done p with
  | nil =>
    cases h
    exact .inl ⟨rfl, by rwa [List.append_nil]⟩
  | cons r refs ih =>
    cases hr : refer s r p with
    | mk first q =>
      rcases describes_of_refer hp hr with ⟨rfl, hq⟩ | ⟨n, hn, hk, rfl, rfl⟩
      · have hrest := (bind_run_ok hr).symm.trans h
        rcases ih hq hrest with ⟨ho, hd⟩ | ⟨before, r', after, m, he, hd, hm⟩
        · exact .inl ⟨ho, by rwa [List.append_cons]⟩
        · exact .inr ⟨r :: before, r', after, m, by rw [he, List.cons_append],
            by rwa [List.append_cons], hm⟩
      · have hstop := (bind_run_error hr).symm.trans h
        cases hstop
        exact .inr ⟨[], r, refs, n, rfl, by rwa [List.append_nil], hn, hk, rfl⟩

/-- Either all references of a chain fit, or the first that does not is the cause of failure. -/
theorem chain_cases (s : Assembly) (c : Chain) :
    (∃ p, chain s c .empty = (.ok (), p) ∧ p.Describes s c.references) ∨
    (∃ p before r after n, c.references = before ++ r :: after ∧ p.Describes s before ∧
      p.resolve s r.name = some n ∧ n.kind ≠ r.kind ∧
      chain s c .empty = (.error (.kindConflict r.name n.kind r.kind), p)) := by
  rw [chain_eq_forM]
  cases h : c.references.forM (refer s) Plan.empty with
  | mk out p =>
    rcases forM_refer_cases Plan.describes_empty h with ⟨rfl, hd⟩ | ⟨before, r, after, n, hrest⟩
    · exact .inl ⟨p, rfl, hd⟩
    · obtain ⟨he, hd, hn, hk, rfl⟩ := hrest
      exact .inr ⟨p, before, r, after, n, he, hd, hn, hk, rfl⟩

theorem describes_of_chain {c : Chain} (h : chain s c .empty = (.ok (), p)) :
    p.Describes s c.references := by
  rcases chain_cases s c with ⟨q, hq, hd⟩ | ⟨q, before, r, after, n, -, -, -, -, hq⟩
  · rw [h] at hq
    cases hq
    exact hd
  · rw [h] at hq
    cases hq

end Planning

end PetriShorthand
