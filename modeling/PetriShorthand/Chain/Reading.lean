import PetriShorthand.Chain.Basic
import PetriShorthand.Token.Scan

namespace PetriShorthand

/-- Where reading stopped: the kinds that could have come, the token that came instead, if any, and
the tokens that are left. -/
structure Mismatch where
  expected : List Token.Kind
  found : Option Token
  rest : List Token

abbrev Reading := StateT (List Token) (Except Mismatch)

namespace Reading

def front : List Token → Token.Kind
  | [] => .finish
  | t :: _ => t.kind

def stop {α : Type} (expected : List Token.Kind) : Reading α := fun ts =>
  .error ⟨expected, ts.head?, ts⟩

def expect (kind : Token.Kind) : Reading Token
  | t :: ts => if t.kind = kind then .ok (t, ts) else stop [kind] (t :: ts)
  | [] => stop [kind] []

def place : Reading String := do
  let t ← expect .label
  return t.text

/-- The number after a label, where a separator announces one; otherwise one of the `follow` kinds
has to come. -/
def suffix (follow : List Token.Kind) : Reading (Option String) := do
  let kind := front (← get)
  if kind = .separator then
    let _ ← expect .separator
    let t ← expect .number
    return some t.text
  else if kind ∈ follow then return none
  else stop (.separator :: follow)

def name : Reading (String × Bool) := do
  match front (← get) with
  | .label => let t ← expect .label; return (t.text, false)
  | .tau => let t ← expect .tau; return (t.text, true)
  | _ => stop [.label, .tau]

/-- The weight at the front; a missing one is 1. -/
def weight : Reading Binary64 := do
  if front (← get) = .weight then
    let t ← expect .weight
    match Binary64.ofText? t.text with
    | some w => return w
    | none => fun rest => .error ⟨[.weight], some t, rest⟩
  else return .one

def square : Reading TransitionRef := do
  let _ ← expect .squareOpen
  let (label, silent) ← name
  let suffix ← suffix [.squareClose]
  let _ ← expect .squareClose
  return ⟨label, suffix, silent, none⟩

def closeBrace (suffix : Option String) : Reading Unit := do
  if front (← get) = .braceClose then
    let _ ← expect .braceClose
  else if suffix.isSome then stop [.weight, .braceClose]
  else stop [.separator, .weight, .braceClose]

def brace : Reading TransitionRef := do
  let _ ← expect .braceOpen
  let (label, silent) ← name
  let suffix ← suffix [.weight, .braceClose]
  let weight ← weight
  closeBrace suffix
  return ⟨label, suffix, silent, some weight⟩

def transition : Reading TransitionRef := do
  match front (← get) with
  | .squareOpen => square
  | .braceOpen => brace
  | _ => stop [.squareOpen, .braceOpen]

def step : Reading Step := do
  let _ ← expect .arrow
  let transition ← transition
  let _ ← expect .arrow
  let place ← place
  return ⟨transition, place⟩

/-- The reader leaves no more tokens than it was given. -/
def Shrinks {α : Type} (r : Reading α) : Prop :=
  ∀ ⦃ts a rest⦄, r ts = .ok (a, rest) → rest.length ≤ ts.length

variable {α β : Type}

theorem bind_eq_ok {r : Reading α} {f : α → Reading β} {ts rest : List Token} {b : β}
    (h : (r >>= f) ts = .ok (b, rest)) :
    ∃ a middle, r ts = .ok (a, middle) ∧ f a middle = .ok (b, rest) := by
  change (r ts >>= fun p => f p.1 p.2) = _ at h
  cases hr : r ts with
  | error m => rw [hr] at h; cases h
  | ok p => rw [hr] at h; exact ⟨p.1, p.2, rfl, h⟩

theorem Shrinks.bind {r : Reading α} {f : α → Reading β} (hr : Shrinks r)
    (hf : ∀ a, Shrinks (f a)) : Shrinks (r >>= f) := by
  intro ts b rest h
  obtain ⟨a, middle, h₁, h₂⟩ := bind_eq_ok h
  exact Nat.le_trans (hf a h₂) (hr h₁)

theorem shrinks_pure (a : α) : Shrinks (pure a) := by
  intro ts a' rest h
  cases h
  exact Nat.le_refl _

theorem shrinks_get : Shrinks get := by
  intro ts a rest h
  cases h
  exact Nat.le_refl _

theorem shrinks_stop (expected : List Token.Kind) : Shrinks (stop expected : Reading α) := by
  intro ts a rest h
  cases h

theorem eq_cons_of_expect {kind : Token.Kind} {ts rest : List Token} {t : Token}
    (h : expect kind ts = .ok (t, rest)) : ts = t :: rest ∧ t.kind = kind := by
  cases ts with
  | nil => cases h
  | cons t' ts =>
    by_cases hk : t'.kind = kind
    · simp only [expect, hk, ↓reduceIte] at h
      cases h
      exact ⟨rfl, hk⟩
    · simp only [expect, hk, ↓reduceIte] at h
      cases h

theorem shrinks_expect (kind : Token.Kind) : Shrinks (expect kind) := by
  intro ts t rest h
  simp [(eq_cons_of_expect h).1]

theorem shrinks_place : Shrinks place :=
  (shrinks_expect _).bind fun _ => shrinks_pure _

theorem shrinks_suffix (follow : List Token.Kind) : Shrinks (suffix follow) := by
  refine shrinks_get.bind fun ts => ?_
  dsimp only
  split
  · exact (shrinks_expect _).bind fun _ => (shrinks_expect _).bind fun _ => shrinks_pure _
  · split
    · exact shrinks_pure _
    · exact shrinks_stop _

theorem shrinks_name : Shrinks name := by
  refine shrinks_get.bind fun ts => ?_
  split
  · exact (shrinks_expect _).bind fun _ => shrinks_pure _
  · exact (shrinks_expect _).bind fun _ => shrinks_pure _
  · exact shrinks_stop _

theorem shrinks_weight : Shrinks weight := by
  refine shrinks_get.bind fun ts => ?_
  split
  · refine (shrinks_expect _).bind fun t => ?_
    split
    · exact shrinks_pure _
    · intro ts a rest h
      cases h
  · exact shrinks_pure _

theorem shrinks_square : Shrinks square :=
  (shrinks_expect _).bind fun _ => shrinks_name.bind fun _ => (shrinks_suffix _).bind
    fun _ => (shrinks_expect _).bind fun _ => shrinks_pure _

theorem shrinks_closeBrace (suffix : Option String) : Shrinks (closeBrace suffix) := by
  refine shrinks_get.bind fun ts => ?_
  split
  · exact (shrinks_expect _).bind fun _ => shrinks_pure _
  · split
    · exact shrinks_stop _
    · exact shrinks_stop _

theorem shrinks_brace : Shrinks brace :=
  (shrinks_expect _).bind fun _ => shrinks_name.bind fun _ => (shrinks_suffix _).bind
    fun _ => shrinks_weight.bind fun _ => (shrinks_closeBrace _).bind fun _ => shrinks_pure _

theorem shrinks_transition : Shrinks transition := by
  refine shrinks_get.bind fun ts => ?_
  split
  · exact shrinks_square
  · exact shrinks_brace
  · exact shrinks_stop _

theorem length_lt_of_step {ts rest : List Token} {s : Step} (h : step ts = .ok (s, rest)) :
    rest.length < ts.length := by
  obtain ⟨t, middle, h₁, h₂⟩ := bind_eq_ok h
  rw [(eq_cons_of_expect h₁).1]
  refine Nat.lt_succ_of_le (Shrinks.bind shrinks_transition ?_ h₂)
  intro _
  exact (shrinks_expect _).bind fun _ => shrinks_place.bind fun _ => shrinks_pure _

/-- One step, and more of them as long as an arrow follows. -/
def steps (ts : List Token) : Except Mismatch (List Step × List Token) :=
  match _ : step ts with
  | .error mismatch => .error mismatch
  | .ok (s, rest) =>
    if front rest = .arrow then (steps rest).map fun (ss, rest) => (s :: ss, rest)
    else .ok ([s], rest)
termination_by ts.length
decreasing_by exact length_lt_of_step ‹_›

def chain : Reading Chain := do
  let head ← place
  let steps ← steps
  return ⟨head, steps⟩

end Reading

/-- The tokens that are still to be read, and where the text behind them ends. -/
structure Reader where
  rest : List Token
  finish : Nat

namespace Reader

/-- The text ends behind the last token. -/
def ofTokens (ts : List Token) : Reader :=
  ⟨ts, (ts.getLast?.map fun t => t.position + t.length).getD 0⟩

/-- Reads one chain, which nothing may follow. Where reading fails, the reader stays at the token
that does not fit. -/
def next (r : Reader) : Except Failure Chain × Reader :=
  match Reading.chain r.rest with
  | .error m =>
    let found := m.found.getD (.finish r.finish)
    (.error (.unexpectedToken m.expected found), { r with rest := m.rest })
  | .ok (c, []) => (.ok c, { r with rest := [] })
  | .ok (c, t :: rest) =>
    (if t.kind = .finish then .ok c else .error (.trailingToken t), { r with rest := t :: rest })

end Reader

namespace Chain

def ofText (text : String) : Except Failure Chain := do
  let ts ← tokens text
  (Reader.ofTokens ts).next.1

end Chain

end PetriShorthand
