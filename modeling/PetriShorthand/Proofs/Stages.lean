import PetriShorthand.Proofs.Grammar

namespace PetriShorthand

namespace Grammar

open Token

/-- What has been read of a sentence. -/
inductive Stage where
  | start
  | afterHead
  | afterArrow
  | squareOpen
  | squareName
  | squareSeparator
  | squareNumber
  | braceOpen
  | braceName
  | braceSeparator
  | braceNumber
  | braceWeight
  | braceNumberWeight
  | afterTransition
  | afterSecondArrow
  | complete
  deriving DecidableEq

namespace Stage

/-- The stage after one more token, if a token of the kind may come. -/
def next : Stage → Kind → Option Stage
  | start, .label => some afterHead
  | afterHead, .arrow => some afterArrow
  | afterArrow, .squareOpen => some squareOpen
  | afterArrow, .braceOpen => some braceOpen
  | squareOpen, .label => some squareName
  | squareOpen, .tau => some squareName
  | squareName, .separator => some squareSeparator
  | squareName, .squareClose => some afterTransition
  | squareSeparator, .number => some squareNumber
  | squareNumber, .squareClose => some afterTransition
  | braceOpen, .label => some braceName
  | braceOpen, .tau => some braceName
  | braceName, .separator => some braceSeparator
  | braceName, .weight => some braceWeight
  | braceName, .braceClose => some afterTransition
  | braceSeparator, .number => some braceNumber
  | braceNumber, .weight => some braceNumberWeight
  | braceNumber, .braceClose => some afterTransition
  | braceWeight, .braceClose => some afterTransition
  | braceNumberWeight, .braceClose => some afterTransition
  | afterTransition, .arrow => some afterSecondArrow
  | afterSecondArrow, .label => some complete
  | complete, .arrow => some afterArrow
  | _, _ => none

def run (q : Stage) (ks : List Kind) : Option Stage := ks.foldlM next q

theorem run_cons (q : Stage) (k : Kind) (ks : List Kind) :
    q.run (k :: ks) = (q.next k).bind fun q => q.run ks := rfl

theorem run_append (q : Stage) (ks ls : List Kind) :
    q.run (ks ++ ls) = (q.run ks).bind fun q => q.run ls := by
  rw [run, List.foldlM_append]
  rfl

theorem run_cons_eq_some {q q' : Stage} {k : Kind} {ks : List Kind} :
    q.run (k :: ks) = some q' ↔ ∃ m, q.next k = some m ∧ m.run ks = some q' := by
  rw [run_cons, Option.bind_eq_some_iff]

theorem run_append_eq_some {q q' : Stage} {ks ls : List Kind} :
    q.run (ks ++ ls) = some q' ↔ ∃ m, q.run ks = some m ∧ m.run ls = some q' := by
  rw [run_append, Option.bind_eq_some_iff]

theorem run_isTransition {ks : List Kind} (h : IsTransition ks) :
    afterArrow.run ks = some afterTransition := by
  cases h with
  | square hname hsuffix => cases hname <;> cases hsuffix <;> rfl
  | brace hname hsuffix hweight => cases hname <;> cases hsuffix <;> cases hweight <;> rfl

theorem run_isSteps {ks : List Kind} (h : IsSteps ks) : afterHead.run ks = some complete := by
  induction h with
  | last htransition =>
    refine run_cons_eq_some.mpr ⟨afterArrow, rfl, ?_⟩
    exact run_append_eq_some.mpr ⟨afterTransition, run_isTransition htransition, rfl⟩
  | @more transition rest htransition hrest ih =>
    -- a further step begins with an arrow, which leads on from `complete` as from `afterHead`
    have hsame : complete.run rest = afterHead.run rest := by
      cases hrest with
      | last => rfl
      | more => rfl
    refine run_cons_eq_some.mpr ⟨afterArrow, rfl, ?_⟩
    exact run_append_eq_some.mpr ⟨afterTransition, run_isTransition htransition, hsame.trans ih⟩

theorem run_isSentence {ks : List Kind} (h : IsSentence ks) : start.run ks = some complete := by
  cases h with
  | chain hsteps => exact run_isSteps hsteps

theorem exists_cons_of_run {q : Stage} {ks : List Kind} (h : q.run ks = some complete)
    (hq : q ≠ complete) : ∃ k m rest, ks = k :: rest ∧ q.next k = some m ∧
      m.run rest = some complete := by
  cases ks with
  | nil => exact absurd (Option.some.inj h) hq
  | cons k rest =>
    obtain ⟨m, hm, hrun⟩ := run_cons_eq_some.mp h
    exact ⟨k, m, rest, rfl, hm, hrun⟩

theorem squareClose_of_run {ks : List Kind} (h : squareNumber.run ks = some complete) :
    ∃ rest, ks = .squareClose :: rest ∧ afterTransition.run rest = some complete := by
  obtain ⟨k, m, rest, rfl, hm, hrun⟩ := exists_cons_of_run h nofun
  cases k with
  | squareClose =>
    cases hm
    exact ⟨rest, rfl, hrun⟩
  | _ => cases hm

theorem braceClose_of_run {q : Stage} {ks : List Kind}
    (hq : q = braceWeight ∨ q = braceNumberWeight) (h : q.run ks = some complete) :
    ∃ rest, ks = .braceClose :: rest ∧ afterTransition.run rest = some complete := by
  rcases hq with rfl | rfl
  all_goals
    obtain ⟨k, m, rest, rfl, hm, hrun⟩ := exists_cons_of_run h nofun
    cases k with
    | braceClose =>
      cases hm
      exact ⟨rest, rfl, hrun⟩
    | _ => cases hm

theorem number_of_run {q q' : Stage} {ks : List Kind}
    (hq : q = squareSeparator ∧ q' = squareNumber ∨ q = braceSeparator ∧ q' = braceNumber)
    (h : q.run ks = some complete) :
    ∃ rest, ks = .number :: rest ∧ q'.run rest = some complete := by
  rcases hq with ⟨rfl, rfl⟩ | ⟨rfl, rfl⟩
  all_goals
    obtain ⟨k, m, rest, rfl, hm, hrun⟩ := exists_cons_of_run h nofun
    cases k with
    | number =>
      cases hm
      exact ⟨rest, rfl, hrun⟩
    | _ => cases hm

theorem squareEnd_of_run {ks : List Kind} (h : squareName.run ks = some complete) :
    ∃ suffix rest, ks = suffix ++ .squareClose :: rest ∧ IsSuffix suffix ∧
      afterTransition.run rest = some complete := by
  obtain ⟨k, m, rest, rfl, hm, hrun⟩ := exists_cons_of_run h nofun
  cases k with
  | separator =>
    cases hm
    obtain ⟨rest, rfl, hrun⟩ := number_of_run (.inl ⟨rfl, rfl⟩) hrun
    obtain ⟨rest, rfl, hrun⟩ := squareClose_of_run hrun
    exact ⟨_, rest, rfl, .given, hrun⟩
  | squareClose =>
    cases hm
    exact ⟨_, rest, rfl, .absent, hrun⟩
  | _ => cases hm

theorem weightEnd_of_run {ks : List Kind} (h : braceNumber.run ks = some complete) :
    ∃ weight rest, ks = weight ++ .braceClose :: rest ∧ IsWeight weight ∧
      afterTransition.run rest = some complete := by
  obtain ⟨k, m, rest, rfl, hm, hrun⟩ := exists_cons_of_run h nofun
  cases k with
  | weight =>
    cases hm
    obtain ⟨rest, rfl, hrun⟩ := braceClose_of_run (.inr rfl) hrun
    exact ⟨_, rest, rfl, .given, hrun⟩
  | braceClose =>
    cases hm
    exact ⟨_, rest, rfl, .absent, hrun⟩
  | _ => cases hm

theorem braceEnd_of_run {ks : List Kind} (h : braceName.run ks = some complete) :
    ∃ suffix weight rest, ks = suffix ++ weight ++ .braceClose :: rest ∧ IsSuffix suffix ∧
      IsWeight weight ∧ afterTransition.run rest = some complete := by
  obtain ⟨k, m, rest, rfl, hm, hrun⟩ := exists_cons_of_run h nofun
  cases k with
  | separator =>
    cases hm
    obtain ⟨rest, rfl, hrun⟩ := number_of_run (.inr ⟨rfl, rfl⟩) hrun
    obtain ⟨weight, rest, rfl, hweight, hrun⟩ := weightEnd_of_run hrun
    exact ⟨_, weight, rest, rfl, .given, hweight, hrun⟩
  | weight =>
    cases hm
    obtain ⟨rest, rfl, hrun⟩ := braceClose_of_run (.inl rfl) hrun
    exact ⟨_, _, rest, rfl, .absent, .given, hrun⟩
  | braceClose =>
    cases hm
    exact ⟨_, _, rest, rfl, .absent, .absent, hrun⟩
  | _ => cases hm

theorem name_of_run {q q' : Stage} {ks : List Kind}
    (hq : q = squareOpen ∧ q' = squareName ∨ q = braceOpen ∧ q' = braceName)
    (h : q.run ks = some complete) :
    ∃ name rest, ks = name :: rest ∧ IsName name ∧ q'.run rest = some complete := by
  rcases hq with ⟨rfl, rfl⟩ | ⟨rfl, rfl⟩
  all_goals
    obtain ⟨k, m, rest, rfl, hm, hrun⟩ := exists_cons_of_run h nofun
    cases k with
    | label =>
      cases hm
      exact ⟨_, rest, rfl, .label, hrun⟩
    | tau =>
      cases hm
      exact ⟨_, rest, rfl, .tau, hrun⟩
    | _ => cases hm

theorem transition_of_run {ks : List Kind} (h : afterArrow.run ks = some complete) :
    ∃ transition rest, ks = transition ++ rest ∧ IsTransition transition ∧
      afterTransition.run rest = some complete := by
  obtain ⟨k, m, rest, rfl, hm, hrun⟩ := exists_cons_of_run h nofun
  cases k with
  | squareOpen =>
    cases hm
    obtain ⟨name, rest, rfl, hname, hrun⟩ := name_of_run (.inl ⟨rfl, rfl⟩) hrun
    obtain ⟨suffix, rest, rfl, hsuffix, hrun⟩ := squareEnd_of_run hrun
    exact ⟨_, rest, by simp, .square hname hsuffix, hrun⟩
  | braceOpen =>
    cases hm
    obtain ⟨name, rest, rfl, hname, hrun⟩ := name_of_run (.inr ⟨rfl, rfl⟩) hrun
    obtain ⟨suffix, weight, rest, rfl, hsuffix, hweight, hrun⟩ := braceEnd_of_run hrun
    exact ⟨_, rest, by simp, .brace hname hsuffix hweight, hrun⟩
  | _ => cases hm

theorem placeEnd_of_run {ks : List Kind} (h : afterTransition.run ks = some complete) :
    ∃ rest, ks = .arrow :: .label :: rest ∧ complete.run rest = some complete := by
  obtain ⟨k, m, rest, rfl, hm, hrun⟩ := exists_cons_of_run h nofun
  cases k with
  | arrow =>
    cases hm
    obtain ⟨k, m, rest, rfl, hm, hrun⟩ := exists_cons_of_run hrun nofun
    cases k with
    | label =>
      cases hm
      exact ⟨rest, rfl, hrun⟩
    | _ => cases hm
  | _ => cases hm

theorem isSteps_of_run {ks : List Kind} (h : afterHead.run ks = some complete) : IsSteps ks := by
  induction hn : ks.length using Nat.strongRecOn generalizing ks with
  | ind n ih =>
    obtain ⟨k, m, rest, rfl, hm, hrun⟩ := exists_cons_of_run h nofun
    cases k with
    | arrow =>
      cases hm
      obtain ⟨transition, rest, rfl, htransition, hafter⟩ := transition_of_run hrun
      obtain ⟨rest, rfl, hcomplete⟩ := placeEnd_of_run hafter
      cases rest with
      | nil => exact .last htransition
      | cons k rest =>
        have hrest : afterHead.run (k :: rest) = some complete := by
          obtain ⟨m, hm, hlast⟩ := run_cons_eq_some.mp hcomplete
          cases k with
          | arrow => exact run_cons_eq_some.mpr ⟨m, hm, hlast⟩
          | _ => cases hm
        have hlen : (k :: rest).length < n := by
          simp only [← hn, List.length_cons, List.length_append]
          omega
        exact .more htransition (ih _ hlen hrest rfl)
    | _ => cases hm

theorem isSentence_iff_run {ks : List Kind} : IsSentence ks ↔ start.run ks = some complete := by
  refine ⟨run_isSentence, fun h => ?_⟩
  obtain ⟨k, m, rest, rfl, hm, hrun⟩ := exists_cons_of_run h nofun
  cases k with
  | label =>
    cases hm
    exact .chain (isSteps_of_run hrun)
  | _ => cases hm

/-- One way to the end of a sentence. -/
def completion : Stage → List Kind
  | start => [.label, .arrow, .squareOpen, .label, .squareClose, .arrow, .label]
  | afterHead => [.arrow, .squareOpen, .label, .squareClose, .arrow, .label]
  | afterArrow => [.squareOpen, .label, .squareClose, .arrow, .label]
  | squareOpen => [.label, .squareClose, .arrow, .label]
  | squareName | squareNumber => [.squareClose, .arrow, .label]
  | squareSeparator => [.number, .squareClose, .arrow, .label]
  | braceOpen => [.label, .braceClose, .arrow, .label]
  | braceSeparator => [.number, .braceClose, .arrow, .label]
  | braceName | braceNumber | braceWeight | braceNumberWeight => [.braceClose, .arrow, .label]
  | afterTransition => [.arrow, .label]
  | afterSecondArrow => [.label]
  | complete => []

theorem run_completion (q : Stage) : q.run q.completion = some complete := by
  cases q <;> rfl

theorem isViable_iff_run {ks : List Kind} : IsViable ks ↔ ∃ q, start.run ks = some q := by
  constructor
  · rintro ⟨more, h⟩
    obtain ⟨q, hq, -⟩ := run_append_eq_some.mp (isSentence_iff_run.mp h)
    exact ⟨q, hq⟩
  · rintro ⟨q, hq⟩
    refine ⟨q.completion, isSentence_iff_run.mpr ?_⟩
    exact run_append_eq_some.mpr ⟨q, hq, q.run_completion⟩

/-- The kinds that the readers say they wait for. -/
def reported : Stage → List Kind
  | start | afterSecondArrow => [.label]
  | afterHead | afterTransition | complete => [.arrow]
  | afterArrow => [.squareOpen, .braceOpen]
  | squareOpen | braceOpen => [.label, .tau]
  | squareName => [.separator, .squareClose]
  | squareSeparator | braceSeparator => [.number]
  | squareNumber => [.squareClose]
  | braceName | braceWeight => [.separator, .weight, .braceClose]
  | braceNumber | braceNumberWeight => [.weight, .braceClose]

theorem next_eq_none {q : Stage} {k : Kind} (h : k ∉ q.reported) : q.next k = none := by
  cases q <;> cases k <;> first | rfl | exact absurd (by decide) h

theorem next_finish (q : Stage) : q.next .finish = none := by
  cases q <;> rfl

theorem next_of_isName {k : Kind} (h : IsName k) :
    squareOpen.next k = some squareName ∧ braceOpen.next k = some braceName := by
  cases h with
  | label => exact ⟨rfl, rfl⟩
  | tau => exact ⟨rfl, rfl⟩

theorem next_of_weight {k : Kind} (h : k ≠ .braceClose) :
    braceWeight.next k = none ∧ braceNumberWeight.next k = none := by
  cases k with
  | braceClose => exact absurd rfl h
  | _ => exact ⟨rfl, rfl⟩

end Stage

end Grammar

end PetriShorthand
