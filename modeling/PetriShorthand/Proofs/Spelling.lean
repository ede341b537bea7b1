import PetriShorthand.Proofs.Layout
import PetriShorthand.Proofs.Sentences

namespace PetriShorthand

open Token Token.Kind

/-- A letter, then letters and digits, and not `tau` at the front. -/
def IsLabelText (label : String) : Prop :=
  Covers .label label.toList ∧ ¬"tau".toList <+: label.toList

/-- A silent transition is called `tau` and another one has a label; numbers consist of digits. -/
structure TransitionRef.IsNamed (t : TransitionRef) : Prop where
  name : t.silent = true ∧ t.label = "tau" ∨ t.silent = false ∧ IsLabelText t.label
  suffix : ∀ suffix ∈ t.suffix, Covers .number suffix.toList

namespace Chain

/-- There is a step, all places have labels and all transitions have names. -/
structure IsNamed (c : Chain) : Prop where
  head : IsLabelText c.head
  steps_ne_nil : c.steps ≠ []
  place : ∀ s ∈ c.steps, IsLabelText s.place
  transition : ∀ s ∈ c.steps, s.transition.IsNamed

end Chain

theorem TransitionRef.IsNamed.silent_iff {t : TransitionRef} (h : t.IsNamed) :
    t.silent = true ↔ t.label = "tau" := by
  rcases h.name with ⟨hsilent, hlabel⟩ | ⟨hsilent, -, hnot⟩
  · simp [hsilent, hlabel]
  · rw [hsilent]
    refine ⟨nofun, fun hlabel => absurd ?_ hnot⟩
    exact hlabel ▸ List.prefix_refl _

def Token.Stands (t : Token) : Prop :=
  ∃ rest, t.kind.Wins t.text.toList (t.text.toList ++ rest)

theorem stands_of_mem_tokens {text : String} {ts : List Token} (h : tokens text = .ok ts) :
    ∀ t ∈ ts, t.Stands := by
  obtain ⟨items, last, rfl, -, -, hlayout⟩ := exists_layout_of_tokens h
  intro t ht
  obtain ⟨s, hs, rfl⟩ := List.mem_map.mp ht
  obtain ⟨before, after, he⟩ := List.append_of_mem hs
  have hwins := hlayout.wins before s after he
  rw [List.append_assoc] at hwins
  exact ⟨_, hwins⟩

namespace Token.Stands

variable {t : Token}

theorem covers (h : t.Stands) : t.kind.Covers t.text.toList := by
  obtain ⟨rest, hwins⟩ := h
  exact hwins.1.covers

theorem isLabelText (h : t.Stands) (hk : t.kind = .label) : IsLabelText t.text := by
  obtain ⟨rest, hwins⟩ := h
  rw [hk] at hwins
  exact ⟨hwins.1.covers, hwins.not_tau_prefix⟩

end Token.Stands

/-- What digits can denote: a number without a sign, or infinity where it would be too great. -/
def Binary64.IsUnsigned (w : Binary64) : Prop := (∃ m, w = .finite false m) ∨ w = .infinity false

theorem Binary64.isUnsigned_ofQuotient (n d : Nat) : (ofQuotient false n d).IsUnsigned := by
  rw [ofQuotient]
  split
  · exact .inl ⟨_, rfl⟩
  · exact .inr rfl

theorem ReadsWeight.isUnsigned {ts : List Token} {w : Binary64} (h : ReadsWeight ts w)
    (hts : ∀ t ∈ ts, t.Stands) : w.IsUnsigned := by
  cases h with
  | absent => exact Binary64.isUnsigned_ofQuotient _ _
  | @given t _ hk hw =>
    have hcovers := (hts t List.mem_cons_self).covers
    rw [hk] at hcovers
    generalize htext : t.text.toList = text at hcovers
    cases hcovers with
    | lexeme h => cases h
    | weight hne hwhole hne' hfraction =>
      rw [Binary64.ofText?_of_digits htext hne hwhole hfraction,
        Decimal.toBinary64_eq_ofQuotient] at hw
      cases hw
      exact Binary64.isUnsigned_ofQuotient _ _

theorem ReadsName.isNamed {t : Token} {label : String} {silent : Bool}
    (h : ReadsName t label silent) (ht : t.Stands) :
    silent = true ∧ label = "tau" ∨ silent = false ∧ IsLabelText label := by
  cases h with
  | label hk => exact .inr ⟨rfl, ht.isLabelText hk⟩
  | tau hk =>
    have hcovers := ht.covers
    rw [hk] at hcovers
    have htau : Token.Kind.tau.lexeme? = some "tau" := rfl
    exact .inl ⟨rfl, String.toList_inj.mp (hcovers.eq_of_lexeme? htau)⟩

theorem ReadsSuffix.isNumber {ts : List Token} {suffix : Option String} (h : ReadsSuffix ts suffix)
    (hts : ∀ t ∈ ts, t.Stands) : ∀ s ∈ suffix, Covers .number s.toList := by
  cases h with
  | absent => nofun
  | @given separator number _ hk =>
    rintro s hs
    cases hs
    have hcovers := (hts number (by simp)).covers
    rwa [hk] at hcovers

theorem ReadsTransition.isNamed {ts : List Token} {t : TransitionRef} (h : ReadsTransition ts t)
    (hts : ∀ t ∈ ts, t.Stands) : t.IsNamed ∧ ∀ w ∈ t.weight, w.IsUnsigned := by
  cases h with
  | square _ hname hsuffix _ =>
    exact ⟨⟨hname.isNamed (hts _ (by simp)), hsuffix.isNumber fun t ht => hts t (by simp [ht])⟩,
      nofun⟩
  | brace _ hname hsuffix hweight _ =>
    refine ⟨⟨hname.isNamed (hts _ (by simp)),
      hsuffix.isNumber fun t ht => hts t (by simp [ht])⟩, ?_⟩
    rintro w hw
    cases hw
    exact hweight.isUnsigned fun t ht => hts t (by simp [ht])

structure Step.IsRead (s : Step) : Prop where
  place : IsLabelText s.place
  transition : s.transition.IsNamed
  weight : ∀ w ∈ s.transition.weight, w.IsUnsigned

theorem ReadsSteps.isRead {ts : List Token} {steps : List Step} (h : ReadsSteps ts steps)
    (hts : ∀ t ∈ ts, t.Stands) : steps ≠ [] ∧ ∀ s ∈ steps, s.IsRead := by
  induction h with
  | @last before after place us t _ ht _ hp =>
    obtain ⟨hnamed, hweight⟩ := ht.isNamed fun t htm => hts t (by simp [htm])
    refine ⟨by simp, fun s hs => ?_⟩
    obtain rfl := List.mem_singleton.mp hs
    exact ⟨(hts place (by simp)).isLabelText hp, hnamed, hweight⟩
  | @more before after place us rest t steps _ ht _ hp _ ih =>
    obtain ⟨hnamed, hweight⟩ := ht.isNamed fun t htm => hts t (by simp [htm])
    obtain ⟨-, hlater⟩ := ih fun t htm => hts t (by simp [htm])
    refine ⟨by simp, fun s hs => ?_⟩
    rcases List.mem_cons.mp hs with rfl | hs
    · exact ⟨(hts place (by simp)).isLabelText hp, hnamed, hweight⟩
    · exact hlater s hs

namespace Chain

variable {c : Chain} {text : String}

theorem readsChain_of_ofText (h : ofText text = .ok c) :
    ∃ ts, tokens text = .ok ts ∧ ReadsChain ts c := by
  cases hts : tokens text with
  | error failure =>
    rw [ofText, hts] at h
    cases h
  | ok ts =>
    have hnext : (Reader.ofTokens ts).next.1 = .ok c := by
      rw [ofText, hts] at h
      exact h
    obtain ⟨hfinish, hweights⟩ := Reader.hasWeights_of_tokens hts
    exact ⟨ts, rfl, Reader.readsChain_of_next hfinish hweights hnext⟩

theorem isNamed_of_ofText (h : ofText text = .ok c) :
    c.IsNamed ∧ ∀ s ∈ c.steps, ∀ w ∈ s.transition.weight, w.IsUnsigned := by
  obtain ⟨ts, hts, hreads⟩ := readsChain_of_ofText h
  have hstands := stands_of_mem_tokens hts
  cases hreads with
  | @chain head us steps hk hsteps =>
    obtain ⟨hne, hread⟩ := hsteps.isRead fun t ht => hstands t (List.mem_cons_of_mem _ ht)
    have hhead := (hstands head List.mem_cons_self).isLabelText hk
    exact ⟨⟨hhead, hne, fun s hs => (hread s hs).place, fun s hs => (hread s hs).transition⟩,
      fun s hs => (hread s hs).weight⟩

end Chain

end PetriShorthand
