import PetriShorthand.Proofs.Lexemes
import PetriShorthand.Proofs.Reading

namespace PetriShorthand

open Grammar

namespace Reader

variable {ts pre rest : List Token}

theorem next_of_read {c : Chain} (h : Reading.chain ts = .ok (c, [])) :
    (ofTokens ts).next.1 = .ok c := by
  have hrest : (ofTokens ts).rest = ts := rfl
  rw [next, hrest, h]

theorem next_of_trailing {c : Chain} {t : Token} (h : Reading.chain ts = .ok (c, t :: rest))
    (ht : t.kind ≠ .finish) : (ofTokens ts).next.1 = .error (.trailingToken t) := by
  have hrest : (ofTokens ts).rest = ts := rfl
  rw [next, hrest, h]
  exact if_neg ht

theorem next_of_mismatch {m : Mismatch} (h : Reading.chain ts = .error m) :
    (ofTokens ts).next.1 =
      .error (.unexpectedToken m.expected (m.found.getD (.finish (ofTokens ts).finish))) := by
  have hrest : (ofTokens ts).rest = ts := rfl
  rw [next, hrest, h]

/-- Where no stage follows, no longer stretch is viable. -/
theorem prefix_of_stuck {q : Stage} {longer : List Token}
    (hrun : Stage.start.run (pre.map (·.kind)) = some q)
    (hstuck : q.next (Reading.front rest) = none) (hlonger : longer <+: pre ++ rest)
    (hviable : IsViable (longer.map (·.kind))) : longer <+: pre := by
  rcases List.prefix_or_prefix_of_prefix hlonger (List.prefix_append pre rest) with h | h
  · exact h
  · obtain ⟨more, rfl⟩ := h
    cases more with
    | nil => exact ⟨[], by rw [List.append_nil, List.append_nil]⟩
    | cons t more =>
      have hfront : Reading.front rest = t.kind := by
        obtain ⟨others, rfl⟩ := (List.prefix_append_right_inj pre).mp hlonger
        rfl
      obtain ⟨q', hq'⟩ := Stage.isViable_iff_run.mp hviable
      rw [List.map_append] at hq'
      obtain ⟨m, hm, hmore⟩ := Stage.run_append_eq_some.mp hq'
      obtain ⟨next, hnext, -⟩ := Stage.run_cons_eq_some.mp hmore
      rw [hrun] at hm
      cases hm
      rw [hfront, hnext] at hstuck
      cases hstuck

theorem not_isSentence_of_stuck {q : Stage} (hrun : Stage.start.run (pre.map (·.kind)) = some q)
    (hstuck : q.next (Reading.front rest) = none) (hend : rest = [] → q ≠ .complete) :
    ¬IsSentence ((pre ++ rest).map (·.kind)) := by
  intro h
  have hviable : IsViable ((pre ++ rest).map (·.kind)) := ⟨[], by rwa [List.append_nil]⟩
  have hle := (prefix_of_stuck hrun hstuck (List.prefix_refl _) hviable).length_le
  have hrest : rest = [] := by
    apply List.eq_nil_of_length_eq_zero
    rw [List.length_append] at hle
    omega
  rw [hrest, List.append_nil] at h
  have hcomplete := Stage.isSentence_iff_run.mp h
  rw [hrun] at hcomplete
  exact hend hrest (Option.some.inj hcomplete)

/-- The tokens can be continued to a sentence, but not with the one that follows them in the
list. -/
def IsLongestViable (pre ts : List Token) : Prop :=
  IsViable (pre.map (·.kind)) ∧
    ∀ longer, longer <+: ts → IsViable (longer.map (·.kind)) → longer <+: pre

theorem next_cases (hfinish : ∀ t ∈ ts, t.kind ≠ .finish) (hweights : Reading.HasWeights ts) :
    (∃ c, ReadsChain ts c ∧ (ofTokens ts).next.1 = .ok c) ∨
    (¬IsSentence (ts.map (·.kind)) ∧ ∃ pre rest, ts = pre ++ rest ∧ IsLongestViable pre ts ∧
      let found := rest.head?.getD (.finish (ofTokens ts).finish)
      (IsSentence (pre.map (·.kind)) ∧ (ofTokens ts).next.1 = .error (.trailingToken found) ∨
        ¬IsSentence (pre.map (·.kind)) ∧
          ∃ q : Stage, (ofTokens ts).next.1 = .error (.unexpectedToken q.reported found))) := by
  rcases Reading.chain_cases hweights with ⟨taken, rest, c, rfl, hc, hrest⟩ | hstop
  · have hread := Reading.chain_of_reads hc hrest
    cases rest with
    | nil =>
      rw [List.append_nil] at hread ⊢
      exact .inl ⟨c, hc, next_of_read hread⟩
    | cons t rest =>
      have hrun := Stage.isSentence_iff_run.mp hc.isSentence
      have hstuck : Stage.complete.next t.kind = none := by
        cases hk : t.kind with
        | arrow => exact absurd hk hrest
        | _ => rfl
      refine .inr ⟨not_isSentence_of_stuck hrun hstuck nofun, taken, t :: rest, rfl, ?_, ?_⟩
      · exact ⟨Stage.isViable_iff_run.mpr ⟨_, hrun⟩, fun longer => prefix_of_stuck hrun hstuck⟩
      · have ht : t.kind ≠ .finish := hfinish t (by simp)
        exact .inl ⟨hc.isSentence, next_of_trailing hread ht⟩
  · obtain ⟨pre, rest, q, rfl, hrun, hq, hstuck, hread⟩ := hstop
    refine .inr ⟨not_isSentence_of_stuck hrun hstuck fun _ => hq, pre, rest, rfl, ?_, ?_⟩
    · exact ⟨Stage.isViable_iff_run.mpr ⟨_, hrun⟩, fun longer => prefix_of_stuck hrun hstuck⟩
    · have hpre : ¬IsSentence (pre.map (·.kind)) := by
        intro h
        have hcomplete := Stage.isSentence_iff_run.mp h
        rw [hrun] at hcomplete
        exact hq (Option.some.inj hcomplete)
      exact .inr ⟨hpre, q, next_of_mismatch hread⟩

theorem readsChain_of_next {c : Chain} (hfinish : ∀ t ∈ ts, t.kind ≠ .finish)
    (hweights : Reading.HasWeights ts) (h : (ofTokens ts).next.1 = .ok c) : ReadsChain ts c := by
  rcases next_cases hfinish hweights with
    ⟨c', hc', hnext⟩ | ⟨-, pre, rest, -, -, ⟨-, herror⟩ | ⟨-, q, herror⟩⟩
  · rw [h] at hnext
    cases hnext
    exact hc'
  · rw [h] at herror
    cases herror
  · rw [h] at herror
    cases herror

theorem hasWeights_of_tokens {text : String} (h : tokens text = .ok ts) :
    (∀ t ∈ ts, t.kind ≠ .finish) ∧ Reading.HasWeights ts := by
  have hlexeme := isLexeme_of_mem_tokens h
  exact ⟨fun t ht => (hlexeme t ht).kind_ne_finish, fun t ht => (hlexeme t ht).exists_weight⟩

/-- Where the chain of a text breaks off, the tokens before lead to a stage that the next one does
not follow, and what was expected is what is reported of that stage. -/
theorem exists_stage_of_unexpectedToken {text : String} {expected : List Token.Kind} {found : Token}
    (h : Chain.ofText text = .error (.unexpectedToken expected found)) :
    ∃ (pre rest : List Token) (q : Stage), tokens text = .ok (pre ++ rest) ∧
      Stage.start.run (pre.map (·.kind)) = some q ∧ q.next (Reading.front rest) = none ∧
      expected = q.reported ∧
        found = rest.head?.getD (.finish (ofTokens (pre ++ rest)).finish) := by
  cases hts : tokens text with
  | error failure =>
    obtain ⟨position, remainder, rfl⟩ := Cursor.unexpectedText_of_tokens hts
    rw [Chain.ofText, hts] at h
    cases h
  | ok ts =>
    have hnext : (ofTokens ts).next.1 = .error (.unexpectedToken expected found) := by
      rw [Chain.ofText, hts] at h
      exact h
    obtain ⟨hfinish, hweights⟩ := hasWeights_of_tokens hts
    rcases Reading.chain_cases hweights with ⟨taken, rest, c, rfl, hc, hrest⟩ | hstop
    · have hread := Reading.chain_of_reads hc hrest
      cases rest with
      | nil =>
        rw [List.append_nil] at hread hnext
        rw [next_of_read hread] at hnext
        cases hnext
      | cons t rest =>
        rw [next_of_trailing hread (hfinish t (by simp))] at hnext
        cases hnext
    · obtain ⟨pre, rest, q, rfl, hrun, -, hstuck, hread⟩ := hstop
      rw [next_of_mismatch hread] at hnext
      cases hnext
      exact ⟨pre, rest, q, rfl, hrun, hstuck, rfl, rfl⟩

end Reader

end PetriShorthand
