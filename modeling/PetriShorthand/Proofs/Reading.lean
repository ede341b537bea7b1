import PetriShorthand.Proofs.Readers

namespace PetriShorthand

open Grammar Token

namespace Reading

variable {ts rest : List Token}

theorem transition_of_squareOpen (h : front ts = .squareOpen) : transition ts = square ts := by
  rw [transition, get_bind, h]

theorem transition_of_braceOpen (h : front ts = .braceOpen) : transition ts = brace ts := by
  rw [transition, get_bind, h]

theorem transition_of_reads {taken : List Token} {t : TransitionRef} (h : ReadsTransition taken t)
    (rest : List Token) : transition (taken ++ rest) = .ok (t, rest) := by
  cases h with
  | @square opening name closing number label silent suffix ho hname hnumber hc =>
    have hfollow : front (closing :: rest) ∈ [Kind.squareClose] := by
      exact List.mem_singleton.mpr hc
    have hsuffix := suffix_of_reads hnumber hfollow (by decide)
    simp only [List.cons_append, List.append_assoc, List.nil_append]
    have hfront : front (opening :: name :: (number ++ closing :: rest)) = .squareOpen := ho
    rw [transition_of_squareOpen hfront, square, bind_of_ok (expect_cons ho _),
      bind_of_ok (name_of_reads hname _)]
    exact (bind_of_ok hsuffix).trans (bind_of_ok (expect_cons hc rest))
  | @brace opening name closing number weight label silent suffix w ho hname hnumber hweight hc =>
    have hclose : front (closing :: rest) ≠ .weight := by
      rw [show front (closing :: rest) = .braceClose from hc]
      nofun
    have hfollow : front (weight ++ closing :: rest) ∈ [Kind.weight, Kind.braceClose] := by
      cases hweight with
      | absent => exact List.mem_cons_of_mem _ (List.mem_singleton.mpr hc)
      | given hk _ => exact List.mem_cons.mpr (.inl hk)
    have hsuffix := suffix_of_reads hnumber hfollow (by decide)
    simp only [List.cons_append, List.append_assoc, List.nil_append]
    have hfront : front (opening :: name :: (number ++ (weight ++ closing :: rest))) =
      .braceOpen := ho
    rw [transition_of_braceOpen hfront, brace, bind_of_ok (expect_cons ho _),
      bind_of_ok (name_of_reads hname _)]
    refine (bind_of_ok hsuffix).trans ?_
    refine (bind_of_ok (weight_of_reads hweight fun _ => hclose)).trans ?_
    exact bind_of_ok (closeBrace_of_front hc suffix rest)

theorem square_cases (hfront : front ts = .squareOpen) :
    (∃ taken rest t, ts = taken ++ rest ∧ ReadsTransition taken t) ∨
      Stops .afterArrow square ts := by
  obtain ⟨opening, rest, rfl, ho⟩ := exists_cons_of_front hfront nofun
  have hopen : Stage.afterArrow.next opening.kind = some .squareOpen := by
    rw [ho]
    rfl
  rcases name_cases .squareOpen (.inl rfl) rest with
    ⟨name, rest, label, silent, rfl, hname⟩ | hstop
  · have hnext := (Stage.next_of_isName hname.isName).1
    rcases suffix_cases .squareName .squareSeparator [.squareClose] nofun rfl (by decide) rfl
      nofun rfl rest with ⟨number, rest, suffix, rfl, hnumber, hfollow, hs⟩ | hstop
    · cases hnumber with
      | absent =>
        have hclose : front rest = .squareClose := List.mem_singleton.mp (hfollow rfl)
        obtain ⟨closing, rest, rfl, hc⟩ := exists_cons_of_front hclose nofun
        exact .inl ⟨[opening, name, closing], rest, _, rfl, .square ho hname .absent hc⟩
      | @given separator number hsep hn =>
        rcases expect_cases .squareNumber nofun rfl rest with
          ⟨closing, rest, rfl, hc, -⟩ | hstop
        · exact .inl ⟨[opening, name, separator, number, closing], rest, _, rfl,
            .square ho hname (.given hsep hn) hc⟩
        · have hrun : Stage.squareName.run ([separator, number].map (·.kind)) =
              some .squareNumber := by
            simp only [List.map_cons, List.map_nil, hsep, hn]
            rfl
          exact .inr (.cons hopen (expect_cons ho _) (.cons hnext (name_of_reads hname _)
            (.after hrun hs (hstop.bind _))))
    · exact .inr (.cons hopen (expect_cons ho _) (.cons hnext (name_of_reads hname _)
        (hstop.bind _)))
  · exact .inr (.cons hopen (expect_cons ho _) (hstop.bind _))

/-- Where a transition in braces stands before its end, which then is all that can come. -/
theorem exists_braceEnd {number weight : List Token} {suffix : Option String} {w : Binary64}
    (hnumber : ReadsSuffix number suffix)
    (hfollow : suffix = none → front (weight ++ rest) ∈ [Kind.weight, Kind.braceClose])
    (hweight : ReadsWeight weight w) (habsent : weight = [] → front rest ≠ .weight) :
    ∃ q q', Stage.braceName.run (number.map (·.kind)) = some q ∧
      q.run (weight.map (·.kind)) = some q' ∧ q' ≠ .complete ∧
      q'.reported = (if suffix.isSome then [.weight, .braceClose]
        else [.separator, .weight, .braceClose]) ∧
      (front rest ≠ .braceClose → q'.next (front rest) = none) := by
  cases hnumber with
  | absent =>
    cases hweight with
    | absent =>
      refine ⟨.braceName, .braceName, rfl, rfl, nofun, rfl, fun hne => ?_⟩
      rcases List.mem_cons.mp (hfollow rfl) with h | h
      · exact absurd h (habsent rfl)
      · exact absurd (List.mem_singleton.mp h) hne
    | given hk _ =>
      refine ⟨.braceName, .braceWeight, rfl, ?_, nofun, rfl, fun hne => ?_⟩
      · simp only [List.map_cons, List.map_nil, hk]
        rfl
      · exact (Stage.next_of_weight hne).1
  | given hs hn =>
    have hrun : Stage.braceName.run [Kind.separator, Kind.number] = some .braceNumber := rfl
    simp only [List.map_cons, List.map_nil, hs, hn]
    cases hweight with
    | absent =>
      refine ⟨.braceNumber, .braceNumber, hrun, rfl, nofun, rfl, fun hne => ?_⟩
      have hmem : front rest ∉ Stage.braceNumber.reported := by
        simp [Stage.reported, habsent rfl, hne]
      exact Stage.next_eq_none hmem
    | given hk _ =>
      refine ⟨.braceNumber, .braceNumberWeight, hrun, ?_, nofun, rfl, fun hne => ?_⟩
      · simp only [List.map_cons, List.map_nil, hk]
        rfl
      · exact (Stage.next_of_weight hne).2

theorem brace_cases (hts : HasWeights ts) (hfront : front ts = .braceOpen) :
    (∃ taken rest t, ts = taken ++ rest ∧ ReadsTransition taken t) ∨
      Stops .afterArrow brace ts := by
  obtain ⟨opening, rest, rfl, ho⟩ := exists_cons_of_front hfront nofun
  have hopen : Stage.afterArrow.next opening.kind = some .braceOpen := by
    rw [ho]
    rfl
  rcases name_cases .braceOpen (.inr rfl) rest with
    ⟨name, rest, label, silent, rfl, hname⟩ | hstop
  · have hnext := (Stage.next_of_isName hname.isName).2
    rcases suffix_cases .braceName .braceSeparator [.weight, .braceClose] nofun rfl (by decide) rfl
      nofun rfl rest with ⟨number, rest, suffix, rfl, hnumber, hfollow, hs⟩ | hstop
    · obtain ⟨weight, rest, w, rfl, hweight, habsent⟩ := weight_cases hts.of_cons.of_cons.of_append
      obtain ⟨q, q', hrun, hrun', hq', hreported, hend⟩ :=
        exists_braceEnd hnumber hfollow hweight habsent
      rcases closeBrace_cases hq' hreported hend with ⟨closing, rest, rfl, hc, -⟩ | hstop
      · refine .inl ⟨opening :: name :: (number ++ weight ++ [closing]), rest, _, ?_,
          .brace ho hname hnumber hweight hc⟩
        simp
      · exact .inr (.cons hopen (expect_cons ho _) (.cons hnext (name_of_reads hname _)
          (.after hrun hs (.after hrun' (weight_of_reads hweight habsent) (hstop.bind _)))))
    · exact .inr (.cons hopen (expect_cons ho _) (.cons hnext (name_of_reads hname _)
        (hstop.bind _)))
  · exact .inr (.cons hopen (expect_cons ho _) (hstop.bind _))

theorem transition_cases (hts : HasWeights ts) :
    (∃ taken rest t, ts = taken ++ rest ∧ ReadsTransition taken t) ∨
      Stops .afterArrow transition ts := by
  by_cases hsquare : front ts = .squareOpen
  · exact (square_cases hsquare).imp_right (.congr (transition_of_squareOpen hsquare))
  · by_cases hbrace : front ts = .braceOpen
    · exact (brace_cases hts hbrace).imp_right (.congr (transition_of_braceOpen hbrace))
    · have hmem : front ts ∉ Stage.afterArrow.reported := by
        simp [Stage.reported, hsquare, hbrace]
      refine .inr (.here nofun (Stage.next_eq_none hmem) ?_)
      rw [transition, get_bind]
      cases hfront : front ts with
      | squareOpen => exact absurd hfront hsquare
      | braceOpen => exact absurd hfront hbrace
      | _ => rfl

theorem step_of_reads {before after place : Token} {taken : List Token} {t : TransitionRef}
    (hb : before.kind = .arrow) (ht : ReadsTransition taken t) (ha : after.kind = .arrow)
    (hp : place.kind = .label) (rest : List Token) :
    step (before :: (taken ++ after :: place :: rest)) = .ok (⟨t, place.text⟩, rest) := by
  rw [step, bind_of_ok (expect_cons hb _)]
  refine (bind_of_ok (transition_of_reads ht _)).trans ?_
  rw [bind_of_ok (expect_cons ha _)]
  exact bind_of_ok (bind_of_ok (expect_cons hp rest))

theorem step_cases (hts : HasWeights ts) :
    (∃ before taken after place rest t, ts = before :: (taken ++ after :: place :: rest) ∧
      before.kind = .arrow ∧ ReadsTransition taken t ∧ after.kind = .arrow ∧
      place.kind = .label) ∨ Stops .afterHead step ts := by
  rcases expect_cases .afterHead nofun rfl ts with ⟨before, rest, rfl, hb, -⟩ | hstop
  · have hbefore : Stage.afterHead.next before.kind = some .afterArrow := by
      rw [hb]
      rfl
    rcases transition_cases hts.of_cons with ⟨taken, rest, t, rfl, ht⟩ | hstop
    · have hrun := Stage.run_isTransition ht.isTransition
      have hread := transition_of_reads ht rest
      rcases expect_cases .afterTransition nofun rfl rest with ⟨after, rest, rfl, ha, -⟩ | hstop
      · have hafter : Stage.afterTransition.next after.kind = some .afterSecondArrow := by
          rw [ha]
          rfl
        rcases place_cases .afterSecondArrow nofun rfl rest with ⟨place, rest, rfl, hp, -⟩ | hstop
        · exact .inl ⟨before, taken, after, place, rest, t, rfl, hb, ht, ha, hp⟩
        · exact .inr (.cons hbefore (expect_cons hb _) (.after hrun hread
            (.cons hafter (expect_cons ha _) (hstop.bind _))))
      · exact .inr (.cons hbefore (expect_cons hb _) (.after hrun hread (hstop.bind _)))
    · exact .inr (.cons hbefore (expect_cons hb _) (hstop.bind _))
  · exact .inr (hstop.bind _)

theorem steps_of_last {s : Step} (h : step ts = .ok (s, rest)) (hrest : front rest ≠ .arrow) :
    steps ts = .ok ([s], rest) := by
  rw [steps]
  split
  next m hm =>
    rw [h] at hm
    cases hm
  next s' rest' hs =>
    rw [h] at hs
    cases hs
    exact if_neg hrest

theorem steps_of_more {s : Step} (h : step ts = .ok (s, rest)) (hrest : front rest = .arrow) :
    steps ts = (steps rest).map fun p => (s :: p.1, p.2) := by
  rw [steps]
  split
  next m hm =>
    rw [h] at hm
    cases hm
  next s' rest' hs =>
    rw [h] at hs
    cases hs
    exact if_pos hrest

theorem steps_of_error {m : Mismatch} (h : step ts = .error m) : steps ts = .error m := by
  rw [steps]
  split
  next m' hm =>
    rw [h] at hm
    cases hm
    rfl
  next s rest hs =>
    rw [h] at hs
    cases hs

theorem front_of_readsSteps {ss : List Step} (h : ReadsSteps ts ss) (rest : List Token) :
    front (ts ++ rest) = .arrow := by
  cases h with
  | last hb => exact hb
  | more hb => exact hb

theorem steps_of_reads {taken : List Token} {ss : List Step} (h : ReadsSteps taken ss)
    (hrest : front rest ≠ .arrow) : steps (taken ++ rest) = .ok (ss, rest) := by
  induction h with
  | last hb ht ha hp =>
    simp only [List.cons_append, List.append_assoc, List.nil_append]
    exact steps_of_last (step_of_reads hb ht ha hp rest) hrest
  | more hb ht ha hp hmore ih =>
    have harrow := front_of_readsSteps hmore rest
    simp only [List.cons_append, List.append_assoc]
    rw [steps_of_more (step_of_reads hb ht ha hp _) harrow, ih]
    rfl

/-- Before more steps nothing but an arrow may come, just as before the first. -/
theorem run_complete_of_ne_nil {ks : List Kind} (h : ks ≠ []) :
    Stage.complete.run ks = Stage.afterHead.run ks := by
  cases ks with
  | nil => exact absurd rfl h
  | cons k ks => cases k <;> rfl

theorem Stops.steps_more {s : Step} {taken : List Token}
    (hrun : Stage.afterHead.run (taken.map (·.kind)) = some .complete)
    (hstep : step (taken ++ rest) = .ok (s, rest)) (hrest : front rest = .arrow)
    (h : Stops .afterHead steps rest) : Stops .afterHead steps (taken ++ rest) := by
  obtain ⟨taken', rest', m, rfl, hrun', hm, hnext, hr⟩ := h
  have hne : taken'.map (·.kind) ≠ [] := by
    intro hnil
    rw [hnil] at hrun'
    cases hrun'
    have htaken : taken' = [] := List.map_eq_nil_iff.mp hnil
    rw [htaken, List.nil_append] at hrest
    rw [hrest] at hnext
    cases hnext
  refine ⟨taken ++ taken', rest', m, (List.append_assoc ..).symm, ?_, hm, hnext, ?_⟩
  · rw [List.map_append]
    exact Stage.run_append_eq_some.mpr
      ⟨.complete, hrun, (run_complete_of_ne_nil hne).trans hrun'⟩
  · rw [steps_of_more hstep hrest, hr]
    rfl

theorem steps_cases (hts : HasWeights ts) :
    (∃ taken rest ss, ts = taken ++ rest ∧ ReadsSteps taken ss ∧ front rest ≠ .arrow) ∨
      Stops .afterHead steps ts := by
  induction hn : ts.length using Nat.strongRecOn generalizing ts with
  | ind n ih =>
    rcases step_cases hts with ⟨before, taken, after, place, rest, t, rfl, hb, ht, ha, hp⟩ | hstop
    · -- the step could be the last one; whether it is depends on the token behind it
      have hlast := ReadsSteps.last hb ht ha hp
      have hsplit : before :: (taken ++ after :: place :: rest) =
          (before :: (taken ++ [after, place])) ++ rest := by simp
      by_cases hrest : front rest = .arrow
      · have hlen : rest.length < n := by
          simp only [← hn, List.length_cons, List.length_append]
          omega
        have hrun := Stage.run_isSteps hlast.isSteps
        have hstep := step_of_reads hb ht ha hp rest
        have hrestWeights : HasWeights rest := hts.of_cons.of_append.of_cons.of_cons
        rcases ih _ hlen hrestWeights rfl with ⟨taken', rest, ss, rfl, hss, hfront⟩ | hstop
        · exact .inl ⟨before :: (taken ++ after :: place :: taken'), rest, _, by simp,
            .more hb ht ha hp hss, hfront⟩
        · rw [hsplit] at hstep ⊢
          exact .inr (hstop.steps_more hrun hstep hrest)
      · exact .inl ⟨_, rest, _, hsplit, hlast, hrest⟩
    · obtain ⟨taken, rest, m, he, hrun, hm, hnext, hr⟩ := hstop
      exact .inr ⟨taken, rest, m, he, hrun, hm, hnext, steps_of_error hr⟩

theorem chain_of_reads {taken : List Token} {c : Chain} (h : ReadsChain taken c)
    (hrest : front rest ≠ .arrow) : chain (taken ++ rest) = .ok (c, rest) := by
  cases h with
  | chain hhead hsteps =>
    rw [List.cons_append, chain, bind_of_ok (bind_of_ok (expect_cons hhead _))]
    exact bind_of_ok (steps_of_reads hsteps hrest)

theorem chain_cases (hts : HasWeights ts) :
    (∃ taken rest c, ts = taken ++ rest ∧ ReadsChain taken c ∧ front rest ≠ .arrow) ∨
      Stops .start chain ts := by
  rcases place_cases .start nofun rfl ts with ⟨head, rest, rfl, hhead, hread⟩ | hstop
  · rcases steps_cases hts.of_cons with ⟨taken, rest, ss, rfl, hss, hrest⟩ | hstop
    · exact .inl ⟨head :: taken, rest, _, rfl, .chain hhead hss, hrest⟩
    · have hnext : Stage.start.next head.kind = some .afterHead := by
        rw [hhead]
        rfl
      exact .inr (.cons hnext hread (hstop.bind _))
  · exact .inr (hstop.bind _)

end Reading

theorem ReadsChain.unique {ts : List Token} {c c' : Chain} (h : ReadsChain ts c)
    (h' : ReadsChain ts c') : c = c' := by
  have hread : Reading.chain (ts ++ []) = .ok (c, []) := Reading.chain_of_reads h nofun
  have hread' : Reading.chain (ts ++ []) = .ok (c', []) := Reading.chain_of_reads h' nofun
  rw [hread] at hread'
  cases hread'
  rfl

end PetriShorthand
