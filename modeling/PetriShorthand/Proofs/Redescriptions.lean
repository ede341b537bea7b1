import PetriShorthand.Proofs.Persistence

namespace PetriShorthand

namespace Assembly

/-- The weight that a reference finds at its transition; `none` where it stands for none. -/
def weightOf? (s : Assembly) (t : TransitionRef) : Option (Option Binary64) :=
  match s.resolve t.key with
  | some (.transition i) => s.net.transitions[i]?.map Transition.weight
  | _ => none

/-- What is to be said about a reference: it writes another weight than its transition has. -/
def redescription? (s : Assembly) (t : TransitionRef) : Option Redescription :=
  (s.weightOf? t).bind fun kept => if sameWeight kept t.weight then none else some ⟨t, kept⟩

variable {s s' : Assembly} {p p' : Plan} {t : TransitionRef} {c : Chain} {created : Naming}

theorem weightOf?_of_resolve {i : Nat} (h : s.resolve t.key = some (.transition i)) :
    s.weightOf? t = s.net.transitions[i]?.map Transition.weight := by
  rw [weightOf?, h]

theorem weightOf?_of_resolve_eq_none (h : s.resolve t.key = none) : s.weightOf? t = none := by
  rw [weightOf?, h]

theorem redescription?_of_resolve_eq_none (h : s.resolve t.key = none) :
    s.redescription? t = none := by
  rw [redescription?, weightOf?_of_resolve_eq_none h, Option.bind_none]

section Notes

theorem compareWeight_of_resolve {i : Nat} (h : s.resolve t.key = some (.transition i)) :
    (p.compareWeight s i t).redescriptions =
      p.redescriptions ++ (s.redescription? t).toList := by
  rw [redescription?, weightOf?_of_resolve h, Plan.compareWeight]
  cases s.net.transitions[i]? with
  | none => exact (List.append_nil _).symm
  | some old =>
    simp only [Option.map_some, Option.bind_some]
    by_cases hsame : sameWeight old.weight t.weight
    · rw [if_pos hsame, if_pos hsame]
      exact (List.append_nil _).symm
    · rw [if_neg hsame, if_neg hsame]
      rfl

theorem compareWeight_of_planned {i : Nat} (h : s.resolve t.key = none)
    (hi : p.resolve s t.key = some (.transition i)) : p.compareWeight s i t = p := by
  rw [Plan.resolve, h, Option.none_or] at hi
  have hlast : s.net.transitions[i]? = none := by
    rcases Option.or_eq_some_iff.mp hi with hplace | ⟨-, hnew⟩
    · obtain ⟨j, -, hj⟩ := Option.map_eq_some_iff.mp hplace
      cases hj
    · obtain ⟨j, -, hj⟩ := Option.map_eq_some_iff.mp hnew
      cases hj
      exact List.getElem?_eq_none (Nat.le_add_right _ _)
  rw [Plan.compareWeight, hlast]

theorem compareWeight_redescriptions {i : Nat}
    (hi : p.resolve s t.key = some (.transition i)) :
    (p.compareWeight s i t).redescriptions =
      p.redescriptions ++ (s.redescription? t).toList := by
  cases hold : s.resolve t.key with
  | some n =>
    have hn := hi
    rw [Plan.resolve, hold, Option.some_or] at hn
    cases hn
    exact compareWeight_of_resolve hold
  | none =>
    rw [compareWeight_of_planned hold hi, redescription?_of_resolve_eq_none hold]
    exact (List.append_nil _).symm

theorem redescriptions_of_refer {r : Reference} (h : Planning.refer s r p = (.ok (), p')) :
    p'.redescriptions = p.redescriptions ++ (r.transition?.bind s.redescription?).toList := by
  rcases Planning.refer_cases h with ⟨hnone, -, rfl⟩ | ⟨n, hn, hkind, -, rfl⟩ | ⟨n, -, -, he, -⟩
  · cases r with
    | place label => exact (List.append_nil _).symm
    | transition t =>
      have hsaid := redescription?_of_resolve_eq_none (Plan.resolve_eq_none_iff.mp hnone).1
      change _ = _ ++ (s.redescription? t).toList
      rw [hsaid]
      exact (List.append_nil _).symm
  · cases r with
    | place label => exact (List.append_nil _).symm
    | transition t =>
      cases n with
      | place i => cases hkind
      | transition i => exact compareWeight_redescriptions hn
  · cases he

/-- While a plan is made, every reference is compared with what was there before the plan. -/
theorem redescriptions_of_forM_refer {refs : List Reference}
    (h : refs.forM (Planning.refer s) p = (.ok (), p')) :
    p'.redescriptions =
      p.redescriptions ++ (refs.filterMap Reference.transition?).filterMap s.redescription? := by
  induction refs generalizing p with
  | nil =>
    cases h
    exact (List.append_nil _).symm
  | cons r refs ih =>
    cases hr : Planning.refer s r p with
    | mk out q =>
      cases out with
      | error failure =>
        have hstop := (bind_run_error hr).symm.trans h
        cases hstop
      | ok =>
        rw [ih ((bind_run_ok hr).symm.trans h), redescriptions_of_refer hr, List.append_assoc]
        congr 1
        cases r with
        | place label => rfl
        | transition t =>
          change (s.redescription? t).toList ++ _ = List.filterMap _ (t :: _)
          rw [List.filterMap_cons]
          cases s.redescription? t with
          | none => rfl
          | some said => rfl

theorem redescriptions_of_addChain (h : (s.addChain c).result = .ok created) :
    (s.addChain c).redescriptions = c.transitions.filterMap s.redescription? := by
  rw [addChain] at h ⊢
  cases hrun : Planning.chain s c .empty with
  | mk out p =>
    rw [hrun] at h
    cases out with
    | error failure => cases h
    | ok =>
      rw [Planning.chain_eq_forM] at hrun
      rw [← c.filterMap_transition?]
      exact redescriptions_of_forM_refer hrun

end Notes

section Afterwards

theorem Extends.weightOf?_eq (hs : s.Grounded) (h : s.Extends s')
    (hknown : s.resolve t.key ≠ none) : s'.weightOf? t = s.weightOf? t := by
  obtain ⟨n, hn⟩ := Option.ne_none_iff_exists'.mp hknown
  rw [weightOf?, weightOf?, h.resolve hn, hn]
  cases n with
  | place i => rfl
  | transition i =>
    have hi : i < s.net.transitions.length := hs.contains hn
    obtain ⟨more, he⟩ := h.transitions
    dsimp only
    rw [← he, List.getElem?_append_left hi]

theorem filterMap_redescription?_eq (hs : s.Grounded) (h : s.Extends s')
    (ts : List TransitionRef) : ts.filterMap s.redescription? =
      (ts.filter fun t => (s.resolve t.key).isSome).filterMap s'.redescription? := by
  rw [List.filterMap_filter]
  refine List.filterMap_congr fun t _ => ?_
  by_cases hknown : s.resolve t.key = none
  · rw [redescription?_of_resolve_eq_none hknown, hknown]
    rfl
  · rw [if_pos (Option.isSome_iff_ne_none.mpr hknown), redescription?, redescription?,
      h.weightOf?_eq hs hknown]

theorem weightOf?_of_new (hp : p.Describes s c.references) (hout : p.CarriedOut s created s')
    (ht : t ∈ c.transitions) (hnone : s.resolve t.key = none) :
    s'.weightOf? t =
      (c.transitions.find? fun u => u.key = t.key).map TransitionRef.weight := by
  have hkey : t.key ∈ p.transitions.map TransitionRef.key :=
    (Plan.mem_keys_iff hp).mpr ⟨⟨t, Chain.mem_transitions_iff.mp ht, rfl⟩, hnone⟩
  have hplace : p.newPlace? s.net t.key = none :=
    Plan.newPlace?_eq_none_iff.mpr fun hmem => hp.not_mem_keys hmem hkey
  have hfirst : (p.transitions.find? fun u => u.key = t.key) =
      c.transitions.find? fun u => u.key = t.key := by
    rw [hp.transitions, c.filterMap_transition?, fresh, find?_distinctBy, List.find?_filter]
    congr 1
    funext u
    by_cases hu : u.key = t.key
    · simp [hu, hnone]
    · simp [hu]
  rw [weightOf?, hout.resolve_eq hp, Plan.resolve, hnone, hplace, Option.none_or, Option.none_or,
    Plan.newTransition?, ← hfirst, List.find?_eq_bind_findIdx?_getElem?]
  cases p.transitions.findIdx? fun u => u.key = t.key with
  | none => rfl
  | some i =>
    change s'.net.transitions[s.net.transitions.length + i]?.map Transition.weight = _
    rw [hout.transitions, List.getElem?_append_right (Nat.le_add_right _ _),
      Nat.add_sub_cancel_left, List.getElem?_map, Option.map_map]
    rfl

theorem exists_weightOf? (hs : s.Grounded) (hp : p.Describes s c.references)
    (hout : p.CarriedOut s created s') (ht : t ∈ c.transitions) :
    ∃ kept, s'.weightOf? t = some kept := by
  obtain ⟨n, hn, hkind⟩ := exists_resolve_of_added hp hout (Chain.mem_transitions_iff.mp ht)
  cases n with
  | place i => cases hkind
  | transition i =>
    have hi : i < s'.net.transitions.length := (hout.grounded hs).contains hn
    exact ⟨_, by rw [weightOf?_of_resolve hn, List.getElem?_eq_getElem hi, Option.map_some]⟩

/-- Transitions have the weights that they had before, or else those of the first references. -/
theorem weightOf?_of_added (hs : s.Grounded) (hp : p.Describes s c.references)
    (hout : p.CarriedOut s created s') (ht : t ∈ c.transitions) :
    s'.weightOf? t = (s.weightOf? t).or
      ((c.transitions.find? fun u => u.key = t.key).map TransitionRef.weight) := by
  obtain ⟨kept, hkept⟩ := exists_weightOf? hs hp hout ht
  by_cases hknown : s.resolve t.key = none
  · rw [weightOf?_of_new hp hout ht hknown, weightOf?_of_resolve_eq_none hknown, Option.none_or]
  · rw [(extends_of_carriedOut hp hout).weightOf?_eq hs hknown] at hkept ⊢
    rw [hkept, Option.some_or]

theorem filterMap_filter_eq_iff {α β : Type} {q : α → Bool} {f : α → Option β} {xs : List α} :
    (xs.filter q).filterMap f = xs.filterMap f ↔ ∀ x ∈ xs, q x = false → f x = none := by
  induction xs with
  | nil => exact ⟨nofun, fun _ => rfl⟩
  | cons x xs ih =>
    rw [List.forall_mem_cons, ← ih]
    cases hq : q x with
    | true =>
      rw [List.filter_cons_of_pos hq, List.filterMap_cons, List.filterMap_cons]
      cases f x with
      | none => simp
      | some y => simp
    | false =>
      rw [List.filter_cons_of_neg (by simp [hq]), List.filterMap_cons]
      cases f x with
      | none => simp
      | some y =>
        have hsub : ((xs.filter q).filterMap f).Sublist (xs.filterMap f) :=
          List.filter_sublist.filterMap f
        have hlen := hsub.length_le
        refine ⟨fun he => ?_, fun h => by simp at h⟩
        have hcount := congrArg List.length he
        rw [List.length_cons] at hcount
        omega

/-- Every reference of a text that is added finds a transition, of the weight that it had before or
else of that of the first reference to it. The redescriptions are, in order, those of the references
to transitions that were there before. They are those of all references exactly if no other one
writes a weight that its transition does not have. -/
theorem redescriptions_of_added (hs : s.Reachable) {text : String}
    (h : (s.addText text).result = .ok created) :
    ∃ c, Chain.ofText text = .ok c ∧
      let o := s.addText text
      (∀ t ∈ c.transitions, ∃ kept, o.assembly.weightOf? t = some kept ∧
        some kept = (s.weightOf? t).or
          ((c.transitions.find? fun u => u.key = t.key).map TransitionRef.weight)) ∧
      o.redescriptions = (c.transitions.filter fun t => (s.resolve t.key).isSome).filterMap
        o.assembly.redescription? ∧
      (o.redescriptions = c.transitions.filterMap o.assembly.redescription? ↔
        ∀ t ∈ c.transitions, s.resolve t.key = none → o.assembly.redescription? t = none) := by
  cases hread : Chain.ofText text with
  | error failure =>
    rw [addText, hread] at h
    cases h
  | ok c =>
    rw [addText, hread] at h ⊢
    dsimp only at h ⊢
    obtain ⟨p, hp, hout⟩ := describes_of_addChain_ok hs.grounded h
    have hexact : (s.addChain c).redescriptions =
        (c.transitions.filter fun t => (s.resolve t.key).isSome).filterMap
          (s.addChain c).assembly.redescription? := by
      rw [redescriptions_of_addChain h, filterMap_redescription?_eq hs.grounded
        (extends_of_carriedOut hp hout)]
    refine ⟨c, rfl, fun t ht => ?_, hexact, ?_⟩
    · obtain ⟨kept, hkept⟩ := exists_weightOf? hs.grounded hp hout ht
      exact ⟨kept, hkept, hkept.symm.trans (weightOf?_of_added hs.grounded hp hout ht)⟩
    · rw [hexact, filterMap_filter_eq_iff]
      simp only [Option.isSome_eq_false_iff, Option.isNone_iff_eq_none]

/-- A transition of an earlier text that is described otherwise, and a new one that is referred to
twice, both times without a weight. -/
theorem redescriptions_of_added_reused :
    let s := ((start "n").addText "a -> \x7bb\x7d -> c").assembly
    let text := "c -> [b] -> a -> [d] -> c -> [d] -> a"
    let o := s.addText text
    s.Reachable ∧ (∃ created, o.result = .ok created) ∧
      o.redescriptions = [⟨⟨"b", none, false, none⟩, some .one⟩] ∧
      ∃ c, Chain.ofText text = .ok c ∧
        o.redescriptions = c.transitions.filterMap o.assembly.redescription? := by
  intro s text o
  have hs : s.Reachable := .addText _ (.start _)
  obtain ⟨created, hcreated⟩ : ∃ created, o.result = .ok created := exists_eq_ok (by decide +kernel)
  obtain ⟨c, hc, -, -, hall⟩ := redescriptions_of_added hs hcreated
  have hread : Chain.ofText text = .ok ⟨"c", [⟨⟨"b", none, false, none⟩, "a"⟩,
      ⟨⟨"d", none, false, none⟩, "c"⟩, ⟨⟨"d", none, false, none⟩, "a"⟩]⟩ := by decide +kernel
  rw [hread] at hc
  cases hc
  exact ⟨hs, ⟨created, hcreated⟩, by decide +kernel, _, hread, hall.mpr (by decide +kernel)⟩

/-- The second reference to a new transition writes another weight than the first, which the
transition has, and nothing is said about it. -/
theorem redescription_within_text_missed :
    let text := "a -> \x7bb 2.0\x7d -> c -> \x7bb 3.0\x7d -> d"
    let o := (start "n").addText text
    (∃ created, o.result = .ok created) ∧ o.redescriptions = [] ∧
      ∃ c, Chain.ofText text = .ok c ∧
        (c.transitions.filterMap o.assembly.redescription?).map Redescription.message =
          ["transition 'b' reused as \x7bb 3.0\x7d but was created with weight Some(2.0); " ++
            "keeping the original"] := by
  intro text o
  obtain ⟨c, hc⟩ : ∃ c, Chain.ofText text = .ok c := exists_eq_ok (by decide +kernel)
  have hunsaid : (Chain.ofText text).map (fun c =>
      (c.transitions.filterMap o.assembly.redescription?).map Redescription.message) =
      .ok ["transition 'b' reused as \x7bb 3.0\x7d but was created with weight Some(2.0); " ++
        "keeping the original"] := by
    decide +kernel
  have hadded : o.result.toOption.isSome ∧ o.redescriptions = [] := by decide +kernel
  rw [hc] at hunsaid
  exact ⟨exists_eq_ok hadded.1, hadded.2, c, hc, Except.ok.inj hunsaid⟩

end Afterwards

end Assembly

end PetriShorthand
