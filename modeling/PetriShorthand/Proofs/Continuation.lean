import PetriShorthand.Proofs.Creation
import PetriShorthand.Proofs.Simulation

namespace PetriShorthand

namespace Assembly

/-- The nets are the same, and so is what every name stands for; which of the names are inherited
makes no difference. -/
structure Agrees (s t : Assembly) : Prop where
  net : s.net = t.net
  resolve : ∀ name, s.resolve name = t.resolve name

variable {s t : Assembly}

section Steps

theorem Agrees.plan_resolve (h : s.Agrees t) (p : Plan) (name : String) :
    p.resolve s name = p.resolve t name := by
  rw [Plan.resolve, Plan.resolve, h.resolve, h.net]

theorem Agrees.refer_eq (h : s.Agrees t) (r : Reference) :
    Planning.refer s r = Planning.refer t r := by
  funext p
  cases r with
  | place label =>
    rw [Planning.refer, Planning.refer, Planning.place_run, Planning.place_run, h.plan_resolve]
    simp only [Plan.addPlace, h.net]
  | transition u =>
    rw [Planning.refer, Planning.refer, Planning.transition_run, Planning.transition_run,
      h.plan_resolve]
    simp only [Plan.compareWeight, Plan.addTransition, h.net]

/-- Plans are made from the net and what names stand for, and from nothing else. -/
theorem Agrees.chain_eq (h : s.Agrees t) (c : Chain) :
    Planning.chain s c = Planning.chain t c := by
  rw [Planning.chain_eq_forM, Planning.chain_eq_forM, funext h.refer_eq]

theorem simulates_agrees : Simulates Agrees := by
  refine ⟨fun h => h.chain_eq, ?_⟩
  intro s t s' t' c p created created' h hp hp' hout hout'
  refine ⟨Naming.ext ?_, Net.ext ?_ ?_ ?_ ?_, fun name => ?_⟩
  · rw [hout.created, hout'.created, h.net]
  · rw [hout.label, hout'.label, h.net]
  · rw [hout.places, hout'.places, h.net]
  · rw [hout.transitions, hout'.transitions, h.net]
  · rw [hout.arcs, hout'.arcs, h.net]
  · rw [hout.resolve_eq hp, hout'.resolve_eq hp', h.plan_resolve]

theorem Agrees.answer (h : s.Agrees t) (hs : s.Grounded) (ht : t.Grounded) (request : Request) :
    (s.answer request).Alike Agrees (t.answer request) := by
  cases request with
  | chain c => exact simulates_agrees.addChain h hs ht c
  | text text => exact simulates_agrees.addText h hs ht text
  | lines text => exact simulates_agrees.addTexts h hs ht .empty (statementLines text)

end Steps

def answers (s : Assembly) : List Request → List Outcome
  | [] => []
  | request :: requests => s.answer request :: (s.answer request).assembly.answers requests

theorem Agrees.answers (h : s.Agrees t) (hs : s.Grounded) (ht : t.Grounded)
    (requests : List Request) : List.Forall₂ (Outcome.Alike Agrees) (s.answers requests)
      (t.answers requests) := by
  induction requests generalizing s t with
  | nil => exact .nil
  | cons request requests ih =>
    have hfirst := h.answer hs ht request
    exact .cons hfirst (ih hfirst.assembly (hs.answer request) (ht.answer request))

section BareNets

variable {net : Net} {name : String} {n : Node} {ts : List TransitionRef}

theorem mem_byLabel_iff : (name, n) ∈ net.byLabel ↔ net.labelOf? n = some name := by
  rw [Net.byLabel, List.mem_append, List.mem_reverse, List.mem_reverse]
  cases n with
  | place i => simp [Net.labelOf?, List.mem_mapIdx, List.getElem?_eq_some_iff]
  | transition i => simp [Net.labelOf?, List.mem_mapIdx, List.getElem?_eq_some_iff, and_comm]

theorem lookup_eq_some_iff_of_unique {entries : List (String × Node)}
    (h : ∀ n, (name, n) ∈ entries → ∀ n', (name, n') ∈ entries → n = n') :
    entries.lookup name = some n ↔ (name, n) ∈ entries := by
  have hmem : ∀ {n}, entries.lookup name = some n → (name, n) ∈ entries := by
    intro n hn
    obtain ⟨before, after, he, -⟩ := List.lookup_eq_some_iff.mp hn
    simp [he]
  refine ⟨hmem, fun hn => ?_⟩
  cases hfound : entries.lookup name with
  | none => simpa using List.lookup_eq_none_iff.mp hfound _ hn
  | some n' => rw [h n' (hmem hfound) n hn]

/-- Where no transition has a number, names are labels. -/
theorem Creates.mem_bindings_iff {label : String}
    (h : (start label).Creates s s.naming ts) (hplain : ∀ t ∈ ts, t.suffix = none) :
    (name, n) ∈ s.naming.bindings ↔ s.net.labelOf? n = some name := by
  have hlabel : ∀ {name}, (name, n) ∈ s.naming.bindings → s.net.labelOf? n = some name := by
    intro name hmem
    cases n with
    | place i => exact h.place hmem
    | transition i =>
      obtain ⟨t, ht, hkey, hi⟩ := h.transition hmem
      have hname : t.label = name := by rw [← hkey, TransitionRef.key, hplain t ht]
      rw [Net.labelOf?, hi, ← hname]
      rfl
  refine ⟨hlabel, fun hn => ?_⟩
  have hnone : ¬(start label).net.Contains n := by
    cases n with
    | place i => exact Nat.not_lt_zero i
    | transition i => exact Nat.not_lt_zero i
  obtain ⟨name', hmem⟩ := (h.node n).mpr ⟨Net.contains_of_labelOf? hn, hnone⟩
  rw [hlabel hmem] at hn
  cases hn
  exact hmem

/-- So they are found again by label, and no other node has the label that is found. -/
theorem Creates.agrees_ofNet {label : String} (h : (start label).Creates s s.naming ts)
    (hplain : ∀ t ∈ ts, t.suffix = none) : s.Agrees (ofNet s.net) := by
  have hmem : ∀ {name n}, (name, n) ∈ s.net.byLabel ↔ (name, n) ∈ s.naming.bindings := by
    intro name n
    rw [mem_byLabel_iff, h.mem_bindings_iff hplain]
  refine ⟨rfl, fun name => Option.ext fun n => ?_⟩
  have hunique : ∀ n, (name, n) ∈ s.net.byLabel → ∀ n', (name, n') ∈ s.net.byLabel → n = n' := by
    intro n hn n' hn'
    exact congrArg Prod.snd (Naming.eq_of_mem (hmem.mp hn) (hmem.mp hn') (.inl rfl))
  rw [resolve, h.inherited, show (start label).inherited = [] from rfl, List.lookup_nil,
    Option.or_none, Naming.node?_eq_some_iff, ← hmem, ← lookup_eq_some_iff_of_unique hunique]
  rfl

end BareNets

/-- An assembly whose transitions were all added without numbers answers every further request as
one that goes on with its net: the same names are created or the failure is the same, the same is
said about weights, and the nets afterwards are the same. -/
theorem continuing_from_net (label : String) (requests : List Request)
    (hplain : ∀ c ∈ (start label).taken requests, ∀ t ∈ c.transitions, t.suffix = none)
    (further : List Request) :
    let s := (start label).after requests
    List.Forall₂ (Outcome.Alike Agrees) (s.answers further) ((ofNet s.net).answers further) := by
  intro s
  have hcreates :=
    (IsInitial.start label).creates.takes (takes_taken (grounded_start label) requests)
  refine (hcreates.agrees_ofNet fun t ht => ?_).answers ((grounded_start label).after requests)
    (grounded_ofNet s.net) further
  obtain ⟨c, hc, ht⟩ := List.mem_flatMap.mp ht
  exact hplain c hc t ht

/-- One of the texts so far uses a transition as a place. Further texts number a transition, use a
place as a transition, describe a transition otherwise, and break off. -/
theorem continuing_from_net_failures :
    let requests : List Request :=
      [.text "a -> [b] -> c", .text "b -> [d] -> c", .text "c -> \x7bd 2.0\x7d -> a"]
    let further : List Request :=
      [.text "c -> \x7bd__1 3.0\x7d -> e", .text "a -> [c] -> e", .text "e -> \x7bd\x7d -> a",
        .text "e -> "]
    let s := (start "n").after requests
    (∀ c ∈ (start "n").taken requests, ∀ t ∈ c.transitions, t.suffix = none) ∧
      s.naming.bindings.length = 4 ∧ (ofNet s.net).naming.bindings = [] ∧
      (s.answers further).map (fun o => o.result.isOk) = [true, false, true, false] ∧
      List.Forall₂ (Outcome.Alike Agrees) (s.answers further) ((ofNet s.net).answers further) := by
  intro requests further s
  have hplain : ∀ c ∈ (start "n").taken requests, ∀ t ∈ c.transitions, t.suffix = none := by
    decide +kernel
  exact ⟨hplain, by decide +kernel, rfl, by decide +kernel,
    continuing_from_net "n" requests hplain further⟩

/-- A transition with a number is not found by label: the net alone leads to a second one. -/
example :
    let s := ((start "n").addText "a -> [b__1] -> c").assembly
    let transitions (t : Assembly) := (t.addText "c -> [b__1] -> a").assembly.net.transitions
    (transitions s).length = 1 ∧ (transitions (ofNet s.net)).length = 2 := by
  decide +kernel

end Assembly

end PetriShorthand
