import Mathlib.Data.Option.Basic
import Mathlib.Data.Prod.Basic
import PetriShorthand.Proofs.Acceptance

namespace PetriShorthand

namespace Assembly

variable {s s' s'' : Assembly} {p : Plan} {refs : List Reference} {created : Naming} {c : Chain}

/-- Everything of the first assembly is unchanged in the second one. -/
structure Extends (s s' : Assembly) : Prop where
  places : s.net.places <+: s'.net.places
  transitions : s.net.transitions <+: s'.net.transitions
  arcs : s.net.arcs <+: s'.net.arcs
  resolve : ∀ {name n}, s.resolve name = some n → s'.resolve name = some n

theorem Extends.refl (s : Assembly) : s.Extends s :=
  ⟨List.prefix_refl _, List.prefix_refl _, List.prefix_refl _, id⟩

theorem Extends.trans (h : s.Extends s') (h' : s'.Extends s'') : s.Extends s'' :=
  ⟨h.places.trans h'.places, h.transitions.trans h'.transitions, h.arcs.trans h'.arcs,
    fun hn => h'.resolve (h.resolve hn)⟩

theorem extends_of_carriedOut (hp : p.Describes s refs) (hout : p.CarriedOut s created s') :
    s.Extends s' := by
  refine ⟨?_, ?_, ?_, hout.resolve_of_some hp⟩
  · rw [hout.places]
    exact List.prefix_append _ _
  · rw [hout.transitions]
    exact List.prefix_append _ _
  · rw [hout.arcs]
    exact List.prefix_append _ _

/-- What the chain says is there. -/
structure Holds (s : Assembly) (c : Chain) : Prop where
  nodes : ∀ r ∈ c.references, ∃ n, s.resolve r.name = some n ∧ n.kind = r.kind
  arcs : ∀ l ∈ links c.references, ∀ m n, s.resolve l.1.name = some m →
    s.resolve l.2.name = some n → (m, n) ∈ s.net.arcs.map Arc.ends

/-- Neighbours on the path of a plan are what neighbours in the chain stand for. -/
theorem mem_links_path_iff (hp : p.Describes s refs) {m n : Node} :
    (m, n) ∈ links p.path ↔ ∃ l ∈ links refs, p.resolve s l.1.name = some m ∧
      p.resolve s l.2.name = some n := by
  have hlinks : (links refs).map (Prod.map (fun r => p.resolve s r.name)
      fun r => p.resolve s r.name) = (links p.path).map (Prod.map some some) := by
    rw [← links_map, ← links_map, hp.path]
  have hinj : Function.Injective
      (Prod.map (some : Node → Option Node) (some : Node → Option Node)) :=
    (Option.some_injective _).prodMap (Option.some_injective _)
  rw [← List.mem_map_of_injective hinj, ← hlinks, List.mem_map]
  simp only [Prod.ext_iff, Prod.map_fst, Prod.map_snd]

theorem holds_of_carriedOut (hp : p.Describes s c.references) (hout : p.CarriedOut s created s') :
    s'.Holds c := by
  refine ⟨fun r hr => exists_resolve_of_added hp hout hr, fun l hl m n hm hn => ?_⟩
  rw [hout.resolve_eq hp] at hm hn
  exact hout.mem_ends_iff.mpr (.inr ((mem_links_path_iff hp).mpr ⟨l, hl, hm, hn⟩))

theorem Holds.resolve_eq_some {resolve' : String → Option Node} {r : Reference} {n : Node}
    (h : s.Holds c) (hkept : ∀ {name n}, s.resolve name = some n → resolve' name = some n)
    (hr : r ∈ c.references) (hn : resolve' r.name = some n) : s.resolve r.name = some n := by
  obtain ⟨n', hn', -⟩ := h.nodes r hr
  rw [hkept hn'] at hn
  rw [hn', hn]

theorem Holds.mono (h : s.Holds c) (hext : s.Extends s') : s'.Holds c := by
  refine ⟨fun r hr => ?_, fun l hl m n hm hn => ?_⟩
  · obtain ⟨n, hn, hkind⟩ := h.nodes r hr
    exact ⟨n, hext.resolve hn, hkind⟩
  · obtain ⟨hsource, htarget⟩ := List.of_mem_zip hl
    have hm' := h.resolve_eq_some hext.resolve hsource hm
    have hn' := h.resolve_eq_some hext.resolve (List.mem_of_mem_tail htarget) hn
    exact List.map_subset _ hext.arcs.subset (h.arcs l hl m n hm' hn')

theorem Holds.fits (h : s.Holds c) : s.Fits c.references := by
  refine ⟨fun r hr n hn => ?_, fun r hr r' hr' hname => ?_⟩
  · obtain ⟨n', hn', hkind⟩ := h.nodes r hr
    rw [hn] at hn'
    cases hn'
    exact hkind
  · obtain ⟨n, hn, hkind⟩ := h.nodes r hr
    obtain ⟨n', hn', hkind'⟩ := h.nodes r' hr'
    rw [hname, hn'] at hn
    cases hn
    rw [← hkind, ← hkind']

theorem fresh_pick_eq_nil {α : Type} {pick : Reference → Option α} {key : α → String}
    {kind : NodeKind} (hpick : Reference.Picks pick key kind)
    (h : ∀ r ∈ refs, ∃ n, s.resolve r.name = some n) : s.fresh key (refs.filterMap pick) = [] := by
  have hnone : (refs.filterMap pick).filter (fun x => (s.resolve (key x)).isNone) = [] := by
    refine List.filter_eq_nil_iff.mpr fun x hx => ?_
    obtain ⟨r, hr, hx⟩ := List.mem_filterMap.mp hx
    obtain ⟨n, hn⟩ := h r hr
    rw [(hpick.name hx).1] at hn
    rw [hn]
    nofun
  rw [fresh, hnone]
  rfl

/-- Adding a chain that is there creates nothing and changes nothing. -/
theorem Holds.addChain_eq (hs : s.Grounded) (h : s.Holds c) :
    (s.addChain c).result = .ok .empty ∧ (s.addChain c).assembly = s := by
  obtain ⟨created, hresult⟩ := (exists_addChain_ok_iff hs c).mpr h.fits
  obtain ⟨p, hp, hout⟩ := describes_of_addChain_ok hs hresult
  have hknown : ∀ r ∈ c.references, ∃ n, s.resolve r.name = some n := by
    intro r hr
    obtain ⟨n, hn, -⟩ := h.nodes r hr
    exact ⟨n, hn⟩
  have hplaces : p.places = [] := hp.places.trans (fresh_pick_eq_nil Reference.picks_place? hknown)
  have htransitions : p.transitions = [] :=
    hp.transitions.trans (fresh_pick_eq_nil Reference.picks_transition? hknown)
  have hbindings : p.bindings s.net = [] := by
    rw [Plan.bindings, hplaces, htransitions]
    rfl
  have harcs : (distinctBy id (links p.path)).filter
      (fun l => l ∉ s.net.arcs.map Arc.ends) = [] := by
    refine List.filter_eq_nil_iff.mpr fun ends hl => ?_
    obtain ⟨m, n⟩ := ends
    obtain ⟨l, hl, hm, hn⟩ := (mem_links_path_iff hp).mp (mem_distinctBy_id.mp hl)
    have hkept : ∀ {name n}, s.resolve name = some n → p.resolve s name = some n := by
      intro name n hn
      rw [Plan.resolve, hn, Option.some_or]
    obtain ⟨hsource, htarget⟩ := List.of_mem_zip hl
    have hm' := h.resolve_eq_some hkept hsource hm
    have hn' := h.resolve_eq_some hkept (List.mem_of_mem_tail htarget) hn
    simpa using h.arcs l hl m n hm' hn'
  have hcreated : created = .empty := Naming.ext (hout.created.trans hbindings)
  refine ⟨by rw [hresult, hcreated], Assembly.ext (Net.ext hout.label ?_ ?_ ?_) hout.inherited ?_⟩
  · rw [hout.places, hplaces, List.append_nil]
  · rw [hout.transitions, htransitions, List.map_nil, List.append_nil]
  · rw [hout.arcs, harcs, List.map_nil, List.append_nil]
  · exact Naming.ext (by rw [hout.naming, hbindings, List.append_nil])

inductive Request where
  | chain (c : Chain)
  | text (text : String)
  | lines (text : String)

def answer (s : Assembly) : Request → Outcome
  | .chain c => s.addChain c
  | .text text => s.addText text
  | .lines text => s.addLines text

/-- The assembly after one request after another, each of which may fail. -/
def after (s : Assembly) (requests : List Request) : Assembly :=
  requests.foldl (fun s request => (s.answer request).assembly) s

def takenChain (s : Assembly) (c : Chain) : List Chain :=
  if (s.addChain c).result.isOk then [c] else []

def takenText (s : Assembly) (text : String) : List Chain :=
  match Chain.ofText text with
  | .error _ => []
  | .ok c => s.takenChain c

def takenTexts (s : Assembly) (created : Naming) : List String → List Chain
  | [] => []
  | text :: texts => s.takenText text ++
    match (s.addText text).result >>= created.merge with
    | .error _ => []
    | .ok created => (s.addText text).assembly.takenTexts created texts

def takenBy (s : Assembly) : Request → List Chain
  | .chain c => s.takenChain c
  | .text text => s.takenText text
  | .lines text => s.takenTexts .empty (statementLines text)

/-- The chains that the assembly takes in the course of the requests. -/
def taken (s : Assembly) : List Request → List Chain
  | [] => []
  | request :: requests => s.takenBy request ++ (s.answer request).assembly.taken requests

/-- The chains are added one after another, none of them in vain. -/
inductive Takes : Assembly → List Chain → Assembly → Prop
  | nil (s : Assembly) : Takes s [] s
  | cons {s s' s'' : Assembly} {c : Chain} {cs : List Chain} {p : Plan} {created : Naming} :
      p.Describes s c.references → p.CarriedOut s created s' → Takes s' cs s'' →
        Takes s (c :: cs) s''

section Runs

variable {cs cs' : List Chain}

theorem Takes.append (h : s.Takes cs s') (h' : s'.Takes cs' s'') : s.Takes (cs ++ cs') s'' := by
  induction h with
  | nil s => exact h'
  | cons hp hout _ ih => exact .cons hp hout (ih h')

theorem Takes.grounded (hs : s.Grounded) (h : s.Takes cs s') : s'.Grounded := by
  induction h with
  | nil s => exact hs
  | cons _ hout _ ih => exact ih (hout.grounded hs)

theorem Takes.extends (h : s.Takes cs s') : s.Extends s' := by
  induction h with
  | nil s => exact .refl s
  | cons hp hout _ ih => exact (extends_of_carriedOut hp hout).trans ih

theorem Takes.holds (h : s.Takes cs s') (hc : c ∈ cs) : s'.Holds c := by
  induction h with
  | nil s => cases hc
  | cons hp hout hrest ih =>
    rcases List.mem_cons.mp hc with rfl | hc
    · exact (holds_of_carriedOut hp hout).mono hrest.extends
    · exact ih hc

theorem takes_takenChain (hs : s.Grounded) (c : Chain) :
    s.Takes (s.takenChain c) (s.addChain c).assembly := by
  rcases addChain_cases hs c with ⟨p, created, s', hp, hout, he⟩ | ⟨p, before, r, after, n, hrest⟩
  · rw [takenChain, he]
    exact .cons hp hout (.nil s')
  · obtain ⟨-, -, -, -, he⟩ := hrest
    rw [takenChain, he]
    exact .nil s

theorem takes_takenText (hs : s.Grounded) (text : String) :
    s.Takes (s.takenText text) (s.addText text).assembly := by
  rw [takenText, addText]
  cases Chain.ofText text with
  | error failure => exact .nil s
  | ok c => exact takes_takenChain hs c

theorem takes_takenTexts (hs : s.Grounded) (created : Naming) (texts : List String) :
    s.Takes (s.takenTexts created texts) (s.addTexts created texts).assembly := by
  induction texts generalizing s created with
  | nil => exact .nil s
  | cons text texts ih =>
    rw [takenTexts, addTexts]
    refine (takes_takenText hs text).append ?_
    dsimp only
    cases (s.addText text).result >>= created.merge with
    | error failure => exact .nil _
    | ok created' => exact ih (hs.addText text) created'

theorem takes_takenBy (hs : s.Grounded) (request : Request) :
    s.Takes (s.takenBy request) (s.answer request).assembly := by
  cases request with
  | chain c => exact takes_takenChain hs c
  | text text => exact takes_takenText hs text
  | lines text => exact takes_takenTexts hs .empty (statementLines text)

theorem Grounded.answer (hs : s.Grounded) (request : Request) :
    (s.answer request).assembly.Grounded :=
  (takes_takenBy hs request).grounded hs

/-- Whatever is asked of an assembly, it changes by the chains that it takes and by nothing else. -/
theorem takes_taken (hs : s.Grounded) (requests : List Request) :
    s.Takes (s.taken requests) (s.after requests) := by
  induction requests generalizing s with
  | nil => exact .nil s
  | cons request requests ih => exact (takes_takenBy hs request).append (ih (hs.answer request))

theorem Grounded.after (hs : s.Grounded) (requests : List Request) :
    (s.after requests).Grounded :=
  (takes_taken hs requests).grounded hs

end Runs

/-- Whatever else was asked for since, adding a chain again that was taken at some time creates
nothing and changes nothing. -/
theorem adding_again (hs : s.Reachable) {requests : List Request} (h : c ∈ s.taken requests) :
    ((s.after requests).addChain c).result = .ok .empty ∧
      ((s.after requests).addChain c).assembly = s.after requests :=
  ((takes_taken hs.grounded requests).holds h).addChain_eq (hs.grounded.after requests)

/-- The first line of a text whose second line uses a place as a transition; after it comes a text
that is no chain, and one that gives a transition of the line another weight. -/
theorem adding_again_after_failures :
    let s := ofNet (((Net.empty "net").addPlace "a").addPlace "a")
    let requests : List Request :=
      [.lines "a -> \x7bb\x7d -> c -> \x7bb\x7d -> a\na -> \x7bc\x7d -> d",
        .text "a -> \x7bb\x7d", .text "c -> \x7bb 3.0\x7d -> a"]
    let c : Chain :=
      ⟨"a", [⟨⟨"b", none, false, some .one⟩, "c"⟩, ⟨⟨"b", none, false, some .one⟩, "a"⟩]⟩
    s.Reachable ∧ c ∈ s.taken requests ∧
      ((s.after requests).addChain c).result = .ok .empty ∧
      ((s.after requests).addChain c).assembly = s.after requests := by
  intro s requests c
  have hc : c ∈ s.taken requests := by decide +kernel
  exact ⟨.ofNet _, hc, adding_again (.ofNet _) hc⟩

end Assembly

end PetriShorthand
