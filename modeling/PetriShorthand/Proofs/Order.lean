import PetriShorthand.Proofs.Fitting
import PetriShorthand.Proofs.Named
import PetriShorthand.Proofs.RoundTrip

namespace PetriShorthand

namespace Binary64

def zero : Binary64 := ofQuotient false 0 1

def IsFinite : Binary64 → Prop
  | finite _ _ => True
  | _ => False

instance (x : Binary64) : Decidable x.IsFinite :=
  match x with
  | finite _ _ => isTrue trivial
  | infinity _ => isFalse id
  | nan => isFalse id

theorem distance_of_sameNumber {v w : Binary64} (h : v.sameNumber w) (hv : v.IsFinite) :
    v.distance w = zero := by
  cases v with
  | nan => cases hv
  | infinity s => cases hv
  | finite s a =>
    cases w with
    | nan => cases h
    | infinity t => cases h
    | finite t b =>
      have hsame : signedUnits s a = signedUnits t b := by simpa [sameNumber] using h
      rw [distance, hsame, Int.sub_self]
      rfl

end Binary64

/-- Both weights are missing, or they are the same finite number. -/
def SameFiniteWeight (v w : Option Binary64) : Prop :=
  sameWeight v w ∧ ∀ x ∈ v, x.IsFinite

instance (v w : Option Binary64) : Decidable (SameFiniteWeight v w) :=
  inferInstanceAs (Decidable (_ ∧ _))

theorem SameFiniteWeight.agree {tolerance : Binary64} {v w : Option Binary64}
    (h : SameFiniteWeight v w) (htolerance : Binary64.zero.atMost tolerance) :
    Comparison.weightsAgree tolerance v w := by
  obtain ⟨hsame, hfinite⟩ := h
  cases v with
  | none =>
    cases w with
    | none => rfl
    | some w => cases hsame
  | some v =>
    cases w with
    | none => cases hsame
    | some w =>
      rw [Comparison.weightsAgree, Binary64.distance_of_sameNumber hsame (hfinite v rfl)]
      exact htolerance

/-- Two lists in which keys tell the elements apart, and which have the same keys, are the same up
to a renumbering. -/
theorem exists_equiv_of_keys {α β κ : Type} [DecidableEq κ] {f : α → κ} {g : β → κ} {xs : List α}
    {ys : List β} (hxs : (xs.map f).Nodup) (hys : (ys.map g).Nodup)
    (h : ∀ k, k ∈ xs.map f ↔ k ∈ ys.map g) :
    ∃ e : Fin xs.length ≃ Fin ys.length, ∀ i, g (ys.get (e i)) = f (xs.get i) := by
  have hlength : xs.length = ys.length := by
    have hperm := ((List.perm_ext_iff_of_nodup hxs hys).mpr h).length_eq
    rwa [List.length_map, List.length_map] at hperm
  have hcounterpart : ∀ i : Fin xs.length, ∃ j : Fin ys.length, g (ys.get j) = f (xs.get i) := by
    intro i
    obtain ⟨y, hy, he⟩ := List.mem_map.mp ((h _).mp (List.mem_map_of_mem (xs.get_mem i)))
    obtain ⟨j, rfl⟩ := List.mem_iff_get.mp hy
    exact ⟨j, he⟩
  choose d hd using hcounterpart
  have hinj : Function.Injective d := by
    intro i i' he
    have hkeys : f (xs.get i) = f (xs.get i') := by rw [← hd i, ← hd i', he]
    have helements := List.inj_on_of_nodup_map hxs (xs.get_mem i) (xs.get_mem i') hkeys
    exact (hxs.of_map f).get_inj_iff.mp helements
  obtain ⟨e, rfl⟩ := Comparison.exists_equiv_of_injective hlength hinj
  exact ⟨e, hd⟩

namespace Meaning

variable {cs cs' : List Chain}

theorem mem_flatMap_congr {α : Type} (h : ∀ c, c ∈ cs ↔ c ∈ cs') (f : Chain → List α) (a : α) :
    a ∈ cs.flatMap f ↔ a ∈ cs'.flatMap f := by
  rw [List.mem_flatMap, List.mem_flatMap]
  exact exists_congr fun c => and_congr_left fun _ => h c

theorem mem_places_congr (h : ∀ c, c ∈ cs ↔ c ∈ cs') (label : String) :
    label ∈ places cs ↔ label ∈ places cs' := by
  rw [places, places, List.mem_eraseDups, List.mem_eraseDups]
  exact mem_flatMap_congr h _ label

theorem mem_keys_congr (hplain : Assembly.ArePlain cs) (hplain' : Assembly.ArePlain cs')
    (h : ∀ c, c ∈ cs ↔ c ∈ cs') (key : String) : key ∈ keys cs ↔ key ∈ keys cs' := by
  rw [keys, keys, ← hplain.transitions_eq, ← hplain'.transitions_eq, mem_map_distinctBy,
    mem_map_distinctBy, List.mem_map, List.mem_map]
  exact exists_congr fun t => and_congr_left fun _ => mem_flatMap_congr h _ t

theorem mem_links_congr (h : ∀ c, c ∈ cs ↔ c ∈ cs') (l : ChainNode × ChainNode) :
    l ∈ links cs ↔ l ∈ links cs' := by
  rw [links, links, List.mem_eraseDups, List.mem_eraseDups]
  exact mem_flatMap_congr h _ l

end Meaning

namespace Assembly

variable {s : Assembly} {cs : List Chain}

theorem Realizes.mem_arcs_iff (h : s.Realizes cs) (hplain : ArePlain cs) (r r' : Reference)
    (w : Nat) : ⟨Meaning.node cs r.node, Meaning.node cs r'.node, w⟩ ∈ s.net.arcs ↔
      w = 1 ∧ (r.node, r'.node) ∈ Meaning.links cs := by
  rw [h.arcs_eq hplain, List.mem_map]
  constructor
  · rintro ⟨l, hl, he⟩
    obtain ⟨hsource, htarget, rfl⟩ := Arc.mk.inj he
    obtain ⟨c, hc, r₁, hr₁, r₂, hr₂, h₁, h₂⟩ :=
      exists_references_of_mem_links (List.mem_eraseDups.mp hl)
    rw [← h₁] at hsource
    rw [← h₂] at htarget
    have hlink : (r₁.node, r₂.node) ∈ Meaning.links cs := by rwa [h₁, h₂]
    rw [node_inj hc hr₁ hsource, node_inj hc hr₂ htarget] at hlink
    exact ⟨rfl, hlink⟩
  · rintro ⟨rfl, hl⟩
    exact ⟨_, hl, rfl⟩

end Assembly

namespace Comparison

open Assembly

variable {tolerance : Binary64} {s s' : Assembly} {cs cs' : List Chain} {net net' : Net}

/-- The places are renumbered so that each keeps its label; the numbers are those of the nodes that
references to it mean. -/
theorem exists_places_equiv (hcs : ∀ c, c ∈ cs ↔ c ∈ cs') (hnet : net.places = Meaning.places cs)
    (hnet' : net'.places = Meaning.places cs') :
    ∃ e : Fin net.places.length ≃ Fin net'.places.length,
      ∀ i, net'.places.get (e i) = net.places.get i ∧
        Meaning.node cs (Reference.place (net.places.get i)).node = .place i ∧
        Meaning.node cs' (Reference.place (net.places.get i)).node = .place (e i) := by
  have hnodup : (net.places.map id).Nodup := by
    rw [List.map_id, hnet]
    exact nodup_places cs
  have hnodup' : (net'.places.map id).Nodup := by
    rw [List.map_id, hnet']
    exact nodup_places cs'
  have hlabels : ∀ label, label ∈ net.places.map id ↔ label ∈ net'.places.map id := by
    intro label
    rw [List.map_id, List.map_id, hnet, hnet']
    exact Meaning.mem_places_congr hcs label
  obtain ⟨e, he⟩ := exists_equiv_of_keys hnodup hnodup' hlabels
  refine ⟨e, fun i => ⟨he i, node_of_getElem?_places ?_, node_of_getElem?_places ?_⟩⟩
  · rw [← hnet]
    exact List.getElem?_eq_getElem i.2
  · have hi : net'.places.get (e i) = net.places.get i := he i
    rw [← hnet', ← hi]
    exact List.getElem?_eq_getElem (e i).2

/-- The transitions are renumbered so that each keeps its key; the numbers are those of the nodes
that the references mean which introduce it in either net. -/
theorem exists_transitions_equiv (hplain : ArePlain cs) (hplain' : ArePlain cs')
    (hcs : ∀ c, c ∈ cs ↔ c ∈ cs')
    (hnet : net.transitions = (Meaning.transitions cs).map TransitionRef.keyed)
    (hnet' : net'.transitions = (Meaning.transitions cs').map TransitionRef.keyed) :
    ∃ d : Fin net.transitions.length ≃ Fin net'.transitions.length,
      ∀ i, ∃ t ∈ cs.flatMap Chain.transitions, ∃ u ∈ cs.flatMap Chain.transitions,
        t.identity = u.identity ∧ net.transitions.get i = t.keyed ∧
        net'.transitions.get (d i) = u.keyed ∧
        Meaning.node cs (Reference.transition t).node = .transition i ∧
        Meaning.node cs' (Reference.transition t).node = .transition (d i) := by
  have hkeys : net.transitions.map (·.label) = Meaning.keys cs := by
    rw [hnet, List.map_map]
    rfl
  have hkeys' : net'.transitions.map (·.label) = Meaning.keys cs' := by
    rw [hnet', List.map_map]
    rfl
  have hsame : ∀ key, key ∈ net.transitions.map (·.label) ↔
      key ∈ net'.transitions.map (·.label) := by
    intro key
    rw [hkeys, hkeys']
    exact Meaning.mem_keys_congr hplain hplain' hcs key
  obtain ⟨d, hd⟩ :=
    exists_equiv_of_keys (hkeys ▸ hplain.nodup_keys) (hkeys' ▸ hplain'.nodup_keys) hsame
  refine ⟨d, fun i => ?_⟩
  obtain ⟨t, htmem, ht, hget⟩ := exists_of_eq_map hnet i
  obtain ⟨u, humem, hu, hget'⟩ := exists_of_eq_map hnet' (d i)
  have htrefs : t ∈ cs.flatMap Chain.transitions := (distinctBy_sublist _ _).mem htmem
  have hurefs : u ∈ cs.flatMap Chain.transitions :=
    (Meaning.mem_flatMap_congr hcs _ u).mpr ((distinctBy_sublist _ _).mem humem)
  have hidentity : t.identity = u.identity := by
    have hkey := hd i
    rw [hget, hget'] at hkey
    exact ((hplain t htrefs).key_eq_iff (hplain u hurefs)).mp hkey.symm
  refine ⟨t, htrefs, u, hurefs, hidentity, hget, hget', node_of_getElem?_transitions ?_,
    node_of_getElem?_transitions ?_⟩
  · rw [List.getElem?_map, ht, Option.map_some]
  · rw [List.getElem?_map, hu, Option.map_some, hidentity]

theorem exists_isomorphism_of_same_chains (h : s.Realizes cs) (h' : s'.Realizes cs')
    (hplain : ArePlain cs) (hplain' : ArePlain cs') (hcs : ∀ c, c ∈ cs ↔ c ∈ cs')
    (hnet : s.IsRelabelled (Meaning.transitions cs) net)
    (hnet' : s'.IsRelabelled (Meaning.transitions cs') net')
    (hagree : ∀ t ∈ cs.flatMap Chain.transitions, ∀ u ∈ cs.flatMap Chain.transitions,
      t.identity = u.identity → t.silent = u.silent ∧ weightsAgree tolerance t.weight u.weight) :
    Nonempty (Isomorphism tolerance net net') := by
  have hplaces : net.places = Meaning.places cs := by
    rw [hnet.places, h.places, distinctBy_id, Meaning.places]
  have hplaces' : net'.places = Meaning.places cs' := by
    rw [hnet'.places, h'.places, distinctBy_id, Meaning.places]
  obtain ⟨e, he⟩ := exists_places_equiv hcs hplaces hplaces'
  obtain ⟨d, hd⟩ := exists_transitions_equiv hplain hplain' hcs hnet.transitions hnet'.transitions
  have harcs : ∀ (r r' : Reference) (w : Nat),
      ⟨Meaning.node cs r.node, Meaning.node cs r'.node, w⟩ ∈ net.arcs ↔
        ⟨Meaning.node cs' r.node, Meaning.node cs' r'.node, w⟩ ∈ net'.arcs := by
    intro r r' w
    rw [hnet.arcs, hnet'.arcs, h.mem_arcs_iff hplain, h'.mem_arcs_iff hplain',
      Meaning.mem_links_congr hcs]
  have hkept : ∀ i, (net'.transitions.get (d i)).label = (net.transitions.get i).label ∧
      (net'.transitions.get (d i)).silent = (net.transitions.get i).silent ∧
      weightsAgree tolerance (net.transitions.get i).weight
        (net'.transitions.get (d i)).weight := by
    intro i
    obtain ⟨t, ht, u, hu, hidentity, hget, hget', -⟩ := hd i
    obtain ⟨hsilent, hweight⟩ := hagree t ht u hu hidentity
    have hkey : t.key = u.key := ((hplain t ht).key_eq_iff (hplain u hu)).mpr hidentity
    rw [hget, hget']
    exact ⟨hkey.symm, hsilent.symm, hweight⟩
  refine ⟨⟨e, d, fun i => (he i).1, fun i => (hkept i).1, fun i => (hkept i).2.1,
    fun i => (hkept i).2.2, ?_, ?_⟩⟩
  · intro i j w
    obtain ⟨-, hi, hi'⟩ := he i
    obtain ⟨t, -, -, -, -, -, -, hj, hj'⟩ := hd j
    rw [← hi, ← hi', ← hj, ← hj']
    exact harcs _ _ w
  · intro i j w
    obtain ⟨-, hi, hi'⟩ := he i
    obtain ⟨t, -, -, -, -, -, -, hj, hj'⟩ := hd j
    rw [← hi, ← hi', ← hj, ← hj']
    exact harcs _ _ w

end Comparison

def RefersTo (texts : List String) (t : TransitionRef) : Prop :=
  ∃ text ∈ texts, ∃ c, Chain.ofText text = .ok c ∧ t ∈ c.transitions

theorem RefersTo.isNamed {texts : List String} {t : TransitionRef} (h : RefersTo texts t) :
    t.IsNamed := by
  obtain ⟨text, -, c, hread, ht⟩ := h
  obtain ⟨st, hst, rfl⟩ := List.mem_map.mp ht
  exact (Chain.isNamed_of_ofText hread).1.transition st hst

namespace Assembly

variable {label label' : String} {texts texts' : List String} {s s' : Assembly}

theorem exists_ofTexts_of_same_mem (h : ∀ text, text ∈ texts ↔ text ∈ texts')
    (hs : ∃ s, ofTexts label texts = .ok s) : ∃ s', ofTexts label' texts' = .ok s' := by
  obtain ⟨cs, hcs, hfit⟩ := (exists_ofTexts_iff label texts).mp hs
  obtain ⟨cs', hcs', hmem⟩ := exists_mapM_of_same_mem h hcs
  exact (exists_ofTexts_iff label' texts').mpr
    ⟨cs', hcs', hfit.subset fun c hc => (hmem c).mpr hc⟩

theorem realizes_of_ofTexts (h : ofTexts label texts = .ok s) :
    ∃ cs, texts.mapM Chain.ofText = .ok cs ∧ s.Realizes cs := by
  obtain ⟨cs, hcs, hr, -⟩ := realizes_of_foldlM (grounded_start label) (realizes_start label) h
  exact ⟨cs, hcs, hr⟩

theorem namedDifference?_of_same_mem (h : ∀ text, text ∈ texts ↔ text ∈ texts')
    (hs : ofTexts label texts = .ok s) (hs' : ofTexts label' texts' = .ok s')
    (hweights : ∀ t u, RefersTo texts t → RefersTo texts u → t.identity = u.identity →
      SameFiniteWeight t.weight u.weight)
    {tolerance : Binary64} (htolerance : Binary64.zero.atMost tolerance) :
    Comparison.namedDifference? tolerance s.net s'.net s.naming s'.naming = .ok none := by
  obtain ⟨cs, hcs, hr⟩ := realizes_of_ofTexts hs
  obtain ⟨cs', hcs', hr'⟩ := realizes_of_ofTexts hs'
  have hplain := arePlain_of_mapM hcs
  have hplain' := arePlain_of_mapM hcs'
  have hsame : ∀ c, c ∈ cs ↔ c ∈ cs' := by
    obtain ⟨ys, hys, hmem⟩ := exists_mapM_of_same_mem h hcs
    rw [hcs'] at hys
    cases hys
    exact hmem
  have hrefers : ∀ t ∈ cs.flatMap Chain.transitions, RefersTo texts t := by
    intro t ht
    obtain ⟨c, hc, ht⟩ := List.mem_flatMap.mp ht
    obtain ⟨text, htext, hread⟩ := ((mem_of_mapM hcs).2 c).mp hc
    exact ⟨text, htext, c, hread, ht⟩
  have hagree : ∀ t ∈ cs.flatMap Chain.transitions, ∀ u ∈ cs.flatMap Chain.transitions,
      t.identity = u.identity →
        t.silent = u.silent ∧ Comparison.weightsAgree tolerance t.weight u.weight := by
    intro t ht u hu hidentity
    refine ⟨?_, (hweights t u (hrefers t ht) (hrefers u hu) hidentity).agree htolerance⟩
    rw [Bool.eq_iff_iff, (hrefers t ht).isNamed.silent_iff, (hrefers u hu).isNamed.silent_iff,
      (Prod.mk.inj hidentity).1]
  obtain ⟨net, hrelabel, hnet⟩ := (hr.keyed hplain).relabel
  obtain ⟨net', hrelabel', hnet'⟩ := (hr'.keyed hplain').relabel
  have hisomorphism :=
    Comparison.exists_isomorphism_of_same_chains hr hr' hplain hplain' hsame hnet hnet' hagree
  have hnone : Comparison.difference? tolerance net net' = none :=
    Comparison.difference?_eq_none_iff.mpr ⟨(hr.keyed hplain).labelsDistinct hnet,
      (hr'.keyed hplain').labelsDistinct hnet', hisomorphism⟩
  rw [Comparison.namedDifference?, hrelabel, hrelabel', ← hnone]
  rfl

/-- The same texts succeed in every order and however often they are repeated, or fail in every
order. Where all references to one transition give it the same finite weight, or all give none, the
assemblies do not differ. -/
theorem order_of_texts_is_irrelevant (h : ∀ text, text ∈ texts ↔ text ∈ texts')
    (label label' : String) :
    ((∃ s, ofTexts label texts = .ok s) ↔ ∃ s', ofTexts label' texts' = .ok s') ∧
    ∀ s s', ofTexts label texts = .ok s → ofTexts label' texts' = .ok s' →
      (∀ t u, RefersTo texts t → RefersTo texts u → t.identity = u.identity →
        SameFiniteWeight t.weight u.weight) →
      ∀ tolerance, Binary64.zero.atMost tolerance →
        Comparison.namedDifference? tolerance s.net s'.net s.naming s'.naming = .ok none := by
  refine ⟨⟨exists_ofTexts_of_same_mem h, exists_ofTexts_of_same_mem fun text => (h text).symm⟩, ?_⟩
  intro s s' hs hs' hweights tolerance htolerance
  exact namedDifference?_of_same_mem h hs hs' hweights htolerance

/-- Two texts, the other way round and one of them twice; the nets number their places
differently. -/
theorem order_of_texts_is_irrelevant_repeated :
    let texts := ["a -> \x7bb__1 0.5\x7d -> c", "c -> [tau] -> a"]
    let texts' := ["c -> [tau] -> a", "a -> \x7bb__1 0.5\x7d -> c", "c -> [tau] -> a"]
    (∀ text, text ∈ texts ↔ text ∈ texts') ∧
    ∃ s s', ofTexts "left" texts = .ok s ∧ ofTexts "right" texts' = .ok s' ∧
      s.net.places ≠ s'.net.places ∧
      Comparison.namedDifference? .zero s.net s'.net s.naming s'.naming = .ok none := by
  intro texts texts'
  have hmem : ∀ text, text ∈ texts ↔ text ∈ texts' := by
    intro text
    simp only [texts, texts', List.mem_cons, List.not_mem_nil, or_false]
    tauto
  obtain ⟨hsuccess, hequal⟩ := order_of_texts_is_irrelevant hmem "left" "right"
  let half := Decimal.toBinary64 false ⟨5, -1⟩
  have hread : Chain.ofText "a -> \x7bb__1 0.5\x7d -> c" =
      .ok ⟨"a", [⟨⟨"b", some "1", false, some half⟩, "c"⟩]⟩ := by decide +kernel
  have hread' : Chain.ofText "c -> [tau] -> a" = .ok ⟨"c", [⟨⟨"tau", none, true, none⟩, "a"⟩]⟩ := by
    decide +kernel
  have hrefers : ∀ t, RefersTo texts t →
      t = ⟨"b", some "1", false, some half⟩ ∨ t = ⟨"tau", none, true, none⟩ := by
    rintro t ⟨text, htext, c, hc, ht⟩
    simp only [texts, List.mem_cons, List.not_mem_nil, or_false] at htext
    rcases htext with rfl | rfl
    · rw [hread] at hc
      cases hc
      exact .inl (List.mem_singleton.mp ht)
    · rw [hread'] at hc
      cases hc
      exact .inr (List.mem_singleton.mp ht)
  have hweights : ∀ t u, RefersTo texts t → RefersTo texts u → t.identity = u.identity →
      SameFiniteWeight t.weight u.weight := by
    intro t u ht hu hidentity
    rcases hrefers t ht with rfl | rfl
    · rcases hrefers u hu with rfl | rfl
      · show SameFiniteWeight (some half) (some half)
        decide +kernel
      · exact absurd hidentity (by decide)
    · rcases hrefers u hu with rfl | rfl
      · exact absurd hidentity (by decide)
      · show SameFiniteWeight none none
        decide
  have hplaces : (ofTexts "left" texts).toOption.map (·.net.places) = some ["a", "c"] := by
    decide +kernel
  have hplaces' : (ofTexts "right" texts').toOption.map (·.net.places) = some ["c", "a"] := by
    decide +kernel
  cases hs : ofTexts "left" texts with
  | error failure =>
    rw [hs] at hplaces
    cases hplaces
  | ok s =>
    obtain ⟨s', hs'⟩ := hsuccess.mp ⟨s, hs⟩
    rw [hs] at hplaces
    rw [hs'] at hplaces'
    have hnone := hequal s s' hs hs' hweights .zero (by decide +kernel)
    refine ⟨hmem, s, s', rfl, hs', fun he => ?_, hnone⟩
    have hsame : some ["a", "c"] = some ["c", "a"] :=
      hplaces.symm.trans ((congrArg some he).trans hplaces')
    exact absurd hsame (by decide)

end Assembly

end PetriShorthand
