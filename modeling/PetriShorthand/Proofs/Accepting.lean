import PetriShorthand.AcceptingNet
import PetriShorthand.Proofs.Conventions
import PetriShorthand.Proofs.Lines
import PetriShorthand.Proofs.Order

namespace PetriShorthand

theorem exists_mem_links {α : Type} {xs : List α} {x : α} (hx : x ∈ xs) (hlength : 1 < xs.length) :
    ∃ l ∈ links xs, l.1 = x ∨ l.2 = x := by
  induction xs with
  | nil => cases hx
  | cons y ys ih =>
    cases ys with
    | nil => exact absurd hlength (Nat.lt_irrefl 1)
    | cons z zs =>
      rcases List.mem_cons.mp hx with rfl | hx
      · exact ⟨(x, z), List.mem_cons_self, .inl rfl⟩
      · cases zs with
        | nil =>
          obtain rfl := List.mem_singleton.mp hx
          exact ⟨(y, x), List.mem_cons_self, .inr rfl⟩
        | cons _ _ =>
          obtain ⟨l, hl, hends⟩ := ih hx (by simp)
          exact ⟨l, List.mem_cons_of_mem _ hl, hends⟩

namespace Meaning

variable {cs cs' : List Chain} {label : String} {direction : Direction}

def nearEnd (l : ChainNode × ChainNode) : Direction → ChainNode
  | .incoming => l.2
  | .outgoing => l.1

/-- Nowhere in the chains is the place seen in the direction. -/
def IsBare (cs : List Chain) (label : String) (direction : Direction) : Prop :=
  ∀ l ∈ links cs, nearEnd l direction ≠ .place label

theorem isBare_congr (h : ∀ c, c ∈ cs ↔ c ∈ cs') :
    IsBare cs label direction ↔ IsBare cs' label direction :=
  forall_congr' fun l => imp_congr_left (mem_links_congr h l)

theorem not_isBare (hsteps : ∀ c ∈ cs, c.steps ≠ []) (hl : label ∈ places cs)
    (hbefore : IsBare cs label .incoming) : ¬IsBare cs label .outgoing := by
  intro hbehind
  obtain ⟨c, hc, hplace⟩ := List.mem_flatMap.mp (List.mem_eraseDups.mp hl)
  have hmem : ChainNode.place label ∈ c.references.map Reference.node :=
    List.mem_map_of_mem (Chain.mem_places_iff.mp hplace)
  have hlength : 1 < (c.references.map Reference.node).length := by
    obtain ⟨st, sts, hst⟩ := List.exists_cons_of_ne_nil (hsteps c hc)
    simp [Chain.references, hst]
  obtain ⟨l, hlink, hend⟩ := exists_mem_links hmem hlength
  have hlinks : l ∈ links cs := List.mem_eraseDups.mpr (List.mem_flatMap.mpr ⟨c, hc, hlink⟩)
  rcases hend with hend | hend
  · exact hbehind l hlinks hend
  · exact hbefore l hlinks hend

end Meaning

namespace Assembly

variable {s s' : Assembly} {cs cs' : List Chain} {label : String} {direction : Direction}
  {texts : List String}

theorem Realizes.places_eq (h : s.Realizes cs) : s.net.places = Meaning.places cs := by
  rw [h.places, distinctBy_id, Meaning.places]

theorem Realizes.nodup_places (h : s.Realizes cs) : s.net.places.Nodup := by
  rw [h.places_eq]
  exact Assembly.nodup_places cs

theorem Realizes.isBare_iff (h : s.Realizes cs) (hplain : ArePlain cs) {i : Nat}
    (hi : s.net.places[i]? = some label) :
    s.net.IsBare i direction ↔ Meaning.IsBare cs label direction := by
  rw [h.places_eq] at hi
  have hnode : Meaning.node cs (.place label) = .place i := node_of_getElem?_places hi
  rw [Net.IsBare, Net.arcsAt, h.arcs_eq hplain, List.filter_eq_nil_iff, List.forall_mem_map]
  refine forall_congr' fun l => forall_congr' fun hl => not_congr ?_
  have hnear : (Arc.single (Meaning.node cs l.1, Meaning.node cs l.2)).nearEnd direction =
      Meaning.node cs (Meaning.nearEnd l direction) := by
    cases direction <;> rfl
  rw [decide_eq_true_eq, hnear, ← hnode]
  refine ⟨fun he => ?_, congrArg (Meaning.node cs)⟩
  obtain ⟨c, hc, r, hr, r', hr', hsource, htarget⟩ :=
    exists_references_of_mem_links (List.mem_eraseDups.mp hl)
  cases direction with
  | incoming =>
    rw [Meaning.nearEnd, ← htarget] at he ⊢
    have hsame : Meaning.node cs r'.node = Meaning.node cs (Reference.place label).node := he
    exact node_inj hc hr' hsame
  | outgoing =>
    rw [Meaning.nearEnd, ← hsource] at he ⊢
    have hsame : Meaning.node cs r.node = Meaning.node cs (Reference.place label).node := he
    exact node_inj hc hr hsame

theorem Realizes.offers_iff (h : s.Realizes cs) (hplain : ArePlain cs) :
    s.net.Offers direction label ↔
      label ∈ Meaning.places cs ∧ Meaning.IsBare cs label direction := by
  constructor
  · rintro ⟨p, hp, hbare⟩
    refine ⟨?_, (h.isBare_iff hplain hp).mp hbare⟩
    rw [← h.places_eq]
    exact List.mem_of_getElem? hp
  · rintro ⟨hmem, hbare⟩
    rw [← h.places_eq] at hmem
    obtain ⟨p, hp⟩ := List.mem_iff_getElem?.mp hmem
    exact ⟨p, hp, (h.isBare_iff hplain hp).mpr hbare⟩

def accepted (s : Assembly) : List String → List String
  | [] => []
  | text :: texts =>
    match (s.addText text).result with
    | .error _ => []
    | .ok _ => text :: (s.addText text).assembly.accepted texts

/-- Texts were added to a new assembly, alone or as the lines of longer ones; those listed were
added with success. -/
inductive WrittenBy : Assembly → List String → Prop
  | start (label : String) : WrittenBy (.start label) []
  | addText {s : Assembly} {texts : List String} (text : String) : WrittenBy s texts →
      WrittenBy (s.addText text).assembly (texts ++ s.accepted [text])
  | addLines {s : Assembly} {texts : List String} (text : String) : WrittenBy s texts →
      WrittenBy (s.addLines text).assembly (texts ++ s.accepted (statementLines text))

theorem WrittenBy.grounded (hs : s.WrittenBy texts) : s.Grounded := by
  induction hs with
  | start label => exact grounded_start label
  | addText text _ ih => exact ih.addText text
  | addLines text _ ih => exact ih.addTexts _ _

theorem foldlM_accepted (hs : s.Grounded) (texts : List String) {created : Naming}
    (hcreated : created.bindings ⊆ s.naming.bindings) :
    (s.accepted texts).foldlM
        (fun s text => let o := s.addText text; o.result.map fun _ => o.assembly) s =
      .ok (s.addTexts created texts).assembly := by
  induction texts generalizing s created with
  | nil => rfl
  | cons text texts ih =>
    rw [accepted, addTexts]
    cases hresult : (s.addText text).result with
    | error failure =>
      have hsame := addText_failed hs hresult
      exact congrArg Except.ok hsame.symm
    | ok delta =>
      obtain ⟨both, hmerge, -, hsub⟩ := exists_merge_of_addText hs hresult hcreated
      have hrest := ih (hs.addText text) hsub
      have hboth : (Except.ok delta : Except Failure Naming) >>= created.merge = .ok both := hmerge
      rw [hboth, List.foldlM_cons]
      dsimp only
      rw [hresult]
      exact hrest

theorem addTexts_singleton_assembly (s : Assembly) (created : Naming) (text : String) :
    (s.addTexts created [text]).assembly = (s.addText text).assembly := by
  rw [addTexts]
  cases (s.addText text).result >>= created.merge with
  | error failure => rfl
  | ok created => rfl

theorem WrittenBy.exists_ofTexts (hs : s.WrittenBy texts) :
    ∃ label, ofTexts label texts = .ok s := by
  induction hs with
  | start label => exact ⟨label, rfl⟩
  | addText text hs ih =>
    obtain ⟨label, hlabel⟩ := ih
    refine ⟨label, ?_⟩
    rw [ofTexts, List.foldlM_append, ← ofTexts, hlabel]
    rw [← addTexts_singleton_assembly _ .empty]
    exact foldlM_accepted hs.grounded [text] (List.nil_subset _)
  | addLines text hs ih =>
    obtain ⟨label, hlabel⟩ := ih
    refine ⟨label, ?_⟩
    rw [ofTexts, List.foldlM_append, ← ofTexts, hlabel]
    exact foldlM_accepted hs.grounded (statementLines text) (List.nil_subset _)

theorem hasSteps_of_mapM (h : texts.mapM Chain.ofText = .ok cs) : ∀ c ∈ cs, c.steps ≠ [] := by
  intro c hc
  obtain ⟨text, -, hread⟩ := ((mem_of_mapM h).2 c).mp hc
  exact (Chain.isNamed_of_ofText hread).1.steps_ne_nil

end Assembly

namespace AcceptingNet

open Assembly

variable {s s' : Assembly} {cs cs' : List Chain} {conventions : Conventions}

/-- There are few tokens, the initial place is no final one, and both are found from the arcs
alone. -/
structure IsPlain (a : AcceptingNet) : Prop where
  initial : a.initial.tokens.length ≤ 1
  finals : ∀ m ∈ a.finals, m.tokens.length ≤ 1
  apart : ∀ m ∈ a.finals, ∀ p, 0 < a.initial.count p → m.count p = 0
  guessedInitial : ∀ p, 0 < a.initial.count p → 0 < a.net.guessInitial.count p
  guessedFinal : ∃ guess, a.net.guessFinals = [guess] ∧
    ∀ m ∈ a.finals, ∀ p, 0 < m.count p → 0 < guess.count p

theorem isPlain_of_realizes (h : s.Realizes cs) (hplain : ArePlain cs)
    (hsteps : ∀ c ∈ cs, c.steps ≠ []) (conventions : Conventions) :
    (ofNet s.net conventions).IsPlain := by
  have hnodup := h.nodup_places
  have hnotBoth : ∀ p < s.net.places.length, s.net.IsBare p .incoming →
      ¬s.net.IsBare p .outgoing := by
    intro p hp hbefore
    have hlabel := List.getElem?_eq_getElem hp
    have hmem : s.net.places[p] ∈ Meaning.places cs := by
      rw [← h.places_eq]
      exact List.getElem_mem hp
    rw [h.isBare_iff hplain hlabel] at hbefore ⊢
    exact Meaning.not_isBare hsteps hmem hbefore
  refine ⟨Net.tokens_length_le_one hnodup _ _, fun m hm => ?_, fun m hm p hp => ?_,
    fun p hp => ?_, _, rfl, fun m hm p hp => ?_⟩
  · rw [Net.eq_of_mem_finalMarkings hm]
    exact Net.tokens_length_le_one hnodup _ _
  · obtain ⟨hbefore, hlt⟩ := Net.isBare_of_marked hp
    rw [Net.eq_of_mem_finalMarkings hm]
    by_contra hmarked
    exact hnotBoth p hlt hbefore (Net.isBare_of_marked (Nat.pos_of_ne_zero hmarked)).1
  · obtain ⟨hbefore, hlt⟩ := Net.isBare_of_marked hp
    exact Marking.count_filter_range_pos hlt (decide_eq_true hbefore)
  · rw [Net.eq_of_mem_finalMarkings hm] at hp
    obtain ⟨hbehind, hlt⟩ := Net.isBare_of_marked hp
    have hbefore : ¬s.net.IsBare p .incoming := fun hbare => hnotBoth p hlt hbare hbehind
    exact Marking.count_filter_range_pos hlt (decide_eq_true ⟨hbehind, hbefore⟩)

/-- Which labels the marked places have depends on what the chains are and not on their order. -/
theorem labelsOf_eq_of_same_chains (h : s.Realizes cs) (h' : s'.Realizes cs')
    (hplain : ArePlain cs) (hplain' : ArePlain cs') (hcs : ∀ c, c ∈ cs ↔ c ∈ cs')
    (labels : List String) (direction : Direction) :
    s.net.labelsOf (s.net.firstLabelMarking labels direction) =
      s'.net.labelsOf (s'.net.firstLabelMarking labels direction) := by
  have hoffers : ∀ l, s.net.Offers direction l ↔ s'.net.Offers direction l := by
    intro l
    rw [h.offers_iff hplain, h'.offers_iff hplain', Meaning.mem_places_congr hcs,
      Meaning.isBare_congr hcs]
  rw [Net.labelsOf_firstLabelMarking h.nodup_places,
    Net.labelsOf_firstLabelMarking h'.nodup_places, Net.firstLabel?_congr hoffers]

/-- In any net the initial marking is on the places that have the first label for which there are
places without incoming arcs, and are such places; and so it is with outgoing arcs and the final
marking, of which there is one if there is such a label. Nets of texts have plain markings, and the
texts of such a net in another order lead to markings of places with the same labels. -/
theorem markings_follow_conventions (conventions : Conventions) :
    (∀ net : Net,
      net.MarksFirst .incoming conventions.initialLabels (conventions.initialMarking net) ∧
      ((conventions.finalMarkings net = [] ∧
          ∀ l ∈ conventions.finalLabels, ¬net.Offers .outgoing l) ∨
        ∃ m, conventions.finalMarkings net = [m] ∧
          net.MarksFirst .outgoing conventions.finalLabels m ∧
          ∃ l ∈ conventions.finalLabels, net.Offers .outgoing l)) ∧
    ∀ s texts, Assembly.WrittenBy s texts → (ofNet s.net conventions).IsPlain ∧
      ∀ label texts', texts'.Perm texts → ∃ s', Assembly.ofTexts label texts' = .ok s' ∧
        s'.net.labelsOf (ofNet s'.net conventions).initial =
          s.net.labelsOf (ofNet s.net conventions).initial ∧
        (ofNet s'.net conventions).finals.map s'.net.labelsOf =
          (ofNet s.net conventions).finals.map s.net.labelsOf := by
  refine ⟨fun net => ⟨net.marksFirst_firstLabelMarking _ _, ?_⟩, fun s texts hs => ?_⟩
  · rcases Net.finalMarkings_cases conventions net with hnone | ⟨m, hone, rfl, hoffers⟩
    · exact .inl hnone
    · exact .inr ⟨_, hone, net.marksFirst_firstLabelMarking _ _, hoffers⟩
  · obtain ⟨label, hlabel⟩ := hs.exists_ofTexts
    obtain ⟨cs, hcs, h⟩ := realizes_of_ofTexts hlabel
    have hplain := arePlain_of_mapM hcs
    refine ⟨isPlain_of_realizes h hplain (hasSteps_of_mapM hcs) conventions, ?_⟩
    intro label' texts' hperm
    have hadded : ∃ s', Assembly.ofTexts label' texts' = .ok s' :=
      exists_ofTexts_of_same_mem (fun _ => hperm.mem_iff.symm) ⟨s, hlabel⟩
    obtain ⟨s', hs'⟩ := hadded
    obtain ⟨cs', hcs', h'⟩ := realizes_of_ofTexts hs'
    have hplain' := arePlain_of_mapM hcs'
    have hsame : ∀ c, c ∈ cs' ↔ c ∈ cs := by
      obtain ⟨ys, hys, hmem⟩ := exists_mapM_of_same_mem (fun text => hperm.mem_iff) hcs'
      rw [hcs] at hys
      cases hys
      exact hmem
    refine ⟨s', hs', labelsOf_eq_of_same_chains h' h hplain' hplain hsame _ _, ?_⟩
    change (conventions.finalMarkings s'.net).map s'.net.labelsOf =
      (conventions.finalMarkings s.net).map s.net.labelsOf
    rw [Net.labelsOf_finals h'.nodup_places, Net.labelsOf_finals h.nodup_places,
      labelsOf_eq_of_same_chains h' h hplain' hplain hsame]

/-- The second line of the second text uses a transition as a place. -/
theorem markings_follow_conventions_reordered :
    let s := (((start "net").addText "Start -> [a] -> End").assembly.addLines
      "Start -> [b] -> End\na -> [c] -> d").assembly
    let texts := ["Start -> [b] -> End", "Start -> [a] -> End"]
    s.WrittenBy texts.reverse ∧ ∃ s', Assembly.ofTexts "other" texts = .ok s' ∧
      s'.net.labelsOf (ofNet s'.net).initial = [some "Start"] ∧
      (ofNet s'.net).finals.map s'.net.labelsOf = [[some "End"]] := by
  intro s texts
  let first := ((start "net").addText "Start -> [a] -> End").assembly
  have haccepted : [] ++ (start "net").accepted ["Start -> [a] -> End"] ++
      first.accepted (statementLines "Start -> [b] -> End\na -> [c] -> d") = texts.reverse := by
    decide +kernel
  have hs : s.WrittenBy texts.reverse := by
    rw [← haccepted]
    exact .addLines _ (.addText _ (.start "net"))
  obtain ⟨-, hreordered⟩ := (markings_follow_conventions {}).2 s texts.reverse hs
  obtain ⟨s', hs', hinitial, hfinals⟩ := hreordered "other" texts texts.reverse_perm.symm
  refine ⟨hs, s', hs', hinitial.trans ?_, hfinals.trans ?_⟩
  · decide +kernel
  · decide +kernel

end AcceptingNet

end PetriShorthand
