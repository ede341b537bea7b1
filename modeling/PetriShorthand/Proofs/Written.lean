import PetriShorthand.Proofs.Meaning

namespace PetriShorthand

namespace Assembly

/-- Assemblies of texts alone, whether or not adding them succeeds. -/
inductive Written : Assembly → Prop
  | start (label : String) : Written (.start label)
  | addText {s : Assembly} (text : String) : Written s → Written (s.addText text).assembly
  | addLines {s : Assembly} (text : String) : Written s → Written (s.addLines text).assembly

def Says (s : Assembly) (cs : List Chain) : Prop :=
  s.Realizes cs ∧ ∀ c ∈ cs, ∃ text, Chain.ofText text = .ok c

variable {s : Assembly} {cs : List Chain}

theorem Written.reachable (hs : s.Written) : s.Reachable := by
  induction hs with
  | start label => exact .start label
  | addText text _ ih => exact ih.addText text
  | addLines text _ ih => exact ih.addLines text

/-- A text that fails leaves the chains as they are, and any other adds its own. -/
theorem Says.addText (hs : s.Grounded) (h : s.Says cs) (text : String) :
    ∃ cs', (s.addText text).assembly.Says cs' := by
  cases hresult : (s.addText text).result with
  | ok created =>
    obtain ⟨c, p, hread, hd, hout⟩ := addText_of_ok hs hresult
    refine ⟨cs ++ [c], h.1.append hd hout, fun c' hc' => ?_⟩
    rcases List.mem_append.mp hc' with hc' | hc'
    · exact h.2 c' hc'
    · obtain rfl := List.mem_singleton.mp hc'
      exact ⟨text, hread⟩
  | error failure =>
    rw [addText_failed hs hresult]
    exact ⟨cs, h⟩

theorem Says.addTexts (hs : s.Grounded) (h : s.Says cs) (created : Naming) (texts : List String) :
    ∃ cs', (s.addTexts created texts).assembly.Says cs' := by
  induction texts generalizing s cs created with
  | nil => exact ⟨cs, h⟩
  | cons text texts ih =>
    obtain ⟨cs', hcs'⟩ := h.addText hs text
    rw [Assembly.addTexts]
    dsimp only
    split
    · exact ⟨cs', hcs'⟩
    · exact ih (hs.addText text) hcs' _

theorem Written.says (hs : s.Written) : ∃ cs, s.Says cs := by
  induction hs with
  | start label => exact ⟨[], realizes_start label, nofun⟩
  | addText text hs ih =>
    obtain ⟨cs, hcs⟩ := ih
    exact hcs.addText hs.reachable.grounded text
  | addLines text hs ih =>
    obtain ⟨cs, hcs⟩ := ih
    exact hcs.addTexts hs.reachable.grounded .empty (statementLines text)

/-- The transitions are those referred to, no two of one key, and every node has the one name that
a chain gives it. -/
structure Keyed (s : Assembly) (ts : List TransitionRef) : Prop where
  transitions : s.net.transitions = ts.map TransitionRef.transition
  placeName : ∀ i, s.naming.name? (.place i) = s.net.places[i]?
  transitionName : ∀ i, s.naming.name? (.transition i) = (ts.map TransitionRef.key)[i]?
  places_nodup : s.net.places.Nodup
  keys_nodup : (ts.map TransitionRef.key).Nodup
  plain : ∀ t ∈ ts, t.HasPlainLabel

theorem Realizes.keyed (h : s.Realizes cs) (hplain : ArePlain cs) :
    s.Keyed (Meaning.transitions cs) := by
  have hname : ∀ n name, s.naming.name? n = some name ↔
      Names s.net.places ((Meaning.transitions cs).map TransitionRef.key) name n := by
    intro n name
    rw [Naming.name?_eq_some_iff, h.naming, ← h.places, hplain.transitions_eq]
  refine ⟨?_, fun i => Option.ext fun name => hname (.place i) name,
    fun i => Option.ext fun name => hname (.transition i) name, ?_, hplain.nodup_keys,
    fun t ht => hplain t ((distinctBy_sublist _ _).mem ht)⟩
  · rw [h.transitions, hplain.transitions_eq]
  · rw [h.places, distinctBy_id]
    exact nodup_places cs

end Assembly

end PetriShorthand
