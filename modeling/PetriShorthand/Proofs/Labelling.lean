import PetriShorthand.Proofs.Simulation

namespace PetriShorthand

namespace Assembly

def withLabel (s : Assembly) (label : String) : Assembly :=
  { s with net := { s.net with label } }

end Assembly

def Outcome.withLabel (o : Outcome) (label : String) : Outcome :=
  { o with assembly := o.assembly.withLabel label }

namespace Assembly

variable {s : Assembly}

theorem Grounded.withLabel (hs : s.Grounded) (label : String) : (s.withLabel label).Grounded :=
  ⟨hs.named, hs.inherited⟩

/-- Plans are made and carried out without regard to the label. -/
theorem simulates_withLabel (label : String) : Simulates fun s t => t = s.withLabel label := by
  refine ⟨?_, ?_⟩
  · rintro s _ rfl c
    rfl
  · rintro s _ s' t' c p created created' rfl - - hout hout'
    refine ⟨Naming.ext (hout.created.trans hout'.created.symm),
      Assembly.ext (Net.ext hout'.label ?_ ?_ ?_) ?_ (Naming.ext ?_)⟩
    · exact hout'.places.trans hout.places.symm
    · exact hout'.transitions.trans hout.transitions.symm
    · exact hout'.arcs.trans hout.arcs.symm
    · exact hout'.inherited.trans hout.inherited.symm
    · exact hout'.naming.trans hout.naming.symm

theorem addTexts_withLabel (hs : s.Grounded) (label : String) (created : Naming)
    (texts : List String) :
    (s.withLabel label).addTexts created texts = (s.addTexts created texts).withLabel label := by
  obtain ⟨hresult, hredescriptions, hassembly⟩ :=
    (simulates_withLabel label).addTexts rfl hs (hs.withLabel label) created texts
  exact Outcome.ext hresult.symm hassembly hredescriptions.symm

end Assembly

end PetriShorthand
