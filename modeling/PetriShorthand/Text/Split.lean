namespace PetriShorthand

/-- The longest stretch in the class at the front, and the characters after it. -/
def splitWhile (p : Char → Bool) (cs : List Char) : List Char × List Char :=
  (cs.takeWhile p, cs.dropWhile p)

theorem append_of_splitWhile_eq {p : Char → Bool} {cs front rest : List Char}
    (h : splitWhile p cs = (front, rest)) : front ++ rest = cs := by
  obtain ⟨rfl, rfl⟩ := Prod.mk.inj h
  exact List.takeWhile_append_dropWhile

end PetriShorthand
