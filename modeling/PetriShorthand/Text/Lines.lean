import PetriShorthand.Text.Blank

namespace PetriShorthand

def trimEnd (cs : List Char) : List Char := (cs.reverse.dropWhile isBlank).reverse

def trim (cs : List Char) : List Char := trimEnd (cs.dropWhile isBlank)

def splitLines : List Char → List (List Char)
  | [] => [[]]
  | '\n' :: cs => [] :: splitLines cs
  | c :: cs => (splitLines cs).modifyHead (c :: ·)

theorem splitLines_ne_nil (cs : List Char) : splitLines cs ≠ [] := by
  fun_induction splitLines cs with
  | case1 => simp
  | case2 => simp
  | case3 c cs hc ih => simpa using ih

theorem splitLines_append (cs ds : List Char) :
    splitLines (cs ++ '\n' :: ds) = splitLines cs ++ splitLines ds := by
  fun_induction splitLines cs with
  | case1 => simp [splitLines]
  | case2 cs ih => simp [splitLines, ih]
  | case3 c cs hc ih =>
    obtain ⟨l, ls, h⟩ := List.exists_cons_of_ne_nil (splitLines_ne_nil cs)
    rw [List.cons_append, splitLines.eq_3 c _ hc, ih, h]
    simp

theorem splitLines_of_not_mem {cs : List Char} (h : '\n' ∉ cs) : splitLines cs = [cs] := by
  induction cs with
  | nil => rfl
  | cons c cs ih =>
    have hc : c ≠ '\n' := fun he => h (he ▸ List.mem_cons_self)
    rw [splitLines.eq_3 c cs hc, ih fun hmem => h (List.mem_cons_of_mem c hmem)]
    rfl

theorem trim_of_ends {cs : List Char} (hfirst : ∀ c ∈ cs.head?, ¬isBlank c)
    (hlast : ∀ c ∈ cs.getLast?, ¬isBlank c) : trim cs = cs := by
  have hkeep : ∀ {ds : List Char}, (∀ c ∈ ds.head?, ¬isBlank c) → ds.dropWhile isBlank = ds := by
    intro ds hds
    cases ds with
    | nil => rfl
    | cons d ds => exact List.dropWhile_cons_of_neg (hds d rfl)
  rw [trim, trimEnd, hkeep hfirst, hkeep (by rwa [List.head?_reverse]), List.reverse_reverse]

/-- Lines without the blanks at their ends; empty lines and those that open with `#` count for
nothing. -/
def statementLines (text : String) : List String :=
  ((splitLines text.toList).map trim).filter (fun l => l ≠ [] ∧ l.head? ≠ some '#')
    |>.map String.ofList

theorem statementLines_of_line {text : String} (hbreak : '\n' ∉ text.toList)
    (hfirst : ∃ c ∈ text.toList.head?, ¬isBlank c ∧ c ≠ '#')
    (hlast : ∀ c ∈ text.toList.getLast?, ¬isBlank c) : statementLines text = [text] := by
  obtain ⟨c, hc, hblank, hhash⟩ := hfirst
  have htrim : trim text.toList = text.toList := by
    refine trim_of_ends (fun d hd => ?_) hlast
    rw [hc] at hd
    cases hd
    exact hblank
  have hkept : text.toList ≠ [] ∧ text.toList.head? ≠ some '#' := by
    refine ⟨fun he => ?_, fun he => ?_⟩
    · rw [he] at hc
      cases hc
    · rw [hc] at he
      cases he
      exact hhash rfl
  rw [statementLines, splitLines_of_not_mem hbreak, List.map_singleton, htrim,
    List.filter_cons_of_pos (by simpa using hkept)]
  simp

end PetriShorthand
