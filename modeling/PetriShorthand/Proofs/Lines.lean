import PetriShorthand.Proofs.Reachable

namespace PetriShorthand

section Breaks

/-- The lines of a text. Each ends with a line feed, which a carriage return may precede; the last
one need not end so. -/
def lines : List Char → List (List Char)
  | [] => []
  | '\n' :: cs => [] :: lines cs
  | '\r' :: '\n' :: cs => [] :: lines cs
  | c :: cs =>
    match lines cs with
    | [] => [[c]]
    | l :: ls => (c :: l) :: ls

theorem trim_concat {c : Char} (hc : isBlank c) (cs : List Char) : trim (cs ++ [c]) = trim cs := by
  have hend : ∀ ds, trimEnd (ds ++ [c]) = trimEnd ds := by
    intro ds
    rw [trimEnd, List.reverse_append, List.reverse_singleton, List.singleton_append,
      List.dropWhile_cons_of_pos hc, trimEnd]
  rw [trim, List.dropWhile_append]
  split
  next hempty =>
    rw [List.dropWhile_cons_of_pos hc, List.dropWhile_nil, trim, List.isEmpty_iff.mp hempty]
  next => rw [hend, trim]

/-- Lines are what stands between line feeds, but for a carriage return at the end, and for an empty
stretch behind the last line feed. -/
theorem splitLines_of_lines (cs : List Char) : ∃ stretches last,
    splitLines cs = stretches ++ last ∧ (last = [] ∨ last = [[]]) ∧
    List.Forall₂ (fun line stretch => stretch = line ∨ stretch = line ++ ['\r']) (lines cs)
      stretches := by
  fun_induction lines cs with
  | case1 => exact ⟨[], [[]], rfl, .inr rfl, .nil⟩
  | case2 cs ih =>
    obtain ⟨stretches, last, he, hlast, hlines⟩ := ih
    refine ⟨[] :: stretches, last, ?_, hlast, .cons (.inl rfl) hlines⟩
    rw [splitLines, he, List.cons_append]
  | case3 cs ih =>
    obtain ⟨stretches, last, he, hlast, hlines⟩ := ih
    refine ⟨['\r'] :: stretches, last, ?_, hlast, .cons (.inr rfl) hlines⟩
    rw [splitLines.eq_3 _ _ (by decide), splitLines, he]
    rfl
  | case4 c cs hc hreturn hnil ih =>
    obtain ⟨stretches, last, he, hlast, hlines⟩ := ih
    rw [hnil] at hlines
    cases hlines
    have hlast' : last = [[]] := by
      refine hlast.resolve_left fun hempty => splitLines_ne_nil cs ?_
      rw [he, hempty, List.append_nil]
    refine ⟨[[c]], [], ?_, .inl rfl, .cons (.inl rfl) .nil⟩
    rw [splitLines.eq_3 c cs hc, he, hlast']
    rfl
  | case5 c cs hc hreturn l ls hcons ih =>
    obtain ⟨stretches, last, he, hlast, hlines⟩ := ih
    rw [hcons] at hlines
    cases hlines with
    | @cons _ stretch _ stretches hl hls =>
      refine ⟨(c :: stretch) :: stretches, last, ?_, hlast, .cons ?_ hls⟩
      · rw [splitLines.eq_3 c cs hc, he]
        rfl
      · exact hl.imp (congrArg (c :: ·)) (congrArg (c :: ·))

theorem statementLines_eq (text : String) : statementLines text =
    (((lines text.toList).map trim).filter fun l => l ≠ [] ∧ l.head? ≠ some '#').map
      String.ofList := by
  obtain ⟨stretches, last, he, hlast, hlines⟩ := splitLines_of_lines text.toList
  have hsame : stretches.map trim = (lines text.toList).map trim := by
    clear he
    generalize lines text.toList = ls at hlines
    induction hlines with
    | nil => rfl
    | @cons line stretch _ _ hl _ ih =>
      have htrim : trim stretch = trim line := by
        rcases hl with rfl | rfl
        · rfl
        · exact trim_concat (by decide) line
      rw [List.map_cons, List.map_cons, htrim, ih]
  have hnone : (last.map trim).filter (fun l => l ≠ [] ∧ l.head? ≠ some '#') = [] := by
    rcases hlast with rfl | rfl <;> rfl
  rw [statementLines, he, List.map_append, List.filter_append, hnone, List.append_nil, hsame]

theorem statementLines_append (text text' : String) :
    statementLines (text ++ "\n" ++ text') = statementLines text ++ statementLines text' := by
  have hjoint : (text ++ "\n" ++ text').toList = text.toList ++ '\n' :: text'.toList := by
    rw [String.toList_append, String.toList_append, List.append_assoc]
    rfl
  rw [statementLines, hjoint, splitLines_append, List.map_append, List.filter_append,
    List.map_append]
  rfl

end Breaks

namespace Naming

theorem foldlM_bind_of_isFree {naming : Naming} {pairs : List (String × Node)}
    (hpairs : pairs.Pairwise fun a b => a.1 ≠ b.1 ∧ a.2 ≠ b.2)
    (hfree : ∀ b ∈ pairs, naming.IsFree b.2 b.1) :
    ∃ both, pairs.foldlM (fun naming b => naming.bind b.2 b.1) naming = .ok both ∧
      both.bindings = naming.bindings ++ pairs := by
  induction pairs generalizing naming with
  | nil => exact ⟨naming, rfl, (List.append_nil _).symm⟩
  | cons b pairs ih =>
    obtain ⟨hb, hpairs⟩ := List.pairwise_cons.mp hpairs
    obtain ⟨extended, hbind, hbindings⟩ := bind_of_isFree (hfree b List.mem_cons_self)
    have hfree' : ∀ b' ∈ pairs, extended.IsFree b'.2 b'.1 := by
      intro b' hb' a ha
      rw [hbindings] at ha
      rcases List.mem_append.mp ha with ha | ha
      · exact hfree b' (List.mem_cons_of_mem _ hb') a ha
      · obtain rfl := List.mem_singleton.mp ha
        exact hb b' hb'
    obtain ⟨both, hrun, hboth⟩ := ih hpairs hfree'
    refine ⟨both, ?_, ?_⟩
    · rw [List.foldlM_cons, hbind]
      exact hrun
    · rw [hboth, hbindings, List.append_assoc]
      rfl

theorem merge_of_isFree {naming other : Naming}
    (hfree : ∀ b ∈ other.bindings, naming.IsFree b.2 b.1) :
    ∃ both, naming.merge other = .ok both ∧
      both.bindings = naming.bindings ++ other.bindings :=
  foldlM_bind_of_isFree other.oneToOne hfree

end Naming

namespace Assembly

variable {s s' : Assembly} {text : String} {texts : List String} {created delta : Naming}
  {deltas : List Naming} {notes : List Redescription} {failure : Failure}

/-- The texts are added one after another, each of them with success: `deltas` has the names that
they create and `notes` the weights that they leave aside. -/
inductive Adds : Assembly → List String → List Naming → List Redescription → Assembly → Prop
  | nil (s : Assembly) : Adds s [] [] [] s
  | cons {s s' : Assembly} {text : String} {texts : List String} {created : Naming}
      {deltas : List Naming} {notes : List Redescription} :
      (s.addText text).result = .ok created → Adds (s.addText text).assembly texts deltas notes s' →
        Adds s (text :: texts) (created :: deltas) ((s.addText text).redescriptions ++ notes) s'

theorem Adds.grounded (hs : s.Grounded) (h : s.Adds texts deltas notes s') : s'.Grounded := by
  induction h with
  | nil s => exact hs
  | cons _ _ ih => exact ih (hs.addText _)

theorem adds_or_fails (s : Assembly) (texts : List String) :
    (∃ deltas notes s', s.Adds texts deltas notes s') ∨
    ∃ before text after deltas notes s' failure, texts = before ++ text :: after ∧
      s.Adds before deltas notes s' ∧ (s'.addText text).result = .error failure := by
  induction texts generalizing s with
  | nil => exact .inl ⟨[], [], s, .nil s⟩
  | cons text texts ih =>
    cases hresult : (s.addText text).result with
    | error failure => exact .inr ⟨[], text, texts, [], [], s, failure, rfl, .nil s, hresult⟩
    | ok created =>
      rcases ih (s.addText text).assembly with
        ⟨deltas, notes, s', hadds⟩ |
        ⟨before, text', after, deltas, notes, s', failure, he, hadds, hf⟩
      · exact .inl ⟨_, _, s', .cons hresult hadds⟩
      · exact .inr ⟨text :: before, text', after, _, _, s', failure, by rw [he, List.cons_append],
          .cons hresult hadds, hf⟩

/-- What a text creates is new, so it can be merged with names that were there before. -/
theorem exists_merge_of_addText (hs : s.Grounded) (hresult : (s.addText text).result = .ok delta)
    (hcreated : created.bindings ⊆ s.naming.bindings) :
    ∃ both, created.merge delta = .ok both ∧
      both.bindings = created.bindings ++ delta.bindings ∧
      both.bindings ⊆ (s.addText text).assembly.naming.bindings := by
  obtain ⟨c, p, -, -, hout⟩ := addText_of_ok hs hresult
  have hnaming : (s.addText text).assembly.naming.bindings =
      s.naming.bindings ++ delta.bindings := by rw [hout.naming, hout.created]
  have honeToOne := (s.addText text).assembly.naming.oneToOne
  rw [hnaming] at honeToOne
  obtain ⟨-, -, hacross⟩ := List.pairwise_append.mp honeToOne
  have hfree : ∀ b ∈ delta.bindings, created.IsFree b.2 b.1 :=
    fun b hb a ha => hacross a (hcreated ha) b hb
  obtain ⟨both, hmerge, hboth⟩ := Naming.merge_of_isFree hfree
  refine ⟨both, hmerge, hboth, ?_⟩
  rw [hboth, hnaming]
  exact List.append_subset.mpr ⟨fun b hb => List.mem_append_left _ (hcreated hb),
    List.subset_append_right _ _⟩

theorem addTexts_of_adds (hs : s.Grounded) (h : s.Adds texts deltas notes s')
    (hcreated : created.bindings ⊆ s.naming.bindings) (more : List String) :
    ∃ both, both.bindings = created.bindings ++ deltas.flatMap Naming.bindings ∧
      both.bindings ⊆ s'.naming.bindings ∧
      s.addTexts created (texts ++ more) =
        { s'.addTexts both more with
          redescriptions := notes ++ (s'.addTexts both more).redescriptions } := by
  induction h generalizing created with
  | nil s => exact ⟨created, by simp, hcreated, rfl⟩
  | @cons s s' text texts delta deltas notes hresult _ ih =>
    obtain ⟨both, hmerge, hboth, hsub⟩ := exists_merge_of_addText hs hresult hcreated
    obtain ⟨all, hall, hsub', hrun⟩ := ih (hs.addText text) hsub
    refine ⟨all, ?_, hsub', ?_⟩
    · rw [hall, hboth, List.flatMap_cons, List.append_assoc]
    · have hfirst : (s.addText text).result >>= created.merge = .ok both := by
        rw [hresult]
        exact hmerge
      rw [List.cons_append, addTexts, hfirst]
      dsimp only
      rw [hrun, List.append_assoc]

theorem addTexts_of_failed (hs : s.Grounded) (h : s.Adds texts deltas notes s')
    (hfailed : (s'.addText text).result = .error failure)
    (hcreated : created.bindings ⊆ s.naming.bindings) (more : List String) :
    s.addTexts created (texts ++ text :: more) =
      ⟨.error failure, s', notes ++ (s'.addText text).redescriptions⟩ := by
  obtain ⟨both, -, -, hrun⟩ := addTexts_of_adds hs h hcreated (text :: more)
  have hfirst : (s'.addText text).result >>= both.merge = .error failure := by
    rw [hfailed]
    rfl
  rw [hrun, addTexts, hfirst]
  dsimp only
  rw [addText_failed (h.grounded hs) hfailed]

end Assembly

/-- What comes of an addition and, where it succeeds, of another one behind it. -/
inductive Outcome.Joined (o o' : Outcome) : Outcome → Prop
  | failed {failure : Failure} : o.result = .error failure → Joined o o' o
  | failedBehind {created : Naming} {failure : Failure} : o.result = .ok created →
      o'.result = .error failure →
      Joined o o' ⟨.error failure, o'.assembly, o.redescriptions ++ o'.redescriptions⟩
  | succeeded {created created' both : Naming} : o.result = .ok created →
      o'.result = .ok created' →
      (∀ b, b ∈ both.bindings ↔ b ∈ created.bindings ∨ b ∈ created'.bindings) →
      Joined o o' ⟨.ok both, o'.assembly, o.redescriptions ++ o'.redescriptions⟩

namespace Assembly

variable {s s' : Assembly} {text : String} {deltas : List Naming} {notes : List Redescription}

theorem addTexts_of_all {texts : List String} {created : Naming} (hs : s.Grounded)
    (h : s.Adds texts deltas notes s') (hcreated : created.bindings ⊆ s.naming.bindings) :
    ∃ both, both.bindings = created.bindings ++ deltas.flatMap Naming.bindings ∧
      s.addTexts created texts = ⟨.ok both, s', notes⟩ := by
  obtain ⟨both, hboth, -, hrun⟩ := addTexts_of_adds hs h hcreated []
  rw [List.append_nil] at hrun
  refine ⟨both, hboth, ?_⟩
  rw [hrun]
  simp only [addTexts, List.append_nil]

theorem addLines_append (hs : s.Grounded) (text text' : String) :
    (s.addLines text).Joined ((s.addLines text).assembly.addLines text')
      (s.addLines (text ++ "\n" ++ text')) := by
  have hempty : ∀ s : Assembly, Naming.empty.bindings ⊆ s.naming.bindings :=
    fun s => List.nil_subset _
  rw [addLines, addLines, addLines, statementLines_append]
  rcases s.adds_or_fails (statementLines text) with
    ⟨deltas, notes, s', hadds⟩ | ⟨before, line, after, deltas, notes, s', failure, he, hadds, hf⟩
  · obtain ⟨created, hcreated, hfirst⟩ := addTexts_of_all hs hadds (hempty s)
    obtain ⟨created₁, hcreated₁, hsub, hrun⟩ :=
      addTexts_of_adds hs hadds (hempty s) (statementLines text')
    have hs' := hadds.grounded hs
    rw [hfirst, hrun]
    rcases s'.adds_or_fails (statementLines text') with
      ⟨deltas', notes', s'', hadds'⟩ |
      ⟨before, line, after, deltas', notes', s'', failure, he, hrest⟩
    · obtain ⟨created', hcreated', hsecond⟩ := addTexts_of_all hs' hadds' (hempty s')
      obtain ⟨both, hboth, hboth'⟩ := addTexts_of_all hs' hadds' hsub
      dsimp only
      rw [hsecond, hboth']
      refine .succeeded rfl rfl fun b => ?_
      rw [hboth, hcreated₁, hcreated, hcreated', List.mem_append]
      rfl
    · obtain ⟨hadds', hf⟩ := hrest
      dsimp only
      rw [he, addTexts_of_failed hs' hadds' hf (hempty s') after,
        addTexts_of_failed hs' hadds' hf hsub after]
      exact .failedBehind rfl rfl
  · have hlonger : statementLines text ++ statementLines text' =
        before ++ line :: (after ++ statementLines text') := by
      rw [he, List.append_assoc, List.cons_append]
    rw [hlonger, addTexts_of_failed hs hadds hf (hempty s), he,
      addTexts_of_failed hs hadds hf (hempty s)]
    exact .failed rfl

/-- Where all lines of a text can be added one after another, adding the text succeeds, creates what
they create and leads to where they lead. Otherwise it fails as the first line does that cannot be
added, and leads to where the lines before it lead. The lines of two texts joined by a line break
are those of the one and then those of the other, and so it is with what comes of adding them; it
makes no difference how lines end. -/
theorem lines_are_added_in_turn (hs : s.Reachable) (text : String) :
    (∀ deltas notes s', s.Adds (statementLines text) deltas notes s' →
      ∃ created, s.addLines text = ⟨.ok created, s', notes⟩ ∧
        ∀ b, b ∈ created.bindings ↔ ∃ delta ∈ deltas, b ∈ delta.bindings) ∧
    (∀ before line after deltas notes s' failure, statementLines text = before ++ line :: after →
      s.Adds before deltas notes s' → (s'.addText line).result = .error failure →
      s.addLines text = ⟨.error failure, s', notes ++ (s'.addText line).redescriptions⟩) ∧
    ((∃ deltas notes s', s.Adds (statementLines text) deltas notes s') ∨
      ∃ before line after deltas notes s' failure, statementLines text = before ++ line :: after ∧
        s.Adds before deltas notes s' ∧ (s'.addText line).result = .error failure) ∧
    (statementLines text =
      (((lines text.toList).map trim).filter fun l => l ≠ [] ∧ l.head? ≠ some '#').map
        String.ofList) ∧
    ∀ text', statementLines (text ++ "\n" ++ text') =
        statementLines text ++ statementLines text' ∧
      (s.addLines text).Joined ((s.addLines text).assembly.addLines text')
        (s.addLines (text ++ "\n" ++ text')) := by
  have hempty : Naming.empty.bindings ⊆ s.naming.bindings := List.nil_subset _
  refine ⟨fun deltas notes s' h => ?_, fun before line after deltas notes s' failure he h hf => ?_,
    s.adds_or_fails _, statementLines_eq text,
    fun text' => ⟨statementLines_append text text', addLines_append hs.grounded text text'⟩⟩
  · obtain ⟨created, hcreated, hrun⟩ := addTexts_of_all hs.grounded h hempty
    refine ⟨created, hrun, fun b => ?_⟩
    rw [hcreated, ← List.mem_flatMap]
    rfl
  · rw [addLines, he]
    exact addTexts_of_failed hs.grounded h hf hempty after

/-- A comment, a line that ends with a carriage return and a blank line; the line after them uses a
place as a transition, and so a line behind it is not added. The text is cut behind the blank
line. -/
theorem lines_are_added_in_turn_failing :
    let s := start "net"
    let text := "# note\na -> \x7bb\x7d -> c\r\n\u2003"
    let text' := "c -> \x7bb 3.0\x7d -> a\nc -> [c] -> d\nd -> [e] -> a"
    let o := s.addLines (text ++ "\n" ++ text')
    s.Reachable ∧ (o.result = .error (.kindConflict "c" .place .transition) ∧
      o.assembly.net.places = ["a", "c"] ∧ o.redescriptions.length = 1) ∧
      (s.addLines text).Joined ((s.addLines text).assembly.addLines text') o := by
  refine ⟨.start "net", by decide +kernel, ?_⟩
  exact ((lines_are_added_in_turn (.start "net") _).2.2.2.2 _).2

end Assembly

end PetriShorthand
