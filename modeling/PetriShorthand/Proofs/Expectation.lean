import PetriShorthand.Proofs.Layout
import PetriShorthand.Proofs.Sentences

namespace PetriShorthand

open Grammar Token

theorem byteLength_pos {cs : List Char} (h : cs ≠ []) : 0 < byteLength cs := by
  obtain ⟨c, cs, rfl⟩ := List.exists_cons_of_ne_nil h
  have hc := c.utf8Size_pos
  rw [byteLength]
  omega

theorem pairwise_of_append {α : Type} {R : α → α → Prop} {xs : List α}
    (h : ∀ before x mid y after, xs = before ++ x :: (mid ++ y :: after) → R x y) :
    xs.Pairwise R := by
  induction xs with
  | nil => exact .nil
  | cons x xs ih =>
    refine List.pairwise_cons.mpr ⟨fun y hy => ?_, ih fun before z mid y after he => ?_⟩
    · obtain ⟨mid, after, rfl⟩ := List.append_of_mem hy
      exact h [] x mid y after rfl
    · rw [he] at h
      exact h (x :: before) z mid y after rfl

theorem Layout.pairwise {start : Nat} {items : List Spaced} {rest : List Char}
    (h : Layout start items rest) :
    items.Pairwise fun s u => s.token.position + s.token.length ≤ u.token.position := by
  refine pairwise_of_append fun before s mid u after he => ?_
  have hs := h.position before s (mid ++ u :: after) he
  have hu := h.position (before ++ s :: mid) u after (by rw [he, List.append_assoc]; rfl)
  have htext : Spaced.text (before ++ s :: mid) =
      Spaced.text before ++ (s.blanks ++ s.token.text.toList ++ Spaced.text mid) := by
    rw [Spaced.text, List.flatMap_append, ← Spaced.text, ← Spaced.text, Spaced.text_cons]
  rw [htext] at hu
  rw [hs, hu, Token.length]
  simp only [byteLength_append]
  omega

theorem pairwise_of_tokens {text : String} {ts : List Token} (h : tokens text = .ok ts) :
    (∀ t ∈ ts, 0 < t.length) ∧ ts.Pairwise fun t u => t.position + t.length ≤ u.position := by
  obtain ⟨items, last, rfl, -, -, hlayout⟩ := exists_layout_of_tokens h
  refine ⟨fun t ht => ?_, List.pairwise_map.mpr hlayout.pairwise⟩
  obtain ⟨s, hs, rfl⟩ := List.mem_map.mp ht
  obtain ⟨hne, -⟩ := hlayout.isToken s hs
  exact byteLength_pos fun hnil => hne (String.toList_inj.mp hnil)

def tokensBefore (ts : List Token) (found : Token) : List Token :=
  ts.takeWhile fun t => t.position < found.position

theorem tokensBefore_eq {text : String} {pre rest : List Token}
    (h : tokens text = .ok (pre ++ rest)) :
    tokensBefore (pre ++ rest)
      (rest.head?.getD (.finish (Reader.ofTokens (pre ++ rest)).finish)) = pre := by
  obtain ⟨hpositive, hpairwise⟩ := pairwise_of_tokens h
  cases rest with
  | cons u rest =>
    obtain ⟨-, -, hacross⟩ := List.pairwise_append.mp hpairwise
    have hbefore : ∀ t ∈ pre, decide (t.position < u.position) = true := by
      intro t ht
      have hlength := hpositive t (List.mem_append_left _ ht)
      have hle := hacross t ht u List.mem_cons_self
      exact decide_eq_true (by omega)
    change (pre ++ u :: rest).takeWhile (fun t => t.position < u.position) = pre
    rw [List.takeWhile_append_of_pos hbefore, List.takeWhile_cons_of_neg (by simp),
      List.append_nil]
  | nil =>
    rw [List.append_nil] at hpositive hpairwise ⊢
    refine List.takeWhile_eq_self_iff.mpr fun t ht => decide_eq_true ?_
    have hlast := List.getLast?_isSome.mpr (List.ne_nil_of_mem ht)
    obtain ⟨last, hlast⟩ := Option.isSome_iff_exists.mp hlast
    obtain ⟨front, rfl⟩ := List.getLast?_eq_some_iff.mp hlast
    have hfinish : (Reader.ofTokens (front ++ [last])).finish = last.position + last.length := by
      rw [Reader.ofTokens, List.getLast?_concat]
      rfl
    have hlength := hpositive t ht
    show t.position < (Reader.ofTokens (front ++ [last])).finish
    rw [hfinish]
    rcases List.mem_append.mp ht with ht | ht
    · obtain ⟨-, -, hacross⟩ := List.pairwise_append.mp hpairwise
      have hle := hacross t ht last List.mem_cons_self
      omega
    · obtain rfl := List.mem_singleton.mp ht
      omega

namespace Grammar

/-- A token of the kind could come behind those. -/
def MayFollow (before : List Token) (k : Kind) : Prop := IsViable (before.map (·.kind) ++ [k])

namespace Stage

variable {q m : Stage} {k : Kind} {ks : List Kind}

theorem run_concat_eq_some : q.run (ks ++ [k]) = some m ↔
    ∃ m', q.run ks = some m' ∧ m'.next k = some m := by
  rw [run_append_eq_some]
  refine exists_congr fun m' => and_congr_right fun _ => ?_
  rw [run_cons_eq_some]
  exact ⟨fun ⟨_, hm, he⟩ => hm.trans he, fun hm => ⟨m, hm, rfl⟩⟩

theorem isViable_concat_iff (h : start.run ks = some q) :
    IsViable (ks ++ [k]) ↔ q.next k ≠ none := by
  rw [isViable_iff_run, Option.ne_none_iff_exists']
  refine exists_congr fun m => ?_
  rw [run_concat_eq_some, h]
  exact ⟨fun ⟨_, hq, hm⟩ => Option.some.inj hq ▸ hm, fun hm => ⟨q, rfl, hm⟩⟩

/-- By the last kind it can be told whether a stage lies behind a weight or behind a number. -/
theorem eq_weight_iff_of_next (h : m.next k = some q) :
    (k = .weight ↔ q = .braceWeight ∨ q = .braceNumberWeight) ∧
      (k = .number ↔ q = .squareNumber ∨ q = .braceNumber) := by
  cases m <;> cases k <;> cases h <;> decide

theorem getLast?_of_run (h : start.run ks = some q) :
    (ks.getLast? = some .weight ↔ q = .braceWeight ∨ q = .braceNumberWeight) ∧
      (ks.getLast? = some .number ↔ q = .squareNumber ∨ q = .braceNumber) := by
  cases hlast : ks.getLast? with
  | none =>
    rw [List.getLast?_eq_none_iff.mp hlast] at h
    cases h
    decide
  | some k =>
    obtain ⟨front, rfl⟩ := List.getLast?_eq_some_iff.mp hlast
    obtain ⟨m, -, hm⟩ := run_concat_eq_some.mp h
    rw [Option.some.injEq, Option.some.injEq]
    exact eq_weight_iff_of_next hm

theorem cases_of_next_weight (h : m.next .weight = some q) :
    m = .braceName ∧ q = .braceWeight ∨ m = .braceNumber ∧ q = .braceNumberWeight := by
  cases m with
  | braceName =>
    cases h
    exact .inl ⟨rfl, rfl⟩
  | braceNumber =>
    cases h
    exact .inr ⟨rfl, rfl⟩
  | _ => cases h

/-- Whatever is reported may come, but not behind a weight. -/
theorem next_ne_none_iff (h : q ≠ .braceWeight) (h' : q ≠ .braceNumberWeight) :
    q.next k ≠ none ↔ k ∈ q.reported := by
  constructor
  · exact fun hnext => Decidable.byContradiction fun hmem => hnext (next_eq_none hmem)
  · have hall : ∀ k ∈ q.reported, q.next k ≠ none := by
      cases q with
      | braceWeight => exact absurd rfl h
      | braceNumberWeight => exact absurd rfl h'
      | _ => decide
    exact hall k

theorem next_braceWeight : braceWeight.next k ≠ none ↔ k = .braceClose := by
  cases k <;> decide

theorem next_braceNumberWeight : braceNumberWeight.next k ≠ none ↔ k = .braceClose := by
  cases k <;> decide

end Stage

end Grammar

/-- The kinds that an error lists are those that could come behind the tokens before the one that
was found, which is of none of them, unless the last of those tokens is a weight. Behind a weight
only the closing brace could come, but the weight is listed once more, and so is the separator where
there was no number. -/
theorem expected_of_unexpectedToken {text : String} {expected : List Kind} {found : Token}
    (h : Chain.ofText text = .error (.unexpectedToken expected found)) :
    ∃ ts, tokens text = .ok ts ∧
      let before := tokensBefore ts found
      let kinds := before.map (·.kind)
      found = (ts.drop before.length).head?.getD (.finish (Reader.ofTokens ts).finish) ∧
      ¬MayFollow before found.kind ∧
      (kinds.getLast? ≠ some .weight →
        (∀ k, k ∈ expected ↔ MayFollow before k) ∧ found.kind ∉ expected) ∧
      (kinds.getLast? = some .weight → (∀ k, MayFollow before k ↔ k = .braceClose) ∧
        ∀ k, k ∈ expected ↔ k = .separator ∧ kinds.dropLast.getLast? ≠ some .number ∨
          k = .weight ∨ k = .braceClose) := by
  obtain ⟨pre, rest, q, hts, hrun, hstuck, rfl, hfound⟩ :=
    Reader.exists_stage_of_unexpectedToken h
  have hbefore : tokensBefore (pre ++ rest) found = pre := by
    rw [hfound]
    exact tokensBefore_eq hts
  have hkind : Reading.front rest = found.kind := by
    rw [hfound]
    cases rest with
    | nil => rfl
    | cons t rest => rfl
  have hfollow : ∀ k, MayFollow pre k ↔ q.next k ≠ none := fun k => Stage.isViable_concat_iff hrun
  have hnot : ¬MayFollow pre found.kind := by
    rw [hfollow, ← hkind, hstuck]
    exact not_not_intro rfl
  refine ⟨pre ++ rest, hts, ?_⟩
  simp only [hbefore]
  refine ⟨by rwa [List.drop_left], hnot, fun hlast => ?_, fun hlast => ?_⟩
  · obtain ⟨hq, hq'⟩ := not_or.mp (mt (Stage.getLast?_of_run hrun).1.mpr hlast)
    have hexact : ∀ k, k ∈ q.reported ↔ MayFollow pre k := by
      intro k
      rw [hfollow, Stage.next_ne_none_iff hq hq']
    exact ⟨hexact, fun hmem => hnot ((hexact _).mp hmem)⟩
  · obtain ⟨front, hfront⟩ := List.getLast?_eq_some_iff.mp hlast
    rw [hfront] at hrun ⊢
    obtain ⟨m, hm, hnext⟩ := Stage.run_concat_eq_some.mp hrun
    have hnumber := (Stage.getLast?_of_run hm).2
    rw [List.dropLast_concat]
    simp only [hfollow]
    rcases Stage.cases_of_next_weight hnext with ⟨rfl, rfl⟩ | ⟨rfl, rfl⟩
    · have hnone : front.getLast? ≠ some .number := by simp [hnumber]
      exact ⟨fun k => Stage.next_braceWeight, fun k => by simp [Stage.reported, hnone]⟩
    · have hsome : front.getLast? = some .number := by simp [hnumber]
      exact ⟨fun k => Stage.next_braceNumberWeight, fun k => by simp [Stage.reported, hsome]⟩

/-- A place stands in braces behind the number of a transition. -/
theorem expected_of_unexpectedToken_number :
    let text := "a -> \x7bb__1 c\x7d -> d"
    let found : Token := ⟨.label, "c", 11⟩
    Chain.ofText text = .error (.unexpectedToken [.weight, .braceClose] found) ∧
      ∃ ts, tokens text = .ok ts ∧ MayFollow (tokensBefore ts found) .weight ∧
        ¬MayFollow (tokensBefore ts found) .separator := by
  intro text found
  have h : Chain.ofText text = .error (.unexpectedToken [.weight, .braceClose] found) := by
    decide +kernel
  obtain ⟨ts, hts, -, -, hexact, -⟩ := expected_of_unexpectedToken h
  have hkinds : (tokens text).map (fun ts => (tokensBefore ts found).map (·.kind)) =
      .ok [.label, .arrow, .braceOpen, .label, .separator, .number] := by decide +kernel
  rw [hts] at hkinds
  have hbefore : (tokensBefore ts found).map (·.kind) =
      [.label, .arrow, .braceOpen, .label, .separator, .number] := Except.ok.inj hkinds
  have hlast : ((tokensBefore ts found).map (·.kind)).getLast? ≠ some .weight := by
    rw [hbefore]
    decide
  obtain ⟨hlisted, -⟩ := hexact hlast
  refine ⟨h, ts, hts, (hlisted .weight).mp (by decide), fun hsep => ?_⟩
  exact absurd ((hlisted .separator).mpr hsep) (by decide)

/-- Behind the weight of a transition, another weight is among what was expected, although it is
what was found and no sentence goes on with it. -/
theorem spent_weight_expected :
    let text := "a -> \x7bb 0.5 0.5\x7d -> c"
    let found : Token := ⟨.weight, "0.5", 12⟩
    Chain.ofText text = .error (.unexpectedToken [.separator, .weight, .braceClose] found) ∧
      ∃ ts, tokens text = .ok ts ∧ ¬MayFollow (tokensBefore ts found) .weight ∧
        ¬MayFollow (tokensBefore ts found) .separator := by
  intro text found
  have hkinds : (tokens text).map (fun ts => (tokensBefore ts found).map (·.kind)) =
      .ok [.label, .arrow, .braceOpen, .label, .weight] := by decide +kernel
  refine ⟨by decide +kernel, ?_⟩
  cases hts : tokens text with
  | error failure =>
    rw [hts] at hkinds
    cases hkinds
  | ok ts =>
    rw [hts] at hkinds
    have hbefore : (tokensBefore ts found).map (·.kind) =
        [.label, .arrow, .braceOpen, .label, .weight] := Except.ok.inj hkinds
    have hrun : Stage.start.run [.label, .arrow, .braceOpen, .label, .weight] =
        some .braceWeight := rfl
    refine ⟨ts, rfl, ?_, ?_⟩
    all_goals
      rw [MayFollow, hbefore, Stage.isViable_concat_iff hrun]
      decide

end PetriShorthand
