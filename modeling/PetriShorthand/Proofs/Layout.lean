import PetriShorthand.Proofs.Patterns

namespace PetriShorthand

structure Spaced where
  blanks : List Char
  token : Token

namespace Spaced

def chars (s : Spaced) : List Char := s.blanks ++ s.token.text.toList

def text (items : List Spaced) : List Char := items.flatMap chars

theorem text_cons (s : Spaced) (items : List Spaced) :
    text (s :: items) = s.blanks ++ s.token.text.toList ++ text items := by
  rw [text, List.flatMap_cons, chars, text]

end Spaced

open Spaced in
/-- Blanks and tokens in turn, with `start` bytes before them and `rest` behind: every token stands
where it says, as the longest lexeme of the first kind that has any there. -/
structure Layout (start : Nat) (items : List Spaced) (rest : List Char) : Prop where
  blanks : ∀ s ∈ items, ∀ c ∈ s.blanks, isBlank c
  position : ∀ before s after, items = before ++ s :: after →
    s.token.position = start + byteLength (text before ++ s.blanks)
  wins : ∀ before s after, items = before ++ s :: after →
    s.token.kind.Wins s.token.text.toList (s.token.text.toList ++ text after ++ rest)

namespace Layout

variable {start : Nat} {items : List Spaced} {rest : List Char} {s : Spaced}

theorem nil (start : Nat) (rest : List Char) : Layout start [] rest :=
  ⟨nofun, by simp, by simp⟩

theorem cons (hblanks : ∀ c ∈ s.blanks, isBlank c)
    (hposition : s.token.position = start + byteLength s.blanks)
    (hwins : s.token.kind.Wins s.token.text.toList
      (s.token.text.toList ++ Spaced.text items ++ rest))
    (h : Layout (s.token.position + s.token.length) items rest) :
    Layout start (s :: items) rest := by
  have hsplit : ∀ before s' after, s :: items = before ++ s' :: after →
      before = [] ∧ s = s' ∧ items = after ∨
        ∃ before', before = s :: before' ∧ items = before' ++ s' :: after := by
    intro before s' after he
    cases before with
    | nil =>
      obtain ⟨hs, hitems⟩ := List.cons.inj he
      exact .inl ⟨rfl, hs, hitems⟩
    | cons s'' before' =>
      obtain ⟨rfl, hitems⟩ := List.cons.inj he
      exact .inr ⟨before', rfl, hitems⟩
  refine ⟨?_, ?_, ?_⟩
  · intro s' hs'
    rcases List.mem_cons.mp hs' with rfl | hs'
    · exact hblanks
    · exact h.blanks s' hs'
  · intro before s' after he
    rcases hsplit before s' after he with ⟨rfl, rfl, -⟩ | ⟨before', rfl, hitems⟩
    · exact hposition
    · have hlater := h.position before' s' after hitems
      rw [hlater, hposition, Token.length, Spaced.text_cons]
      simp only [byteLength_append]
      omega
  · intro before s' after he
    rcases hsplit before s' after he with ⟨rfl, rfl, rfl⟩ | ⟨before', rfl, hitems⟩
    · exact hwins
    · exact h.wins before' s' after hitems

theorem head_position (h : Layout start (s :: items) rest) :
    s.token.position = start + byteLength s.blanks :=
  h.position [] s items rfl

theorem head_wins (h : Layout start (s :: items) rest) :
    s.token.kind.Wins s.token.text.toList
      (s.token.text.toList ++ (Spaced.text items ++ rest)) := by
  rw [← List.append_assoc]
  exact h.wins [] s items rfl

theorem tail (h : Layout start (s :: items) rest) :
    Layout (s.token.position + s.token.length) items rest := by
  refine ⟨fun s' hs' => h.blanks s' (List.mem_cons_of_mem s hs'), ?_, ?_⟩
  · intro before s' after he
    have hlater := h.position (s :: before) s' after (congrArg (s :: ·) he)
    rw [hlater, h.head_position, Token.length, Spaced.text_cons]
    simp only [byteLength_append]
    omega
  · exact fun before s' after he => h.wins (s :: before) s' after (congrArg (s :: ·) he)

theorem covers (h : Layout start items rest) :
    ∀ s ∈ items, s.token.kind.Covers s.token.text.toList := by
  intro s hs
  obtain ⟨before, after, he⟩ := List.append_of_mem hs
  exact (h.wins before s after he).1.covers

end Layout

/-- What is left starts with neither a blank nor a text of any kind. -/
structure IsStuck (rest : List Char) : Prop where
  ne_nil : rest ≠ []
  head : ∀ c ∈ rest.head?, ¬isBlank c
  none : ∀ kind : Token.Kind, ¬kind.Occurs rest

namespace Cursor

variable {c d e : Cursor} {t : Token} {ts us : List Token}

theorem skipBlanks_of_append {blanks rest : List Char} (hblanks : ∀ c ∈ blanks, isBlank c)
    (hrest : ∀ c ∈ rest.head?, ¬isBlank c) (p : Nat) :
    skipBlanks ⟨p, blanks ++ rest⟩ = ⟨p + byteLength blanks, rest⟩ := by
  obtain ⟨htake, hdrop⟩ := Prod.mk.inj (splitWhile_append_of_all hblanks hrest)
  rw [skipBlanks, htake, hdrop]

theorem next_of_blanks {blanks : List Char} (h : ∀ c ∈ blanks, isBlank c) (p : Nat) :
    next ⟨p, blanks⟩ = (.ok none, ⟨p + byteLength blanks, []⟩) := by
  have hnil : ∀ c ∈ ([] : List Char).head?, ¬isBlank c := nofun
  have hskip := skipBlanks_of_append h hnil p
  rw [List.append_nil] at hskip
  rw [next, hskip]
  exact if_pos rfl

theorem next_of_wins {kind : Token.Kind} {blanks lexeme rest : List Char}
    (hblanks : ∀ c ∈ blanks, isBlank c) (h : kind.Wins lexeme (lexeme ++ rest)) (p : Nat) :
    next ⟨p, blanks ++ (lexeme ++ rest)⟩ =
      (.ok (some ⟨kind, String.ofList lexeme, p + byteLength blanks⟩),
        ⟨p + byteLength blanks + byteLength lexeme, rest⟩) := by
  have hne := h.1.covers.ne_nil
  have hhead : ∀ c ∈ (lexeme ++ rest).head?, ¬isBlank c := by
    intro c hc
    rw [List.head?_append, Option.or_of_isSome (by simp [List.isSome_head?, hne])] at hc
    exact h.1.covers.head_not_blank c hc
  rw [next, skipBlanks_of_append hblanks hhead]
  dsimp only
  rw [if_neg (by simp [hne]), Token.Kind.first?_eq_some_iff.mpr ⟨h, rfl⟩]

theorem next_of_isStuck {blanks rest : List Char} (hblanks : ∀ c ∈ blanks, isBlank c)
    (h : IsStuck rest) (p : Nat) :
    next ⟨p, blanks ++ rest⟩ =
      (.error (.unexpectedText (p + byteLength blanks) (String.ofList (trimEnd rest))),
        ⟨p + byteLength blanks, rest⟩) := by
  rw [next, skipBlanks_of_append hblanks h.head]
  dsimp only
  rw [if_neg h.ne_nil, Token.Kind.first?_eq_none_iff.mpr h.none]

theorem exists_blanks (cs : List Char) : ∃ blanks rest, cs = blanks ++ rest ∧
    (∀ c ∈ blanks, isBlank c) ∧ ∀ c ∈ rest.head?, ¬isBlank c := by
  refine ⟨cs.takeWhile isBlank, cs.dropWhile isBlank, List.takeWhile_append_dropWhile.symm,
    fun c hc => List.mem_takeWhile_imp hc, fun c hc hblank => ?_⟩
  have hnot := List.head?_dropWhile_not isBlank cs
  rw [hc] at hnot
  simp [hblank] at hnot

/-- A call comes to the end of the text, finds a token, or is stuck. -/
theorem next_cases (c : Cursor) :
    (∀ a ∈ c.rest, isBlank a) ∨
    (∃ (s : Spaced) (rest : List Char), (∀ a ∈ s.blanks, isBlank a) ∧ c.rest = s.chars ++ rest ∧
      s.token.position = c.position + byteLength s.blanks ∧
      s.token.kind.Wins s.token.text.toList (s.token.text.toList ++ rest) ∧
      c.next = (.ok (some s.token), ⟨s.token.position + s.token.length, rest⟩)) ∨
    ∃ blanks rest, (∀ a ∈ blanks, isBlank a) ∧ c.rest = blanks ++ rest ∧ IsStuck rest := by
  obtain ⟨p, cs⟩ := c
  obtain ⟨blanks, rest, rfl, hblanks, hhead⟩ := exists_blanks cs
  by_cases hne : rest = []
  · rw [hne, List.append_nil]
    exact .inl hblanks
  · cases hfirst : Token.Kind.first? rest with
    | none =>
      have hnone := Token.Kind.first?_eq_none_iff.mp hfirst
      exact .inr (.inr ⟨blanks, rest, hblanks, rfl, hne, hhead, hnone⟩)
    | some found =>
      obtain ⟨kind, lexeme, rest'⟩ := found
      obtain ⟨hwins, rfl⟩ := Token.Kind.first?_eq_some_iff.mp hfirst
      refine .inr (.inl ⟨⟨blanks, kind, String.ofList lexeme, p + byteLength blanks⟩, rest',
        hblanks, ?_, rfl, ?_, ?_⟩)
      · simp [Spaced.chars]
      · simpa using hwins
      · rw [next_of_wins hblanks hwins, Token.length, String.toList_ofList]

/-- Calls one after another give the tokens and lead on to the second cursor. -/
inductive Passes : Cursor → List Token → Cursor → Prop
  | nil (c : Cursor) : Passes c [] c
  | cons {c d e : Cursor} {t : Token} {ts : List Token} : c.next = (.ok (some t), d) →
      Passes d ts e → Passes c (t :: ts) e

theorem Passes.append (h : Passes c ts d) (h' : Passes d us e) : Passes c (ts ++ us) e := by
  induction h with
  | nil => exact h'
  | cons hnext _ ih => exact .cons hnext (ih h')

theorem tokens_of_next (h : c.next = (.ok (some t), d)) : c.tokens = (t :: ·) <$> d.tokens := by
  rw [tokens, h]

theorem Passes.tokens_eq (h : Passes c ts d) : c.tokens = (ts ++ ·) <$> d.tokens := by
  induction h with
  | nil d => cases d.tokens <;> rfl
  | @cons c d e t ts hnext _ ih =>
    rw [tokens_of_next hnext, ih]
    cases e.tokens <;> rfl

def after (c : Cursor) : Nat → Cursor
  | 0 => c
  | n + 1 => c.next.2.after n

def answer (c : Cursor) (n : Nat) : Except Failure (Option Token) := (c.after n).next.1

theorem after_of_stays {found : Except Failure (Option Token)} (h : c.next = (found, c)) (n : Nat) :
    c.after n = c := by
  induction n with
  | zero => rfl
  | succ n ih => rw [after, h, ih]

theorem Passes.after_eq (h : Passes c ts d) (n : Nat) : c.after (ts.length + n) = d.after n := by
  induction h with
  | nil => rw [List.length_nil, Nat.zero_add]
  | cons hnext _ ih =>
    rw [List.length_cons, Nat.add_right_comm, after, hnext]
    exact ih

theorem Passes.answer_eq (h : Passes c ts d) {n : Nat} (ht : ts[n]? = some t) :
    c.answer n = .ok (some t) := by
  induction h generalizing n with
  | nil => cases ht
  | @cons c d e u us hnext _ ih =>
    cases n with
    | zero =>
      cases ht
      rw [answer, after, hnext]
    | succ n =>
      have hlater := ih ht
      rw [answer, after, hnext]
      exact hlater

theorem exists_layout (c : Cursor) : ∃ items d,
    Passes c (items.map Spaced.token) d ∧ c.rest = Spaced.text items ++ d.rest ∧
    d.position = c.position + byteLength (Spaced.text items) ∧ Layout c.position items d.rest ∧
    ((∀ a ∈ d.rest, isBlank a) ∨
      ∃ blanks rest, (∀ a ∈ blanks, isBlank a) ∧ d.rest = blanks ++ rest ∧ IsStuck rest) := by
  -- every token takes something of what is left
  induction hn : c.rest.length using Nat.strongRecOn generalizing c with
  | ind n ih =>
    rcases next_cases c with hend | ⟨s, rest, hblanks, hrest, hposition, hwins, hnext⟩ | hstuck
    · exact ⟨[], c, .nil c, rfl, rfl, .nil _ _, .inl hend⟩
    · have hlt := rest_length_lt_of_next hnext
      obtain ⟨items, d, hpasses, hrest', hposition', hlayout, hcases⟩ :=
        ih rest.length (by rwa [← hn]) ⟨s.token.position + s.token.length, rest⟩ rfl
      simp only at hrest' hposition' hlayout
      refine ⟨s :: items, d, .cons hnext hpasses, ?_, ?_, ?_, hcases⟩
      · rw [hrest, hrest', Spaced.text_cons, Spaced.chars]
        simp only [List.append_assoc]
      · rw [hposition', hposition, Spaced.text_cons, Token.length]
        simp only [byteLength_append]
        omega
      · refine .cons hblanks hposition ?_ hlayout
        rwa [List.append_assoc, ← hrest']
    · exact ⟨[], c, .nil c, rfl, rfl, .nil _ _, .inr hstuck⟩

end Cursor

theorem exists_trimEnd (cs : List Char) : ∃ trailing, cs = trimEnd cs ++ trailing ∧
    (∀ c ∈ trailing, isBlank c) ∧ ∀ c ∈ (trimEnd cs).getLast?, ¬isBlank c := by
  obtain ⟨trailing, kept, hreverse, hblanks, hhead⟩ := Cursor.exists_blanks cs.reverse
  have htrim : trimEnd cs = kept.reverse := by
    obtain ⟨-, hdrop⟩ := Prod.mk.inj (splitWhile_append_of_all hblanks hhead)
    rw [trimEnd, hreverse, hdrop]
  refine ⟨trailing.reverse, ?_, ?_, ?_⟩
  · rw [htrim, ← List.reverse_append, ← hreverse, List.reverse_reverse]
  · exact fun c hc => hblanks c (List.mem_reverse.mp hc)
  · rw [htrim, List.getLast?_reverse]
    exact hhead

theorem IsStuck.trimEnd_ne_nil {rest : List Char} (h : IsStuck rest) : trimEnd rest ≠ [] := by
  intro hnil
  obtain ⟨trailing, hrest, hblanks, -⟩ := exists_trimEnd rest
  rw [hnil, List.nil_append] at hrest
  obtain ⟨c, cs, rfl⟩ := List.exists_cons_of_ne_nil h.ne_nil
  exact h.head c rfl (hblanks c (hrest ▸ List.mem_cons_self))

theorem Layout.isToken {start : Nat} {items : List Spaced} {rest : List Char}
    (h : Layout start items rest) : ∀ s ∈ items, s.token.text ≠ "" ∧ s.token.kind ≠ .finish := by
  intro s hs
  have hcovers := h.covers s hs
  refine ⟨fun hempty => ?_, hcovers.ne_finish⟩
  rw [hempty] at hcovers
  exact hcovers.ne_nil rfl

namespace Cursor

variable {c d : Cursor} {ts : List Token}

theorem Passes.of_blanks (h : Passes c ts d) (hend : ∀ a ∈ d.rest, isBlank a) :
    c.tokens = .ok ts ∧ ∀ n, c.answer n = .ok ts[n]? := by
  obtain ⟨p, blanks⟩ := d
  have hnext := next_of_blanks hend p
  constructor
  · rw [h.tokens_eq, tokens, hnext]
    exact congrArg Except.ok (List.append_nil ts)
  · intro n
    cases ht : ts[n]? with
    | some t => exact h.answer_eq ht
    | none =>
      obtain ⟨k, rfl⟩ := Nat.exists_eq_add_of_le (List.getElem?_eq_none_iff.mp ht)
      have hagain : next ⟨p + byteLength blanks, []⟩ = (.ok none, ⟨p + byteLength blanks, []⟩) :=
        next_of_blanks (List.forall_mem_nil _) _
      rw [answer, h.after_eq]
      cases k with
      | zero => rw [after, hnext]
      | succ k => rw [after, hnext, after_of_stays hagain, hagain]

theorem Passes.of_isStuck {blanks rest : List Char} {p : Nat} (h : Passes c ts ⟨p, blanks ++ rest⟩)
    (hblanks : ∀ a ∈ blanks, isBlank a) (hstuck : IsStuck rest) :
    let position := p + byteLength blanks
    let failure := Failure.unexpectedText position (String.ofList (trimEnd rest))
    c.tokens = .error failure ∧ (∀ n t, ts[n]? = some t → c.answer n = .ok (some t)) ∧
      ∀ n, c.answer (ts.length + n) = .error failure ∧
        (c.after (ts.length + n + 1)).position = position := by
  intro position failure
  have hnext : next ⟨p, blanks ++ rest⟩ = (.error failure, ⟨position, rest⟩) :=
    next_of_isStuck hblanks hstuck p
  have hagain : next ⟨position, rest⟩ = (.error failure, ⟨position, rest⟩) :=
    next_of_isStuck (List.forall_mem_nil _) hstuck position
  refine ⟨?_, fun n t => h.answer_eq, fun n => ?_⟩
  · rw [h.tokens_eq, tokens, hnext]
    rfl
  · rw [answer, Nat.add_assoc, h.after_eq, h.after_eq]
    refine ⟨?_, by rw [after, hnext, after_of_stays hagain]⟩
    cases n with
    | zero => rw [after, hnext]
    | succ n => rw [after, hnext, after_of_stays hagain, hagain]

end Cursor

theorem exists_layout_of_tokens {text : String} {ts : List Token} (h : tokens text = .ok ts) :
    ∃ items last, ts = items.map Spaced.token ∧ text.toList = Spaced.text items ++ last ∧
      (∀ c ∈ last, isBlank c) ∧ Layout 0 items last := by
  obtain ⟨items, d, hpasses, hrest, -, hlayout, hend | ⟨blanks, rest, hblanks, hd, hstuck⟩⟩ :=
    (Cursor.start text).exists_layout
  · obtain ⟨htokens, -⟩ := hpasses.of_blanks hend
    have hts : (.ok ts : Except Failure (List Token)) = .ok (items.map Spaced.token) :=
      h.symm.trans htokens
    cases hts
    exact ⟨items, d.rest, rfl, hrest, hend, hlayout⟩
  · rw [show d = ⟨d.position, blanks ++ rest⟩ by rw [← hd]] at hpasses
    obtain ⟨htokens, -⟩ := hpasses.of_isStuck hblanks hstuck
    have hts : (.ok ts : Except Failure (List Token)) = _ := h.symm.trans htokens
    cases hts

/-- Every text is blanks and tokens in turn. Either nothing but blanks follows, and tokenizing gives
the tokens; or something follows that starts no token, and tokenizing fails with what follows up to
the blanks at the end. A cursor gives the tokens one by one, and after that the same answer for
ever. -/
theorem tokens_account_for_text (text : String) :
    (∃ items last, text.toList = Spaced.text items ++ last ∧ (∀ c ∈ last, isBlank c) ∧
      Layout 0 items last ∧ (∀ s ∈ items, s.token.text ≠ "" ∧ s.token.kind ≠ .finish) ∧
      tokens text = .ok (items.map Spaced.token) ∧
      ∀ n, (Cursor.start text).answer n = .ok (items.map Spaced.token)[n]?) ∨
    ∃ (items : List Spaced) (blanks : List Char) (remainder : String) (trailing : List Char),
      text.toList = Spaced.text items ++ blanks ++ (remainder.toList ++ trailing) ∧
      (∀ c ∈ blanks, isBlank c) ∧ (∀ c ∈ trailing, isBlank c) ∧ remainder ≠ "" ∧
      (∀ c ∈ remainder.toList.head?, ¬isBlank c) ∧
      (∀ c ∈ remainder.toList.getLast?, ¬isBlank c) ∧
      (∀ kind : Token.Kind, ¬kind.Occurs (remainder.toList ++ trailing)) ∧
      Layout 0 items (blanks ++ (remainder.toList ++ trailing)) ∧
      (∀ s ∈ items, s.token.text ≠ "" ∧ s.token.kind ≠ .finish) ∧
      let position := byteLength (Spaced.text items ++ blanks)
      let failure := Failure.unexpectedText position remainder
      let c := Cursor.start text
      tokens text = .error failure ∧
      (∀ n t, (items.map Spaced.token)[n]? = some t → c.answer n = .ok (some t)) ∧
      ∀ n, c.answer (items.length + n) = .error failure ∧
        (c.after (items.length + n + 1)).position = position := by
  obtain ⟨items, d, hpasses, hrest, hposition, hlayout, hend | hstuck⟩ :=
    (Cursor.start text).exists_layout
  · obtain ⟨htokens, hanswer⟩ := hpasses.of_blanks hend
    exact .inl ⟨items, d.rest, hrest, hend, hlayout, hlayout.isToken, htokens, hanswer⟩
  · obtain ⟨blanks, rest, hblanks, hd, hstuck⟩ := hstuck
    obtain ⟨trailing, htrim, htrailing, hlast⟩ := exists_trimEnd rest
    rw [show d = ⟨d.position, blanks ++ rest⟩ by rw [← hd]] at hpasses
    obtain ⟨htokens, hbefore, hafter⟩ := hpasses.of_isStuck hblanks hstuck
    have hhead : ∀ c ∈ (trimEnd rest).head?, ¬isBlank c := by
      intro c hc
      refine hstuck.head c ?_
      rw [htrim, List.head?_append, hc]
      rfl
    have hplace : d.position + byteLength blanks = byteLength (Spaced.text items ++ blanks) := by
      rw [hposition, byteLength_append]
      exact congrArg (· + byteLength blanks) (Nat.zero_add _)
    rw [hplace] at htokens hafter
    rw [List.length_map] at hafter
    refine .inr ⟨items, blanks, String.ofList (trimEnd rest), trailing, ?_⟩
    rw [String.toList_ofList, ← htrim]
    refine ⟨?_, hblanks, htrailing, ?_, hhead, hlast, hstuck.none, hd ▸ hlayout, hlayout.isToken,
      htokens, hbefore, hafter⟩
    · rw [List.append_assoc, ← hd]
      exact hrest
    · rw [Ne, String.ofList_eq_empty_iff]
      exact hstuck.trimEnd_ne_nil

end PetriShorthand
