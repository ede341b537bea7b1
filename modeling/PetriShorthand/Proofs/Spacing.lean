import Mathlib.Logic.Relation
import PetriShorthand.Proofs.Expectation
import PetriShorthand.Proofs.RoundTrip

namespace PetriShorthand

open Token

namespace Token.Kind

variable {kind : Kind} {lexeme rest rest' : List Char}

/-- What wins depends on how the text goes on, but blanks end it as well as what followed. -/
theorem Wins.of_follows (h : kind.Wins lexeme (lexeme ++ rest)) (hpoint : rest.head? ≠ some '.')
    (hhead : ∀ c ∈ rest'.head?, isBlank c ∨ c ∈ rest.head?) :
    kind.Wins lexeme (lexeme ++ rest') := by
  have hlabel : kind = label → ¬"tau".toList <+: lexeme := by
    rintro rfl
    exact h.not_tau_prefix
  refine wins_of_halts h.1.covers hlabel fun c hc hgoes => ?_
  rcases hhead c hc with hblank | hc
  · exact not_isBlank_of_goesOn hgoes hblank
  · exact h.halts hpoint c hc hgoes

end Token.Kind

/-- Blanks, perhaps none, and others that may take their place: where some were, some are left. -/
structure Refills (gap gap' : List Char) : Prop where
  old : ∀ c ∈ gap, isBlank c
  new : ∀ c ∈ gap', isBlank c
  keeps : gap ≠ [] → gap' ≠ []

instance (gap gap' : List Char) : Decidable (Refills gap gap') :=
  decidable_of_iff (gap.all isBlank ∧ gap'.all isBlank ∧ (gap ≠ [] → gap' ≠ []))
    ⟨fun h => ⟨List.all_eq_true.mp h.1, List.all_eq_true.mp h.2.1, h.2.2⟩,
      fun h => ⟨List.all_eq_true.mpr h.old, List.all_eq_true.mpr h.new, h.keeps⟩⟩

namespace Refills

variable {front gap gap' back : List Char}

theorem refl (h : ∀ c ∈ gap, isBlank c) : Refills gap gap := ⟨h, h, id⟩

theorem between (h : Refills gap gap') (hfront : ∀ c ∈ front, isBlank c)
    (hback : ∀ c ∈ back, isBlank c) :
    Refills (front ++ (gap ++ back)) (front ++ (gap' ++ back)) := by
  refine ⟨?_, ?_, fun hsome hnone => ?_⟩
  · exact List.forall_mem_append.mpr ⟨hfront, List.forall_mem_append.mpr ⟨h.old, hback⟩⟩
  · exact List.forall_mem_append.mpr ⟨hfront, List.forall_mem_append.mpr ⟨h.new, hback⟩⟩
  · obtain ⟨hfront, hnone⟩ := List.append_eq_nil_iff.mp hnone
    obtain ⟨hgap', hback⟩ := List.append_eq_nil_iff.mp hnone
    refine h.keeps (fun hgap => hsome ?_) hgap'
    rw [hfront, hgap, hback]
    rfl

end Refills

namespace Spaced

/-- The same token with other blanks before it. -/
structure Respaces (s s' : Spaced) : Prop where
  token : s'.token = s.token
  blanks : Refills s.blanks s'.blanks

theorem respaces_self {items : List Spaced} (h : ∀ s ∈ items, ∀ c ∈ s.blanks, isBlank c) :
    List.Forall₂ Respaces items items :=
  List.forall₂_same.mpr fun s hs => ⟨rfl, .refl (h s hs)⟩

theorem head?_of_respaces {start : Nat} {items items' : List Spaced} {last last' : List Char}
    (h : Layout start items last) (hitems : List.Forall₂ Respaces items items')
    (hlast : ∀ c ∈ last', isBlank c) :
    ∀ c ∈ (text items' ++ last').head?, isBlank c ∨ c ∈ (text items ++ last).head? := by
  intro c hc
  cases hitems with
  | nil => exact .inl (hlast c (List.mem_of_mem_head? hc))
  | @cons s s' items items' hs =>
    have hne := (h.covers s List.mem_cons_self).ne_nil
    rw [text_cons, hs.token] at hc
    rw [text_cons]
    cases hblanks : s'.blanks with
    | cons b blanks =>
      rw [hblanks] at hc
      cases hc
      exact .inl (hs.blanks.new c (hblanks ▸ List.mem_cons_self))
    | nil =>
      have hnone : s.blanks = [] := by
        by_contra hsome
        exact hs.blanks.keeps hsome hblanks
      rw [hblanks, List.nil_append, List.append_assoc, List.head?_append_of_ne_nil _ hne] at hc
      rw [hnone, List.nil_append, List.append_assoc, List.head?_append_of_ne_nil _ hne]
      exact .inr hc

end Spaced

open Cursor in
theorem Layout.gives {start : Nat} {items items' : List Spaced} {last last' : List Char}
    (h : Layout start items last) (hlast : ∀ c ∈ last, isBlank c)
    (hitems : List.Forall₂ Spaced.Respaces items items') (hlast' : ∀ c ∈ last', isBlank c) :
    Gives (Spaced.text items') last' fun ts =>
      ts.map content = (items.map Spaced.token).map content := by
  induction hitems generalizing start with
  | nil => exact fun p => ⟨[], rfl, .nil _⟩
  | @cons s s' items items' hs hitems ih =>
    have hpoint := (h.tail.adjoins hlast).head
    have hhead := Spaced.head?_of_respaces h.tail hitems hlast'
    have hgives := gives_token hs.blanks.new (h.head_wins.of_follows hpoint hhead)
    rw [Spaced.text_cons, hs.token]
    refine (hgives.append (ih h.tail)).imp ?_
    rintro ts ⟨_, us, rfl, ⟨t, rfl, hkind, htext⟩, hus⟩
    rw [List.map_append, hus, List.map_singleton, content, hkind, htext]
    rfl

section place

variable {xs ys zs ws : List Char}

theorem exists_append_of_byteLength_le (h : xs ++ ys = zs ++ ws)
    (hle : byteLength xs ≤ byteLength zs) : ∃ more, zs = xs ++ more ∧ ys = more ++ ws := by
  rcases List.append_eq_append_iff.mp h with hmore | ⟨more, hxs, hws⟩
  · exact hmore
  · have hnil : more = [] := by
      by_contra hne
      have hpos := byteLength_pos hne
      rw [hxs, byteLength_append] at hle
      omega
    rw [hnil, List.append_nil] at hxs
    rw [hnil, List.nil_append] at hws
    exact ⟨[], by rw [hxs, List.append_nil], hws.symm⟩

theorem exists_append_of_blanks (h : xs ++ ys = zs ++ ws) (hxs : ∀ c ∈ xs, isBlank c)
    (hhead : ∀ c ∈ ws.head?, ¬isBlank c) : ∃ more, zs = xs ++ more ∧ ys = more ++ ws := by
  rcases List.append_eq_append_iff.mp h with hmore | ⟨more, hxs', hws'⟩
  · exact hmore
  · cases more with
    | nil =>
      rw [List.append_nil] at hxs'
      exact ⟨[], by rw [hxs', List.append_nil], hws'.symm⟩
    | cons c more =>
      have hblank := hxs c (by simp [hxs'])
      exact absurd hblank (hhead c (by simp [hws']))

end place

theorem Spaced.exists_respaces {s : Spaced} {front gap gap' back tail : List Char}
    (hblanks : ∀ c ∈ s.blanks, isBlank c) (hcovers : s.token.kind.Covers s.token.text.toList)
    (htext : s.blanks ++ (s.token.text.toList ++ tail) = front ++ (gap ++ back))
    (hle : byteLength front ≤ byteLength s.blanks) (hgap : Refills gap gap') :
    ∃ s', s.Respaces s' ∧
      front ++ (gap' ++ back) = s'.blanks ++ (s.token.text.toList ++ tail) := by
  obtain ⟨more, hfront, htext⟩ := exists_append_of_byteLength_le htext.symm hle
  have hhead : ∀ c ∈ (s.token.text.toList ++ tail).head?, ¬isBlank c := by
    rw [List.head?_append_of_ne_nil _ hcovers.ne_nil]
    exact hcovers.head_not_blank
  obtain ⟨more, rfl, rfl⟩ := exists_append_of_blanks htext hgap.old hhead
  rw [hfront] at hblanks
  obtain ⟨hbefore, hblanks⟩ := List.forall_mem_append.mp hblanks
  obtain ⟨-, hafter⟩ := List.forall_mem_append.mp hblanks
  refine ⟨⟨front ++ (gap' ++ more), s.token⟩, ⟨rfl, ?_⟩, by simp only [List.append_assoc]⟩
  rw [hfront]
  exact hgap.between hbefore hafter

/-- The place with so many bytes before it is not inside the token. -/
def Token.IsClearOf (t : Token) (place : Nat) : Prop :=
  t.position + t.length ≤ place ∨ place ≤ t.position

instance (t : Token) (place : Nat) : Decidable (t.IsClearOf place) :=
  inferInstanceAs (Decidable (_ ∨ _))

/-- Blanks that are replaced where no token stands are among those before a token or behind the
last one. -/
theorem Layout.exists_respaces {start : Nat} {items : List Spaced} {last : List Char}
    {front gap gap' back : List Char} (h : Layout start items last)
    (hlast : ∀ c ∈ last, isBlank c) (htext : Spaced.text items ++ last = front ++ (gap ++ back))
    (hgap : Refills gap gap')
    (hclear : ∀ s ∈ items, s.token.IsClearOf (start + byteLength front)) :
    ∃ items' last', front ++ (gap' ++ back) = Spaced.text items' ++ last' ∧
      List.Forall₂ Spaced.Respaces items items' ∧ ∀ c ∈ last', isBlank c := by
  induction items generalizing start front with
  | nil =>
    have hnil : last = front ++ (gap ++ back) := htext
    rw [hnil] at hlast
    obtain ⟨hfront, hback⟩ := List.forall_mem_append.mp hlast
    obtain ⟨-, hback⟩ := List.forall_mem_append.mp hback
    exact ⟨[], _, rfl, .nil, (hgap.between hfront hback).new⟩
  | cons s items ih =>
    have hposition := h.head_position
    have hblanks := h.blanks s List.mem_cons_self
    rw [Spaced.text_cons, List.append_assoc] at htext
    rcases hclear s List.mem_cons_self with hbehind | hbefore
    · have hle : byteLength (s.blanks ++ s.token.text.toList) ≤ byteLength front := by
        rw [Token.length, hposition] at hbehind
        rw [byteLength_append]
        omega
      obtain ⟨front, rfl, hafter⟩ := exists_append_of_byteLength_le htext hle
      have hplace : start + byteLength (s.blanks ++ s.token.text.toList ++ front) =
          s.token.position + s.token.length + byteLength front := by
        rw [hposition, Token.length]
        simp only [byteLength_append]
        omega
      rw [hplace] at hclear
      obtain ⟨items', last', htext', hitems, hlast'⟩ :=
        ih h.tail hafter fun u hu => hclear u (List.mem_cons_of_mem s hu)
      refine ⟨s :: items', last', ?_, .cons ⟨rfl, .refl hblanks⟩ hitems, hlast'⟩
      rw [List.append_assoc, htext', Spaced.text_cons]
      simp only [List.append_assoc]
    · have hle : byteLength front ≤ byteLength s.blanks := by omega
      rw [List.append_assoc] at htext
      obtain ⟨s', hs, htext'⟩ :=
        Spaced.exists_respaces hblanks (h.covers s List.mem_cons_self) htext hle hgap
      refine ⟨s' :: items, last, ?_, .cons hs (Spaced.respaces_self h.tail.blanks), hlast⟩
      rw [htext', Spaced.text_cons, hs.token]
      simp only [List.append_assoc]

/-- Blanks are put in or replaced before, between or behind the tokens of a text. -/
inductive Respaced (text text' : String) : Prop
  | refill {ts : List Token} {front gap gap' back : List Char} : tokens text = .ok ts →
      text.toList = front ++ (gap ++ back) → (∀ t ∈ ts, t.IsClearOf (byteLength front)) →
      Refills gap gap' → text'.toList = front ++ (gap' ++ back) → Respaced text text'

variable {text text' : String} {ts ts' : List Token}

theorem exists_tokens_of_respaced (hts : tokens text = .ok ts) (h : Respaced text text') :
    ∃ ts', tokens text' = .ok ts' ∧ ts'.map content = ts.map content := by
  obtain @⟨us, front, gap, gap', back, hus, htext, hclear, hgap, htext'⟩ := h
  rw [hts] at hus
  cases hus
  obtain ⟨items, last, rfl, hitems, hlast, hlayout⟩ := exists_layout_of_tokens hts
  have hclear' : ∀ s ∈ items, s.token.IsClearOf (0 + byteLength front) := by
    intro s hs
    rw [Nat.zero_add]
    exact hclear s.token (List.mem_map_of_mem hs)
  obtain ⟨items', last', hitems', hrespaces, hlast'⟩ :=
    hlayout.exists_respaces hlast (hitems.symm.trans htext) hgap hclear'
  obtain ⟨ts', hcontents, hpasses⟩ := hlayout.gives hlast hrespaces hlast' 0
  rw [← hitems', ← htext'] at hpasses
  obtain ⟨htokens, -⟩ := hpasses.of_blanks hlast'
  exact ⟨ts', htokens, hcontents⟩

theorem Chain.ofText_of_contents {c : Chain} (hts : tokens text = .ok ts)
    (hts' : tokens text' = .ok ts') (hcontents : ts'.map content = ts.map content)
    (h : ofText text = .ok c) : ofText text' = .ok c := by
  obtain ⟨us, hus, hreads⟩ := readsChain_of_ofText h
  rw [hts] at hus
  cases hus
  exact ofText_of_reads hts' (hreads.of_contents hcontents)

/-- Blanks count for nothing: when they are put in or replaced, any number of times, the text has
tokens of the same kinds with the same texts in the same order, and it is read as the same chain,
or as no chain, as it was. -/
theorem respaced_texts_say_the_same (hts : tokens text = .ok ts)
    (h : Relation.ReflTransGen Respaced text text') :
    ∃ ts', tokens text' = .ok ts' ∧ ts'.map content = ts.map content ∧
      ∀ c, Chain.ofText text' = .ok c ↔ Chain.ofText text = .ok c := by
  have htokens : ∃ ts', tokens text' = .ok ts' ∧ ts'.map content = ts.map content := by
    induction h with
    | refl => exact ⟨ts, hts, rfl⟩
    | tail _ hstep ih =>
      obtain ⟨us, hus, hcontents⟩ := ih
      obtain ⟨ts', hts', hcontents'⟩ := exists_tokens_of_respaced hus hstep
      exact ⟨ts', hts', hcontents'.trans hcontents⟩
  obtain ⟨ts', hts', hcontents⟩ := htokens
  exact ⟨ts', hts', hcontents, fun c => ⟨Chain.ofText_of_contents hts' hts hcontents.symm,
    Chain.ofText_of_contents hts hts' hcontents⟩⟩

/-- In `a->{tau 0.5}->b` an em space is put in behind `a`, which takes three bytes, and the space
before the weight makes way for two line ends. -/
theorem respaced_texts_say_the_same_em_space :
    let text := "a->\x7btau 0.5\x7d->b"
    let text' := "a\u2003->\x7btau\n\n0.5\x7d->b"
    let ts : List Token := [⟨.label, "a", 0⟩, ⟨.arrow, "->", 1⟩, ⟨.braceOpen, "\x7b", 3⟩,
      ⟨.tau, "tau", 4⟩, ⟨.weight, "0.5", 8⟩, ⟨.braceClose, "\x7d", 11⟩, ⟨.arrow, "->", 12⟩,
      ⟨.label, "b", 14⟩]
    tokens text = .ok ts ∧ Relation.ReflTransGen Respaced text text' ∧
      ∃ ts', tokens text' = .ok ts' ∧ ts'.map content = ts.map content ∧
        ∀ c, Chain.ofText text' = .ok c ↔ Chain.ofText text = .ok c := by
  intro text text' ts
  let middle := "a\u2003->\x7btau 0.5\x7d->b"
  let us : List Token := [⟨.label, "a", 0⟩, ⟨.arrow, "->", 4⟩, ⟨.braceOpen, "\x7b", 6⟩,
    ⟨.tau, "tau", 7⟩, ⟨.weight, "0.5", 11⟩, ⟨.braceClose, "\x7d", 14⟩, ⟨.arrow, "->", 15⟩,
    ⟨.label, "b", 17⟩]
  have hts : tokens text = .ok ts := by decide +kernel
  have hus : tokens middle = .ok us := by decide +kernel
  have hput : Respaced text middle :=
    @Respaced.refill _ _ ts "a".toList [] ['\u2003'] "->\x7btau 0.5\x7d->b".toList hts
      (by decide) (by decide) (by decide) (by decide)
  have hreplaced : Respaced middle text' :=
    @Respaced.refill _ _ us "a\u2003->\x7btau".toList [' '] ['\n', '\n'] "0.5\x7d->b".toList hus
      (by decide) (by decide) (by decide) (by decide)
  have hspacing := (Relation.ReflTransGen.single hput).tail hreplaced
  exact ⟨hts, hspacing, respaced_texts_say_the_same hts hspacing⟩

end PetriShorthand
