import Mathlib.Data.List.Chain
import PetriShorthand.Assembly.Plan
import PetriShorthand.Proofs.Writing

namespace PetriShorthand

open Token Token.Kind

/-- In a text made of tokens a point stands behind a digit, and a minus sign begins an arrow. -/
def MayAdjoin (a b : Char) : Prop := (b = '.' → a.isDigit) ∧ (a = '-' → b = '>')

instance (a b : Char) : Decidable (MayAdjoin a b) := inferInstanceAs (Decidable (_ ∧ _))

/-- The characters may stand next to each other, and the stretch next to others of its sort. -/
structure Adjoins (cs : List Char) : Prop where
  chain : cs.IsChain MayAdjoin
  head : cs.head? ≠ some '.'
  last : cs.getLast? ≠ some '-'

instance (cs : List Char) : Decidable (Adjoins cs) :=
  decidable_of_iff (cs.IsChain MayAdjoin ∧ cs.head? ≠ some '.' ∧ cs.getLast? ≠ some '-')
    ⟨fun h => ⟨h.1, h.2.1, h.2.2⟩, fun h => ⟨h.chain, h.head, h.last⟩⟩

namespace Adjoins

variable {cs ds : List Char}

theorem nil : Adjoins [] := by decide

theorem append (h : Adjoins cs) (h' : Adjoins ds) : Adjoins (cs ++ ds) := by
  refine ⟨h.chain.append h'.chain ?_, ?_, ?_⟩
  · intro a ha b hb
    exact ⟨fun hpoint => absurd (hpoint ▸ hb) h'.head, fun hminus => absurd (hminus ▸ ha) h.last⟩
  · intro hhead
    rw [List.head?_append] at hhead
    rcases Option.or_eq_some_iff.mp hhead with hhead | ⟨-, hhead⟩
    · exact h.head hhead
    · exact h'.head hhead
  · intro hlast
    rw [List.getLast?_append] at hlast
    rcases Option.or_eq_some_iff.mp hlast with hlast | ⟨-, hlast⟩
    · exact h'.last hlast
    · exact h.last hlast

theorem of_all (h : ∀ c ∈ cs, c ≠ '.' ∧ c ≠ '-') : Adjoins cs := by
  refine ⟨?_, ?_, ?_⟩
  · refine (List.pairwise_of_forall_mem_list fun a ha b hb => ?_).isChain
    exact ⟨fun hpoint => absurd hpoint (h b hb).1, fun hminus => absurd hminus (h a ha).2⟩
  · exact fun hhead => (h _ (List.mem_of_head? hhead)).1 rfl
  · exact fun hlast => (h _ (List.mem_of_getLast? hlast)).2 rfl

theorem of_class {p : Char → Bool} (hpoint : ¬p '.') (hminus : ¬p '-') (h : ∀ c ∈ cs, p c) :
    Adjoins cs :=
  of_all fun c hc => ⟨fun he => hpoint (he ▸ h c hc), fun he => hminus (he ▸ h c hc)⟩

theorem of_covers {kind : Kind} (h : kind.Covers cs) : Adjoins cs := by
  cases h with
  | lexeme htext => cases kind <;> cases htext <;> decide
  | label halpha hword =>
    exact of_class (by decide) (by decide) (Covers.label halpha hword).isAlphanum
  | @weight whole fraction hne hwhole hne' hfraction =>
    have hstart : Adjoins whole := of_class (by decide) (by decide) hwhole
    have hend : Adjoins fraction := of_class (by decide) (by decide) hfraction
    obtain ⟨d, digits, rfl⟩ := List.exists_cons_of_ne_nil hne'
    refine ⟨?_, ?_, ?_⟩
    · refine hstart.chain.append (List.isChain_cons_cons.mpr ⟨?_, hend.chain⟩) ?_
      · exact ⟨fun hpoint => absurd (congrArg some hpoint) hend.head,
          fun hminus => absurd hminus (by decide)⟩
      · rintro a ha b hb
        cases hb
        exact ⟨fun _ => hwhole a (List.mem_of_getLast? ha),
          fun hminus => absurd (hminus ▸ ha) hstart.last⟩
    · rw [List.head?_append_of_ne_nil _ hne]
      exact hstart.head
    · intro hlast
      rcases List.mem_append.mp (List.mem_of_getLast? hlast) with hc | hc
      · exact absurd (hwhole '-' hc) (by decide)
      · rcases List.mem_cons.mp hc with hpoint | hc
        · exact absurd hpoint (by decide)
        · exact absurd (hfraction '-' hc) (by decide)
  | number hne hdigits => exact of_class (by decide) (by decide) hdigits

theorem of_spaced {items : List Spaced}
    (hblanks : ∀ s ∈ items, ∀ c ∈ s.blanks, isBlank c)
    (hcovers : ∀ s ∈ items, s.token.kind.Covers s.token.text.toList) :
    Adjoins (Spaced.text items) := by
  induction items with
  | nil => exact nil
  | cons s items ih =>
    have hblank : Adjoins s.blanks :=
      of_class (by decide) (by decide) (hblanks s List.mem_cons_self)
    have hlater := ih (fun s hs => hblanks s (List.mem_cons_of_mem _ hs))
      fun s hs => hcovers s (List.mem_cons_of_mem _ hs)
    rw [Spaced.text_cons]
    exact (hblank.append (of_covers (hcovers s List.mem_cons_self))).append hlater

end Adjoins

theorem Layout.adjoins {start : Nat} {items : List Spaced} {last : List Char}
    (h : Layout start items last) (hlast : ∀ c ∈ last, isBlank c) :
    Adjoins (Spaced.text items ++ last) :=
  (Adjoins.of_spaced h.blanks h.covers).append (.of_class (by decide) (by decide) hlast)

theorem adjoins_of_tokens {text : String} {ts : List Token} (h : tokens text = .ok ts) :
    Adjoins text.toList := by
  obtain ⟨items, last, -, htext, hlast, hlayout⟩ := exists_layout_of_tokens h
  rw [htext]
  exact hlayout.adjoins hlast

namespace TransitionRef

/-- Other weights than finite ones that are not negative are written as no tokens are. -/
theorem exists_magnitude_of_adjoins {w : Binary64}
    (h : (weightText w).toList.IsChain MayAdjoin) : ∃ m, w = .finite false m := by
  rw [toList_weightText] at h
  cases w with
  | nan => exact absurd h (by decide)
  | infinity negative => cases negative <;> exact absurd h (by decide)
  | finite negative m =>
    cases negative with
    | false => exact ⟨m, rfl⟩
    | true =>
      obtain ⟨c, cs, hcs, hdigit⟩ :=
        Binary64.exists_digit_inPlaceText_plain (Decimal.shortest m.units)
      have hchars : (Binary64.finite true m).chars .plain = '-' :: c :: cs := by
        rw [Binary64.chars_plain, hcs]
        rfl
      have hminus : ('-' :: c :: cs).IsChain MayAdjoin := by
        rw [hchars] at h
        split at h
        · exact h
        · exact h.left_of_append
      obtain ⟨⟨-, hhead⟩, -⟩ := List.isChain_cons_cons.mp hminus
      rw [hhead rfl] at hdigit
      exact absurd hdigit (by decide)

theorem weightText_infix_text {t : TransitionRef} {w : Binary64} (h : t.weight = some w) :
    (weightText w).toList <:+: t.text.toList := by
  refine ⟨'\x7b' :: (t.key.toList ++ [' ']), ['\x7d'], ?_⟩
  simp [text, h]

end TransitionRef

namespace Chain

variable {c d : Chain} {text : String} {ts : List Token}

theorem text_infix_text {s : Step} (h : s ∈ c.steps) :
    s.transition.text.toList <:+: c.text.toList := by
  obtain ⟨before, after, he⟩ := List.append_of_mem h
  refine ⟨c.head.toList ++ Cursor.stepsText before ++ ([' '] ++ "->".toList ++ [' ']),
    [' '] ++ "->".toList ++ ([' '] ++ s.place.toList) ++ Cursor.stepsText after, ?_⟩
  simp [Cursor.toList_text, he, Cursor.stepsText, Cursor.stepText, Cursor.stepTextWith]

theorem weights_of_tokens (h : tokens c.text = .ok ts) :
    ∀ s ∈ c.steps, ∀ w ∈ s.transition.weight, ∃ m, w = .finite false m := by
  intro s hs w hw
  have hinfix := (TransitionRef.weightText_infix_text hw).trans (text_infix_text hs)
  have hchain : (TransitionRef.weightText w).toList.IsChain MayAdjoin :=
    List.IsChain.infix (adjoins_of_tokens h).chain hinfix
  exact TransitionRef.exists_magnitude_of_adjoins hchain

end Chain

structure Step.Agrees (s t : Step) : Prop where
  place : s.place = t.place
  label : s.transition.label = t.transition.label
  suffix : s.transition.suffix = t.transition.suffix
  silent : s.transition.silent = t.transition.silent
  weight : sameWeight s.transition.weight t.transition.weight

/-- The chains are alike, with weights that are the same numbers. -/
structure Chain.Agrees (c d : Chain) : Prop where
  head : c.head = d.head
  steps : List.Forall₂ Step.Agrees c.steps d.steps

namespace Chain

variable {c d : Chain} {text : String}

theorem IsWritable.agrees_self (h : c.IsWritable) : c.Agrees c := by
  refine ⟨rfl, List.forall₂_same.mpr fun s hs => ⟨rfl, rfl, rfl, rfl, ?_⟩⟩
  cases hw : s.transition.weight with
  | none => rfl
  | some w =>
    obtain ⟨m, rfl⟩ := h.weight s hs w hw
    simp [sameWeight, Binary64.sameNumber]

theorem exists_agreeing_step {steps steps' : List Step}
    (h : List.Forall₂ Step.Agrees steps steps') : ∀ t ∈ steps', ∃ s ∈ steps, s.Agrees t := by
  intro t ht
  induction h with
  | nil => cases ht
  | @cons s u steps us hsu _ ih =>
    rcases List.mem_cons.mp ht with rfl | ht
    · exact ⟨s, List.mem_cons_self, hsu⟩
    · obtain ⟨s', hs', hst⟩ := ih ht
      exact ⟨s', List.mem_cons_of_mem s hs', hst⟩

theorem IsNamed.of_agrees (h : c.IsNamed) (hagrees : c.Agrees d) : d.IsNamed := by
  refine ⟨hagrees.head ▸ h.head, ?_, ?_, ?_⟩
  · intro hnil
    have hlength := hagrees.steps.length_eq
    rw [hnil, List.length_nil] at hlength
    exact h.steps_ne_nil (List.eq_nil_of_length_eq_zero hlength)
  · intro t ht
    obtain ⟨s, hs, hst⟩ := exists_agreeing_step hagrees.steps t ht
    exact hst.place ▸ h.place s hs
  · intro t ht
    obtain ⟨s, hs, hst⟩ := exists_agreeing_step hagrees.steps t ht
    have hnamed := h.transition s hs
    refine ⟨?_, ?_⟩
    · rw [← hst.silent, ← hst.label]
      exact hnamed.name
    · rw [← hst.suffix]
      exact hnamed.suffix

theorem isWritable_of_ofText (h : ofText c.text = .ok d) (hagrees : d.IsNamed → c.IsNamed) :
    c.IsWritable := by
  obtain ⟨ts, hts, -⟩ := readsChain_of_ofText h
  obtain ⟨hnamed, -⟩ := isNamed_of_ofText h
  exact ⟨hagrees hnamed, weights_of_tokens hts⟩

/-- Exactly those chains are read back from what they are written as that have a step, places and
visible transitions with labels, numbers of digits, and weights that are finite and not negative.
It makes no difference whether weights have to be the same or only the same numbers. Of the chains
that texts have, these are the ones without an infinite weight. -/
theorem ofText_text_eq_ok_iff (c : Chain) :
    (ofText c.text = .ok c ↔ c.IsWritable) ∧
    ((∃ d, ofText c.text = .ok d ∧ d.Agrees c) ↔ c.IsWritable) ∧
    ∀ text, ofText text = .ok c →
      (ofText c.text = .ok c ↔ ∀ s ∈ c.steps, s.transition.weight ≠ some (.infinity false)) := by
  have hback : ofText c.text = .ok c ↔ c.IsWritable :=
    ⟨fun h => isWritable_of_ofText h id, IsWritable.ofText_text⟩
  refine ⟨hback, ⟨?_, ?_⟩, fun text h => ?_⟩
  · rintro ⟨d, h, hagrees⟩
    exact isWritable_of_ofText h fun hnamed => hnamed.of_agrees hagrees
  · exact fun h => ⟨c, h.ofText_text, h.agrees_self⟩
  · rw [hback]
    obtain ⟨hnamed, hweight⟩ := isNamed_of_ofText h
    constructor
    · intro hwritable s hs hw
      obtain ⟨m, hm⟩ := hwritable.weight s hs _ hw
      cases hm
    · intro hfinite
      refine ⟨hnamed, fun s hs w hw => ?_⟩
      rcases hweight s hs w hw with hm | rfl
      · exact hm
      · exact absurd hw (hfinite s hs)

/-- A silent transition with a number and the weight 0. -/
theorem ofText_text_eq_ok_iff_silent :
    let zero : Magnitude := ⟨0, by decide, by decide⟩
    let c : Chain := ⟨"a", [⟨⟨"tau", some "1", true, some (.finite false zero)⟩, "b"⟩]⟩
    c.IsWritable ∧ ofText c.text = .ok c ∧
      ∀ s ∈ c.steps, s.transition.weight ≠ some (.infinity false) := by
  intro zero c
  have ha : IsLabelText "a" := ⟨show Covers .label ['a'] from .label (by decide) nofun, by decide⟩
  have hb : IsLabelText "b" := ⟨show Covers .label ['b'] from .label (by decide) nofun, by decide⟩
  have hdigits : Covers .number "1".toList :=
    show Covers .number ['1'] from .number (by simp) (List.forall_mem_singleton.mpr (by decide))
  have hwritable : c.IsWritable := by
    refine ⟨⟨ha, by simp [c], ?_, ?_⟩, ?_⟩
    · intro s hs
      obtain rfl := List.mem_singleton.mp hs
      exact hb
    · intro s hs
      obtain rfl := List.mem_singleton.mp hs
      refine ⟨.inl ⟨rfl, rfl⟩, ?_⟩
      rintro suffix hsuffix
      cases hsuffix
      exact hdigits
    · intro s hs w hw
      obtain rfl := List.mem_singleton.mp hs
      cases hw
      exact ⟨zero, rfl⟩
  have hback := (ofText_text_eq_ok_iff c).1.mpr hwritable
  exact ⟨hwritable, hback, ((ofText_text_eq_ok_iff c).2.2 c.text hback).mp hback⟩

end Chain

end PetriShorthand
