import PetriShorthand.Chain.Basic
import PetriShorthand.Proofs.Grammar

namespace PetriShorthand

open Grammar Token

inductive ReadsName : Token → String → Bool → Prop
  | label {t : Token} : t.kind = .label → ReadsName t t.text false
  | tau {t : Token} : t.kind = .tau → ReadsName t t.text true

inductive ReadsSuffix : List Token → Option String → Prop
  | absent : ReadsSuffix [] none
  | given {separator number : Token} : separator.kind = .separator → number.kind = .number →
      ReadsSuffix [separator, number] (some number.text)

/-- A weight that is left out is 1. -/
inductive ReadsWeight : List Token → Binary64 → Prop
  | absent : ReadsWeight [] .one
  | given {t : Token} {w : Binary64} : t.kind = .weight → Binary64.ofText? t.text = some w →
      ReadsWeight [t] w

inductive ReadsTransition : List Token → TransitionRef → Prop
  | square {opening name closing : Token} {number : List Token} {label : String} {silent : Bool}
      {suffix : Option String} : opening.kind = .squareOpen → ReadsName name label silent →
      ReadsSuffix number suffix → closing.kind = .squareClose →
      ReadsTransition (opening :: name :: (number ++ [closing])) ⟨label, suffix, silent, none⟩
  | brace {opening name closing : Token} {number weight : List Token} {label : String}
      {silent : Bool} {suffix : Option String} {w : Binary64} : opening.kind = .braceOpen →
      ReadsName name label silent → ReadsSuffix number suffix → ReadsWeight weight w →
      closing.kind = .braceClose →
      ReadsTransition (opening :: name :: (number ++ weight ++ [closing]))
        ⟨label, suffix, silent, some w⟩

inductive ReadsSteps : List Token → List Step → Prop
  | last {before after place : Token} {ts : List Token} {t : TransitionRef} :
      before.kind = .arrow → ReadsTransition ts t → after.kind = .arrow → place.kind = .label →
      ReadsSteps (before :: (ts ++ [after, place])) [⟨t, place.text⟩]
  | more {before after place : Token} {ts rest : List Token} {t : TransitionRef}
      {steps : List Step} :
      before.kind = .arrow → ReadsTransition ts t → after.kind = .arrow → place.kind = .label →
      ReadsSteps rest steps →
      ReadsSteps (before :: (ts ++ after :: place :: rest)) (⟨t, place.text⟩ :: steps)

/-- The tokens say the chain. -/
inductive ReadsChain : List Token → Chain → Prop
  | chain {head : Token} {ts : List Token} {steps : List Step} : head.kind = .label →
      ReadsSteps ts steps → ReadsChain (head :: ts) ⟨head.text, steps⟩

theorem ReadsName.isName {t : Token} {label : String} {silent : Bool}
    (h : ReadsName t label silent) : IsName t.kind := by
  cases h with
  | label hk =>
    rw [hk]
    exact .label
  | tau hk =>
    rw [hk]
    exact .tau

theorem ReadsSuffix.isSuffix {ts : List Token} {suffix : Option String}
    (h : ReadsSuffix ts suffix) : IsSuffix (ts.map (·.kind)) := by
  cases h with
  | absent => exact .absent
  | given hs hn =>
    simp only [List.map_cons, List.map_nil, hs, hn]
    exact .given

theorem ReadsWeight.isWeight {ts : List Token} {w : Binary64} (h : ReadsWeight ts w) :
    IsWeight (ts.map (·.kind)) := by
  cases h with
  | absent => exact .absent
  | given hk _ =>
    simp only [List.map_cons, List.map_nil, hk]
    exact .given

theorem ReadsTransition.isTransition {ts : List Token} {t : TransitionRef}
    (h : ReadsTransition ts t) : IsTransition (ts.map (·.kind)) := by
  cases h with
  | square ho hname hsuffix hc =>
    simp only [List.map_cons, List.map_append, List.map_nil, ho, hc]
    exact .square hname.isName hsuffix.isSuffix
  | brace ho hname hsuffix hweight hc =>
    simp only [List.map_cons, List.map_append, List.map_nil, ho, hc]
    exact .brace hname.isName hsuffix.isSuffix hweight.isWeight

theorem ReadsSteps.isSteps {ts : List Token} {steps : List Step} (h : ReadsSteps ts steps) :
    IsSteps (ts.map (·.kind)) := by
  induction h with
  | last hb ht ha hp =>
    simp only [List.map_cons, List.map_append, List.map_nil, hb, ha, hp]
    exact .last ht.isTransition
  | more hb ht ha hp _ ih =>
    simp only [List.map_cons, List.map_append, hb, ha, hp]
    exact .more ht.isTransition ih

theorem ReadsChain.isSentence {ts : List Token} {c : Chain} (h : ReadsChain ts c) :
    IsSentence (ts.map (·.kind)) := by
  cases h with
  | chain hhead hsteps =>
    simp only [List.map_cons, hhead]
    exact .chain hsteps.isSteps

/-- What a token says, wherever it stands. -/
def Token.content (t : Token) : Token.Kind × String := (t.kind, t.text)

section contents

variable {t : Token} {ts ts' us : List Token}

theorem exists_of_contents_cons (h : us.map content = (t :: ts).map content) :
    ∃ u vs, us = u :: vs ∧ u.kind = t.kind ∧ u.text = t.text ∧ vs.map content = ts.map content := by
  rw [List.map_cons] at h
  obtain ⟨u, vs, rfl, hcontent, hvs⟩ := List.map_eq_cons_iff.mp h
  obtain ⟨hkind, htext⟩ := Prod.mk.inj hcontent
  exact ⟨u, vs, rfl, hkind, htext, hvs⟩

theorem exists_of_contents_append (h : us.map content = (ts ++ ts').map content) :
    ∃ vs vs', us = vs ++ vs' ∧ vs.map content = ts.map content ∧
      vs'.map content = ts'.map content := by
  rw [List.map_append] at h
  exact List.map_eq_append_iff.mp h

theorem ReadsName.of_content {u : Token} {label : String} {silent : Bool}
    (h : ReadsName t label silent) (hkind : u.kind = t.kind) (htext : u.text = t.text) :
    ReadsName u label silent := by
  cases h with
  | label hk => exact htext ▸ .label (hkind.trans hk)
  | tau hk => exact htext ▸ .tau (hkind.trans hk)

theorem ReadsSuffix.of_contents {suffix : Option String} (h : ReadsSuffix ts suffix)
    (hus : us.map content = ts.map content) : ReadsSuffix us suffix := by
  cases h with
  | absent =>
    rw [List.map_eq_nil_iff.mp hus]
    exact .absent
  | given hs hn =>
    obtain ⟨separator, _, rfl, hseparator, -, hus⟩ := exists_of_contents_cons hus
    obtain ⟨number, _, rfl, hnumber, htext, hus⟩ := exists_of_contents_cons hus
    rw [List.map_eq_nil_iff.mp hus, ← htext]
    exact .given (hseparator.trans hs) (hnumber.trans hn)

theorem ReadsWeight.of_contents {w : Binary64} (h : ReadsWeight ts w)
    (hus : us.map content = ts.map content) : ReadsWeight us w := by
  cases h with
  | absent =>
    rw [List.map_eq_nil_iff.mp hus]
    exact .absent
  | given hk hw =>
    obtain ⟨weight, _, rfl, hkind, htext, hus⟩ := exists_of_contents_cons hus
    rw [List.map_eq_nil_iff.mp hus]
    exact .given (hkind.trans hk) (htext ▸ hw)

theorem ReadsTransition.of_contents {r : TransitionRef} (h : ReadsTransition ts r)
    (hus : us.map content = ts.map content) : ReadsTransition us r := by
  cases h with
  | square ho hname hsuffix hc =>
    obtain ⟨opening, _, rfl, hopening, -, hus⟩ := exists_of_contents_cons hus
    obtain ⟨name, _, rfl, hkind, htext, hus⟩ := exists_of_contents_cons hus
    obtain ⟨number, _, rfl, hnumber, hus⟩ := exists_of_contents_append hus
    obtain ⟨closing, _, rfl, hclosing, -, hus⟩ := exists_of_contents_cons hus
    rw [List.map_eq_nil_iff.mp hus]
    exact .square (hopening.trans ho) (hname.of_content hkind htext) (hsuffix.of_contents hnumber)
      (hclosing.trans hc)
  | brace ho hname hsuffix hweight hc =>
    obtain ⟨opening, _, rfl, hopening, -, hus⟩ := exists_of_contents_cons hus
    obtain ⟨name, _, rfl, hkind, htext, hus⟩ := exists_of_contents_cons hus
    obtain ⟨_, _, rfl, hfront, hend⟩ := exists_of_contents_append hus
    obtain ⟨number, weight, rfl, hnumber, hweight'⟩ := exists_of_contents_append hfront
    obtain ⟨closing, _, rfl, hclosing, -, hend⟩ := exists_of_contents_cons hend
    rw [List.map_eq_nil_iff.mp hend]
    exact .brace (hopening.trans ho) (hname.of_content hkind htext) (hsuffix.of_contents hnumber)
      (hweight.of_contents hweight') (hclosing.trans hc)

theorem ReadsSteps.of_contents {steps : List Step} (h : ReadsSteps ts steps)
    (hus : us.map content = ts.map content) : ReadsSteps us steps := by
  induction h generalizing us with
  | last hb ht ha hp =>
    obtain ⟨before, _, rfl, hbefore, -, hus⟩ := exists_of_contents_cons hus
    obtain ⟨taken, _, rfl, htaken, hus⟩ := exists_of_contents_append hus
    obtain ⟨after, _, rfl, hafter, -, hus⟩ := exists_of_contents_cons hus
    obtain ⟨place, _, rfl, hplace, htext, hus⟩ := exists_of_contents_cons hus
    rw [List.map_eq_nil_iff.mp hus, ← htext]
    exact .last (hbefore.trans hb) (ht.of_contents htaken) (hafter.trans ha) (hplace.trans hp)
  | more hb ht ha hp _ ih =>
    obtain ⟨before, _, rfl, hbefore, -, hus⟩ := exists_of_contents_cons hus
    obtain ⟨taken, _, rfl, htaken, hus⟩ := exists_of_contents_append hus
    obtain ⟨after, _, rfl, hafter, -, hus⟩ := exists_of_contents_cons hus
    obtain ⟨place, rest, rfl, hplace, htext, hrest⟩ := exists_of_contents_cons hus
    rw [← htext]
    exact .more (hbefore.trans hb) (ht.of_contents htaken) (hafter.trans ha) (hplace.trans hp)
      (ih hrest)

theorem ReadsChain.of_contents {c : Chain} (h : ReadsChain ts c)
    (hus : us.map content = ts.map content) : ReadsChain us c := by
  cases h with
  | chain hk hsteps =>
    obtain ⟨head, rest, rfl, hhead, htext, hrest⟩ := exists_of_contents_cons hus
    rw [← htext]
    exact .chain (hhead.trans hk) (hsteps.of_contents hrest)

end contents

end PetriShorthand
