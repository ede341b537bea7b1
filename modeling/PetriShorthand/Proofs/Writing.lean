import PetriShorthand.Proofs.Numerals
import PetriShorthand.Proofs.Spelling

namespace PetriShorthand

open Token Token.Kind

namespace Cursor

/-- Wherever the stretch stands with the rest behind it, calls go through it and give tokens of
which `Says` holds. -/
def Gives (cs rest : List Char) (Says : List Token → Prop) : Prop :=
  ∀ p, ∃ ts, Says ts ∧ Passes ⟨p, cs ++ rest⟩ ts ⟨p + byteLength cs, rest⟩

variable {cs ds rest : List Char} {Says Says' : List Token → Prop}

theorem Gives.append (h : Gives cs (ds ++ rest) Says) (h' : Gives ds rest Says') :
    Gives (cs ++ ds) rest fun ts => ∃ us vs, ts = us ++ vs ∧ Says us ∧ Says' vs := by
  intro p
  obtain ⟨us, hus, hpasses⟩ := h p
  obtain ⟨vs, hvs, hpasses'⟩ := h' (p + byteLength cs)
  refine ⟨us ++ vs, ⟨us, vs, rfl, hus, hvs⟩, ?_⟩
  rw [List.append_assoc, byteLength_append, ← Nat.add_assoc]
  exact hpasses.append hpasses'

theorem Gives.imp (h : Gives cs rest Says) (himp : ∀ ts, Says ts → Says' ts) :
    Gives cs rest Says' := by
  intro p
  obtain ⟨ts, hts, hpasses⟩ := h p
  exact ⟨ts, himp ts hts, hpasses⟩

def IsToken (kind : Token.Kind) (text : String) (ts : List Token) : Prop :=
  ∃ t : Token, ts = [t] ∧ t.kind = kind ∧ t.text = text

theorem gives_token {kind : Token.Kind} {blanks : List Char} {text : String}
    (hblanks : ∀ c ∈ blanks, isBlank c) (hwins : kind.Wins text.toList (text.toList ++ rest)) :
    Gives (blanks ++ text.toList) rest (IsToken kind text) := by
  intro p
  have hnext := next_of_wins hblanks hwins p
  rw [String.ofList_toList] at hnext
  refine ⟨_, ⟨_, rfl, rfl, rfl⟩, .cons (by rw [List.append_assoc, hnext]) ?_⟩
  rw [byteLength_append, ← Nat.add_assoc]
  exact .nil _

theorem gives_lexeme {kind : Token.Kind} {blanks : List Char} {text : String}
    (hblanks : ∀ c ∈ blanks, isBlank c) (htext : kind.lexeme? = some text) (rest : List Char) :
    Gives (blanks ++ text.toList) rest (IsToken kind text) :=
  gives_token hblanks (wins_of_lexeme? htext rest)

end Cursor

/-- The chain is spelt as texts spell chains, with weights that are finite and not negative. -/
structure Chain.IsWritable (c : Chain) : Prop extends Chain.IsNamed c where
  weight : ∀ s ∈ c.steps, ∀ w ∈ s.transition.weight, ∃ m, w = .finite false m

namespace Cursor

variable {rest : List Char} {t : TransitionRef}

theorem ends_cons {c : Char} (hc : ¬c.isAlphanum ∧ c ≠ '.') (cs : List Char) : Ends (c :: cs) := by
  rintro d hd
  cases hd
  exact hc

theorem gives_label {blanks : List Char} {label : String} (hblanks : ∀ c ∈ blanks, isBlank c)
    (h : IsLabelText label) (hrest : Ends rest) :
    Gives (blanks ++ label.toList) rest (IsToken .label label) :=
  gives_token hblanks (wins_label h.1 h.2 (hrest.halts _))

theorem gives_name (h : t.IsNamed) (hrest : Ends rest) :
    Gives t.label.toList rest fun ts => ∃ n, ts = [n] ∧ ReadsName n t.label t.silent := by
  rcases h.name with ⟨hsilent, hlabel⟩ | ⟨hsilent, hlabel⟩
  · rw [hsilent, hlabel]
    have htau : Token.Kind.tau.lexeme? = some "tau" := rfl
    refine Gives.imp (gives_lexeme (List.forall_mem_nil _) htau rest) ?_
    rintro ts ⟨n, rfl, hkind, htext⟩
    exact ⟨n, rfl, htext ▸ .tau hkind⟩
  · rw [hsilent]
    refine Gives.imp (gives_label (List.forall_mem_nil _) hlabel hrest) ?_
    rintro ts ⟨n, rfl, hkind, htext⟩
    exact ⟨n, rfl, htext ▸ .label hkind⟩

def suffixText (suffix : Option String) : List Char :=
  match suffix with
  | none => []
  | some suffix => separatorText.toList ++ suffix.toList

theorem toList_key (t : TransitionRef) :
    t.key.toList = t.label.toList ++ suffixText t.suffix := by
  rw [TransitionRef.key]
  cases t.suffix with
  | none => rw [suffixText, List.append_nil]
  | some suffix => rw [suffixText, String.toList_append, String.toList_append, List.append_assoc]

theorem gives_suffix (h : t.IsNamed) (hrest : Ends rest) :
    Gives (suffixText t.suffix) rest (ReadsSuffix · t.suffix) := by
  cases hsuffix : t.suffix with
  | none => exact fun p => ⟨[], .absent, .nil _⟩
  | some suffix =>
    have hseparator : Token.Kind.separator.lexeme? = some separatorText := rfl
    have hnumber := wins_number (h.suffix suffix hsuffix) (hrest.halts _)
    refine ((gives_lexeme (List.forall_mem_nil _) hseparator _).append
      (gives_token (List.forall_mem_nil _) hnumber)).imp ?_
    rintro ts ⟨_, _, rfl, ⟨separator, rfl, hs, -⟩, number, rfl, hn, rfl⟩
    exact .given hs hn

theorem ends_suffixText (suffix : Option String) (hrest : Ends rest) :
    Ends (suffixText suffix ++ rest) := by
  cases suffix with
  | none => exact hrest
  | some suffix => exact ends_cons (by decide) _

theorem isBlank_of_mem_space : ∀ c ∈ [' '], isBlank c :=
  List.forall_mem_singleton.mpr (by decide)

/-- The tokens of a bracket and a name, with those of which `Says` holds behind them. -/
def ReadsOpening (kind : Token.Kind) (t : TransitionRef) (Says : List Token → Prop)
    (ts : List Token) : Prop :=
  ∃ opening name number us, ts = opening :: name :: (number ++ us) ∧ opening.kind = kind ∧
    ReadsName name t.label t.silent ∧ ReadsSuffix number t.suffix ∧ Says us

theorem gives_opening {kind : Token.Kind} {bracket : String} {tail : List Char}
    {Says : List Token → Prop} (hbracket : kind.lexeme? = some bracket) (h : t.IsNamed)
    (hends : Ends (tail ++ rest)) (htail : Gives tail rest Says) :
    Gives ([' '] ++ bracket.toList ++ (t.key.toList ++ tail)) rest (ReadsOpening kind t Says) := by
  have hnumber := (gives_suffix h hends).append htail
  have hends' := ends_suffixText t.suffix hends
  rw [← List.append_assoc] at hends'
  have hname := (gives_name h hends').append hnumber
  have htext : t.key.toList ++ tail = t.label.toList ++ (suffixText t.suffix ++ tail) := by
    rw [toList_key, List.append_assoc]
  rw [htext]
  refine ((gives_lexeme isBlank_of_mem_space hbracket _).append hname).imp ?_
  rintro ts ⟨_, _, rfl, ⟨opening, rfl, hkind, -⟩, _, _, rfl, ⟨name, rfl, hname⟩, number, us, rfl,
    hrest⟩
  exact ⟨opening, name, number, us, rfl, hkind, hname, hrest⟩

theorem gives_square (h : t.IsNamed) (hweight : t.weight = none) (rest : List Char) :
    Gives ([' '] ++ t.text.toList) rest (ReadsTransition · t) := by
  have hopen : Token.Kind.squareOpen.lexeme? = some "[" := rfl
  have hclose : Token.Kind.squareClose.lexeme? = some "]" := rfl
  have hends : Ends ("]".toList ++ rest) := ends_cons (by decide) rest
  have hclosing := gives_lexeme (List.forall_mem_nil _) hclose rest
  have htext : [' '] ++ t.text.toList = [' '] ++ "[".toList ++ (t.key.toList ++ "]".toList) := by
    simp [TransitionRef.text, hweight]
  rw [htext]
  refine (gives_opening hopen h hends hclosing).imp ?_
  rintro ts ⟨opening, name, number, us, rfl, hkind, hname, hnumber, closing, rfl, hkind', -⟩
  have hreads := ReadsTransition.square hkind hname hnumber hkind'
  rwa [← hweight] at hreads

/-- In braces the weight may be written with any digits. -/
theorem gives_braced (h : t.IsNamed) {w : Binary64} {literal : String}
    (hweight : t.weight = some w) (hcovers : Token.Kind.weight.Covers literal.toList)
    (hvalue : Binary64.ofText? literal = some w) (rest : List Char) :
    Gives ([' '] ++ ("\x7b" ++ t.key ++ " " ++ literal ++ "\x7d").toList) rest
      (ReadsTransition · t) := by
  have hopen : Token.Kind.braceOpen.lexeme? = some "\x7b" := rfl
  have hclose : Token.Kind.braceClose.lexeme? = some "\x7d" := rfl
  have hends : Ends ("\x7d".toList ++ rest) := ends_cons (by decide) rest
  have hclosing := (gives_token isBlank_of_mem_space (wins_weight hcovers (hends.halts _))).append
    (gives_lexeme (List.forall_mem_nil _) hclose rest)
  have htext : [' '] ++ ("\x7b" ++ t.key ++ " " ++ literal ++ "\x7d").toList =
      [' '] ++ "\x7b".toList ++ (t.key.toList ++ ([' '] ++ literal.toList ++ "\x7d".toList)) := by
    simp
  rw [htext]
  refine (gives_opening hopen h (ends_cons (by decide) _) hclosing).imp ?_
  rintro ts ⟨opening, name, number, _, rfl, hkind, hname, hnumber, _, _, rfl,
    ⟨weight, rfl, hweight', htext'⟩, closing, rfl, hkind', -⟩
  have hreads := ReadsTransition.brace hkind hname hnumber
    (.given hweight' (htext' ▸ hvalue)) hkind'
  rwa [← hweight, List.append_assoc] at hreads

theorem gives_brace (h : t.IsNamed) {m : Magnitude} (hweight : t.weight = some (.finite false m))
    (rest : List Char) : Gives ([' '] ++ t.text.toList) rest (ReadsTransition · t) := by
  obtain ⟨hcovers, hvalue⟩ := TransitionRef.weightText_finite m
  have hgives := gives_braced h hweight hcovers hvalue rest
  rw [TransitionRef.text, hweight]
  exact hgives

theorem gives_transition (h : t.IsNamed) (hweight : ∀ w ∈ t.weight, ∃ m, w = .finite false m)
    (rest : List Char) : Gives ([' '] ++ t.text.toList) rest (ReadsTransition · t) := by
  cases hw : t.weight with
  | none => exact gives_square h hw rest
  | some w =>
    obtain ⟨m, rfl⟩ := hweight w hw
    exact gives_brace h hw rest

def stepTextWith (transition : String) (place : String) : List Char :=
  ([' '] ++ "->".toList) ++ (([' '] ++ transition.toList) ++
    (([' '] ++ "->".toList) ++ ([' '] ++ place.toList)))

def stepText (s : Step) : List Char := stepTextWith s.transition.text s.place

def stepsText (steps : List Step) : List Char := steps.flatMap stepText

theorem toList_text (c : Chain) : c.text.toList = c.head.toList ++ stepsText c.steps := by
  rw [Chain.text, String.toList_append, String.toList_join, List.flatMap_map, stepsText]
  congr 2
  funext s
  simp [stepText, stepTextWith]

def ReadsStep (s : Step) (ts : List Token) : Prop :=
  ∃ before us after place, ts = before :: (us ++ [after, place]) ∧ before.kind = .arrow ∧
    ReadsTransition us s.transition ∧ after.kind = .arrow ∧ place.kind = .label ∧
    place.text = s.place

theorem gives_stepWith {text : String} {s : Step} (hplace : IsLabelText s.place)
    (htransition : ∀ rest, Gives ([' '] ++ text.toList) rest (ReadsTransition · s.transition))
    (hrest : Ends rest) : Gives (stepTextWith text s.place) rest (ReadsStep s) := by
  have harrow : Token.Kind.arrow.lexeme? = some "->" := rfl
  have hblank := isBlank_of_mem_space
  have hafter := (gives_lexeme hblank harrow _).append (gives_label hblank hplace hrest)
  refine ((gives_lexeme hblank harrow _).append ((htransition _).append hafter)).imp ?_
  rintro ts ⟨_, _, rfl, ⟨before, rfl, hbefore, -⟩, us, _, rfl, hus, _, _, rfl,
    ⟨after, rfl, hafter, -⟩, place, rfl, hplace, htext⟩
  exact ⟨before, us, after, place, rfl, hbefore, hus, hafter, hplace, htext⟩

theorem gives_step {c : Chain} {s : Step} (h : c.IsWritable) (hs : s ∈ c.steps)
    (hrest : Ends rest) : Gives (stepText s) rest (ReadsStep s) :=
  gives_stepWith (h.place s hs) (gives_transition (h.transition s hs) (h.weight s hs)) hrest

theorem ends_stepsText (steps : List Step) : Ends (stepsText steps ++ []) := by
  cases steps with
  | nil => exact nofun
  | cons s steps => exact ends_cons (by decide) _

theorem gives_steps {c : Chain} (h : c.IsWritable) {steps : List Step} (hne : steps ≠ [])
    (hsteps : ∀ s ∈ steps, s ∈ c.steps) : Gives (stepsText steps) [] (ReadsSteps · steps) := by
  induction steps with
  | nil => exact absurd rfl hne
  | cons s steps ih =>
    have hstep := gives_step h (hsteps s List.mem_cons_self) (ends_stepsText steps)
    cases steps with
    | nil =>
      have htext : stepsText [s] = stepText s := List.append_nil _
      rw [htext]
      refine hstep.imp ?_
      rintro ts ⟨before, us, after, place, rfl, hbefore, hus, hafter, hplace, htext⟩
      have hreads := ReadsSteps.last hbefore hus hafter hplace
      rwa [htext] at hreads
    | cons s' steps =>
      have hlater := ih (by simp) fun s hs => hsteps s (List.mem_cons_of_mem _ hs)
      refine (hstep.append hlater).imp ?_
      rintro ts ⟨_, vs, rfl, ⟨before, us, after, place, rfl, hbefore, hus, hafter, hplace, htext⟩,
        hvs⟩
      have hreads := ReadsSteps.more hbefore hus hafter hplace hvs
      rw [htext] at hreads
      simpa using hreads

end Cursor

namespace Chain

open Cursor

variable {c : Chain}

theorem IsWritable.gives (h : c.IsWritable) : Gives c.text.toList [] (ReadsChain · c) := by
  have hhead := gives_label (List.forall_mem_nil _) h.head (ends_stepsText c.steps)
  have hsteps := gives_steps h h.steps_ne_nil fun s hs => hs
  rw [toList_text]
  refine (hhead.append hsteps).imp ?_
  rintro ts ⟨_, us, rfl, ⟨head, rfl, hkind, htext⟩, hus⟩
  have hreads := ReadsChain.chain hkind hus
  rwa [htext] at hreads

theorem ofText_of_reads {text : String} {ts : List Token} (hts : tokens text = .ok ts)
    (h : ReadsChain ts c) : ofText text = .ok c := by
  have hread : Reading.chain (ts ++ []) = .ok (c, []) := Reading.chain_of_reads h nofun
  rw [List.append_nil] at hread
  rw [ofText, hts]
  exact Reader.next_of_read hread

theorem ofText_of_gives {text : String} (h : Gives text.toList [] (ReadsChain · c)) :
    ofText text = .ok c := by
  obtain ⟨ts, hreads, hpasses⟩ := h 0
  rw [List.append_nil] at hpasses
  obtain ⟨htokens, -⟩ := hpasses.of_blanks (List.forall_mem_nil _)
  exact ofText_of_reads htokens hreads

theorem IsWritable.ofText_text (h : c.IsWritable) : ofText c.text = .ok c := ofText_of_gives h.gives

/-- A chain of one step is read from a text in which the weight has any digits. -/
theorem ofText_of_literal {head place literal : String} {t : TransitionRef} {w : Binary64}
    (hhead : IsLabelText head) (ht : t.IsNamed) (hplace : IsLabelText place)
    (hweight : t.weight = some w) (hcovers : Token.Kind.weight.Covers literal.toList)
    (hvalue : Binary64.ofText? literal = some w) :
    ofText (head ++ " -> \x7b" ++ t.key ++ " " ++ literal ++ "\x7d -> " ++ place) =
      .ok ⟨head, [⟨t, place⟩]⟩ := by
  refine ofText_of_gives ?_
  have hends : Ends [] := nofun
  have hstep := gives_stepWith (s := ⟨t, place⟩) hplace
    (gives_braced ht hweight hcovers hvalue) hends
  have htext : (head ++ " -> \x7b" ++ t.key ++ " " ++ literal ++ "\x7d -> " ++ place).toList =
      [] ++ head.toList ++ stepTextWith ("\x7b" ++ t.key ++ " " ++ literal ++ "\x7d") place := by
    simp [stepTextWith]
  rw [htext]
  refine ((gives_label (List.forall_mem_nil _) hhead (ends_cons (by decide) _)).append hstep).imp ?_
  rintro ts ⟨_, us, rfl, ⟨first, rfl, hkind, rfl⟩, before, taken, after, last, rfl, hbefore, hus,
    hafter, hlast, rfl⟩
  exact .chain hkind (.last hbefore hus hafter hlast)

end Chain

end PetriShorthand
