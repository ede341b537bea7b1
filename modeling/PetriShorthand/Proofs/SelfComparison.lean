import PetriShorthand.CommandLine.Report
import PetriShorthand.Proofs.Labelling
import PetriShorthand.Proofs.Order

namespace PetriShorthand

theorem Binary64.distance_self_atMost_iff {tolerance : Binary64} (h : zero.atMost tolerance)
    (x : Binary64) : (x.distance x).atMost tolerance ↔ x.IsFinite := by
  cases x with
  | nan =>
    refine iff_of_false (fun hnan => ?_) id
    cases hnan
  | infinity s =>
    rw [distance, if_pos rfl]
    refine iff_of_false (fun hnan => ?_) id
    cases hnan
  | finite s m =>
    have hsame : (finite s m).sameNumber (finite s m) := by simp [sameNumber]
    rw [distance_of_sameNumber hsame trivial]
    exact ⟨fun _ => trivial, fun _ => h⟩

/-- No transition has an infinite weight, nor one that is no number. -/
def Net.HasFiniteWeights (net : Net) : Prop :=
  ∀ t ∈ net.transitions, ∀ w ∈ t.weight, w.IsFinite

instance (net : Net) : Decidable net.HasFiniteWeights :=
  inferInstanceAs (Decidable (∀ t ∈ _, ∀ w ∈ _, _))

namespace Comparison

variable {tolerance : Binary64} {s : Assembly} {ts : List TransitionRef} {label : String}

theorem weightsAgree_self_iff (h : Binary64.zero.atMost tolerance) (w : Option Binary64) :
    weightsAgree tolerance w w ↔ ∀ x ∈ w, x.IsFinite := by
  cases w with
  | none => exact ⟨fun _ => nofun, fun _ => rfl⟩
  | some x =>
    rw [weightsAgree, Binary64.distance_self_atMost_iff h]
    simp

theorem namedIsomorphism_self (h : Binary64.zero.atMost tolerance)
    (hfinite : s.net.HasFiniteWeights) (label : String) :
    Nonempty (NamedIsomorphism tolerance s.net (s.withLabel label).net s.naming s.naming) := by
  refine ⟨⟨⟨Equiv.refl _, Equiv.refl _, fun i => rfl, fun i => rfl, fun i => rfl, fun i => ?_,
    fun i j w => Iff.rfl, fun i j w => Iff.rfl⟩, fun i => rfl, fun i => rfl⟩⟩
  exact (weightsAgree_self_iff h _).mpr (hfinite _ (List.get_mem s.net.transitions i))

theorem hasFiniteWeights_of_namedIsomorphism (hs : s.Keyed ts)
    (h : Binary64.zero.atMost tolerance)
    (e : NamedIsomorphism tolerance s.net (s.withLabel label).net s.naming s.naming) :
    s.net.HasFiniteWeights := by
  intro t ht
  obtain ⟨i, hi, rfl⟩ := List.mem_iff_getElem.mp ht
  have hsame : (e.transitions ⟨i, hi⟩).1 = i := by
    have hlt : i < ts.length := by
      rwa [hs.transitions, List.length_map] at hi
    have hname : s.naming.name? (.transition i) = some ts[i].key := by
      rw [hs.transitionName, List.getElem?_map, List.getElem?_eq_getElem hlt]
      rfl
    have hname' := (e.transitionName ⟨i, hi⟩).trans hname
    have heq := Naming.eq_of_mem (Naming.name?_eq_some_iff.mp hname')
      (Naming.name?_eq_some_iff.mp hname) (.inl rfl)
    exact Node.transition.inj (Prod.mk.inj heq).2
  have hagree := e.weight ⟨i, hi⟩
  have hget : (s.withLabel label).net.transitions.get (e.transitions ⟨i, hi⟩) =
      s.net.transitions[i] := by
    rw [List.get_eq_getElem]
    simp only [hsame]
    rfl
  rw [hget] at hagree
  exact (weightsAgree_self_iff h _).mp hagree

theorem namedDifference?_self (hs : s.Keyed ts) (h : Binary64.zero.atMost tolerance)
    (label : String) :
    ∃ d, namedDifference? tolerance s.net (s.withLabel label).net s.naming s.naming = .ok d ∧
      (d = none ↔ s.net.HasFiniteWeights) := by
  have hs' : (s.withLabel label).Keyed ts :=
    ⟨hs.transitions, hs.placeName, hs.transitionName, hs.places_nodup, hs.keys_nodup, hs.plain⟩
  obtain ⟨d, hd, -, hnone⟩ := namedDifference?_of_keyed tolerance hs hs'
  refine ⟨d, hd, hnone.trans ⟨?_, fun hfinite => namedIsomorphism_self h hfinite label⟩⟩
  rintro ⟨e⟩
  exact hasFiniteWeights_of_namedIsomorphism hs h e

end Comparison

namespace Assembly

theorem addLines_start (label label' text : String) :
    (start label').addLines text = ((start label).addLines text).withLabel label' :=
  addTexts_withLabel (grounded_start label) label' .empty (statementLines text)

theorem exists_keyed_addLines (label text : String) :
    ∃ ts, ((start label).addLines text).assembly.Keyed ts := by
  have hwritten : Written ((start label).addLines text).assembly := .addLines text (.start label)
  obtain ⟨cs, hr, hread⟩ := hwritten.says
  exact ⟨_, hr.keyed (arePlain_of_ofText hread)⟩

theorem namedDifference?_addLines {text label : String} {tolerance : Binary64} {created : Naming}
    (htolerance : Binary64.zero.atMost tolerance)
    (h : ((start label).addLines text).result = .ok created) (label' : String) :
    let s := ((start label).addLines text).assembly
    let s' := ((start label').addLines text).assembly
    ((start label').addLines text).result = .ok created ∧
      ∃ d, Comparison.namedDifference? tolerance s.net s'.net s.naming s'.naming = .ok d ∧
        (d = none ↔ s.net.HasFiniteWeights) := by
  intro s s'
  obtain ⟨ts, hs⟩ := exists_keyed_addLines label text
  have hsame := addLines_start label label' text
  have hs' : s' = s.withLabel label' := congrArg Outcome.assembly hsame
  rw [hs']
  exact ⟨(congrArg Outcome.result hsame).trans h,
    Comparison.namedDifference?_self hs htolerance label'⟩

theorem addLines_of_line {s : Assembly} {text : String} {c : Chain} {created : Naming}
    (hline : statementLines text = [text]) (hread : Chain.ofText text = .ok c)
    (h : (s.addChain c).result >>= Naming.empty.merge = .ok created) :
    (s.addLines text).result = .ok created ∧
      (s.addLines text).assembly = (s.addChain c).assembly := by
  have htext : s.addText text = s.addChain c := by rw [addText, hread]
  rw [addLines, hline, addTexts, htext, h]
  exact ⟨rfl, rfl⟩

theorem line_feed_not_mem_of_covers {cs : List Char} (h : Token.Kind.weight.Covers cs) :
    '\n' ∉ cs := by
  intro hmem
  cases h with
  | lexeme h => cases h
  | weight _ hwhole _ hfraction =>
    rcases List.mem_append.mp hmem with hmem | hmem
    · exact absurd (hwhole _ hmem) (by decide)
    · rcases List.mem_cons.mp hmem with he | hmem
      · cases he
      · exact absurd (hfraction _ hmem) (by decide)

theorem isLabelText_of_isAlpha {c : Char} (hc : c.isAlpha) : IsLabelText (String.ofList [c]) := by
  rw [IsLabelText, String.toList_ofList]
  exact ⟨.label hc nofun, fun h => absurd h.length_le (by decide : ¬3 ≤ 1)⟩

def weightedText (literal : String) : String := "a -> \x7bb " ++ literal ++ "\x7d -> c"

def weightedChain (w : Binary64) : Chain := ⟨"a", [⟨⟨"b", none, false, some w⟩, "c"⟩]⟩

theorem toList_weightedText (literal : String) : (weightedText literal).toList =
    "a -> \x7bb ".toList ++ literal.toList ++ "\x7d -> c".toList := by
  simp only [weightedText, String.toList_append]

theorem ofText_weightedText {literal : String} {w : Binary64}
    (hcovers : Token.Kind.weight.Covers literal.toList)
    (hvalue : Binary64.ofText? literal = some w) :
    Chain.ofText (weightedText literal) = .ok (weightedChain w) := by
  have ha : IsLabelText "a" := isLabelText_of_isAlpha (c := 'a') (by decide)
  have hb : IsLabelText "b" := isLabelText_of_isAlpha (c := 'b') (by decide)
  have hc : IsLabelText "c" := isLabelText_of_isAlpha (c := 'c') (by decide)
  have hnamed : TransitionRef.IsNamed ⟨"b", none, false, some w⟩ := ⟨.inr ⟨rfl, hb⟩, nofun⟩
  have hform : weightedText literal = "a" ++ " -> \x7b" ++
      TransitionRef.key ⟨"b", none, false, some w⟩ ++ " " ++ literal ++ "\x7d -> " ++ "c" := by
    refine String.toList_inj.mp ?_
    simp [toList_weightedText, TransitionRef.key]
  rw [hform]
  exact Chain.ofText_of_literal ha hnamed hc rfl hcovers hvalue

theorem statementLines_weightedText {literal : String}
    (hcovers : Token.Kind.weight.Covers literal.toList) :
    statementLines (weightedText literal) = [weightedText literal] := by
  have hbreak := line_feed_not_mem_of_covers hcovers
  refine statementLines_of_line ?_ ?_ ?_
  · simp [toList_weightedText, hbreak]
  · exact ⟨'a', by simp [toList_weightedText], by decide, by decide⟩
  · rw [toList_weightedText, List.getLast?_append_of_ne_nil _ (by decide)]
    intro c hc
    obtain rfl : 'c' = c := Option.some.inj hc
    decide

/-- A weight that is too great for the numbers makes a text differ from itself. -/
theorem differs_from_itself {literal : String}
    (hcovers : Token.Kind.weight.Covers literal.toList)
    (hvalue : Binary64.ofText? literal = some (.infinity false)) :
    let s := ((start "net").addLines (weightedText literal)).assembly
    ∃ created d, ((start "net").addLines (weightedText literal)).result = .ok created ∧
      Comparison.namedDifference? Comparison.defaultTolerance s.net s.net s.naming s.naming =
        .ok (some d) := by
  intro s
  -- the chain has a name of its own, so that it is evaluated only where it says so
  obtain ⟨c, hc⟩ : ∃ c, c = weightedChain (.infinity false) := ⟨_, rfl⟩
  have hread : Chain.ofText (weightedText literal) = .ok c := by
    rw [hc]
    exact ofText_weightedText hcovers hvalue
  obtain ⟨created, hresult⟩ :
      ∃ created, ((start "net").addChain c).result >>= Naming.empty.merge = .ok created := by
    rw [hc]
    exact exists_eq_ok (by decide +kernel)
  have hinfinite : ¬((start "net").addChain c).assembly.net.HasFiniteWeights := by
    rw [hc]
    decide +kernel
  have htolerance : Binary64.zero.atMost Comparison.defaultTolerance := by decide +kernel
  obtain ⟨hok, hassembly⟩ := addLines_of_line (statementLines_weightedText hcovers) hread hresult
  obtain ⟨-, d, hd, hnone⟩ := namedDifference?_addLines htolerance hok "net"
  rw [hassembly] at hnone
  cases d with
  | none => exact absurd (hnone.mp rfl) hinfinite
  | some d => exact ⟨created, d, hok, hd⟩

end Assembly

namespace CommandLine

open Assembly

theorem load_eq_ok {files : Files} {path text label : String} {created : Naming}
    (hfile : files path = .ok text) (h : ((start label).addLines text).result = .ok created) :
    load files path label = .ok ((start label).addLines text).assembly := by
  rw [load, addFile, hfile]
  dsimp only
  rw [h]
  rfl

theorem compareTo_eq {files : Files} {tolerance : Binary64} {s other : Assembly}
    {path output : String} {d : Option Difference}
    (hload : load files path (fileStem path) = .ok other)
    (hd : Comparison.namedDifference? tolerance s.net other.net s.naming other.naming = .ok d) :
    compareTo files tolerance s path output =
      if d = none then ⟨output ++ "equal\n", .success, none⟩
      else ⟨output ++ "not equal\n", .failure, none⟩ := by
  rw [compareTo, hload]
  dsimp only [bind, Except.bind]
  rw [hd]
  cases d with
  | none => rfl
  | some difference => rfl

/-- A text that can be added to a new assembly can be added to any other one, and the two assemblies
can be compared. They do not differ exactly if all weights are finite. Where the command line is
asked to compare a file with itself, that is its verdict, and it comes after what is answered
otherwise. -/
theorem comparison_with_itself {text label : String} {tolerance : Binary64} {created : Naming}
    (htolerance : Binary64.zero.atMost tolerance)
    (h : ((start label).addLines text).result = .ok created) :
    let s := ((start label).addLines text).assembly
    (∀ label', ((start label').addLines text).result = .ok created ∧
      let s' := ((start label').addLines text).assembly
      ∃ d, Comparison.namedDifference? tolerance s.net s'.net s.naming s'.naming = .ok d ∧
        (d = none ↔ s.net.HasFiniteWeights)) ∧
    ∀ files args, files args.file = .ok text → args.label.getD (fileStem args.file) = label →
      args.compare = some args.file → args.tolerance = tolerance →
      answer files args =
        let before := (answer files { args with compare := none }).output
        if s.net.HasFiniteWeights then ⟨before ++ "equal\n", .success, none⟩
        else ⟨before ++ "not equal\n", .failure, none⟩ := by
  intro s
  refine ⟨namedDifference?_addLines htolerance h, fun files args hfile hlabel hcompare htol => ?_⟩
  subst hlabel htol
  obtain ⟨h', d, hd, hnone⟩ := namedDifference?_addLines htolerance h (fileStem args.file)
  have hanswer : answer files args = compareTo files args.tolerance s args.file
      (answer files { args with compare := none }).output := by
    rw [answer, answer, load_eq_ok hfile h, hcompare]
  rw [hanswer, compareTo_eq (load_eq_ok hfile h') hd]
  exact if_congr hnone rfl rfl

/-- Two lines, of which the second gives a transition of the first another weight. -/
theorem comparison_with_itself_finite :
    let text := "a -> \x7bb__1 2.5\x7d -> c -> [tau] -> a\nc -> \x7bb__1 3.0\x7d -> d\n"
    let args : Arguments := ⟨"F", some "net", false, some "F", Comparison.defaultTolerance⟩
    Binary64.zero.atMost args.tolerance ∧
      (∃ created, ((start "net").addLines text).result = .ok created) ∧
      (answer (fun _ => .ok text) args).exit = .success := by
  intro text args
  have htolerance : Binary64.zero.atMost args.tolerance := by decide +kernel
  obtain ⟨created, hresult⟩ : ∃ created, ((start "net").addLines text).result = .ok created :=
    exists_eq_ok (by decide +kernel)
  have hfinite : ((start "net").addLines text).assembly.net.HasFiniteWeights := by decide +kernel
  obtain ⟨-, hanswer⟩ := comparison_with_itself htolerance hresult
  refine ⟨htolerance, ⟨created, hresult⟩, ?_⟩
  rw [hanswer (fun _ => .ok text) args rfl rfl rfl rfl, if_pos hfinite]

/-- A weight of 310 digits before the point. -/
theorem comparison_with_itself_infinite :
    let text := weightedText (String.ofList ('1' :: List.replicate 309 '0' ++ '.' :: ['0']))
    let s := ((start "net").addLines text).assembly
    ∃ created d, ((start "net").addLines text).result = .ok created ∧
      Comparison.namedDifference? Comparison.defaultTolerance s.net s.net s.naming s.naming =
        .ok (some d) := by
  have hwhole : ∀ c ∈ '1' :: List.replicate 309 '0', c.isDigit := by
    simp only [List.mem_cons, List.mem_replicate]
    rintro c (rfl | ⟨-, rfl⟩) <;> decide
  have hpart : ∀ c ∈ ['0'], c.isDigit := by
    simp only [List.mem_singleton, forall_eq]
    decide
  have hchars : (String.ofList ('1' :: List.replicate 309 '0' ++ '.' :: ['0'])).toList =
      '1' :: List.replicate 309 '0' ++ '.' :: ['0'] := String.toList_ofList
  refine differs_from_itself ?_ ?_
  · rw [hchars]
    exact .weight nofun hwhole nofun hpart
  · rw [Binary64.ofText?_of_digits hchars nofun hwhole hpart]
    decide +kernel

end CommandLine

end PetriShorthand
