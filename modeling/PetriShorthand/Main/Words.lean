import PetriShorthand.Binary64.Text
import PetriShorthand.CommandLine.Report

namespace PetriShorthand

namespace CommandLine

inductive Switch where
  | label
  | accepting
  | compare
  | tolerance
  deriving DecidableEq

namespace Switch

def ofLong? (name : List Char) : Option Switch :=
  if name = "label".toList then some label
  else if name = "accepting".toList then some accepting
  else if name = "compare".toList then some compare
  else if name = "tolerance".toList then some tolerance
  else none

def ofShort? : Char → Option Switch
  | 'l' => some label
  | 'a' => some accepting
  | 'c' => some compare
  | _ => none

end Switch

/-- What the words of a command line have given so far. Nothing may be given twice. -/
structure Draft where
  file : Option String := none
  label : Option String := none
  accepting : Bool := false
  compare : Option String := none
  tolerance : Option Binary64 := none

namespace Draft

/-- Files have a name. -/
def setFile (d : Draft) (path : String) : Option Draft :=
  if d.file.isSome ∨ path = "" then none else some { d with file := some path }

def setAccepting (d : Draft) : Option Draft :=
  if d.accepting then none else some { d with accepting := true }

def setValue (d : Draft) (switch : Switch) (value : String) : Option Draft :=
  match switch with
  | .label => if d.label.isSome then none else some { d with label := some value }
  | .accepting => none
  | .compare =>
    if d.compare.isSome ∨ value = "" then none else some { d with compare := some value }
  | .tolerance =>
    if d.tolerance.isSome then none
    else (Binary64.ofText? value).map fun t => { d with tolerance := some t }

/-- A word of short options. The first one that takes a value takes the rest of the word, perhaps
after `=`; if there is none it awaits the next word. -/
def addShort (d : Draft) : List Char → Option (Draft × Option Switch)
  | [] => some (d, none)
  | c :: cs => match Switch.ofShort? c with
    | none => none
    | some .accepting => d.setAccepting.bind fun d => d.addShort cs
    | some switch => match cs with
      | [] => some (d, some switch)
      | '=' :: value => (d.setValue switch (String.ofList value)).map (·, none)
      | value => (d.setValue switch (String.ofList value)).map (·, none)

def addLong (d : Draft) (word : List Char) : Option (Draft × Option Switch) := do
  let switch ← Switch.ofLong? (word.takeWhile (· ≠ '='))
  match switch, word.dropWhile (· ≠ '=') with
  | .accepting, [] => d.setAccepting.map (·, none)
  | switch, [] => return (d, some switch)
  | switch, _ :: value => (d.setValue switch (String.ofList value)).map (·, none)

/-- Adds one word, and tells which option awaits its value after it. -/
def addWord (d : Draft) (word : String) : Option (Draft × Option Switch) :=
  match word.toList with
  | '-' :: '-' :: name => d.addLong name
  | '-' :: c :: cs => d.addShort (c :: cs)
  | _ => (d.setFile word).map (·, none)

/-- A single `-` is a value, all else that opens with `-` is not. -/
def looksLikeOption (word : String) : Bool := word.toList.head? = some '-' ∧ word ≠ "-"

/-- Adds the words of a command line. Behind `--` there are only files. -/
def addWords (d : Draft) : List String → Option Draft
  | [] => some d
  | word :: words =>
    if word = "--" then words.foldlM setFile d
    else match d.addWord word, words with
      | none, _ => none
      | some (d, none), words => d.addWords words
      | some (_, some _), [] => none
      | some (d, some switch), value :: words =>
        if looksLikeOption value then none
        else (d.setValue switch value).bind fun d => d.addWords words

end Draft

def Arguments.ofWords? (words : List String) : Option Arguments := do
  let d ← Draft.addWords {} words
  let tolerance := d.tolerance.getD Comparison.defaultTolerance
  return ⟨← d.file, d.label, d.accepting, d.compare, tolerance⟩

def run (files : Files) (words : List String) : Report :=
  match Arguments.ofWords? words with
  | none => ⟨"", .usage, none⟩
  | some args => answer files args

end CommandLine

end PetriShorthand
