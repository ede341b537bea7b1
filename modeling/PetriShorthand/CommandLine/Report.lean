import PetriShorthand.AcceptingNet
import PetriShorthand.Comparison.Difference
import PetriShorthand.Net.Text

namespace PetriShorthand

namespace CommandLine

structure Arguments where
  file : String
  label : Option String
  accepting : Bool
  compare : Option String
  tolerance : Binary64

inductive Exit where
  | success
  /-- A file cannot be loaded, or the nets differ. -/
  | failure
  | usage
  deriving DecidableEq

def Exit.code : Exit → UInt32
  | success => 0
  | failure => 1
  | usage => 2

structure Report where
  output : String
  exit : Exit
  complaint : Option Failure

/-- The last part of a path without its extension. A dot at the front opens no extension. -/
def fileStem (path : String) : String :=
  let name := (path.toList.reverse.takeWhile (· ≠ '/')).reverse
  let stem := (name.reverse.dropWhile (· ≠ '.')).drop 1 |>.reverse
  if name = [] ∨ name = ['.', '.'] then "net"
  else String.ofList (if stem = [] then name else stem)

def load (files : Files) (path label : String) : Except Failure Assembly :=
  let o := (Assembly.start label).addFile files path
  o.result.map fun _ => o.assembly

def markingText (net : Net) (m : Marking) : String :=
  "[" ++ ", ".intercalate (m.places.filterMap (net.places[·]?)) ++ "]"

def acceptingText (a : AcceptingNet) : String :=
  "Initial marking: " ++ markingText a.net a.initial ++ "\n" ++
    String.join (a.finals.map fun m => "Final marking: " ++ markingText a.net m ++ "\n")

def compareTo (files : Files) (tolerance : Binary64) (s : Assembly) (path output : String) :
    Report :=
  let verdict := do
    let other ← load files path (fileStem path)
    Comparison.namedDifference? tolerance s.net other.net s.naming other.naming
  match verdict with
  | .error failure => ⟨output, .failure, some failure⟩
  | .ok none => ⟨output ++ "equal\n", .success, none⟩
  | .ok (some _) => ⟨output ++ "not equal\n", .failure, none⟩

def answer (files : Files) (args : Arguments) : Report :=
  match load files args.file (args.label.getD (fileStem args.file)) with
  | .error failure => ⟨"", .failure, some failure⟩
  | .ok s =>
    let output := s.net.text ++ "\n" ++
      if args.accepting then acceptingText (AcceptingNet.ofNet s.net) else ""
    match args.compare with
    | none => ⟨output, .success, none⟩
    | some path => compareTo files args.tolerance s path output

end CommandLine

end PetriShorthand
