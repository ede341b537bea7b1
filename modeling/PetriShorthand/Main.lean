import PetriShorthand.Main.Words

namespace PetriShorthand

namespace CommandLine

def readFile (path : String) : IO (Except FileFault String) := do
  try
    match String.fromUTF8? (← IO.FS.readBinFile path) with
    | some text => return .ok text
    | none => return .error .notText
  catch
    | .noFileOrDirectory .. => return .error .missing
    | .inappropriateType none .. => return .error .isDirectory
    | .inappropriateType .. => return .error .notDirectory
    | .invalidArgument _ _ "name too long" => return .error .nameTooLong
    | e => return .error (.other (toString e))

def usage : String :=
  "usage: [-l LABEL] [-a] [-c OTHER_FILE] [--tolerance TOLERANCE] FRAGMENT_FILE"

end CommandLine

end PetriShorthand

open PetriShorthand CommandLine in
def main (words : List String) : IO UInt32 := do
  let paths := match Arguments.ofWords? words with
    | none => []
    | some args => args.file :: args.compare.toList
  let contents ← paths.mapM fun path => return (path, ← readFile path)
  let report := run (fun path => (contents.lookup path).getD (.error .missing)) words
  IO.print report.output
  if report.exit = .usage then IO.eprintln usage
  if let some failure := report.complaint then IO.eprintln failure.message
  return report.exit.code
