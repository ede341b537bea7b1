namespace PetriShorthand

inductive FileFault where
  | missing
  /-- The path leads on behind a file. -/
  | notDirectory
  | isDirectory
  | nameTooLong
  /-- No name holds the character U+0000. -/
  | nulInName
  | notText
  | other (message : String)
  deriving DecidableEq

namespace FileFault

def message : FileFault → String
  | missing => "No such file or directory (os error 2)"
  | notDirectory => "Not a directory (os error 20)"
  | isDirectory => "Is a directory (os error 21)"
  | nameTooLong => "File name too long (os error 36)"
  | nulInName => "file name contained an unexpected NUL byte"
  | notText => "stream did not contain valid UTF-8"
  | other message => message

end FileFault

/-- Gives the text of the file at a path. -/
abbrev Files := String → Except FileFault String

end PetriShorthand
