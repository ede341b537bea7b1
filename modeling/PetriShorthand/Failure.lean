import PetriShorthand.Files
import PetriShorthand.Net.Node
import PetriShorthand.Token.Basic

namespace PetriShorthand

inductive Failure where
  /-- No token starts at the position. -/
  | unexpectedText (position : Nat) (remainder : String)
  | unexpectedToken (expected : List Token.Kind) (found : Token)
  /-- The chain is complete before the token. -/
  | trailingToken (found : Token)
  | kindConflict (name : String) (existing requested : NodeKind)
  /-- A name would stand for two nodes, or a node have two names. -/
  | nameConflict (name : String)
  | invalidArc (source target : Node)
  | emptyAcceptingNet
  | unnamedTransition (net : String) (node : Node)
  | unreadableFile (path : String) (fault : FileFault)
  deriving DecidableEq

namespace Failure

def message : Failure → String
  | unexpectedText position remainder =>
    s!"Lexer error at position {position}: unexpected input '{remainder}'"
  | unexpectedToken expected found =>
    let names := ", ".intercalate (expected.map Token.Kind.name)
    s!"Syntax error at position {found.position}: expected one of [{names}], " ++
      s!"found {found.describe}"
  | trailingToken found =>
    s!"Syntax error at position {found.position}: unexpected trailing input {found.describe}"
  | kindConflict name existing requested =>
    s!"Label '{name}' is already bound to a {existing.text}, " ++
      s!"cannot reuse it as a {requested.text}"
  | nameConflict name => s!"External id '{name}' conflicts with an existing identity binding"
  | invalidArc source target =>
    s!"Invalid arc {source.text} -> {target.text}: " ++
      "arcs must connect a place and a transition of the same net"
  | emptyAcceptingNet => "Cannot create an empty accepting net"
  | unnamedTransition net node =>
    s!"Net '{net}' has no external id for node {node.text} " ++
      "(was it built without an identity mapper?)"
  | unreadableFile path fault => s!"Failed to read fragment file '{path}': {fault.message}"

end Failure

end PetriShorthand
