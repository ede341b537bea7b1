import PetriShorthand.Proofs.Sentences

namespace PetriShorthand

open Grammar

namespace Reader

/-- The token at which the reader stands; behind the last one that is the end of the text. -/
def current (r : Reader) : Token := r.rest.head?.getD (.finish r.finish)

def after (r : Reader) : Nat → Reader
  | 0 => r
  | k + 1 => (r.after k).next.2

/-- The tokens that a reading uses up. -/
def taken (r : Reader) : List Token := r.rest.take (r.rest.length - r.next.2.rest.length)

/-- What comes of a reading that used the tokens up and stopped where the reader now stands. -/
inductive Gives (taken : List Token) (r : Reader) : Except Failure Chain → Prop
  | read {c : Chain} : ReadsChain taken c → r.current.kind = .finish → Gives taken r (.ok c)
  | trailing {c : Chain} : ReadsChain taken c → r.current.kind ≠ .finish →
      Gives taken r (.error (.trailingToken r.current))
  | broken {expected : List Token.Kind} : IsViable (taken.map (·.kind)) →
      ¬IsSentence (taken.map (·.kind)) →
      Gives taken r (.error (.unexpectedToken expected r.current))

variable {r : Reader} {ts rest : List Token}

section Step

end Step

section Run

end Run

end Reader

end PetriShorthand
