import PetriShorthand.Token.Basic

namespace PetriShorthand

namespace Grammar

open Token

inductive IsName : Kind → Prop
  | label : IsName .label
  | tau : IsName .tau

inductive IsSuffix : List Kind → Prop
  | absent : IsSuffix []
  | given : IsSuffix [.separator, .number]

inductive IsWeight : List Kind → Prop
  | absent : IsWeight []
  | given : IsWeight [.weight]

inductive IsTransition : List Kind → Prop
  | square {name : Kind} {suffix : List Kind} : IsName name → IsSuffix suffix →
      IsTransition (.squareOpen :: name :: (suffix ++ [.squareClose]))
  | brace {name : Kind} {suffix weight : List Kind} : IsName name → IsSuffix suffix →
      IsWeight weight → IsTransition (.braceOpen :: name :: (suffix ++ weight ++ [.braceClose]))

/-- One step or more, each an arrow, a transition, an arrow and a label. -/
inductive IsSteps : List Kind → Prop
  | last {transition : List Kind} : IsTransition transition →
      IsSteps (.arrow :: (transition ++ [.arrow, .label]))
  | more {transition rest : List Kind} : IsTransition transition → IsSteps rest →
      IsSteps (.arrow :: (transition ++ .arrow :: .label :: rest))

inductive IsSentence : List Kind → Prop
  | chain {steps : List Kind} : IsSteps steps → IsSentence (.label :: steps)

/-- The sequence can be continued to a sentence. -/
def IsViable (ks : List Kind) : Prop := ∃ more, IsSentence (ks ++ more)

end Grammar

end PetriShorthand
