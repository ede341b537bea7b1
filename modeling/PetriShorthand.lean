import PetriShorthand.AcceptingNet
import PetriShorthand.Main
import PetriShorthand.Marking.Transfer
import PetriShorthand.Net.Neighbours
import PetriShorthand.Proofs.FirstOccurrence
import PetriShorthand.Proofs.Planning
import PetriShorthand.Proofs.CarryingOut
import PetriShorthand.Proofs.Reachable
import PetriShorthand.Proofs.Grammar
import PetriShorthand.Proofs.Lexemes
import PetriShorthand.Proofs.Reading
import PetriShorthand.Proofs.Sentences
import PetriShorthand.Proofs.Keys
import PetriShorthand.Proofs.Meaning
import PetriShorthand.Proofs.Signature
import PetriShorthand.Proofs.Isomorphism
import PetriShorthand.Proofs.Verdict
import PetriShorthand.Proofs.Layout
import PetriShorthand.Proofs.Numerals
import PetriShorthand.Proofs.RoundTrip
import PetriShorthand.Proofs.Written
import PetriShorthand.Proofs.Named
import PetriShorthand.Proofs.Fitting
import PetriShorthand.Proofs.Order
import PetriShorthand.Proofs.Acceptance
import PetriShorthand.Proofs.Pieces
import PetriShorthand.Proofs.Persistence
import PetriShorthand.Proofs.Labelling
import PetriShorthand.Proofs.Creation
import PetriShorthand.Proofs.Continuation
import PetriShorthand.Proofs.Expectation
import PetriShorthand.Proofs.Redescriptions
import PetriShorthand.Proofs.SelfComparison
import PetriShorthand.Proofs.Conflicts
import PetriShorthand.Net.Indexed
import PetriShorthand.Proofs.Indexes
import PetriShorthand.Proofs.Relabelling
import PetriShorthand.Proofs.ArcWeights
import PetriShorthand.Proofs.Transfers
import PetriShorthand.Proofs.Conventions
import PetriShorthand.Proofs.Accepting
import PetriShorthand.Proofs.Lines
import PetriShorthand.Naming.Indexed
import PetriShorthand.Proofs.Bindings
import PetriShorthand.Proofs.Spacing
import PetriShorthand.Proofs.Merging
import PetriShorthand.Net.Indexed.Surroundings
import PetriShorthand.Proofs.Neighbourhoods
import PetriShorthand.Proofs.Resuming
import PetriShorthand.Proofs.SeenArcs
import PetriShorthand.Assembly.Indexed
import PetriShorthand.Proofs.Requests
