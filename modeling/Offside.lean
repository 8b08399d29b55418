import Offside.CommandLine.Directory
import Offside.Main
import Offside.Session.Recorder
import Offside.Proofs.Grammar.Acceptance
import Offside.Proofs.Grammar.Rounds
import Offside.Proofs.Grammar.Simulation
import Offside.Proofs.Grammar.Spacing
import Offside.Proofs.Grammar.Transport
import Offside.Proofs.Layout.Nesting
import Offside.Proofs.StraightLine.ReadBack
import Offside.Proofs.History
import Offside.Proofs.Isolation
import Offside.Proofs.Grammar.Extension
import Offside.Proofs.Separation.Runs
import Offside.Proofs.Separation.Sources
import Offside.Proofs.Separation.Waiting
import Offside.Proofs.Token.Written
import Offside.Proofs.Image
import Offside.Proofs.Token.LongestMatch
import Offside.Proofs.Token.Lines
import Offside.Proofs.Grammar.Places
import Offside.Proofs.Binary64.Overflow
import Offside.Proofs.Grammar.Initializer
import Offside.Proofs.Token.Malformed
import Offside.Proofs.Grammar.Literals
import Offside.Proofs.Grammar.Functions
import Offside.Proofs.Separation.Survival
import Offside.Proofs.Grammar.Frame
import Offside.Proofs.Grammar.Progress
import Offside.Proofs.Layout.Chain
import Offside.Proofs.Layout.Phrase
import Offside.Proofs.Layout.Readability
import Offside.Proofs.Source.Moves
import Offside.Proofs.Source.LineText
import Offside.Proofs.Grammar.Locality
import Offside.Proofs.Grammar.Branches
import Offside.Proofs.Grammar.Uses
import Offside.Proofs.Grammar.Binding
