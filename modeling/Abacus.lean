import Abacus.Session
import Abacus.Profile
import Abacus.Token
import Abacus.Disk
import Abacus.Terminal
import Abacus.Program.Batch
import Abacus.Program.Run
import Abacus.Main
import Abacus.Proofs.Binary64.Rounding
import Abacus.Proofs.Radix.Texts
import Abacus.Proofs.Operator.Shifts
import Abacus.Proofs.Radix.Positional
import Abacus.Proofs.Token.Segmentation
import Abacus.Proofs.Token.Delivery
import Abacus.Proofs.Line.Values
import Abacus.Proofs.Line.Prefixes
import Abacus.Proofs.Session.Answers
import Abacus.Proofs.Session.Changes
import Abacus.Proofs.Session.Outcomes
import Abacus.Proofs.Session.Alike
import Abacus.Proofs.Operator.Division
import Abacus.Proofs.Session.Failure
import Abacus.Proofs.Session.Profiles
import Abacus.Proofs.Session.Invariants
import Abacus.Proofs.Session.Substitution
import Abacus.Proofs.Profile.Folder
import Abacus.Proofs.Profile.Paths
import Abacus.Proofs.Program.Arguments
import Abacus.Proofs.Program.Batch
import Abacus.Proofs.Program.Caret
import Abacus.Proofs.Report
