import Lox.CommandLine
import Lox.Interner
import Lox.Main
import Lox.Proofs.Concrete.Complete
import Lox.Proofs.Source.Reading
import Lox.Proofs.Textual.Session
import Lox.Proofs.Watch.Session
import Lox.Proofs.Source.Statements
import Lox.Proofs.Source.RoundTrip
import Lox.Proofs.Twin.Placement
import Lox.Proofs.Twin.Parsing
import Lox.Proofs.Recovery
import Lox.Proofs.Segments
import Lox.Proofs.Blame
import Lox.Proofs.Twin.Resolution
import Lox.Proofs.Twin.Simulation
import Lox.Proofs.Twin.Session
import Lox.Proofs.Requests
import Lox.Proofs.Concrete.Demand
import Lox.Proofs.Twin.Stripped
import Lox.Proofs.Source.Behaviour
import Lox.Proofs.Source.Joined
import Lox.Proofs.Output
import Lox.Proofs.Joined
import Lox.Proofs.Tiling
import Lox.Proofs.Layout
import Lox.Proofs.Reach
import Lox.Proofs.Renaming.Resolution
import Lox.Proofs.Renaming.Session
import Lox.Proofs.Identity
import Lox.Proofs.Watch.Truncation
import Lox.Proofs.Source.Owners
import Lox.Proofs.Nearest
import Lox.Proofs.Refusal
import Lox.Proofs.Direct.Session
import Lox.Proofs.Watch.Declarations
import Lox.Proofs.Progress
import Lox.Proofs.Source.Shapes
import Lox.Proofs.Cause.Session
import Lox.Proofs.Positions
import Lox.Proofs.History
import Lox.Proofs.Interning
import Lox.Proofs.Reports
