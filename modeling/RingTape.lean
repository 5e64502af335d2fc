import RingTape.Burst
import RingTape.Burst.Run
import RingTape.CommandLine.Parse
import RingTape.CommandLine.Session
import RingTape.Execution
import RingTape.Failure
import RingTape.FileTree
import RingTape.Input
import RingTape.Input.Console
import RingTape.Interpretation
import RingTape.Links.Resolve
import RingTape.Links.Slots
import RingTape.Machine
import RingTape.Main
import RingTape.Options
import RingTape.Output
import RingTape.Program
import RingTape.Proofs.Alignment
import RingTape.Proofs.Batches
import RingTape.Proofs.Blame
import RingTape.Proofs.Block
import RingTape.Proofs.Blocks
import RingTape.Proofs.Borders
import RingTape.Proofs.Bounds
import RingTape.Proofs.Cancelling
import RingTape.Proofs.Comments
import RingTape.Proofs.DeadLoops
import RingTape.Proofs.Decoding
import RingTape.Proofs.Delivery
import RingTape.Proofs.Engines
import RingTape.Proofs.Excerpt
import RingTape.Proofs.Failing
import RingTape.Proofs.Insertion
import RingTape.Proofs.Interpretation
import RingTape.Proofs.Limit
import RingTape.Proofs.Lines
import RingTape.Proofs.Lockstep
import RingTape.Proofs.Logging
import RingTape.Proofs.Matching
import RingTape.Proofs.Mirror
import RingTape.Proofs.Outcomes
import RingTape.Proofs.Padding
import RingTape.Proofs.Partners
import RingTape.Proofs.Places
import RingTape.Proofs.Progress
import RingTape.Proofs.Reach
import RingTape.Proofs.Reduction
import RingTape.Proofs.Resolve
import RingTape.Proofs.Rotation
import RingTape.Proofs.Safety
import RingTape.Proofs.Sessions
import RingTape.Proofs.Simulation
import RingTape.Proofs.Sinks
import RingTape.Proofs.Step
import RingTape.Proofs.Store
import RingTape.Proofs.Stripping
import RingTape.Proofs.Structured
import RingTape.Proofs.Supply
import RingTape.Proofs.Termination
import RingTape.Proofs.Tracing
import RingTape.Proofs.Unread
import RingTape.Proofs.Widening
import RingTape.Report
import RingTape.Source
import RingTape.Tape
import RingTape.Text.Encoding
import RingTape.Text.Numeral
import RingTape.Text.Quoted
