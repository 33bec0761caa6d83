import TapeMachine.Batch
import TapeMachine.Command.Conformance
import TapeMachine.Command.Countdown
import TapeMachine.Command.Run
import TapeMachine.Main
import TapeMachine.Proofs.Checks
import TapeMachine.Proofs.Execution
import TapeMachine.Proofs.Transition
import TapeMachine.Proofs.Reachable
import TapeMachine.Proofs.Faults
import TapeMachine.Proofs.Consoles
import TapeMachine.Proofs.Runs
import TapeMachine.Proofs.Comparisons
import TapeMachine.Proofs.Images
import TapeMachine.Proofs.Layout
import TapeMachine.Proofs.Dispatch
import TapeMachine.Proofs.Numerals
import TapeMachine.Proofs.Statements
import TapeMachine.Proofs.Listings
import TapeMachine.Proofs.Reassembly
import TapeMachine.Proofs.Dialogue
import TapeMachine.Proofs.Enlargement
import TapeMachine.Proofs.Blocks
import TapeMachine.Proofs.Reload
import TapeMachine.Proofs.Countdown
import TapeMachine.Proofs.Causality
import TapeMachine.Proofs.Calls
import TapeMachine.Proofs.Grammar
import TapeMachine.Proofs.Programs
import TapeMachine.Proofs.Diagnostics
import TapeMachine.Proofs.Bindings
import TapeMachine.Proofs.Snippets
import TapeMachine.Proofs.Literals
import TapeMachine.Proofs.DataWords
import TapeMachine.Proofs.Occurrences
import TapeMachine.Proofs.Replacement
import TapeMachine.Proofs.Frames
import TapeMachine.Proofs.Subroutines
import TapeMachine.Proofs.Echoes
import TapeMachine.Proofs.LiteralEnds
import TapeMachine.Proofs.ByteStore
import TapeMachine.Proofs.Disassembly
import TapeMachine.Proofs.Numbers
import TapeMachine.Proofs.Progress
import TapeMachine.Proofs.Words
import TapeMachine.Proofs.Transcripts
import TapeMachine.Proofs.Spacing
