import LS8.Main
import LS8.Processor.Action
import LS8.Proofs.Stretch
import LS8.Proofs.Subroutine
import LS8.Proofs.Alike
import LS8.Proofs.Horizon
import LS8.Proofs.Limit
import LS8.Proofs.Contents
import LS8.Proofs.Reading
import LS8.Proofs.ListMachine
import LS8.Proofs.LastInFirstOut
import LS8.Proofs.StraightLine
import LS8.Proofs.Failure
import LS8.Proofs.Frame
import LS8.Proofs.Upcoming
import LS8.Proofs.Reachable
import LS8.Proofs.Standstill
import LS8.Proofs.Faults
import LS8.Proofs.ByteSyntax
import LS8.Proofs.ListingSyntax
import LS8.Proofs.LoadAndRun
import LS8.Proofs.Marks
import LS8.Proofs.Trail
import LS8.Proofs.LastComparison
import LS8.Proofs.Tracing
import LS8.Proofs.Output
import LS8.Proofs.Capacity
import LS8.Proofs.Recurrence
import LS8.Proofs.Footprint
import LS8.Proofs.LogLines
import LS8.Proofs.Replay
import LS8.Proofs.PushThenPop
import LS8.Proofs.AssemblyText
import LS8.Proofs.ListingLayout
import LS8.Proofs.Sessions
import LS8.Proofs.Returning
import LS8.Proofs.Separators
import LS8.Proofs.Columns
import LS8.Proofs.Bounds
import LS8.Proofs.AluNames
import LS8.Proofs.BitFields
