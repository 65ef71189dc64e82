import Seedloop.Proofs.Crash
import Seedloop.Proofs.Reliable
import Seedloop.Proofs.Windows
import Seedloop.Proofs.FaultTrace
import Seedloop.Proofs.QuietTraffic
import Seedloop.Proofs.Splits
import Seedloop.Proofs.TypedHandles
import Seedloop.Proofs.Election
import Seedloop.Proofs.PatchHygiene
import Seedloop.Proofs.Threads
import Seedloop.Proofs.InvariantsEnd
import Seedloop.Proofs.Throughout
import Seedloop.Proofs.Deadlock
import Seedloop.Proofs.RoundLimit
import Seedloop.Proofs.CancelOrder
import Seedloop.Proofs.Annotations
import Seedloop.Proofs.Relaunch
import Seedloop.Proofs.RunUntil
import Seedloop.Proofs.Deciding
import Seedloop.Proofs.StopSteps
import Seedloop.Proofs.StepLimit
import Seedloop.Proofs.Bipartition
import Seedloop.Proofs.SplitOrder
import Seedloop.Proofs.BindOrder
import Seedloop.Proofs.SplitBrain
import Seedloop.Proofs.Uncontested
import Seedloop.Proofs.Diagnostics
import Seedloop.Proofs.Sweep
import Seedloop.Proofs.Escapes
import Seedloop.Proofs.Honoured
import Seedloop.Proofs.SlowLinks
import Seedloop.Proofs.Interrupts
import Seedloop.Proofs.NodeFailures
import Seedloop.Proofs.FirstFailure
import Seedloop.Proofs.NetRuns
import Seedloop.Proofs.WireRuns
import Seedloop.Proofs.EndToEnd
import Seedloop.Proofs.DriveEnds
import Seedloop.Proofs.NodeRuns
import Seedloop.Proofs.NetElection
import Seedloop.Proofs.InTime
import Seedloop.Proofs.AtRest
import Seedloop.Proofs.RunsOnce
