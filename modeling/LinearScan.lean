import LinearScan.Encoding.Index
import LinearScan.Routine.Print
import LinearScan.Report
import LinearScan.Check.Log
import LinearScan.Snapshot.Document
import LinearScan.Main
import LinearScan.Proofs.Move.Rings
import LinearScan.Proofs.Check.Acceptance
import LinearScan.Proofs.Crowd
import LinearScan.Proofs.TracePlans.Given
import LinearScan.Proofs.TracePlans.Maximal
import LinearScan.Proofs.Relocation
import LinearScan.Proofs.Scan.Forward
import LinearScan.Proofs.Permitted
import LinearScan.Proofs.Generated
import LinearScan.Proofs.Snapshot.Bytes
import LinearScan.Proofs.Listing.Complete
import LinearScan.Proofs.Roots.LivePoints
import LinearScan.Proofs.Snapshot.Replay
import LinearScan.Proofs.RangeSet.Tree
import LinearScan.Proofs.TracePlans.Edges
import LinearScan.Proofs.Roots.Dues
import LinearScan.Proofs.ControlFlow.LoopDepth
import LinearScan.Proofs.Range.Search
import LinearScan.Proofs.IndexSet.Changes
