import ActorMachine.Chunk.Listing
import ActorMachine.Chunk.Writer
import ActorMachine.Command.Run
import ActorMachine.Heap.View
import ActorMachine.Main
import ActorMachine.Proofs.Execution
import ActorMachine.Word.Lemmas
import ActorMachine.Proofs.Allocation
import ActorMachine.Proofs.Checked
import ActorMachine.Proofs.Sizing
import ActorMachine.Proofs.Deliveries
import ActorMachine.Proofs.Instructions
import ActorMachine.Proofs.Records
import ActorMachine.Proofs.Reports
import ActorMachine.Proofs.Tables
import ActorMachine.Proofs.Intact
import ActorMachine.Proofs.Trailing
import ActorMachine.Proofs.StalePids
import ActorMachine.Proofs.Wakeups
import ActorMachine.Proofs.ProtectedCalls
import ActorMachine.Proofs.Containment
import ActorMachine.Proofs.Letters
import ActorMachine.Proofs.Isolation
import ActorMachine.Proofs.Calls
import ActorMachine.Proofs.Mailing
import ActorMachine.Proofs.Courses
import ActorMachine.Proofs.Fitting
import ActorMachine.Proofs.Posting
import ActorMachine.Proofs.Kills
import ActorMachine.Proofs.References
import ActorMachine.Proofs.Accounts
import ActorMachine.Proofs.Arrivals
import ActorMachine.Proofs.Contents
import ActorMachine.Proofs.Naming
import ActorMachine.Proofs.Suspensions
import ActorMachine.Proofs.Writing
import ActorMachine.Proofs.Lists
import ActorMachine.Proofs.Maps
import ActorMachine.Proofs.Sights
import ActorMachine.Proofs.Serving
import ActorMachine.Proofs.Growing
import ActorMachine.Proofs.Histories
import ActorMachine.Proofs.Answering
import ActorMachine.Proofs.Deeds
import ActorMachine.Proofs.GrowableLists
import ActorMachine.Proofs.FiniteMaps
import ActorMachine.Proofs.Doings
import ActorMachine.Proofs.Showing
import ActorMachine.Proofs.Tiling
import ActorMachine.Proofs.Loading
import ActorMachine.Proofs.Spawning
import ActorMachine.Proofs.Packing
import ActorMachine.Proofs.Comparing
