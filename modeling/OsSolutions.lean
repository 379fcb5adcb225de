import OsSolutions.Transition.Exhaustion
import OsSolutions.Transition.Registers
import OsSolutions.Transition.Run
import OsSolutions.Transition.Simulation
import OsSolutions.Transition.Tally
import OsSolutions.Storage.Ring
import OsSolutions.Storage.Transactions
import OsSolutions.Pointers.Chain
import OsSolutions.Pointers.Count
import OsSolutions.Pointers.Forest
import OsSolutions.Plane.Shoelace
import OsSolutions.Source.CString
import OsSolutions.Source.File
import OsSolutions.Source.Log
import OsSolutions.Source.Pipe
import OsSolutions.Source.Polygon
import OsSolutions.Source.PolygonArea
import OsSolutions.Source.Proc
import OsSolutions.Source.ProdCons
import OsSolutions.Source.Ps
import OsSolutions.Source.Readers
import OsSolutions.Source.Sem
import OsSolutions.Source.Stdio
import OsSolutions.Source.SysSem
import OsSolutions.Source.Writer
import OsSolutions.Model.Calls
import OsSolutions.Model.FileMachine
import OsSolutions.Model.KernelMachine
import OsSolutions.Model.LogMachine
import OsSolutions.Model.PipeMachine
import OsSolutions.Model.PolygonLoop
import OsSolutions.Model.ProdConsMachine
import OsSolutions.Model.PsCall
import OsSolutions.Model.PsMachine
import OsSolutions.Model.PsWalk
import OsSolutions.Model.ReaderMachine
import OsSolutions.Model.SlotMachine
import OsSolutions.Model.StreamMachine
import OsSolutions.Model.TableCalls
import OsSolutions.Model.TableMachine
import OsSolutions.Verification.String.Names
import OsSolutions.Verification.Sem.Count
import OsSolutions.Verification.Sem.Naming
import OsSolutions.Verification.Sem.Sections
import OsSolutions.Verification.Slot.Alone
import OsSolutions.Verification.Slot.Atomicity
import OsSolutions.Verification.Slot.Conservation
import OsSolutions.Verification.Slot.Steps
import OsSolutions.Verification.Slot.Wakeup
import OsSolutions.Verification.Table.Alone
import OsSolutions.Verification.Table.Identity
import OsSolutions.Verification.Table.Ownership
import OsSolutions.Verification.Table.Steps
import OsSolutions.Verification.Table.Unlinkers
import OsSolutions.Verification.Calls.Linked
import OsSolutions.Verification.Calls.Unlink
import OsSolutions.Verification.Kernel.Backed
import OsSolutions.Verification.Kernel.Descriptors
import OsSolutions.Verification.Kernel.Failures
import OsSolutions.Verification.Kernel.Lifecycle
import OsSolutions.Verification.Kernel.Recycling
import OsSolutions.Verification.ProdCons.Barrier
import OsSolutions.Verification.ProdCons.Control
import OsSolutions.Verification.ProdCons.Creation
import OsSolutions.Verification.ProdCons.Descriptors
import OsSolutions.Verification.ProdCons.Leaving
import OsSolutions.Verification.ProdCons.Ledger
import OsSolutions.Verification.ProdCons.Progress
import OsSolutions.Verification.ProdCons.Sleepers
import OsSolutions.Verification.ProdCons.Steps
import OsSolutions.Verification.Text.Hex
import OsSolutions.Verification.Text.Progress
import OsSolutions.Verification.Polygon.Area
import OsSolutions.Verification.Polygon.Endless
import OsSolutions.Verification.Polygon.Fields
import OsSolutions.Verification.Polygon.Meaning
import OsSolutions.Verification.Polygon.Vertices
import OsSolutions.Verification.Readers.Balance
import OsSolutions.Verification.Readers.Course
import OsSolutions.Verification.Readers.Endless
import OsSolutions.Verification.Readers.Handoff
import OsSolutions.Verification.Readers.Lockstep
import OsSolutions.Verification.Readers.Output
import OsSolutions.Verification.Readers.Passes
import OsSolutions.Verification.Readers.Shutdown
import OsSolutions.Verification.Readers.Steps
import OsSolutions.Verification.Ps.Buffer
import OsSolutions.Verification.Ps.Consistency
import OsSolutions.Verification.Ps.Entries
import OsSolutions.Verification.Ps.Garbage
import OsSolutions.Verification.Ps.Listing
import OsSolutions.Verification.Ps.Tree
import OsSolutions.Verification.Writer.Copy
import OsSolutions.Verification.Log.Atomicity
import OsSolutions.Verification.Log.Blocks
import OsSolutions.Verification.Log.Control
import OsSolutions.Verification.Log.Durability
import OsSolutions.Verification.Log.Progress
import OsSolutions.Verification.Log.Recovery
import OsSolutions.Verification.Log.Refinement
import OsSolutions.Verification.Log.Room
import OsSolutions.Verification.Log.Steps
import OsSolutions.Verification.Pipe.Buffer
import OsSolutions.Verification.Pipe.Sleepers
import OsSolutions.Verification.Pipe.Steps
import OsSolutions.Verification.Pipe.Stream
import OsSolutions.Verification.File.Ends
import OsSolutions.Verification.File.Pipelines
import OsSolutions.Verification.File.Places
import OsSolutions.Verification.File.References
import OsSolutions.Verification.File.Rules
import OsSolutions.Verification.File.Safety
import OsSolutions.Verification.File.Steps
import OsSolutions.Verification.File.Streams
import OsSolutions.Verification.File.Tables
