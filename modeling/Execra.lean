import Execra.Foundation.Transition
import Execra.Foundation.Program
import Execra.Foundation.Lines
import Execra.Foundation.Brackets
import Execra.Foundation.Utf8
import Execra.Foundation.Like
import Execra.Foundation.Broadcast
import Execra.Foundation.JsonTree
import Execra.Foundation.Hyphenated
import Execra.Foundation.Blocks
import Execra.Model.Data
import Execra.Model.Event
import Execra.Model.Store
import Execra.Model.Query
import Execra.Model.Pipe
import Execra.Model.ProcGroup
import Execra.Model.Driver
import Execra.Model.Wait
import Execra.Model.Machine
import Execra.Job.Moves
import Execra.Job.Ledger
import Execra.Job.Rules
import Execra.Job.Loop
import Execra.Job.Lifecycle
import Execra.Job.Tasks
import Execra.Job.Wire
import Execra.Job.Snapshot
import Execra.Job.Phases
import Execra.Job.Recording
import Execra.Job.Verdict
import Execra.Job.Mirror
import Execra.Job.Nesting
import Execra.Job.TwoRun
import Execra.Job.Cancellation
import Execra.Job.Signals
import Execra.Job.Agreement
import Execra.Job.TakeDown
import Execra.Job.Output
import Execra.Job.Course
import Execra.Job.Duties
import Execra.Job.History
import Execra.Job.Clock
import Execra.Job.Ordering
import Execra.Job.Observer
import Execra.Store.Decode
import Execra.Store.Listing
import Execra.Store.JsonText
import Execra.Store.Tags
import Execra.Model.Runtime
import Execra.Model.Float
import Execra.Model.Interpret
import Execra.Model.Forwarder
import Execra.Model.Rounding
import Execra.Model.App
import Execra.Model.Serde
import Execra.Runtime.Permits
import Execra.Runtime.Queue
import Execra.Runtime.Rows
import Execra.Runtime.Recovery
import Execra.Runtime.Sharing
import Execra.Store.Findings
import Execra.Store.Queries
import Execra.Store.Payload
import Execra.Runtime.Opening
import Execra.Job.Protocol
import Execra.Job.Calls
import Execra.Job.Account
import Execra.Job.Isolation
import Execra.Job.Flat
import Execra.Job.Sinks
import Execra.Runtime.RawOutput
import Execra.Runtime.Creep
import Execra.Runtime.Channel
import Execra.Runtime.Forwarding
import Execra.Interpret.Run
import Execra.Interpret.Notes
import Execra.Interpret.Fallback
import Execra.Interpret.Streams
import Execra.Interpret.Template
import Execra.Interpret.Progress
import Execra.Model.Cli
import Execra.Runtime.Printing
import Execra.Model.RawLog
import Execra.Runtime.Archiving
import Execra.Runtime.Ticker
import Execra.Model.Reader
import Execra.Job.Decoding
import Execra.Foundation.Fairness
import Execra.Job.Turns
import Execra.Job.Liveness
import Execra.Job.Deadlines
import Execra.Runtime.Liveness
import Execra.Runtime.Semaphore
import Execra.Runtime.Deliveries
import Execra.Interpret.Messages
import Execra.Job.Interpretation
import Execra.Model.Registry
import Execra.Runtime.Registry
import Execra.Runtime.Restart
import Execra.Model.Progress
import Execra.Job.Typing
import Execra.Runtime.Legible
import Execra.Foundation.Foremost
import Execra.Runtime.Recent
import Execra.Runtime.Observers
import Execra.Foundation.Pool
import Execra.Runtime.Pool
import Execra.Job.Filing
import Execra.Runtime.Histories
import Execra.Model.Inspect
import Execra.Runtime.Replays
import Execra.Model.JobObject
import Execra.Job.WindowsMirror
import Execra.Job.WindowsTree
import Execra.Runtime.Returning
