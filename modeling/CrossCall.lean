import CrossCall.Callable.Registry
import CrossCall.Callable.Table
import CrossCall.Concurrent.Alone
import CrossCall.Delegate.Uses
import CrossCall.Proofs.Call.Getaway
import CrossCall.Proofs.Call.Interference
import CrossCall.Proofs.Call.Phases
import CrossCall.Proofs.Callable.Conduct
import CrossCall.Proofs.Callers.Charges
import CrossCall.Proofs.Milliseconds
import CrossCall.Proofs.Script.Calling
import CrossCall.Proofs.Script.Nested
import CrossCall.Proofs.Script.Record
import CrossCall.Proofs.Signal.Deadlines
import CrossCall.Proofs.Signal.Wakeups
import CrossCall.Proofs.Worker.Loading
import CrossCall.Proofs.Worker.Snapshot
import CrossCall.Script.Play
import CrossCall.Value.Reader
