import MvccLite.Calls.Conflicts
import MvccLite.Calls.FirstCommitter
import MvccLite.Calls.Quiescent
import MvccLite.Calls.Retention
import MvccLite.Calls.Serial
import MvccLite.Calls.Unobservable
import MvccLite.Collector.Completion
import MvccLite.Store.Uint64
import MvccLite.Threads.Accounting
import MvccLite.Threads.Counting
import MvccLite.Threads.Effects
import MvccLite.Threads.LostUpdate
import MvccLite.Threads.Refinement
import MvccLite.Threads.Scans
import MvccLite.Threads.Updates
import MvccLite.Txn.Baseline
import MvccLite.Txn.Batches
