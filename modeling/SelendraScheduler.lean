import SelendraScheduler.Primitives
import SelendraScheduler.ClaimQueue
import SelendraScheduler.Session
import SelendraScheduler.Rotation
import SelendraScheduler.Schedule
import SelendraScheduler.Lookahead
import SelendraScheduler.Protocol
import SelendraScheduler.Merge
import SelendraScheduler.ScheduleSpec
import SelendraScheduler.BlockSpec
import SelendraScheduler.Invariants
import SelendraScheduler.ClaimIndex
import SelendraScheduler.Safety
import SelendraScheduler.Layout
import SelendraScheduler.Groups
import SelendraScheduler.LookaheadSpec
import SelendraScheduler.QueueEntries
import SelendraScheduler.BlockResults
import SelendraScheduler.SessionResult
import SelendraScheduler.Lifecycle
import SelendraScheduler.Ledger
import SelendraScheduler.QueueOrder
