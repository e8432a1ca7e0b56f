import AbtSt.Traced
import AbtSt.Model
import AbtSt.Stream
import AbtSt.Migration
import AbtSt.Stats
import AbtSt.Rebalance
import AbtSt.Shape
import AbtSt.Fresh
import AbtSt.RebStep
import AbtSt.TwoEnds
import AbtSt.Sorted
import AbtSt.Pass
import AbtSt.Labels
import AbtSt.Startup
import AbtSt.Placement
import AbtSt.Mapped
import AbtSt.Runs
import AbtSt.Depth
import AbtSt.Power
import AbtSt.Level1
import AbtSt.Level2
import AbtSt.Sched
import AbtSt.Sites
import AbtSt.Lockless
import AbtSt.Shutdown
import AbtSt.Env
import AbtSt.Locality
import AbtSt.Cores
import AbtSt.ListHead
import AbtSt.Requests
import AbtSt.Boot
import AbtSt.Outcome
import AbtSt.Peak
import AbtSt.Level3
import AbtSt.RoundRobin
import AbtSt.Hash
import AbtSt.Mappings
import AbtSt.Defined
import AbtSt.Removal
import AbtSt.Vacate
import AbtSt.Pairing
import AbtSt.Idle
import AbtSt.Batch
import AbtSt.Lap
import AbtSt.Round
import AbtSt.Chains
import AbtSt.ReqFine
import AbtSt.Finalize
import AbtSt.IoOrder
import AbtSt.IoCount
import AbtSt.Borrowed
import AbtSt.Regulate
import AbtSt.Imbalance
import AbtSt.Coverage
import AbtSt.Isolation
import AbtSt.IoSlots
