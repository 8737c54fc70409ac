import Zcrypto.Effects
import Zcrypto.Engine.ProbePlan
import Zcrypto.Engine.ExecGate
import Zcrypto.Engine.ExecLedger
import Zcrypto.Engine.Controller
import Zcrypto.Engine.Chokepoint
import Zcrypto.Engine.RowFigures
import Zcrypto.Engine.Acceptance
import Zcrypto.Engine.Revocation
import Zcrypto.Engine.Budget
import Zcrypto.Engine.KillReason
import Zcrypto.Engine.Freeze
import Zcrypto.Engine.DayLoss
import Zcrypto.Engine.StoreLaws
import Zcrypto.Engine.FlattenRun
import Zcrypto.Engine.FlattenSize
import Zcrypto.Engine.PlanRules
import Zcrypto.Engine.DraftHelper
import Zcrypto.Engine.DraftTrim
import Zcrypto.Engine.GateCacheSound
import Zcrypto.Engine.JournalTotal
import Zcrypto.Engine.CycleReplay
import Zcrypto.Capture.Moves
import Zcrypto.Capture.Durability
import Zcrypto.Registry.Torn
import Zcrypto.Archive.Splice
import Zcrypto.Capture.NoEarlyHour
import Zcrypto.Archive.Pruned
import Zcrypto.Trades.Paging
import Zcrypto.Archive.ReplayCache
import Zcrypto.Registry.AttemptsValid
import Zcrypto.Registry.ReconcileLaws
import Zcrypto.Registry.History
import Zcrypto.Registry.Shown
import Zcrypto.Tick.Floor
import Zcrypto.Tick.PublishedDay
import Zcrypto.Rolling.Holes
import Zcrypto.Rolling.Resume
import Zcrypto.DecimalText
import Zcrypto.Panel.Resume
import Zcrypto.Panel.FillHour
import Zcrypto.Panel.FillSessions
import Zcrypto.Panel.NoLookAhead
import Zcrypto.Liquidations.NoLostBucket
import Zcrypto.Engine.DraftDealt
import Zcrypto.Engine.DraftSizes
import Zcrypto.Engine.GateStreak
import Zcrypto.Engine.DriftPolicy
import Zcrypto.Capture.StoodDown
import Zcrypto.Capture.VenueWindow
import Zcrypto.Capture.LadderReach
import Zcrypto.Capture.GapMonitor
import Zcrypto.Archive.FanOut
import Zcrypto.Archive.FleetDark
import Zcrypto.Risk.LimitLaws
import Zcrypto.Risk.Cadence
import Zcrypto.Validation.Cpcv
import Zcrypto.Engine.SoakNet
import Zcrypto.Panel.Primitives
import Zcrypto.Backfill.Aggregate
import Zcrypto.Derivatives.Backfill
import Zcrypto.Registry.ObservedRuns
import Zcrypto.Capture.ResubscribeRuns
import Zcrypto.Engine.SoakWindow
import Zcrypto.Portfolio.Causal
import Zcrypto.Portfolio.FastAgrees
import Zcrypto.Logging.Ship
