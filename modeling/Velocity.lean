import Velocity.Queue.RetryBudget
import Velocity.Queue.SharedCounters
import Velocity.Queue.MemoryWorkers
import Velocity.Queue.BatchRefinement
import Velocity.Queue.BatchExclusion
import Velocity.Queue.RedisDelayed
import Velocity.Queue.CallbackDispatch
import Velocity.Router.Priority
import Velocity.Router.StaticRoutes
import Velocity.Router.SignedRoundTrip
import Velocity.ClientIP.Extract
import Velocity.Scheduler.Tick
import Velocity.Scheduler.Locker
import Velocity.Scheduler.Dispatch
import Velocity.Router.Groups
import Velocity.Cache.SetExpiry
import Velocity.Cache.Remember
import Velocity.Crypto.Authenticity
import Velocity.Auth.RefreshOnce
import Velocity.Auth.Throttle
import Velocity.Session.SignOutEverywhere
import Velocity.Session.StoreAgreement
import Velocity.Session.MergedSaves
import Velocity.Session.FlashRuns
import Velocity.Orm.MigrationLock
import Velocity.Orm.MigrationHistory
import Velocity.Orm.Transaction
import Velocity.HttpClient.Redirects
import Velocity.Websocket.Connections
import Velocity.Queue.BatchReadbacks
import Velocity.Queue.RedisKeys
import Velocity.Scheduler.NextRun
import Velocity.HttpClient.IPClass
import Velocity.Scheduler.Fluent
import Velocity.Router.RateLimit
import Velocity.Crypto.CallerMemory
import Velocity.Auth.Totp
import Velocity.Events.KeyedTimers
import Velocity.Log.Rotation
import Velocity.Str.Glob
