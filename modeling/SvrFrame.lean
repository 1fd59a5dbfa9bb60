import SvrFrame.Library.Machine
import SvrFrame.Library.Tally
import SvrFrame.Library.Fair
import SvrFrame.Fiber
import SvrFrame.Fiber.Rounds
import SvrFrame.Fiber.Yields
import SvrFrame.Fiber.Reuse
import SvrFrame.Fiber.Lifetimes
import SvrFrame.Scheduler.Model
import SvrFrame.Scheduler.Steps
import SvrFrame.Scheduler.Batch
import SvrFrame.Scheduler.Drain
import SvrFrame.Scheduler.Exclusive
import SvrFrame.Scheduler.Queue
import SvrFrame.Scheduler.Stale
import SvrFrame.Scheduler.Idle
import SvrFrame.Scheduler.Counters
import SvrFrame.Scheduler.Startup
import SvrFrame.Scheduler.Cycles
import SvrFrame.Scheduler.Quiescence
import SvrFrame.Scheduler.Ledger
import SvrFrame.Scheduler.Owners
import SvrFrame.Scheduler.Affinity
import SvrFrame.Scheduler.Passage
import SvrFrame.Scheduler.Switcher
import SvrFrame.Scheduler.Progress
import SvrFrame.Scheduler.Shutdown
import SvrFrame.Scheduler.Termination
import SvrFrame.Scheduler.Contexts
import SvrFrame.Scheduler.Fifo
import SvrFrame.Thread
import SvrFrame.Scheduler.Launch
import SvrFrame.Config.Notify
import SvrFrame.Config.Listeners
import SvrFrame.Config.Updates
import SvrFrame.Config.ListenerIds
import SvrFrame.Config.Reentry
import SvrFrame.Library.OrdSet
import SvrFrame.Library.LockProg
import SvrFrame.Library.Rely
import SvrFrame.Library.Guarded
import SvrFrame.Log.Formatter
import SvrFrame.Log.Appender
import SvrFrame.Log.Recovery
import SvrFrame.Yaml.Node
import SvrFrame.Yaml.Flow
import SvrFrame.Library.Descent
import SvrFrame.Yaml.Graph
import SvrFrame.Config.Aliases
import SvrFrame.Log.Define
import SvrFrame.Log.Logger
import SvrFrame.Config.Codec
import SvrFrame.Log.Dump
import SvrFrame.Log.View
import SvrFrame.Log.Deliver
import SvrFrame.Log.Dispatch
import SvrFrame.Log.Inherit
import SvrFrame.Log.Listener
import SvrFrame.Log.Setup
import SvrFrame.Log.Reconfigure
import SvrFrame.Config.Load
import SvrFrame.Config.Reload
import SvrFrame.Log.Threshold
import SvrFrame.Log.Render
import SvrFrame.Config.Registry
import SvrFrame.Config.LookUp
import SvrFrame.Config.Statics
import SvrFrame.Config.Lowercase
import SvrFrame.Config.Paths
import SvrFrame.Library.KeySet
import SvrFrame.Config.Containers
import SvrFrame.Yaml.Plain
import SvrFrame.Config.Nested
import SvrFrame.Config.Kinds
import SvrFrame.Config.Strings
import SvrFrame.Log.Pattern
import SvrFrame.Log.Reading
import SvrFrame.Log.Order
import SvrFrame.Log.Bounds
import SvrFrame.Log.Escape
import SvrFrame.Log.Date
import SvrFrame.Locking.Log
import SvrFrame.Locking.Config
import SvrFrame.Locking.Sequential
import SvrFrame.Locking.Calls
import SvrFrame.Locking.Guarded
import SvrFrame.Locking.Scope
