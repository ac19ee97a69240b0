import QWebServer.Lib.Run
import QWebServer.Lib.OrderedSet
import QWebServer.Timer.Model
import QWebServer.Timer.Order
import QWebServer.Timer.Good
import QWebServer.Timer.Delivery
import QWebServer.Timer.Wakeup
import QWebServer.IOManager.Model
import QWebServer.IOManager.Waiters
import QWebServer.IOManager.Bookkeeping
import QWebServer.IOManager.Idle
import QWebServer.IOManager.Resumption
import QWebServer.Schedular.Model
import QWebServer.Schedular.Moves
import QWebServer.Schedular.Hands
import QWebServer.Schedular.Exclusive
import QWebServer.Lib.Count
import QWebServer.Schedular.Ledger
import QWebServer.Schedular.Conservation
import QWebServer.Hook.Model
import QWebServer.Hook.Timeout
import QWebServer.Config.Listeners
import QWebServer.Timer.Sections
import QWebServer.Log.Formatter
import QWebServer.Log.Appender
import QWebServer.Log.Logger
import QWebServer.Log.Config
import QWebServer.IOManager.Resize
import QWebServer.Fd.Model
import QWebServer.Fd.Reuse
import QWebServer.Socket.Close
import QWebServer.Hook.Connect
import QWebServer.Hook.Established
import QWebServer.Workers.Model
import QWebServer.Workers.LostWakeup
import QWebServer.Workers.Stopping
import QWebServer.Config.LexicalCast
import QWebServer.Log.Codec
import QWebServer.Log.Root
import QWebServer.Log.Inheritance
import QWebServer.Fd.Sections
import QWebServer.Hook.Lifecycle
import QWebServer.Schedular.Affinity
import QWebServer.Socket.Model
import QWebServer.Socket.Ownership
import QWebServer.Fiber.Switch
import QWebServer.Fiber.Tracking
import QWebServer.Timer.Results
import QWebServer.Address.Model
import QWebServer.Address.Cidr
import QWebServer.Lib.Inet6Text
import QWebServer.Address.Order
import QWebServer.Address.Text
import QWebServer.Log.Scan
import QWebServer.Log.Grammar
import QWebServer.Address.Unix
import QWebServer.Mutex.Guard
import QWebServer.Address.Lookup
import QWebServer.IOManager.Wait
import QWebServer.Hook.Sleep
import QWebServer.Socket.Results
import QWebServer.Fd.Tables
import QWebServer.Config.Registry
import QWebServer.Lib.Locks
import QWebServer.Mutex.CASLock
import QWebServer.Mutex.Order
import QWebServer.Schedular.Fifo
import QWebServer.Thread.Start
import QWebServer.Hook.Transparent
import QWebServer.Log.Export
import QWebServer.Log.Restart
import QWebServer.Timer.Rate
import QWebServer.Workers.Drain
import QWebServer.Hook.Sleepers
import QWebServer.Address.Interfaces
import QWebServer.Log.Patterns
import QWebServer.Config.Lookups
