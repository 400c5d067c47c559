import Acnet.Framework.Machine
import Acnet.Framework.Fair
import Acnet.Framework.Threads
import Acnet.Framework.Word
import Acnet.Framework.Fifo
import Acnet.Framework.Counted
import Acnet.Framework.Placement
import Acnet.Framework.Traced
import Acnet.Framework.Alone
import Acnet.Framework.CString
import Acnet.Framework.Memory
import Acnet.Framework.Shared
import Acnet.Queue.MailQueue
import Acnet.Queue.Mpsc
import Acnet.Queue.Publication
import Acnet.Queue.Refinement
import Acnet.MailBox.MailBox
import Acnet.MailBox.Wakeup
import Acnet.MailBox.Consumption
import Acnet.MailBox.Delivery
import Acnet.MailBox.Reuse
import Acnet.Queue.SpscMemory
import Acnet.Queue.MailMemory
import Acnet.MailBox.Memory
import Acnet.MailBox.HandOver
import Acnet.Queue.WorkStealing
import Acnet.Queue.Stealing
import Acnet.Queue.DequeMemory
import Acnet.Queue.DequeSafety
import Acnet.Queue.Spsc
import Acnet.Queue.Counters
import Acnet.Queue.Sequential
import Acnet.Scheduler.GlobalQueue
import Acnet.Scheduler.Scheduler
import Acnet.Scheduler.Parking
import Acnet.Scheduler.Conservation
import Acnet.Scheduler.Tracking
import Acnet.Scheduler.Turn
import Acnet.Scheduler.Progress
import Acnet.Scheduler.Fairness
import Acnet.Scheduler.Shutdown
import Acnet.Manager.Handlers
import Acnet.Manager.Effect
import Acnet.Manager.Morphism
import Acnet.Manager.Manager
import Acnet.Manager.Step
import Acnet.Manager.Ledger
import Acnet.Manager.Frame
import Acnet.Manager.SingleConsumer
import Acnet.Manager.StaleStop
import Acnet.Manager.Relaunch
import Acnet.Manager.ReloadAll
import Acnet.Manager.Delivery
import Acnet.Manager.Shutdown
import Acnet.Manager.LoopEnd
import Acnet.Manager.Termination
import Acnet.Manager.HotReload
import Acnet.Manager.Library
import Acnet.Manager.Owners
import Acnet.Manager.Lifetime
import Acnet.Supervisor.Supervisor
import Acnet.Supervisor.Step
import Acnet.Supervisor.Books
import Acnet.Supervisor.Refinement
import Acnet.Supervisor.History
import Acnet.Supervisor.References
import Acnet.Task.Completion
import Acnet.Actor.Launch
import Acnet.Actor.Containment
import Acnet.Actor.Simulation
import Acnet.Actor.RunCoroutine
import Acnet.EventBus.EventBus
import Acnet.EventBus.Coherence
import Acnet.EventBus.Ownership
import Acnet.EventBus.Lifetime
import Acnet.Control.ControlFile
import Acnet.Control.Signal
