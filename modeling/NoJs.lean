import NoJs.Lib.Machine
import NoJs.Lib.Heap
import NoJs.IoUring.Ring
import NoJs.IoUring.Submit
import NoJs.IoUring.Environment
import NoJs.IoUring.Loop
import NoJs.IoUring.Conservation
import NoJs.IoUring.Backlog
import NoJs.Async.EntryPoints
import NoJs.Async.Machine
import NoJs.Async.Reports
import NoJs.Async.Kernel
import NoJs.Lib.StdMap
import NoJs.Timer.Machine
import NoJs.Timer.Invariant
import NoJs.Timer.Accounting
import NoJs.Timer.Expiry
import NoJs.Timer.Finality
import NoJs.Timer.KernelTimers
import NoJs.Timer.Delivery
import NoJs.Signal.Interrupt
import NoJs.Signal.Machine
import NoJs.Signal.Listeners
import NoJs.Signal.Dispositions
import NoJs.Inotify.Machine
import NoJs.Inotify.Accounting
import NoJs.Lib.Multimap
import NoJs.Inotify.Table
import NoJs.Lib.Bytes
import NoJs.Inotify.Events
import NoJs.Inotify.Dispatch
import NoJs.Inotify.Masks
import NoJs.Lib.Utf16
import NoJs.Lib.Utf8
import NoJs.Lib.PlainObject
import NoJs.Inotify.Watch
import NoJs.Inotify.Changes
import NoJs.Buffer.Encode
import NoJs.Buffer.RoundTrip
import NoJs.Lib.Http1
import NoJs.Http.Response
import NoJs.Http.HeaderParser
import NoJs.Http.Feed
import NoJs.Http.Connection
import NoJs.Tcp.Write
import NoJs.Http.Messages
import NoJs.Lib.Cycles
import NoJs.Loader.Machine
import NoJs.Loader.Sharing
import NoJs.Loader.Termination
import NoJs.Util.Strings
import NoJs.Buffer.Decode
import NoJs.Http.BodyText
import NoJs.Http.ContentLength
import NoJs.Async.Steps
import NoJs.Tcp.Reads
import NoJs.Tcp.Accepts
import NoJs.Lib.Region
import NoJs.Async.Regions
import NoJs.Vm.Load
import NoJs.Vm.Source
import NoJs.Process.Env
import NoJs.Http.Head
import NoJs.Buffer.Strictness
import NoJs.IoUring.Rejection
import NoJs.Timer.Conversion
import NoJs.Async.Memory
import NoJs.Lib.Callbacks
import NoJs.Lib.NullObject
import NoJs.Events.Emitter
import NoJs.Events.Listeners
import NoJs.Events.Lists
import NoJs.Events.Emission
import NoJs.Events.Once
import NoJs.Events.Progress
import NoJs.Events.Announcements
import NoJs.Events.Leaks
import NoJs.IoUring.Ownership
import NoJs.Core.Machine
import NoJs.Core.Requests
import NoJs.Core.Operations
import NoJs.Core.Invariant
import NoJs.Core.Safety
import NoJs.Async.Entries
import NoJs.Http.Arrivals
import NoJs.Http.Serving
