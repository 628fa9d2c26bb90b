import IosSystem.Pid.Siblings
import IosSystem.PidAlloc.Distinct
import IosSystem.Session.Findable
import IosSystem.Session.CancelPipe
import IosSystem.Shell.Cancel
import IosSystem.Pid.Fork
import IosSystem.Pid.Owner
import IosSystem.Shell.CaptureThreads
import IosSystem.Pipe.Popen
import IosSystem.Shell.Mutex
import IosSystem.Session.KeptAlive
import IosSystem.Env.Registry
import IosSystem.Interp.Forced
import IosSystem.Pid.LockOrder
import IosSystem.Pid.Drain
import IosSystem.Command.Cache
import IosSystem.Command.Libraries
import IosSystem.Interp.Python
import IosSystem.Interp.Handles
import IosSystem.Async.Timeout
import IosSystem.Async.Stable
import IosSystem.Async.Once
import IosSystem.Async.Pair
import IosSystem.Shell.Stages
import IosSystem.Shell.Structure
import IosSystem.Shell.AndOr
import IosSystem.ThreadPool.Cancel
import IosSystem.ThreadPool.Backpressure
import IosSystem.ThreadPool.Drain
import IosSystem.Pipeline.Failures
import IosSystem.Command.Ownership
import IosSystem.Command.Interpreter
import IosSystem.Command.NameStack
import IosSystem.Pipeline.JoinFlag
import IosSystem.Pipe.Ownership
import IosSystem.Shell.Joints
import IosSystem.Shell.ParseArgument
import IosSystem.Libc.Sleep
import IosSystem.Env.Map
import IosSystem.PidAlloc.Cleanup
import IosSystem.Interp.Configure
import IosSystem.Env.CopyLocks
import IosSystem.PidAlloc.Recycle
import IosSystem.Pipe.Queue
import IosSystem.Interp.Available
import IosSystem.Shell.CaptureBuffer
import IosSystem.Shell.Semicolons
import IosSystem.Pid.Waitpid
import IosSystem.Pid.Handed
import IosSystem.Directory.Normal
import IosSystem.Shell.Unescape
import IosSystem.Shell.Wildcards
