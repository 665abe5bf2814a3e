import Eslang.Context.Backpressure
import Eslang.Context.Bonds
import Eslang.Context.Delivery
import Eslang.Context.EventLoop
import Eslang.Context.FutureWait
import Eslang.Context.Lifetime
import Eslang.Context.Lookup
import Eslang.Context.Notify
import Eslang.Context.Census
import Eslang.Context.Phases
import Eslang.Context.Pids
import Eslang.Context.QueueBound
import Eslang.Context.Receive
import Eslang.Context.Throttle
import Eslang.Tcp.Events
import Eslang.Tcp.Incoming
import Eslang.Tcp.Outgoing
import Eslang.Tcp.Ownership
import Eslang.Www.Chunks
import Eslang.Www.Disconnect
import Eslang.Coroutine.Circles
import Eslang.Coroutine.Refinement
import Eslang.Coroutine.Exceptions
import Eslang.Coroutine.Rooted
import Eslang.Coroutine.Yields
import Eslang.FutureCalls
import Eslang.Context.Safety
import Eslang.Context.Order
import Eslang.Context.Lives
import Eslang.Context.Spin
import Eslang.Coroutine.Frames
import Eslang.Www.Responses
