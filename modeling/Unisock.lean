import Unisock.Lib.Machine
import Unisock.Lib.Parallel
import Unisock.Events.Action
import Unisock.Events.Handler
import Unisock.Events.Poll
import Unisock.Tcp.Connection
import Unisock.Tcp.Stream
import Unisock.Events.Round
import Unisock.Events.Dispatch
import Unisock.Events.Service
import Unisock.Tcp.Memory
import Unisock.Tcp.World
import Unisock.Tcp.Step
import Unisock.Tcp.Registry
import Unisock.Tcp.Frames
import Unisock.Tcp.Alive
import Unisock.Tcp.Lifecycle
import Unisock.Tcp.Closing
import Unisock.Tcp.CloseLoop
import Unisock.Tcp.Script
import Unisock.Events.Order
import Unisock.Events.Plain
import Unisock.Events.Session
import Unisock.Raw.Socket
import Unisock.Tcp.Flush
import Unisock.Tcp.Erasing
import Unisock.Tcp.Installed
import Unisock.Tcp.ServerClose
import Unisock.Tcp.Rollback
import Unisock.Tcp.Subjects
import Unisock.Tcp.GivenUp
import Unisock.Address.Storage
import Unisock.Address.Resolve
import Unisock.Lib.InetText
import Unisock.Address.Text
import Unisock.Events.Bindings
import Unisock.Events.Registering
import Unisock.Raw.Receive
import Unisock.Tcp.Errno
import Unisock.Udp.Socket
import Unisock.Lib.Observed
import Unisock.Tcp.Delivery
import Unisock.Tcp.Interest
import Unisock.Tcp.EventLoop
import Unisock.Udp.World
import Unisock.Udp.Notices
import Unisock.Tcp.Rounds
import Unisock.Events.Replay
import Unisock.Tcp.Dispatching
import Unisock.Address.Printed
import Unisock.Lib.Network
import Unisock.Udp.Exchange
