import Unisock.Events.Poll
import Unisock.Raw.Receive
import Unisock.Udp.Socket

/-! Any number of `udp::socket` objects on one handler, with their hooks, as a machine: its state holds
the objects, the handler, `errno` and the stack of the functions that are being executed, and an input
is what the user code does next or what a system call returns.  The public functions of the objects and
`poll` can be called; those of the handler cannot be. -/

namespace Unisock.Udp

open Unisock.Address Unisock.Events
open Unisock.Raw (SocketEvent)

/-- The tags of the actions that are executed on a `udp::socket`: those of `basic_actions`, `RECVFROM`
of `raw::actions`, and `RECEIVE`, `BIND` and `CLOSED` of `udp::actions`. -/
inductive Tag
  | readable
  | writeable
  | closed
  | error
  | recvfrom
  | receive
  | bind
  | udpClosed
deriving DecidableEq, Repr

/-- What is registered on an object: a hook of the user, or a lambda of `init_socket`. -/
inductive Callback
  | user
  /-- `[this](){ this->recvfrom(); }` -/
  | recvfrom
  /-- `[this](addr, message, size){ this->execute<RECEIVE>(addr, message, size); }` -/
  | receive
  /-- `[this](){ this->execute<CLOSED>(this->address); }` -/
  | closed
deriving DecidableEq, Repr

/-- What the callbacks of an execution are called with.  A message is given as the bytes that the
pointer and the size describe. -/
inductive Arg
  | none
  /-- `(fn, errno)`: `execute` hands `errno` on by reference. -/
  | errno (fn : String)
  | error (fn : String) (number : Int)
  /-- `this->address`, which `execute` hands on by reference. -/
  | ownAddress
  | address (address : SocketAddress)
  | datagram (sender : SocketAddress) (message : List UInt8)
deriving DecidableEq

/-- A `udp::socket`.  The log of its descriptor has its last event first. -/
structure Object where
  sock : Int
  address : SocketAddress
  actions : Tag → Action Callback
  log : List SocketEvent

/-- The loop of `action::execute` on an object: its iterator and its end, as positions. -/
structure Execution where
  object : Nat
  tag : Tag
  pos : Nat
  stop : Nat
  arg : Arg
deriving DecidableEq

/-- The functions that hooks and the main program call, and the address, which they can assign. -/
inductive Call
  | openSocket (s : Nat)
  | bind (s : Nat) (port : Int) (useIPv6 : Bool)
  | close (s : Nat)
  | sendTo (s : Nat) (address : SocketAddress) (message : List UInt8)
  | on (s : Nat) (tag : Tag) (flags : UShort)
  | assign (s : Nat) (address : SocketAddress)
  | poll
deriving DecidableEq

/-- How the program ends up without a defined behaviour, or in a failed assertion. -/
inductive Crash
  | assertion
  /-- The loop of `execute` goes on over a list that has grown since it began. -/
  | invalidated
  | nullPointer
  /-- `poll_impl` reads outside of the vectors. -/
  | wild
deriving DecidableEq, Repr

/-- A function that is being executed, with what it still does once those above it have returned. -/
inductive Frame
  /-- A hook that was called with `arg`, and makes at most `calls` more calls. -/
  | hook (arg : Arg) (calls : Nat)
  | call (c : Call)
  | recvfrom (s : Nat)
  /-- `bind` after `open`. -/
  | binding (s : Nat) (port : Int) (useIPv6 : Bool)
  | execute (e : Execution)
  | polling (l : PollLoop)
  | crash (c : Crash)
deriving DecidableEq

/-- `this->execute<tag>(arg)` on an object, with the values that the arguments have then. -/
structure Started where
  object : Nat
  tag : Tag
  arg : Arg
deriving DecidableEq

/-- The state of the program.  The log has what was started last first. -/
structure World where
  objects : Nat → Object
  handler : Handler Nat
  descriptors : List Int
  errno : Int
  stack : List Frame
  log : List Started

/-- What the next step gets from the user code or from the system. -/
inductive Input
  | call (c : Call)
  /-- The hook returns, and has left this `errno`. -/
  | ret (errno : Int)
  /-- The hook that is called makes at most `calls` calls. -/
  | enter (calls : Nat)
  | go
  /-- `::socket` returns a descriptor, or fails with an `errno`. -/
  | opened (result : Except Int Int)
  /-- The resolver, `errno` if it fails, and what `::bind` returns on an open socket. -/
  | resolved (resolver : Resolver) (errno : Int) (bound : Except Int Unit)
  /-- `::sendto` fails with an `errno`, or sends a datagram with this address of the sender. -/
  | sent (result : Except Int (List UInt8))
  /-- `::recvfrom` fails with an `errno`, or takes this datagram, of which it gives the sender. -/
  | received (result : Except Int (List UInt8)) (payload : List UInt8)
  /-- `::close` leaves this `errno`. -/
  | closed (errno : Int)
  | polled (n : Int) (revents : List UShort)

namespace Object

/-- `action_handler::on`. -/
def on (x : Object) (tag : Tag) (exec : Callback) (flags : UShort) : Object :=
  { x with
    actions := fun t => if t = tag then (x.actions t).addCallback exec flags else x.actions t }

/-- `socket_impl::socket_impl`, with `init_socket`. -/
def new : Object :=
  ((Object.on { sock := -1, address := .empty, actions := fun _ => [], log := [] }
    .readable .recvfrom ActionFlag.default).on .recvfrom .receive ActionFlag.default).on
    .closed .closed ActionFlag.default

end Object

namespace World

/-- No socket has been opened. -/
def start (invalid : UShort) : World where
  objects _ := .new
  handler := { sockets := [], socketPtrs := [], invalid := invalid }
  descriptors := []
  errno := 0
  stack := []
  log := []

def push (w : World) (f : Frame) : World := { w with stack := f :: w.stack }

def setErrno (w : World) (errno : Int) : World := { w with errno := errno }

def setObject (w : World) (s : Nat) (x : Object) : World :=
  { w with objects := Function.update w.objects s x }

/-- The object as a `raw::socket`. -/
def base (w : World) (s : Nat) : Raw.Socket Nat where
  sock := (w.objects s).sock
  handler := w.handler
  descriptors := w.descriptors
  log := (w.objects s).log

/-- What a function of `raw::socket` leaves of the object. -/
def withBase (w : World) (s : Nat) (b : Raw.Socket Nat) : World :=
  { w with
    objects := Function.update w.objects s { w.objects s with sock := b.sock, log := b.log }
    handler := b.handler
    descriptors := b.descriptors }

/-- What a callback on the object `s` gets that is called now. -/
def passed (w : World) (s : Nat) : Arg → Arg
  | .errno fn => .error fn w.errno
  | .ownAddress => .address (w.objects s).address
  | arg => arg

/-- `execute<tag>(arg)` on an object. -/
def execute (w : World) (s : Nat) (tag : Tag) (arg : Arg) : World :=
  { w with log := ⟨s, tag, w.passed s arg⟩ :: w.log }.push
    (.execute ⟨s, tag, 0, ((w.objects s).actions tag).length, arg⟩)

/-- `execute<ERROR>(fn, errno)` on an object. -/
def error (w : World) (s : Nat) (fn : String) (errno : Int) : World :=
  (w.setErrno errno).execute s .error (.errno fn)

/-- The body of a callback of an execution. -/
def invoke (w : World) (e : Execution) (exec : Callback) (i : Input) : Option World :=
  match exec, e.arg, i with
  | .user, _, .enter calls => some (w.push (.hook (w.passed e.object e.arg) calls))
  | .recvfrom, _, .go => some (w.push (.recvfrom e.object))
  | .receive, .datagram sender message, .go =>
    some (w.execute e.object .receive (.datagram sender message))
  | .closed, _, .go => some (w.execute e.object .udpClosed .ownAddress)
  | _, _, _ => none

/-- One turn of the loop of `action::execute`, below whose frame the stack is that of `w`. -/
def resume (w : World) (e : Execution) (i : Input) : Option World :=
  if e.stop ≤ e.pos then some w
  else
    let executors := (w.objects e.object).actions e.tag
    if executors.length ≠ e.stop then some (w.push (.crash .invalidated))
    else
      let next := w.push (.execute { e with pos := e.pos + 1 })
      match (executors[e.pos]?).map ActionCallback.turn with
      | none => none
      | some .skip => some next
      | some (.last exec) => w.invoke e exec i
      | some (.call exec) => next.invoke e exec i

/-- `socket_impl::open`. -/
def openSocket (w : World) (s : Nat) (result : Except Int Int) : World :=
  if (w.objects s).sock < 0 then
    match (w.base s).openSocket s result, result with
    | (b, _), .ok _ => w.withBase s b
    | (b, _), .error errno => (w.withBase s b).error s "socket" errno
  else w

/-- `socket::close`, where `::close` leaves `errno`. -/
def close (w : World) (s : Nat) (errno : Int) : World :=
  if (w.objects s).sock < 0 then w
  else ((w.withBase s (w.base s).closeSocket).setErrno errno).execute s .closed .none

/-- `socket_impl::bind` from the resolution of the host on. -/
def bindRest (o : ByteOrder) (w : World) (s : Nat) (port : Int) (useIPv6 : Bool)
    (resolver : Resolver) (errno : Int) (bound : Except Int Unit) : World :=
  match resolveThenSetPort o resolver (w.objects s).address (UInt16.ofInt port) useIPv6 with
  | .failed => w.error s "addrinfo" errno
  | .value address =>
    let w := w.setObject s { w.objects s with address := address }
    match (if (w.objects s).sock < 0 then .error EBADF else bound : Except Int Unit) with
    | .error errno => w.error s "bind" errno
    | .ok () => w.execute s .bind .ownAddress
  | .thrown _ | .nullPointer => w.push (.crash .nullPointer)

/-- `raw::socket_impl::recvfrom`. -/
def recvfrom (w : World) (s : Nat) (result : Except Int (List UInt8)) (payload : List UInt8) :
    World :=
  match Raw.recvfrom (w.objects s).sock payload result with
  | some ([.recvfrom sender message size], _) =>
    w.execute s .recvfrom (.datagram sender (message.take size))
  | some ([.error fn errno], _) => w.error s fn errno
  | _ => w.push (.crash .assertion)

/-- `raw::socket_impl::send_to`. -/
def sendTo (w : World) (s : Nat) (result : Except Int (List UInt8)) : World :=
  if ¬ (w.objects s).sock > 0 then w.push (.crash .assertion)
  else
    match result with
    | .ok _ => w
    | .error errno => w.error s "sendto" errno

/-- One turn of the loop of `poll_impl`. -/
def pollNext (w : World) (l : PollLoop) : World :=
  match pollStep w.handler l with
  | .leave => w
  | .wild => w.push (.crash .wild)
  | .goOn next => w.push (.polling next)
  | .readable s next => (w.push (.polling next)).execute s .readable .none
  | .writeable s next => (w.push (.polling next)).execute s .writeable .none

/-- What `::socket` returns: a descriptor that is not open, or a failure. -/
def canOpen (w : World) : Except Int Int → Bool
  | .error _ => true
  | .ok fd => 0 ≤ fd && !w.descriptors.contains fd

/-- The first step of a call. -/
def perform (w : World) (c : Call) (i : Input) : Option World :=
  match c, i with
  | .openSocket s, .opened result => if w.canOpen result then some (w.openSocket s result) else none
  | .bind s port useIPv6, .opened result =>
    if (w.objects s).sock ≠ -1 then some (w.push (.crash .assertion))
    else if w.canOpen result then some ((w.push (.binding s port useIPv6)).openSocket s result)
    else none
  | .close s, .closed errno => some (w.close s errno)
  | .sendTo s _ _, .sent result => some (w.sendTo s result)
  | .on s tag flags, _ => some (w.setObject s ((w.objects s).on tag .user flags))
  | .assign s address, _ => some (w.setObject s { w.objects s with address := address })
  | .poll, .polled n revents =>
    if w.handler.empty then some w
    else if n == -1 || (revents.length == w.handler.sockets.length &&
        n == revents.countP (· != 0)) then
      -- a failing `::poll` leaves `revents` as it is
      let handler := if n < 0 then w.handler else w.handler.report revents
      some ({ w with handler := handler }.push (.polling (.start n)))
    else none
  | _, _ => none

/-- One step.  The main program makes calls while nothing is being executed. -/
def step (o : ByteOrder) (w : World) (i : Input) : Option World :=
  match w.stack with
  | [] =>
    match i with
    | .call c => some (w.push (.call c))
    | _ => none
  | f :: rest =>
    let below := { w with stack := rest }
    match f, i with
    | .hook arg (calls + 1), .call c => some ((below.push (.hook arg calls)).push (.call c))
    | .hook _ _, .ret errno => some (below.setErrno errno)
    | .call c, i => below.perform c i
    | .recvfrom s, .received result payload => some (below.recvfrom s result payload)
    | .binding s port useIPv6, .resolved resolver errno bound =>
      some (bindRest o below s port useIPv6 resolver errno bound)
    | .execute e, i => below.resume e i
    | .polling l, _ => some (below.pollNext l)
    | _, _ => none

end World

end Unisock.Udp
