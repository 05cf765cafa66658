import Mathlib.Data.List.Count
import Unisock.Events.Round
import Unisock.Tcp.Memory

/-! Servers, clients and their hooks as a machine.  Its state holds the memory, the hooks of the
owners, `errno`, what was returned last, and the stack of the functions that are being executed; an
input is what the user code does next or what a system call returns.  `on`, `poll` and the functions of
servers, clients, containers and elements can be called; those of the handler cannot be. -/

namespace Unisock.Tcp

open Unisock.Events

/-- What the callbacks of an execution are called with. -/
inductive Arg
  | none
  | connection (p : SockPtr)
  | message (p : SockPtr) (bytes : Bytes)
  | bytes (bytes : Bytes)
  /-- `(fn, errno)`: `execute` hands `errno` on by reference. -/
  | errno (fn : String)
  | error (fn : String) (number : Int)
deriving DecidableEq, Repr

/-- An action list: of an element, or of a server or client. -/
inductive ActionList
  | socket (p : SockPtr) (action : SocketAction)
  | owner (o : Owner) (action : OwnerAction)
deriving DecidableEq, Repr

/-- The loop of `action::execute`: its iterator and the end that it compares with, as positions. -/
structure Execution where
  list : ActionList
  pos : Nat
  stop : Nat
  arg : Arg
deriving DecidableEq, Repr

/-- The functions that hooks and the main program call. -/
inductive Call
  | listen (server : Nat)
  | connect (client : Nat)
  | accept (p : SockPtr)
  | send (p : SockPtr) (message : Bytes)
  | sendFlush (p : SockPtr)
  | recv (p : SockPtr)
  | close (p : SockPtr)
  | closeContainer (container : Container)
  | closeOwner (o : Owner)
  | on (p : SockPtr) (action : SocketAction) (flags : UShort)
  | onOwner (o : Owner) (action : OwnerAction) (flags : UShort)
  | poll
deriving DecidableEq, Repr

/-- The calls of `listen` and `connect` that can fail after `make_socket`. -/
inductive SetUpStep
  | addrinfo
  | bind
  | listen
  | connect
deriving DecidableEq, Repr

/-- How the program ends up without a defined behaviour, or in a failed assertion. -/
inductive Crash
  /-- An erased element is used. -/
  | dangling
  /-- The loop of `execute` goes on over a list that has grown since it began. -/
  | invalidated
  | assertion
  /-- `poll_impl` reads outside of the vectors. -/
  | wild
deriving DecidableEq, Repr

/-- A function that is being executed, with what it still does once those above it have returned. -/
inductive Frame
  /-- A hook that was called with `arg`, and makes at most `calls` more calls. -/
  | hook (arg : Arg) (calls : Nat)
  | call (c : Call)
  | execute (e : Execution)
  /-- `this->execute<ERROR>(fn, errno)`. -/
  | raise (o : Owner) (fn : String)
  /-- The loop of `socket_container::close`. -/
  | closing (container : Container)
  /-- `listen` after `make_socket`. -/
  | listening (p : SockPtr)
  /-- `connect` after `make_socket`. -/
  | connecting (p : SockPtr)
  | polling (l : PollLoop)
  /-- The `return` of `listen` or `connect`. -/
  | returning (result : Bool)
  | crash (c : Crash)
deriving DecidableEq, Repr

/-- What can be observed of a run. -/
inductive Event
  /-- `make_socket` is called with `fd` from the system, and makes this socket. -/
  | obtained (container : Container) (fd : Int) (socket : Option SockPtr)
  /-- `handler->delete_socket(fd)`. -/
  | removed (p : SockPtr) (fd : Int)
  /-- `::close(fd)`. -/
  | shut (p : SockPtr) (fd : Int)
  | erased (p : SockPtr)
  /-- `this->execute<action>(arg)` on a server or client. -/
  | started (o : Owner) (action : OwnerAction) (arg : Arg)
  /-- `::send` accepted these bytes. -/
  | wrote (p : SockPtr) (bytes : Bytes)
deriving DecidableEq, Repr

/-- The state of the program.  The hooks of the owners are kept by their flags, `returned` is what the
last of `listen`, `connect` and `poll` has returned, and the log has its last event first. -/
structure World where
  mem : Memory
  owners : Owner → OwnerAction → Action Unit
  errno : Int
  returned : Option Bool
  stack : List Frame
  log : List Event

/-- What the next step gets from the user code or from the system. -/
inductive Input
  | call (c : Call)
  /-- The hook returns, and has left this `errno`. -/
  | ret (errno : Int)
  /-- The hook that is called makes at most `calls` calls. -/
  | enter (calls : Nat)
  | go
  /-- `::socket` or `::accept` returns a descriptor, or fails with an `errno`. -/
  | opened (result : Except Int Int)
  /-- The call of `listen` or `connect` that fails, with its `errno`, if any does. -/
  | setUp (failure : Option (SetUpStep × Int))
  | sent (result : Int) (errno : Int)
  | received (result : Except Int Bytes)
  /-- `::close` leaves this `errno`. -/
  | closed (errno : Int)
  | polled (n : Int) (revents : List UShort)

namespace World

/-- No socket is open yet and the main program runs. -/
def start (owners : Owner → OwnerAction → Action Unit) (invalid : UShort) : World where
  mem := .empty invalid
  owners := owners
  errno := 0
  returned := none
  stack := []
  log := []

def push (w : World) (f : Frame) : World := { w with stack := f :: w.stack }

def note (w : World) (e : Event) : World := { w with log := e :: w.log }

def setErrno (w : World) (errno : Int) : World := { w with errno := errno }

def setReturned (w : World) (result : Bool) : World := { w with returned := some result }

/-! ### Executing action lists -/

/-- `execute<action>(arg)` on a server or client. -/
def executeOwner (w : World) (o : Owner) (action : OwnerAction) (arg : Arg) : World :=
  (w.note (.started o action arg)).push
    (.execute ⟨.owner o action, 0, (w.owners o action).length, arg⟩)

/-- `execute<ERROR>(fn, errno)` on a server or client. -/
def error (w : World) (o : Owner) (fn : String) : World :=
  w.executeOwner o .error (.errno fn)

/-- `f` of the element that `p` points to. -/
def access (w : World) (p : SockPtr) (f : Connection → World) : World :=
  match w.mem.deref p with
  | none => w.push (.crash .dangling)
  | some c => f c

/-- `execute<action>(arg)` on an element. -/
def executeSocket (w : World) (p : SockPtr) (action : SocketAction) (arg : Arg) : World :=
  w.access p fun c => w.push (.execute ⟨.socket p action, 0, (c.actions action).length, arg⟩)

/-- The list that an execution runs over, if its object has not been erased. -/
def callbacks (w : World) : ActionList → Option (Action Callback)
  | .socket p action => (w.mem.deref p).map fun c => c.actions action
  | .owner o action => some ((w.owners o action).map fun cb => ⟨.user, cb.flags⟩)

/-- What a callback gets that is called now. -/
def passed (w : World) : Arg → Arg
  | .errno fn => .error fn w.errno
  | arg => arg

/-- The body of a callback.  The lambdas of the library are in the lists of the element that they
capture. -/
def invoke (w : World) (e : Execution) (exec : Callback) (i : Input) : Option World :=
  match exec, e.list, e.arg, i with
  | .user, _, _, .enter calls => some (w.push (.hook (w.passed e.arg) calls))
  | .erase, .socket p _, _, .go =>
    some ({ w with mem := w.mem.eraseSocket p.container p.key }.note (.erased p))
  | .notify action, .socket p _, _, .go =>
    some (w.executeOwner p.container.owner action (.connection p))
  | .accept, .socket p _, _, .go => some (w.push (.call (.accept p)))
  | .recv, .socket p _, _, .go => some (w.push (.call (.recv p)))
  | .sendFlush, .socket p _, _, .go => some (w.push (.call (.sendFlush p)))
  | .receive, .socket p _, .bytes bytes, .go =>
    some (w.executeOwner p.container.owner .receive (.message p bytes))
  | _, _, _, _ => none

/-- One turn of the loop of `action::execute`, below whose frame the stack is that of `w`. -/
def resume (w : World) (e : Execution) (i : Input) : Option World :=
  if e.stop ≤ e.pos then some w
  else
    match w.callbacks e.list with
    | none => some (w.push (.crash .dangling))
    | some executors =>
      if executors.length ≠ e.stop then some (w.push (.crash .invalidated))
      else
        let next := w.push (.execute { e with pos := e.pos + 1 })
        match (executors[e.pos]?).map ActionCallback.turn with
        | none => none
        | some .skip => some next
        | some (.last exec) => w.invoke e exec i
        | some (.call exec) => next.invoke e exec i

/-! ### The functions of sockets and connections -/

/-- `socket::close`, where `::close` leaves `errno`. -/
def close (w : World) (p : SockPtr) (errno : Int) : World :=
  w.access p fun c =>
    if c.sock < 0 then w
    else
      let w' := ({ w with mem := w.mem.closeSocket p c.sock }.note (.removed p c.sock)).note
        (.shut p c.sock)
      (w'.setErrno errno).executeSocket p .closed .none

/-- The end of `send` or `send_flush`, where the kernel took the bytes `taken`. -/
def sent (w : World) (p : SockPtr) (s : Sent SockPtr) (taken : Bytes) (errno : Int) : World :=
  if s.raised then (w.setErrno errno).executeSocket p .error (.errno "send")
  else { w with mem := w.mem.sent p s }.note (.wrote p taken)

/-- `connection_base::send`. -/
def send (w : World) (p : SockPtr) (message : Bytes) (result errno : Int) : World :=
  w.access p fun c =>
    w.sent p (c.send w.mem.handler message result) (message.take result.toNat) errno

/-- `connection_base::send_flush`. -/
def sendFlush (w : World) (p : SockPtr) (result errno : Int) : World :=
  w.access p fun c =>
    w.sent p (c.sendFlush w.mem.handler result) ((c.sendBuffer.headD []).take result.toNat) errno

/-- `connection_base::recv`. -/
def recv (w : World) (p : SockPtr) : Except Int Bytes → World
  | .error errno => (w.setErrno errno).executeSocket p .error (.errno "recv")
  | .ok [] => w.push (.call (.close p))
  | .ok bytes => w.executeSocket p .recv (.bytes bytes)

/-- `action_handler::on`, called by the user on an element. -/
def on (w : World) (p : SockPtr) (action : SocketAction) (flags : UShort) : World :=
  w.access p fun _ => { w with mem := w.mem.modify p fun c => c.on action .user flags }

/-- `action_handler::on` on a server or client. -/
def onOwner (w : World) (o : Owner) (action : OwnerAction) (flags : UShort) : World :=
  { w with
    owners := Function.update w.owners o
      (Function.update (w.owners o) action ((w.owners o action).addCallback () flags)) }

/-! ### Containers, servers and clients -/

/-- `socket_container::make_socket` with the descriptor `fd` from the system; what is done with the
socket that it returns, and where it returns none. -/
def makeSocket (w : World) (container : Container) (fd : Int) (made : World → SockPtr → World)
    (failed : World → World) : World :=
  match (w.mem.openFd fd).insertSocket container fd with
  | none => failed ({ w with mem := w.mem.openFd fd }.note (.obtained container fd none))
  | some (mem, p) => made ({ w with mem := mem }.note (.obtained container fd (some p))) p

/-- `socket_container::close`: one turn of its loop. -/
def closeNext (w : World) (container : Container) (errno : Int) : World :=
  match w.mem.begin? container with
  | none => w
  | some (key, c) => (w.push (.closing container)).close (.pointer container key c) errno

/-- `server_impl::close` and `client_impl::close`. -/
def closeOwner (w : World) : Owner → World
  | .server id => (w.push (.closing (.listeners id))).push (.closing (.clients id))
  | .client id => w.push (.closing (.connections id))

/-- The end of `listen` or `connect` where `fn` failed: the `ERROR` action, then `close` on the
socket. -/
def giveUp (w : World) (p : SockPtr) (fn : String) (errno : Int) : World :=
  (((w.setErrno errno).push (.returning false)).push (.call (.close p))).error p.container.owner fn

/-- `server_impl::listen`, up to the socket with its first callback. -/
def listen (w : World) (server : Nat) : Except Int Int → World
  | .error errno => ((w.setErrno errno).push (.returning false)).error (.server server) "socket"
  | .ok fd =>
    w.makeSocket (.listeners server) fd
      (fun w p =>
        { w with mem := w.mem.modify p Connection.setUpWiring }.push (.listening p))
      fun w => (w.push (.returning false)).error (.server server) "socket"

/-- The rest of `listen`. -/
def listenRest (w : World) (p : SockPtr) : Option (SetUpStep × Int) → Option World
  | none => some (w.access p fun _ =>
      ({ w with mem := w.mem.modify p Connection.listenWiring }.push (.returning true)).executeOwner
        p.container.owner .listen (.connection p))
  | some (.addrinfo, errno) => some (w.giveUp p "getaddrinfo" errno)
  | some (.bind, errno) =>
    -- `socket::bind` has its own `ERROR` action, before that of the server
    some (((((w.setErrno errno).push (.returning false)).push (.call (.close p))).push
      (.raise p.container.owner "bind")).executeSocket p .error (.errno "bind"))
  | some (.listen, errno) => some (w.giveUp p "listen" errno)
  | some (.connect, _) => none

/-- `client_impl::connect`, up to the socket with its first callback. -/
def connect (w : World) (client : Nat) : Except Int Int → World
  | .error errno => ((w.setErrno errno).push (.returning false)).error (.client client) "socket"
  | .ok fd =>
    w.makeSocket (.connections client) fd
      (fun w p =>
        { w with mem := w.mem.modify p Connection.setUpWiring }.push (.connecting p))
      fun w => (w.push (.returning false)).error (.client client) "socket"

/-- The rest of `connect`. -/
def connectRest (w : World) (p : SockPtr) : Option (SetUpStep × Int) → Option World
  | none => some (w.access p fun _ =>
      ({ w with mem := w.mem.modify p Connection.connectWiring }.push (.returning true)).executeOwner
        p.container.owner .connect (.connection p))
  | some (.addrinfo, errno) => some (w.giveUp p "getaddrinfo" errno)
  | some (.connect, errno) =>
    -- here `close` comes before the `ERROR` action
    some ((((w.setErrno errno).push (.returning false)).push
      (.raise p.container.owner "listen")).push (.call (.close p)))
  | some (.bind, _) | some (.listen, _) => none

/-- `server_impl::accept` on a listener of the server. -/
def accept (w : World) (listener : SockPtr) (server : Nat) (result : Except Int Int) : World :=
  w.access listener fun c =>
    if c.sock < 0 then w.push (.crash .assertion)
    else
      match result with
      | .error errno => (w.setErrno errno).error (.server server) "accept"
      | .ok fd =>
        if fd ≤ 0 then
          ({ w with mem := w.mem.openFd fd }.note (.obtained (.clients server) fd none)).push
            (.crash .assertion)
        else
          w.makeSocket (.clients server) fd
            (fun w p =>
              { w with mem := w.mem.modify p Connection.acceptWiring }.executeOwner
                (.server server) .accept (.connection p))
            fun w => w.executeOwner (.server server) .error (.error "insert" 0)

/-- One turn of the loop of `poll_impl`, behind which `poll` returns. -/
def pollNext (w : World) (l : PollLoop) : World :=
  match pollStep w.mem.handler l with
  | .leave => w.setReturned true
  | .wild => w.push (.crash .wild)
  | .goOn next => w.push (.polling next)
  | .readable p next => (w.push (.polling next)).executeSocket p .readable .none
  | .writeable p next => (w.push (.polling next)).executeSocket p .writeable .none

/-! ### Steps -/

/-- What `::socket` and `::accept` return: a descriptor that is not open, or a failure. -/
def canOpen (w : World) : Except Int Int → Bool
  | .error _ => true
  | .ok fd => 0 ≤ fd && !w.mem.descriptors.contains fd

/-- What `::send` returns for `length` bytes: a count, or -1, as it does on a closed socket. -/
def canSend (w : World) (p : SockPtr) (length : Nat) (result : Int) : Bool :=
  match w.mem.deref p with
  | none => true
  | some c => result == -1 || (0 ≤ c.sock && 0 ≤ result && result ≤ length)

/-- What `::recv` returns: at most `RECV_BUFFER_SIZE` bytes, or a failure, as on a closed socket. -/
def canRecv (w : World) (p : SockPtr) : Except Int Bytes → Bool
  | .error _ => true
  | .ok bytes => bytes.length ≤ 4096 && ((w.mem.deref p).all fun c => 0 ≤ c.sock)

/-- What `::poll` returns: -1, or the number of entries with an event and the `revents` of all. -/
def canPoll (w : World) (n : Int) (revents : List UShort) : Bool :=
  n == -1 || (revents.length == w.mem.handler.sockets.length && n == revents.countP (· != 0))

/-- What user code may call: it uses elements that have not been erased only. -/
def callable (w : World) : Call → Bool
  | .accept p =>
    (match p.container with | .listeners _ => true | _ => false) && (w.mem.deref p).isSome
  | .send p _ | .sendFlush p | .recv p | .close p | .on p _ _ => (w.mem.deref p).isSome
  | .listen _ | .connect _ | .closeContainer _ | .closeOwner _ | .onOwner _ _ _ | .poll => true

/-- The first step of a call. -/
def perform (w : World) (c : Call) (i : Input) : Option World :=
  match c, i with
  | .listen server, .opened result =>
    if w.canOpen result then some (w.listen server result) else none
  | .connect client, .opened result =>
    if w.canOpen result then some (w.connect client result) else none
  | .accept p, .opened result =>
    match p.container with
    | .listeners server => if w.canOpen result then some (w.accept p server result) else none
    | _ => none
  | .send p message, .sent result errno =>
    if w.canSend p message.length result then some (w.send p message result errno) else none
  | .sendFlush p, .sent result errno =>
    let length := ((w.mem.deref p).elim [] fun c => c.sendBuffer.headD []).length
    if w.canSend p length result then some (w.sendFlush p result errno) else none
  | .recv p, .received result => if w.canRecv p result then some (w.recv p result) else none
  | .close p, .closed errno => some (w.close p errno)
  | .closeContainer container, _ => some (w.push (.closing container))
  | .closeOwner o, _ => some (w.closeOwner o)
  | .on p action flags, _ => some (w.on p action flags)
  | .onOwner o action flags, _ => some (w.onOwner o action flags)
  | .poll, .polled n revents =>
    if w.mem.handler.empty then some (w.setReturned false)
    else if w.canPoll n revents then
      -- a failing `::poll` leaves `revents` as it is
      let handler := if n < 0 then w.mem.handler else w.mem.handler.report revents
      some ({ w with mem := { w.mem with handler := handler } }.push (.polling (.start n)))
    else none
  | _, _ => none

/-- One step.  The main program makes calls while nothing is being executed. -/
def step (w : World) (i : Input) : Option World :=
  match w.stack with
  | [] =>
    match i with
    | .call c => if w.callable c then some (w.push (.call c)) else none
    | _ => none
  | f :: rest =>
    let below := { w with stack := rest }
    match f, i with
    | .hook arg (calls + 1), .call c =>
      if w.callable c then some ((below.push (.hook arg calls)).push (.call c)) else none
    | .hook _ _, .ret errno => some (below.setErrno errno)
    | .call c, i => below.perform c i
    | .execute e, i => below.resume e i
    | .raise o fn, _ => some (below.error o fn)
    | .closing container, .closed errno => some (below.closeNext container errno)
    | .listening p, .setUp failure => below.listenRest p failure
    | .connecting p, .setUp failure => below.connectRest p failure
    | .polling l, _ => some (below.pollNext l)
    | .returning result, _ => some (below.setReturned result)
    | _, _ => none

end World

end Unisock.Tcp
