import Mathlib.Algebra.Group.Nat.Defs
import Mathlib.Algebra.Ring.Int.Defs
import Unisock.Events.Handler

/-! `tcp::connection_base` with the owners and containers that its lambdas refer to: its descriptor,
its send buffer, its action lists, and the functions that write to the socket. -/

namespace Unisock.Tcp

open Unisock.Events

abbrev Bytes := List UInt8

/-- A `tcp::server` or a `tcp::client`, by number. -/
inductive Owner
  | server (id : Nat)
  | client (id : Nat)
deriving DecidableEq, Repr

/-- The socket containers of the owners: `listeners_container` and `clients_container` of a server,
and `container` of a client. -/
inductive Container
  | listeners (server : Nat)
  | clients (server : Nat)
  | connections (client : Nat)
deriving DecidableEq, Repr

/-- The server or client that a container is a member of. -/
def Container.owner : Container → Owner
  | .listeners id | .clients id => .server id
  | .connections id => .client id

theorem Container.owner_eq_server {container : Container} {id : Nat} :
    container.owner = .server id ↔ container = .clients id ∨ container = .listeners id := by
  cases container <;> simp [owner]

/-- A pointer to an element of a container: the map, the key, and the allocation of the map node,
which tells an element from an earlier one under the same key. -/
structure SockPtr where
  container : Container
  key : Int
  node : Nat
deriving DecidableEq, Repr

/-- The action tags of a connection: `basic_actions` and `connection_actions::RECV`. -/
inductive SocketAction
  | readable
  | writeable
  | closed
  | error
  | recv
deriving DecidableEq, Repr

/-- The action tags of servers and clients. -/
inductive OwnerAction
  | error
  | listen
  | connect
  | closed
  | receive
  | accept
  | disconnect
deriving DecidableEq, Repr

/-- What is registered on a connection: a hook of the user, or a lambda of the library.  Each lambda
is registered on the socket that it captures, and `this` is the owner of that socket's container. -/
inductive Callback
  | user
  /-- `[this, socket_key]() { this->sockets.erase(socket_key); }` -/
  | erase
  /-- `[this, socket]() { this->execute<action>(socket); }`, with `common_actions::CLOSED` or
  `server_actions::DISCONNECT`. -/
  | notify (action : OwnerAction)
  /-- `[this, socket]() { this->accept(socket); }` -/
  | accept
  /-- `[client]() { client->recv(); }` -/
  | recv
  /-- `[client]() { client->send_flush(); }` -/
  | sendFlush
  /-- `[this, client](message, bytes) { this->execute<RECEIVE>(client, message, bytes); }` -/
  | receive
deriving DecidableEq, Repr

/-- `tcp::connection_base`, with the allocation of the map node that holds it. -/
structure Connection where
  node : Nat
  sock : Int
  sendBuffer : List Bytes
  actions : SocketAction → Action Callback

/-- The callbacks that are registered on `CLOSED` lists after `erase`. -/
def Callback.late : Callback → Bool
  | .user | .notify _ => true
  | .erase | .accept | .recv | .sendFlush | .receive => false

namespace Connection

/-- `action_handler::on`. -/
def on (c : Connection) (action : SocketAction) (exec : Callback) (flags : UShort) : Connection :=
  { c with
    actions := fun a => if a = action then (c.actions a).addCallback exec flags else c.actions a }

theorem on_actions (c : Connection) (action : SocketAction) (exec : Callback) (flags : UShort)
    (a : SocketAction) : (c.on action exec flags).actions a =
      if a = action then (c.actions a).addCallback exec flags else c.actions a := rfl

@[simp] theorem on_node (c : Connection) (action : SocketAction) (exec : Callback)
    (flags : UShort) : (c.on action exec flags).node = c.node := rfl

@[simp] theorem on_sock (c : Connection) (action : SocketAction) (exec : Callback)
    (flags : UShort) : (c.on action exec flags).sock = c.sock := rfl

@[simp] theorem on_sendBuffer (c : Connection) (action : SocketAction) (exec : Callback)
    (flags : UShort) : (c.on action exec flags).sendBuffer = c.sendBuffer := rfl

end Connection

/-- What `_insert_socket` registers on a new element. -/
def eraser : ActionCallback Callback := ⟨.erase, ActionFlag.queueEnd ||| ActionFlag.stopAfter⟩

/-! ### What the set-up paths register on a new element -/

namespace Connection

/-- `socket_container::_insert_socket`: the element under the descriptor `fd`, with the callback that
erases it. -/
def inserted (node : Nat) (fd : Int) : Connection :=
  Connection.on { node := node, sock := fd, sendBuffer := [], actions := fun _ => [] } .closed .erase
    (ActionFlag.queueEnd ||| ActionFlag.stopAfter)

/-- `server_impl::listen` and `client_impl::connect`, right after `make_socket`. -/
def setUpWiring (c : Connection) : Connection :=
  c.on .closed (.notify .closed) ActionFlag.default

/-- `server_impl::listen`, once the socket listens. -/
def listenWiring (c : Connection) : Connection := c.on .readable .accept ActionFlag.default

/-- `client_impl::connect`, once the socket is connected. -/
def connectWiring (c : Connection) : Connection :=
  (c.on .readable .recv ActionFlag.default).on .recv .receive ActionFlag.default

/-- `server_impl::accept`. -/
def acceptWiring (c : Connection) : Connection :=
  (((c.on .readable .recv ActionFlag.default).on .writeable .sendFlush ActionFlag.default).on
    .closed (.notify .disconnect) ActionFlag.default).on .recv .receive ActionFlag.default

end Connection

/-- `int n_bytes = …`: the `ssize_t` of a system call, converted to `int`. -/
def toInt (result : Int) : Int := result.bmod (2 ^ 32)

theorem toInt_of_range {result : Int} (hlow : -2 ^ 31 ≤ result) (hhigh : result < 2 ^ 31) :
    toInt result = result :=
  Int.bmod_eq_of_le (by omega) (by omega)

/-- What `send` or `send_flush` leaves behind, and whether it ended in the `ERROR` action. -/
structure Sent (ρ : Type) where
  connection : Connection
  handler : Handler ρ
  raised : Bool

namespace Connection

variable {ρ : Type}

/-- `connection_base::send`, where `::send` returns `result`. -/
def send (c : Connection) (handler : Handler ρ) (message : Bytes) (result : Int) : Sent ρ :=
  let nBytes := toInt result
  if nBytes < 0 then { connection := c, handler := handler, raised := true }
  else if nBytes.toNat < message.length then
    { connection := { c with sendBuffer := c.sendBuffer ++ [message.drop nBytes.toNat] }
      handler := handler.socketWantWrite c.sock true
      raised := false }
  else { connection := c, handler := handler, raised := false }

/-- `connection_base::send_flush`, where `::send` returns `result` if it is called. -/
def sendFlush (c : Connection) (handler : Handler ρ) (result : Int) : Sent ρ :=
  match c.sendBuffer with
  | [] => { connection := c, handler := handler, raised := false }
  | front :: rest =>
    let nBytes := toInt result
    if nBytes < 0 then { connection := c, handler := handler, raised := true }
    else if nBytes.toNat < front.length then
      -- `send_buffer.front().substr(n_bytes);`: the string it returns is dropped
      { connection := c, handler := handler, raised := false }
    else
      { connection := { c with sendBuffer := rest }
        handler := handler.socketWantWrite c.sock false
        raised := false }

@[simp] theorem sendFlush_nil {c : Connection} (hbuf : c.sendBuffer = []) (handler : Handler ρ)
    (result : Int) : c.sendFlush handler result = ⟨c, handler, false⟩ := by
  rw [sendFlush, hbuf]

/-- The three outcomes of `send`: an error, a message of which a rest is queued, a whole message. -/
theorem send_cases (c : Connection) (handler : Handler ρ) (message : Bytes) (result : Int) :
    (toInt result < 0 ∧ c.send handler message result = ⟨c, handler, true⟩) ∨
    (0 ≤ toInt result ∧ (toInt result).toNat < message.length ∧
      c.send handler message result =
        ⟨{ c with sendBuffer := c.sendBuffer ++ [message.drop (toInt result).toNat] },
          handler.socketWantWrite c.sock true, false⟩) ∨
    (0 ≤ toInt result ∧ message.length ≤ (toInt result).toNat ∧
      c.send handler message result = ⟨c, handler, false⟩) := by
  by_cases hneg : toInt result < 0
  · exact .inl ⟨hneg, by simp [send, hneg]⟩
  · by_cases hlt : (toInt result).toNat < message.length
    · exact .inr (.inl ⟨by omega, hlt, by simp [send, hneg, hlt]⟩)
    · exact .inr (.inr ⟨by omega, by omega, by simp [send, hneg, hlt]⟩)

/-- The three outcomes of `send_flush` with a queued message: an error, a message that stays queued
as it is, a message that is popped. -/
theorem sendFlush_cases {c : Connection} {front : Bytes} {rest : List Bytes}
    (hbuf : c.sendBuffer = front :: rest) (handler : Handler ρ) (result : Int) :
    (toInt result < 0 ∧ c.sendFlush handler result = ⟨c, handler, true⟩) ∨
    (0 ≤ toInt result ∧ (toInt result).toNat < front.length ∧
      c.sendFlush handler result = ⟨c, handler, false⟩) ∨
    (0 ≤ toInt result ∧ front.length ≤ (toInt result).toNat ∧
      c.sendFlush handler result =
        ⟨{ c with sendBuffer := rest }, handler.socketWantWrite c.sock false, false⟩) := by
  by_cases hneg : toInt result < 0
  · exact .inl ⟨hneg, by simp [sendFlush, hbuf, hneg]⟩
  · by_cases hlt : (toInt result).toNat < front.length
    · exact .inr (.inl ⟨by omega, hlt, by simp [sendFlush, hbuf, hneg, hlt]⟩)
    · exact .inr (.inr ⟨by omega, by omega, by simp [sendFlush, hbuf, hneg, hlt]⟩)

theorem send_not_raised (c : Connection) (handler : Handler ρ) (message : Bytes) {result : Int}
    (hresult : 0 ≤ toInt result) : (c.send handler message result).raised = false := by
  rcases c.send_cases handler message result with ⟨h, -⟩ | ⟨-, -, h⟩ | ⟨-, -, h⟩
  · omega
  · rw [h]
  · rw [h]

theorem sendFlush_not_raised (c : Connection) (handler : Handler ρ) {result : Int}
    (hresult : 0 ≤ toInt result) : (c.sendFlush handler result).raised = false := by
  cases hbuf : c.sendBuffer with
  | nil => rw [sendFlush_nil hbuf]
  | cons front rest =>
    rcases sendFlush_cases hbuf handler result with ⟨h, -⟩ | ⟨-, -, h⟩ | ⟨-, -, h⟩
    · omega
    · rw [h]
    · rw [h]

/-- `send` writes to the buffer of the connection only, and changes the handler by a change of write
interest at most. -/
theorem send_frame (c : Connection) (handler : Handler ρ) (message : Bytes) (result : Int) :
    (∃ buffer, (c.send handler message result).connection = { c with sendBuffer := buffer }) ∧
    ((c.send handler message result).handler = handler ∨
      ∃ active, (c.send handler message result).handler =
        handler.socketWantWrite c.sock active) := by
  rcases c.send_cases handler message result with ⟨-, h⟩ | ⟨-, -, h⟩ | ⟨-, -, h⟩ <;> rw [h]
  · exact ⟨⟨c.sendBuffer, rfl⟩, .inl rfl⟩
  · exact ⟨⟨_, rfl⟩, .inr ⟨true, rfl⟩⟩
  · exact ⟨⟨c.sendBuffer, rfl⟩, .inl rfl⟩

theorem sendFlush_frame (c : Connection) (handler : Handler ρ) (result : Int) :
    (∃ buffer, (c.sendFlush handler result).connection = { c with sendBuffer := buffer }) ∧
    ((c.sendFlush handler result).handler = handler ∨
      ∃ active, (c.sendFlush handler result).handler =
        handler.socketWantWrite c.sock active) := by
  cases hbuf : c.sendBuffer with
  | nil =>
    rw [sendFlush_nil hbuf]
    exact ⟨⟨[], by rw [← hbuf]⟩, .inl rfl⟩
  | cons front rest =>
    rcases sendFlush_cases hbuf handler result with ⟨-, h⟩ | ⟨-, -, h⟩ | ⟨-, -, h⟩ <;> rw [h]
    · exact ⟨⟨c.sendBuffer, rfl⟩, .inl rfl⟩
    · exact ⟨⟨c.sendBuffer, rfl⟩, .inl rfl⟩
    · exact ⟨⟨rest, rfl⟩, .inr ⟨false, rfl⟩⟩

/-! ### The result of `::send` as an `int` -/

/-- `send` fails exactly if `::send` does, and otherwise queues what `::send` has not taken. -/
def SendsRest (c : Connection) (handler : Handler ρ) (message : Bytes) (result : Int) : Prop :=
  ((c.send handler message result).raised = true ↔ result < 0) ∧
    (0 ≤ result → (c.send handler message result).connection.sendBuffer =
      c.sendBuffer ++ if result = message.length then [] else [message.drop result.toNat])

theorem send_raised (c : Connection) (handler : Handler ρ) (message : Bytes) (result : Int) :
    (c.send handler message result).raised = true ↔ toInt result < 0 := by
  rcases c.send_cases handler message result with ⟨hneg, h⟩ | ⟨hnonneg, -, h⟩ | ⟨hnonneg, -, h⟩ <;>
    rw [h]
  · simpa using hneg
  · simpa using hnonneg
  · simpa using hnonneg

theorem toInt_neg_iff (result : Int) : toInt result < 0 ↔ 2 ^ 31 ≤ result % 2 ^ 32 := by
  unfold toInt
  rw [Int.bmod_def]
  split <;> omega

/-- A result that an `int` holds is the offset from which the rest is queued. -/
theorem sendsRest_of_range (c : Connection) (handler : Handler ρ) {message : Bytes} {result : Int}
    (hnonneg : 0 ≤ result) (hsmall : result < 2 ^ 31) (hle : result ≤ message.length) :
    c.SendsRest handler message result := by
  have hint : toInt result = result := toInt_of_range (by omega) hsmall
  refine ⟨?_, fun _ => ?_⟩
  · rw [send_raised, hint]
  · rcases c.send_cases handler message result with ⟨hneg, -⟩ | ⟨-, hlt, h⟩ | ⟨-, hge, h⟩
    · omega
    · have hne : ¬ result = message.length := by omega
      rw [h, if_neg hne, hint]
    · have heq : result = message.length := by omega
      rw [h, if_pos heq, List.append_nil]

/-- A larger result is taken for an error, or for a smaller offset. -/
theorem not_sendsRest_of_large (c : Connection) (handler : Handler ρ) {message : Bytes} {result : Int}
    (hlarge : 2 ^ 31 ≤ result) (hle : result ≤ message.length) :
    ¬ c.SendsRest handler message result := by
  rintro ⟨hraised, hrest⟩
  have hnonneg : 0 ≤ toInt result := by
    by_contra hneg
    have := hraised.mp ((c.send_raised handler message result).mpr (by omega))
    omega
  have hsmall : toInt result < 2 ^ 31 := by
    unfold toInt
    rw [Int.bmod_def]
    split <;> omega
  rcases c.send_cases handler message result with ⟨hneg, -⟩ | ⟨-, -, h⟩ | ⟨-, hge, -⟩
  · omega
  · have hqueued := hrest (by omega)
    rw [h, List.append_cancel_left_eq] at hqueued
    split at hqueued
    · cases hqueued
    · have hlength := congrArg List.length (List.singleton_inj.mp hqueued)
      rw [List.length_drop, List.length_drop] at hlength
      omega
  · omega

/-- Whatever 64-bit result `::send` returns, negative or up to the length of the message: `send` does
with it what it should exactly if the result is negative and has bit 31 set, so that it is negative
as an `int` as well, or an `int` holds it. -/
theorem sendsRest_iff (c : Connection) (handler : Handler ρ) {message : Bytes} {result : Int}
    (hresult : result < 0 ∨ result ≤ message.length) :
    c.SendsRest handler message result ↔
      (result < 0 ∧ 2 ^ 31 ≤ result % 2 ^ 32) ∨ (0 ≤ result ∧ result < 2 ^ 31) := by
  by_cases hneg : result < 0
  · rw [SendsRest, send_raised, toInt_neg_iff]
    constructor
    · rintro ⟨hraised, -⟩
      exact .inl ⟨hneg, hraised.mpr hneg⟩
    · rintro (⟨-, hbit⟩ | ⟨hge, -⟩)
      · exact ⟨iff_of_true hbit hneg, fun hge => by omega⟩
      · omega
  · have hnonneg : 0 ≤ result := by omega
    have hle : result ≤ message.length := hresult.resolve_left hneg
    by_cases hsmall : result < 2 ^ 31
    · exact iff_of_true (c.sendsRest_of_range handler hnonneg hsmall hle) (.inr ⟨hnonneg, hsmall⟩)
    · exact iff_of_false (c.not_sendsRest_of_large handler (by omega) hle) (by omega)

/-- A connection with an empty send buffer. -/
def unsent : Connection := { node := 0, sock := 4, sendBuffer := [], actions := fun _ => [] }

theorem sendsRest_iff_partial :
    unsent.SendsRest (⟨⟨[], []⟩, 0⟩ : Handler Nat) [1, 2, 3] 2 ↔
      ((2 : Int) < 0 ∧ (2 : Int) ^ 31 ≤ 2 % 2 ^ 32) ∨ ((0 : Int) ≤ 2 ∧ (2 : Int) < 2 ^ 31) :=
  unsent.sendsRest_iff _ (.inr (by decide))

/-- A message of `2^31` bytes that `::send` takes whole ends in the `ERROR` action. -/
theorem large_result_raised : ¬ ∀ (c : Connection) (handler : Handler Nat) (message : Bytes)
    (result : Int), message.length < 2 ^ 64 → -2 ^ 63 ≤ result → result < 2 ^ 63 →
    (result < 0 ∨ result ≤ message.length) → c.SendsRest handler message result := by
  intro hall
  obtain ⟨message, hlength⟩ : ∃ message : Bytes, message.length = 2 ^ 31 :=
    ⟨List.replicate (2 ^ 31) 0, List.length_replicate⟩
  have hsends := hall unsent ⟨⟨[], []⟩, 0⟩ message (2 ^ 31) (by omega) (by omega) (by omega)
    (.inr (by omega))
  exact not_sendsRest_of_large _ _ (Int.le_refl _) (by omega) hsends

end Connection

end Unisock.Tcp
