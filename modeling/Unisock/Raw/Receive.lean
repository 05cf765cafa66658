import Unisock.Address.Storage

/-! `raw::socket::recvfrom` and `raw::socket::recvmsg` on a socket at which a datagram waits. -/

namespace Unisock.Raw

open Unisock.Address

/-- `socket::RECV_BUFFER_SIZE`. -/
def RECV_BUFFER_SIZE : Nat := 4096

def MSG_TRUNC : Int := 0x20

/-- `struct iovec`, with the bytes at `iov_base` up to the end of their buffer. -/
structure Iovec where
  iovBase : List UInt8
  iovLen : Nat
deriving DecidableEq, Repr

/-- `struct msghdr`; the name and the control data stay null. -/
structure Msghdr where
  msgIov : List Iovec
  msgFlags : Int
deriving DecidableEq, Repr

/-- The actions that a receive call executes, with their arguments.  A message is given with the
bytes from where it points to up to the end of the buffer. -/
inductive Received
  | recvfrom (address : SocketAddress) (message : List UInt8) (size : Nat)
  | recvmsg (message : Msghdr)
  | error (function : String) (errno : Int)
deriving DecidableEq

/-- The bytes that a receive action describes. -/
def Received.bytes : Received → Option (List UInt8)
  | .recvfrom _ message size => some (message.take size)
  | .recvmsg message => some (message.msgIov.flatMap fun iov => iov.iovBase.take iov.iovLen)
  | .error .. => none

/-- The kernel copies as much of the datagram as the buffer holds, and discards the rest. -/
def copyInto (buffer payload : List UInt8) : List UInt8 :=
  payload.take buffer.length ++ buffer.drop payload.length

/-- `char buffer[RECV_BUFFER_SIZE] { 0 };` -/
def zeroBuffer : List UInt8 := List.replicate RECV_BUFFER_SIZE 0

/-- `socket_impl::recvfrom`, where the system call fails with an `errno` or gives the address of the
sender: the actions executed and the value returned, or `none` if the assertion fails. -/
def recvfrom (sock : Int) (payload : List UInt8) (result : Except Int (List UInt8)) :
    Option (List Received × Bool) :=
  if ¬ sock > 0 then none
  else
    match result with
    | .error errno => some ([.error "recv" errno], false)
    | .ok sender =>
      let nBytes := min payload.length zeroBuffer.length
      let address := SocketAddress.empty.copy sender
      some ([.recvfrom address (copyInto zeroBuffer payload) nBytes], true)

/-- `socket_impl::recvmsg`, where the system call fails with an `errno` or not.  It leaves `iov_len`
as it is. -/
def recvmsg (sock : Int) (payload : List UInt8) (result : Except Int Unit) :
    Option (List Received × Bool) :=
  if ¬ sock > 0 then none
  else
    match result with
    | .error errno => some ([.error "recvmsg" errno], false)
    | .ok () =>
      let iov : Iovec := { iovBase := copyInto zeroBuffer payload, iovLen := zeroBuffer.length }
      let header : Msghdr :=
        { msgIov := [iov], msgFlags := if payload.length > zeroBuffer.length then MSG_TRUNC else 0 }
      some ([.recvmsg header], true)

/-- A call has executed one receive action that describes the bytes `payload`, or `ERROR` only. -/
def Delivers (payload : List UInt8) (outcome : Option (List Received × Bool)) : Prop :=
  ∃ received returned, outcome = some ([received], returned) ∧
    (received.bytes = some payload ∨ ∃ function errno, received = .error function errno)

section Delivery

variable {sock : Int} {payload : List UInt8} {errno : Int}

theorem length_zeroBuffer : zeroBuffer.length = 4096 := List.length_replicate

theorem length_copyInto (buffer payload : List UInt8) :
    (copyInto buffer payload).length = buffer.length := by
  rw [copyInto, List.length_append, List.length_take, List.length_drop]
  omega

theorem take_copyInto (buffer payload : List UInt8) :
    (copyInto buffer payload).take (min payload.length buffer.length) =
      payload.take buffer.length := by
  have hlength : (payload.take buffer.length).length = min payload.length buffer.length := by
    rw [List.length_take, Nat.min_comm]
  rw [copyInto, ← hlength, List.take_left]

theorem recvfrom_error (hsock : 0 < sock) :
    Delivers payload (recvfrom sock payload (.error errno)) := by
  have hnot : ¬ ¬ sock > 0 := by omega
  exact ⟨_, _, if_neg hnot, .inr ⟨_, _, rfl⟩⟩

theorem recvmsg_error (hsock : 0 < sock) :
    Delivers payload (recvmsg sock payload (.error errno)) := by
  have hnot : ¬ ¬ sock > 0 := by omega
  exact ⟨_, _, if_neg hnot, .inr ⟨_, _, rfl⟩⟩

/-- `recvfrom` describes the datagram as far as the buffer holds it. -/
theorem recvfrom_delivers_iff (hsock : 0 < sock) (payload sender : List UInt8) :
    Delivers payload (recvfrom sock payload (.ok sender)) ↔ payload.length ≤ 4096 := by
  have hnot : ¬ ¬ sock > 0 := by omega
  rw [Delivers, recvfrom, if_neg hnot]
  simp only [Option.some.injEq, Prod.mk.injEq, List.cons.injEq, and_true]
  have hbytes : ∀ address, Received.bytes (.recvfrom address (copyInto zeroBuffer payload)
      (min payload.length zeroBuffer.length)) = some (payload.take 4096) := by
    intro address
    rw [Received.bytes, take_copyInto, length_zeroBuffer]
  constructor
  · rintro ⟨_, _, ⟨rfl, rfl⟩, hpayload | ⟨_, _, herror⟩⟩
    · rw [hbytes, Option.some.injEq] at hpayload
      exact List.take_eq_self_iff _ |>.mp hpayload
    · cases herror
  · intro hfits
    refine ⟨_, _, ⟨rfl, rfl⟩, .inl ?_⟩
    rw [hbytes, List.take_of_length_le hfits]

/-- `recvmsg` describes the whole buffer, whatever the datagram fills of it. -/
theorem recvmsg_delivers_iff (hsock : 0 < sock) (payload : List UInt8) :
    Delivers payload (recvmsg sock payload (.ok ())) ↔ payload.length = 4096 := by
  have hnot : ¬ ¬ sock > 0 := by omega
  rw [Delivers, recvmsg, if_neg hnot]
  simp only [Option.some.injEq, Prod.mk.injEq, List.cons.injEq, and_true]
  have hbytes : ∀ flags, Received.bytes (.recvmsg ⟨[⟨copyInto zeroBuffer payload,
      zeroBuffer.length⟩], flags⟩) = some (copyInto zeroBuffer payload) := by
    intro flags
    simp only [Received.bytes, List.flatMap_cons, List.flatMap_nil, List.append_nil]
    rw [List.take_of_length_le (length_copyInto _ _).le]
  constructor
  · rintro ⟨_, _, ⟨rfl, rfl⟩, hpayload | ⟨_, _, herror⟩⟩
    · rw [hbytes, Option.some.injEq] at hpayload
      rw [← hpayload, length_copyInto, length_zeroBuffer]
    · cases herror
  · intro hlength
    refine ⟨_, _, ⟨rfl, rfl⟩, .inl ?_⟩
    rw [hbytes, copyInto, length_zeroBuffer, List.take_of_length_le hlength.le,
      List.drop_of_length_le (by rw [length_zeroBuffer]; omega), List.append_nil]

/-- Whatever datagram waits and whatever the system calls return: both functions deliver exactly the
datagram, or an error, exactly if the call of `recvfrom` fails or the buffer holds the datagram, and
the call of `recvmsg` fails or the datagram fills the buffer. -/
theorem both_deliver_iff (hsock : 0 < sock) (payload : List UInt8)
    (result : Except Int (List UInt8)) (result' : Except Int Unit) :
    Delivers payload (recvfrom sock payload result) ∧
        Delivers payload (recvmsg sock payload result') ↔
      ((∃ errno, result = .error errno) ∨ payload.length ≤ 4096) ∧
        ((∃ errno, result' = .error errno) ∨ payload.length = 4096) := by
  refine and_congr ?_ ?_
  · cases result with
    | error errno => exact iff_of_true (recvfrom_error hsock) (.inl ⟨errno, rfl⟩)
    | ok sender => simpa using recvfrom_delivers_iff hsock payload sender
  · cases result' with
    | error errno => exact iff_of_true (recvmsg_error hsock) (.inl ⟨errno, rfl⟩)
    | ok _ => simpa using recvmsg_delivers_iff hsock payload

end Delivery

theorem both_deliver_iff_short :
    Delivers [104, 105] (recvfrom 4 [104, 105] (.ok [16, AF_INET])) ∧
        Delivers [104, 105] (recvmsg 4 [104, 105] (.ok ())) ↔
      ((∃ errno, (.ok [16, AF_INET] : Except Int (List UInt8)) = .error errno) ∨
        [(104 : UInt8), 105].length ≤ 4096) ∧
      ((∃ errno, (.ok () : Except Int Unit) = .error errno) ∨
        [(104 : UInt8), 105].length = 4096) :=
  both_deliver_iff (by decide) [104, 105] (.ok [16, AF_INET]) (.ok ())

/-- A hook on `RECVMSG` is handed the whole buffer for a datagram of two bytes. -/
theorem recvmsg_adds_zeros : ¬ ∀ (sock : Int) (payload sender : List UInt8), 0 < sock →
    Delivers payload (recvfrom sock payload (.ok sender)) ∧
      Delivers payload (recvmsg sock payload (.ok ())) := by
  intro hall
  obtain ⟨-, hrecvmsg⟩ := hall 4 [104, 105] [16, AF_INET] (by decide)
  have hlength := (recvmsg_delivers_iff (by decide) [104, 105]).mp hrecvmsg
  exact absurd hlength (by decide)

end Unisock.Raw
