import Unisock.Lib.Network
import Unisock.Udp.Notices

/-! Any number of programs that send datagrams to each other: what the hooks on `RECEIVE` of all of them
are started with, against what `send_to` has sent. -/

namespace Unisock.Udp

open Unisock.Address Unisock.Events Machine

/-- A datagram on the network, with the address of its sender. -/
structure Datagram where
  sender : List UInt8
  payload : List UInt8
deriving DecidableEq

/-- What a program gets of it. -/
def Datagram.read (d : Datagram) : SocketAddress × List UInt8 :=
  (SocketAddress.empty.copy d.sender, d.payload.take Raw.RECV_BUFFER_SIZE)

def Notice.read : Notice → Option (SocketAddress × List UInt8)
  | .datagram _ sender message => some (sender, message)
  | .closed .. => none

namespace World

/-- What `::sendto` sends in the step. -/
def sends (w : World) (i : Input) : List Datagram :=
  match w.stack, i with
  | .call (.sendTo s _ message) :: _, .sent (.ok sender) =>
    if 0 < (w.objects s).sock then [⟨sender, message⟩] else []
  | _, _ => []

/-- What `::recvfrom` takes in the step. -/
def takes (w : World) (i : Input) : List Datagram :=
  match w.stack, i with
  | .recvfrom s :: _, .received (.ok sender) payload =>
    if 0 < (w.objects s).sock then [⟨sender, payload⟩] else []
  | _, _ => []

/-- What the hooks on `RECEIVE` have been started with. -/
def heard (w : World) : List (SocketAddress × List UInt8) := w.told.filterMap Notice.read

/-- What has been read and is about to be handed on to them. -/
def arriving (w : World) : List (SocketAddress × List UInt8) := w.pending.filterMap Notice.read

section Runs

variable {w : World} {i : Input} {o : ByteOrder} {ok : World → Input → Prop}

theorem read_notices (w : World) (i : Input) :
    (w.notices i).filterMap Notice.read = (w.takes i).map Datagram.read := by
  unfold notices takes
  split
  · next hstack =>
    simp only [hstack]
    split <;> rfl
  · next hstack =>
    simp only [hstack]
    split <;> rfl
  · split
    · next hstack hother => exact (hother _ _ _ _ hstack rfl).elim
    · rfl

/-- A program is told what it has taken, but for what is about to be handed on. -/
theorem heard_of_takes {invalid : UShort} {taken : List Datagram}
    (h : Seen (step o) ok takes (start invalid) taken w) :
    taken.map Datagram.read = w.heard ++ w.arriving := by
  refine h.invariant (P := fun taken w => taken.map Datagram.read = w.heard ++ w.arriving) rfl ?_
  intro taken u i v hseen hu _ hstep
  obtain ⟨ho, hr⟩ := relays_of_reach hseen.reach
  have hkeeps := congrArg (List.filterMap Notice.read) ((step_move hstep).relays ho hr).2
  simp only [List.filterMap_append] at hkeeps
  rw [List.map_append, hu, ← read_notices]
  exact hkeeps.symm

theorem length_arriving (w : World) : w.arriving.length ≤ 1 :=
  (List.length_filterMap_le _ _).trans (length_pending w)

end Runs

section Exchange

variable {π : Type} [Fintype π] [DecidableEq π] {o : ByteOrder} {ok : World → Input → Prop}
  {invalid : π → UShort} {n : Network π World Datagram} {seen : List (Transit π Datagram)}

/-- No program has opened a socket. -/
def exchangeStart (invalid : π → UShort) : Network π World Datagram where
  parties p := start (invalid p)
  inFlight := 0

/-- In every run of the programs, whatever their hooks do: each datagram that has been sent has been
handed on to a hook on `RECEIVE` or is about to be, with the address of its sender and as far as the
buffer holds it, or is lost, or is on its way; and nothing else is handed on. -/
theorem exchanged
    (h : Seen (networked (step o) sends takes) (Network.ok ok) (transits sends takes)
      (exchangeStart invalid) seen n) :
    (seen.filterMap Transit.sent? : Multiset Datagram).map Datagram.read =
      ∑ p, ((n.parties p).heard + (n.parties p).arriving : Multiset (SocketAddress × List UInt8)) +
        (seen.filterMap Transit.lost? : Multiset Datagram).map Datagram.read +
        n.inFlight.map Datagram.read ∧
      ∀ p, (n.parties p).arriving.length ≤ 1 := by
  refine ⟨?_, fun p => length_arriving _⟩
  have hparty : ∀ p, ((seen.filterMap (Transit.takenBy p) : Multiset Datagram).map Datagram.read) =
      (n.parties p).heard + (n.parties p).arriving := by
    intro p
    rw [Multiset.map_coe, heard_of_takes (h.party p), Multiset.coe_add]
  have hconserved := h.conserved
  rw [show (exchangeStart invalid).inFlight = 0 from rfl, zero_add, ← sum_takenBy] at hconserved
  rw [hconserved, Multiset.map_add, Multiset.map_add, ← Finset.sum_congr rfl fun p _ => hparty p]
  have hsum := map_sum (Multiset.mapAddMonoidHom Datagram.read)
    (fun p => (seen.filterMap (Transit.takenBy p) : Multiset Datagram)) Finset.univ
  simp only [Multiset.coe_mapAddMonoidHom] at hsum
  rw [hsum]

end Exchange

/-- The first of two programs sends two bytes, and the second one reads them. -/
def exchangeRun : List (NetworkInput Bool Input Datagram) :=
  ([.call (.openSocket 0), .opened (.ok 3), .call (.sendTo 0 .empty [7, 8]), .sent (.ok [16, 2])].map
      (.party false)) ++
    ([.call (.openSocket 0), .opened (.ok 3), .call .poll, .polled 1 [POLLIN], .go, .go,
      .received (.ok [16, 2]) [7, 8], .go, .go].map (.party true))

theorem exchanged_exchangeRun : ∃ (seen : List (Transit Bool Datagram))
    (n : Network Bool World Datagram),
    Machine.run (networked (step .little) sends takes) (exchangeStart fun _ => 0) exchangeRun =
        some n ∧ (n.parties true).heard.map Prod.snd = [[7, 8]] ∧
      (seen.filterMap Transit.sent? : Multiset Datagram).map Datagram.read =
        ∑ p, ((n.parties p).heard + (n.parties p).arriving :
          Multiset (SocketAddress × List UInt8)) +
          (seen.filterMap Transit.lost? : Multiset Datagram).map Datagram.read +
          n.inFlight.map Datagram.read ∧
        ∀ p, (n.parties p).arriving.length ≤ 1 := by
  have hsome : ((Machine.run (networked (step .little) sends takes) (exchangeStart fun _ => 0)
      exchangeRun).filter fun n => (n.parties true).heard.map Prod.snd = [[7, 8]]).isSome := by
    decide +kernel
  obtain ⟨n, hn⟩ := Option.isSome_iff_exists.mp hsome
  obtain ⟨hn, hheard⟩ := Option.filter_eq_some_iff.mp hn
  exact ⟨_, n, hn, of_decide_eq_true hheard,
    exchanged (.of_run (Network.ok_of_forall fun _ _ => trivial) hn)⟩

end World

end Unisock.Udp
