import Unisock.Tcp.Script
import Unisock.Tcp.Streams

/-! Two programs, each with servers, clients and hooks of its own, and a connection from the one to the
other: what the kernel accepts from `p` in the first arrives at `q` in the second, in order. -/

namespace Unisock.Tcp.World

open Events Machine

/-- Both programs, and the bytes that are on their way from `p` to `q`. -/
def connectedStep (p q : SockPtr) :
    Joined World World UInt8 → Input ⊕ Input → Option (Joined World World UInt8) :=
  joined step step (handovers p) Handover.accepted fun w i => (received q w i).flatten

/-- Public calls in both programs, where the calls on `p` are in turn. -/
def ConnectedOk (p : SockPtr) : Joined World World UInt8 → Input ⊕ Input → Prop :=
  Joined.ok (fun w i => Public w i ∧ InTurn p w i) Public

/-- Nothing is open yet in the programs, and nothing is on its way. -/
def connectedStart (ownersL ownersR : Owner → OwnerAction → Action Unit)
    (invalidL invalidR : UShort) : Joined World World UInt8 where
  left := start ownersL invalidL
  right := start ownersR invalidR
  queue := []

variable {p q : SockPtr} {ownersL ownersR : Owner → OwnerAction → Action Unit}
  {invalidL invalidR : UShort} {seen : List Handover} {t : Joined World World UInt8}

/-- In every run of both programs, what the `RECEIVE` hooks on the side of `q` have been started with
is a prefix of what `send` has promised on `p`; and while `p` exists, the rest of it is about to be
handed on, on its way, or in the send buffer of `p`, in this order. -/
theorem delivered_prefix
    (h : Seen (connectedStep p q) (ConnectedOk p) (shownLeft (handovers p))
      (connectedStart ownersL ownersR invalidL invalidR) seen t) :
    (t.right.delivered q).flatten <+: seen.flatMap Handover.promised ∧
      ∀ c, t.left.mem.deref p = some c → seen.flatMap Handover.promised =
        (t.right.delivered q).flatten ++ (t.right.arriving q).flatten ++ t.queue ++
          c.sendBuffer.flatten := by
  obtain ⟨taken, hleft, hright, hqueue⟩ := h.joined
  obtain ⟨hpre, hbacklog⟩ := handovers_backlog hleft
  obtain ⟨chunks, hchunks, htaken⟩ := hright.exists_flatten
  have haccepted : seen.flatMap Handover.accepted =
      (t.right.delivered q).flatten ++ (t.right.arriving q).flatten ++ t.queue := by
    have hsplit := congrArg List.flatten (received_eq hchunks)
    rw [List.flatten_append] at hsplit
    rw [← hsplit, ← htaken]
    simpa [connectedStart] using hqueue
  refine ⟨?_, fun c hc => by rw [hbacklog c hc, haccepted]⟩
  refine List.IsPrefix.trans ?_ hpre
  rw [haccepted, List.append_assoc]
  exact List.prefix_append _ _

/-- The input is admitted: on `p`, messages are sent with an empty send buffer only. -/
def connectedCheck (p : SockPtr) (s : Joined World World UInt8) : Input ⊕ Input → Bool
  | .inl i => isPublic s.left i && (s.left.mem.deref p).all fun c =>
    (streamCall p s.left i).all fun call => call.result < 2 ^ 31 && c.sendBuffer.isEmpty
  | .inr i => isPublic s.right i

theorem connectedOk_of_check (s : Joined World World UInt8) (i : Input ⊕ Input)
    (h : connectedCheck p s i = true) : ConnectedOk p s i := by
  cases i with
  | inr i => exact public_of_isPublic _ _ h
  | inl i =>
    simp only [connectedCheck, Bool.and_eq_true, Option.all_eq_true, decide_eq_true_eq,
      List.isEmpty_iff] at h
    refine ⟨public_of_isPublic _ _ h.1, fun c call hc hcall => ?_⟩
    obtain ⟨hsmall, hbuf⟩ := h.2 c hc call hcall
    refine ⟨hsmall, ?_⟩
    cases call with
    | send message result => exact .inl hbuf
    | flush result =>
      intro front hfront
      rw [show (Stream.ofConnection c s.left.mem.handler).connection.sendBuffer = c.sendBuffer
        from rfl, hbuf] at hfront
      exact absurd hfront (by simp)

/-- A client sends two bytes. -/
def clientSends : List Input := connectRun ++ [.call (.send connected [1, 2]), .sent 2 0]

/-- A server receives the first of them. -/
def serverReceives : List Input :=
  acceptedRun ++ [.call .poll, .polled 1 [0, POLLIN], .go, .go, .go, .received (.ok [1]), .go]

def sendReceiveRun : List (Input ⊕ Input) := clientSends.map .inl ++ serverReceives.map .inr

theorem delivered_prefix_sendReceive : ∃ t,
    run (connectedStep connected accepted4)
        (connectedStart (fun _ _ => []) (fun _ _ => []) 0 0) sendReceiveRun = some t ∧
      (t.right.delivered accepted4).flatten <+: [1, 2] ∧
        ∀ c, t.left.mem.deref connected = some c →
          [1, 2] = (t.right.delivered accepted4).flatten ++
            (t.right.arriving accepted4).flatten ++ t.queue ++ c.sendBuffer.flatten := by
  have hsome : (run (connectedStep connected accepted4)
      (connectedStart (fun _ _ => []) (fun _ _ => []) 0 0) sendReceiveRun).isSome := by decide
  obtain ⟨t, ht⟩ := Option.isSome_iff_exists.mp hsome
  have hshown : shown (connectedStep connected accepted4) (shownLeft (handovers connected))
      (connectedStart (fun _ _ => []) (fun _ _ => []) 0 0) sendReceiveRun =
        [⟨[1, 2], [1, 2]⟩] := by decide
  have hseen : Seen (connectedStep connected accepted4) (ConnectedOk connected)
      (shownLeft (handovers connected)) (connectedStart (fun _ _ => []) (fun _ _ => []) 0 0) _ t :=
    .of_checked connectedOk_of_check (by decide) ht
  rw [hshown] at hseen
  exact ⟨t, ht, delivered_prefix hseen⟩

end Unisock.Tcp.World
