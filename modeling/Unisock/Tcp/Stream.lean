import Unisock.Lib.Machine
import Unisock.Tcp.Connection

/-! The output of one connection over any sequence of `send` and `send_flush`: the bytes that the
kernel accepted against the messages that `send` promised to deliver, and the write interest of the
connection's entry against its send buffer. -/

namespace Unisock.Tcp

open Unisock.Events

/-- A connection, its handler, the bytes that the kernel accepted from it, and the messages for
which `send` returned true, in the order of the calls. -/
structure Stream (ρ : Type) where
  connection : Connection
  handler : Handler ρ
  accepted : Bytes
  promised : Bytes

/-- A call, with the value that `::send` returns in it. -/
inductive StreamCall
  | send (message : Bytes) (result : Int)
  | flush (result : Int)

/-- The results of `::send` for `length` bytes: a failure, or a count of accepted bytes that an
`int` holds. -/
def SendResult (length : Nat) (result : Int) : Prop :=
  -2 ^ 31 ≤ result ∧ result < 2 ^ 31 ∧ (result < 0 ∨ result ≤ length)

namespace Stream

variable {ρ : Type}

/-- The state after a call.  A failing `::send` accepts nothing: `Int.toNat` is then 0. -/
def call (s : Stream ρ) : StreamCall → Stream ρ
  | .send message result =>
    let sent := s.connection.send s.handler message result
    { connection := sent.connection
      handler := sent.handler
      accepted := s.accepted ++ message.take result.toNat
      promised := if sent.raised then s.promised else s.promised ++ message }
  | .flush result =>
    let sent := s.connection.sendFlush s.handler result
    { s with
      connection := sent.connection
      handler := sent.handler
      accepted := s.accepted ++ (s.connection.sendBuffer.headD []).take result.toNat }

/-- The calls as a machine: every call is possible. -/
def step (s : Stream ρ) (c : StreamCall) : Option (Stream ρ) := some (s.call c)

/-- The result of the call is one that `::send` can return for the bytes it is given. -/
def Legal (s : Stream ρ) : StreamCall → Prop
  | .send message result => SendResult message.length result
  | .flush result => SendResult (s.connection.sendBuffer.headD []).length result

/-- A connection before its first call: nothing is queued, accepted or promised. -/
def Fresh (s : Stream ρ) : Prop :=
  s.connection.sendBuffer = [] ∧ s.accepted = [] ∧ s.promised = []

/-! ### The bytes -/

/-- The call hands no byte over ahead of queued ones and leaves no message half sent in the queue:
a `send` reaches the kernel with bytes only while nothing is queued, and a `send_flush` hands over
all of the front message or nothing. -/
def InOrder (s : Stream ρ) : StreamCall → Prop
  | .send _ result => s.connection.sendBuffer = [] ∨ result ≤ 0
  | .flush result =>
    ∀ front ∈ s.connection.sendBuffer.head?, result ≤ 0 ∨ result = (front.length : Int)

/-- What was promised is what was accepted followed by what is queued. -/
def Backlog (s : Stream ρ) : Prop :=
  s.promised = s.accepted ++ s.connection.sendBuffer.flatten

theorem Fresh.backlog {s : Stream ρ} (h : s.Fresh) : s.Backlog := by
  obtain ⟨hbuf, hacc, hprom⟩ := h
  simp [Backlog, hbuf, hacc, hprom]

theorem send_backlog {s : Stream ρ} {message : Bytes} {result : Int}
    (hlegal : s.Legal (.send message result)) (horder : s.InOrder (.send message result))
    (h : s.Backlog) : (s.call (.send message result)).Backlog := by
  obtain ⟨hlow, hhigh, hlen⟩ := hlegal
  have hint : toInt result = result := toInt_of_range hlow hhigh
  have hprom : s.promised = s.accepted ++ s.connection.sendBuffer.flatten := h
  rcases s.connection.send_cases s.handler message result with ⟨hneg, hsend⟩ | ⟨h0, hlt, hsend⟩ |
    ⟨h0, hge, hsend⟩
  · rw [hint] at hneg
    have hnone : result.toNat = 0 := by omega
    simp [Backlog, call, hsend, hnone, hprom]
  · rw [hint] at h0 hlt hsend
    simp only [Backlog, call, hsend, List.flatten_append, List.flatten_cons, List.flatten_nil,
      List.append_nil, Bool.false_eq_true, if_false]
    -- either nothing is queued, or nothing is accepted: the accepted part stays in front
    have hcomm : message.take result.toNat = [] ∨ s.connection.sendBuffer = [] := by
      rcases horder with hbuf | hle
      · exact .inr hbuf
      · exact .inl (by simp [show result.toNat = 0 by omega])
    rcases hcomm with hnone | hbuf
    · have hdrop : message.drop result.toNat = message := by
        have hsplit := List.take_append_drop result.toNat message
        rwa [hnone, List.nil_append] at hsplit
      simp [hprom, hnone, hdrop]
    · simp [hprom, hbuf]
  · rw [hint] at h0 hge
    have hres : result.toNat = message.length := by omega
    have hwhole : message.take result.toNat = message := by rw [hres, List.take_length]
    have hempty : s.connection.sendBuffer.flatten ++ message =
        message ++ s.connection.sendBuffer.flatten := by
      rcases horder with hbuf | hle
      · simp [hbuf]
      · have : message = [] := List.length_eq_zero_iff.mp (by omega)
        simp [this]
    simp [Backlog, call, hsend, hwhole, hprom, hempty]

theorem flush_backlog {s : Stream ρ} {result : Int} (hlegal : s.Legal (.flush result))
    (horder : s.InOrder (.flush result)) (h : s.Backlog) : (s.call (.flush result)).Backlog := by
  obtain ⟨hlow, hhigh, hlen⟩ := hlegal
  have hint : toInt result = result := toInt_of_range hlow hhigh
  have hprom : s.promised = s.accepted ++ s.connection.sendBuffer.flatten := h
  cases hbuf : s.connection.sendBuffer with
  | nil => simp [Backlog, call, hbuf, hprom]
  | cons front rest =>
    rw [hbuf] at hlen
    have hfront : result ≤ 0 ∨ result = (front.length : Int) := horder front (by simp [hbuf])
    rcases Connection.sendFlush_cases hbuf s.handler result with ⟨hneg, hflush⟩ |
      ⟨h0, hlt, hflush⟩ | ⟨h0, hge, hflush⟩ <;> rw [hint] at *
    · have hnone : result.toNat = 0 := by omega
      simp [Backlog, call, hflush, hbuf, hnone, hprom]
    · have hnone : result.toNat = 0 := by omega
      simp [Backlog, call, hflush, hbuf, hnone, hprom]
    · have hres : result.toNat = front.length := by
        simp only [List.headD_cons] at hlen
        omega
      simp [Backlog, call, hflush, hbuf, hres, hprom]

theorem call_backlog {s : Stream ρ} {c : StreamCall} (hlegal : s.Legal c) (horder : s.InOrder c)
    (h : s.Backlog) : (s.call c).Backlog := by
  cases c with
  | send message result => exact send_backlog hlegal horder h
  | flush result => exact flush_backlog hlegal horder h

/-- In every run of calls in order, the accepted bytes are a prefix of the promised ones. -/
theorem accepted_prefix {s t : Stream ρ} (hs : s.Fresh)
    (hrun : Machine.Reach step (fun u c => u.Legal c ∧ u.InOrder c) s t) :
    t.accepted <+: t.promised := by
  have hback : t.Backlog := hrun.invariant hs.backlog fun u c v hu hok hstep => by
    obtain rfl := Option.some.inj hstep
    exact call_backlog hok.1 hok.2 hu
  exact ⟨t.connection.sendBuffer.flatten, hback.symm⟩

/-- A connection on descriptor 3 of a handler without other entries, before its first call. -/
def first : Stream Unit where
  connection := { node := 0, sock := 3, sendBuffer := [], actions := fun _ => [] }
  handler := { toHandlerImpl := HandlerImpl.addSocket ⟨[], []⟩ 3 (), invalid := 1 }
  accepted := []
  promised := []

theorem accepted_prefix_first : (first.call (.send [1, 2] 1)).accepted <+:
    (first.call (.send [1, 2] 1)).promised :=
  accepted_prefix (s := first) ⟨rfl, rfl, rfl⟩
    (.tail .refl (i := .send [1, 2] 1) ⟨⟨by decide, by decide, .inr (by decide)⟩, .inl rfl⟩ rfl)

/-- A second message passes the queued rest of the first: of `1 2` the kernel takes `1`, and then
`3` of the second message before `2`. -/
theorem send_overtakes : ¬ ∀ (s t : Stream Unit), s.Fresh →
    Machine.Reach step (fun u c => u.Legal c) s t → t.accepted <+: t.promised := by
  intro h
  have hpre := h first _ ⟨rfl, rfl, rfl⟩
    (.tail (.tail .refl (i := .send [1, 2] 1) ⟨by decide, by decide, .inr (by decide)⟩ rfl)
      (i := .send [3] 1) ⟨by decide, by decide, .inr (by decide)⟩ rfl)
  revert hpre
  decide

/-! ### The write interest -/

/-- The `POLLOUT` bit of the connection's entry is set exactly if a message is queued. -/
def TracksInterest (s : Stream ρ) : Prop :=
  ∃ events, s.handler.interest s.connection.sock = some events ∧
    (hasBit events POLLOUT = true ↔ s.connection.sendBuffer ≠ [])

/-- A `send_flush` that pops the front message finds no other message behind it. -/
def PopsLast (s : Stream ρ) : StreamCall → Prop
  | .send _ _ => True
  | .flush result => ∀ front rest, s.connection.sendBuffer = front :: rest →
      0 ≤ toInt result → front.length ≤ (toInt result).toNat → rest = []

theorem hasBit_set (events : UShort) : hasBit (events ||| POLLOUT) POLLOUT = true := by
  have : (events ||| POLLOUT) &&& POLLOUT = POLLOUT := by
    ext i hi
    simp only [BitVec.getElem_and, BitVec.getElem_or]
    cases events[i] <;> simp
  rw [hasBit, this]
  decide

theorem hasBit_cleared (events : UShort) : hasBit (events &&& ~~~POLLOUT) POLLOUT = false := by
  have : (events &&& ~~~POLLOUT) &&& POLLOUT = 0 := by
    ext i hi
    simp [BitVec.getElem_and]
  rw [hasBit, this]
  decide

/-- After `socket_want_write` on the connection's own descriptor, its bit is as asked. -/
theorem interest_want {h : Handler ρ} {sock : Int} {events : UShort}
    (hev : h.interest sock = some events) (active : Bool) :
    ∃ events', (h.socketWantWrite sock active).interest sock = some events' ∧
      hasBit events' POLLOUT = active := by
  have hint := h.toHandlerImpl.socketWant_interest POLLOUT sock active
  rw [hev] at hint
  refine ⟨_, hint, ?_⟩
  cases active
  · exact hasBit_cleared events
  · exact hasBit_set events

/-- One call from a state in which the interest tracks the queue leads to such a state exactly if it
pops no message ahead of another. -/
theorem call_tracks_iff {s : Stream ρ} (hs : s.TracksInterest) (c : StreamCall) :
    (s.call c).TracksInterest ↔ s.PopsLast c := by
  obtain ⟨events, hev, hbit⟩ := hs
  cases c with
  | send message result =>
    refine ⟨fun _ => trivial, fun _ => ?_⟩
    rcases s.connection.send_cases s.handler message result with ⟨-, hsend⟩ | ⟨-, -, hsend⟩ |
      ⟨-, -, hsend⟩
    · exact ⟨events, by simpa [call, hsend] using hev, by simpa [call, hsend] using hbit⟩
    · obtain ⟨events', hev', hbit'⟩ := interest_want hev true
      exact ⟨events', by simpa [call, hsend] using hev', by simp [call, hsend, hbit']⟩
    · exact ⟨events, by simpa [call, hsend] using hev, by simpa [call, hsend] using hbit⟩
  | flush result =>
    cases hbuf : s.connection.sendBuffer with
    | nil =>
      refine ⟨fun _ front rest h => by simp [hbuf] at h, fun _ => ⟨events, ?_, ?_⟩⟩
      · simpa [call, Connection.sendFlush_nil hbuf] using hev
      · simpa [call, Connection.sendFlush_nil hbuf] using hbit
    | cons front rest =>
      rcases Connection.sendFlush_cases hbuf s.handler result with ⟨hneg, hflush⟩ |
        ⟨h0, hlt, hflush⟩ | ⟨h0, hge, hflush⟩
      · refine ⟨fun _ f r _ h0 => by omega, fun _ => ⟨events, ?_, ?_⟩⟩
        · simpa [call, hflush] using hev
        · simpa [call, hflush] using hbit
      · refine ⟨fun _ f r hfr _ hle => ?_, fun _ => ⟨events, ?_, ?_⟩⟩
        · obtain ⟨rfl, rfl⟩ := List.cons.inj (hbuf.symm.trans hfr)
          omega
        · simpa [call, hflush] using hev
        · simpa [call, hflush] using hbit
      · -- the bit is cleared, so the queue must be empty behind the popped message
        obtain ⟨events', hev', hbit'⟩ := interest_want hev false
        constructor
        · rintro ⟨events'', hev'', htrack⟩ f r hfr _ _
          obtain ⟨rfl, rfl⟩ := List.cons.inj (hbuf.symm.trans hfr)
          simp only [call, hflush] at hev'' htrack
          obtain rfl := Option.some.inj (hev'.symm.trans hev'')
          simpa [hbit'] using htrack
        · intro hpop
          have hrest : rest = [] := hpop front rest hbuf h0 hge
          exact ⟨events', by simpa [call, hflush] using hev', by simp [call, hflush, hbit', hrest]⟩

/-- The interest tracks the queue throughout a run exactly if no `send_flush` of the run pops a
message while another is queued behind it. -/
theorem tracks_interest_iff {s : Stream ρ} (hs : s.TracksInterest) (calls : List StreamCall) :
    Machine.Always step TracksInterest s calls ↔ Machine.Along step PopsLast s calls := by
  refine Machine.always_iff_along (fun u c => ⟨u.call c, rfl⟩) (fun u c v hu hv => ?_) hs calls
  obtain rfl := Option.some.inj hv
  exact call_tracks_iff hu c

theorem first_tracks : first.TracksInterest := ⟨POLLIN, by decide, by decide⟩

theorem tracks_interest_iff_first :
    Machine.Always step TracksInterest first [.send [1, 2] 1, .flush 1] :=
  (tracks_interest_iff first_tracks _).mpr
    ⟨trivial, fun t ht => by
      obtain rfl := Option.some.inj ht
      refine ⟨fun front rest hbuf _ _ => ?_, fun _ _ => trivial⟩
      exact (List.cons.inj (show [[2]] = front :: rest from hbuf)).2.symm⟩

/-- With two messages queued, the flush of the first clears the bit although the second is still
queued. -/
theorem flush_drops_interest : ¬ ∀ (s : Stream Unit) (calls : List StreamCall), s.Fresh →
    s.TracksInterest → Machine.Along step Legal s calls →
    Machine.Always step TracksInterest s calls := by
  intro h
  have legal : Machine.Along step Legal first [.send [1] 0, .send [2] 0, .flush 1] := by
    refine ⟨⟨by decide, by decide, .inr (by decide)⟩, fun _ h1 => ?_⟩
    obtain rfl := Option.some.inj h1
    refine ⟨⟨by decide, by decide, .inr (by decide)⟩, fun _ h2 => ?_⟩
    obtain rfl := Option.some.inj h2
    exact ⟨⟨by decide, by decide, .inr (by decide)⟩, fun _ _ => trivial⟩
  have hrun := h first _ ⟨rfl, rfl, rfl⟩ first_tracks legal
  have hend := (((hrun.2 _ rfl).2 _ rfl).2 _ rfl)
  obtain ⟨events, hev, htrack⟩ := hend
  have hclear : hasBit events POLLOUT = false := by
    have : some events = some POLLIN := hev.symm.trans (by decide)
    obtain rfl := Option.some.inj this
    decide
  exact absurd (htrack.mpr (by decide)) (by simp [hclear])

end Stream

end Unisock.Tcp
