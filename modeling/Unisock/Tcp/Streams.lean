import Unisock.Tcp.Received
import Unisock.Tcp.Stream

/-! Each connection of the machine as an output stream of its own: every run of the machine is followed
by a run of the stream, with the same calls, the same send buffer and the same bytes. -/

namespace Unisock.Tcp

open Unisock.Events

/-- What one call of `send` or `send_flush` hands over: the message, if `send` returns true, and the
bytes that the kernel accepts. -/
structure Handover where
  promised : Bytes
  accepted : Bytes
deriving DecidableEq, Repr

/-- What the call hands over on a connection with this send buffer. -/
def StreamCall.handover (sendBuffer : List Bytes) : StreamCall → Handover
  | .send message result => ⟨if toInt result < 0 then [] else message, message.take result.toNat⟩
  | .flush result => ⟨[], (sendBuffer.headD []).take result.toNat⟩

/-- What `::send` returns in the call. -/
def StreamCall.result : StreamCall → Int
  | .send _ result | .flush result => result

namespace Stream

variable {ρ : Type} {s t : Stream ρ}

/-- The stream of a connection on which nothing has been handed over. -/
def ofConnection (c : Connection) (handler : Handler ρ) : Stream ρ where
  connection := c
  handler := handler
  accepted := []
  promised := []

theorem legal_congr (hbuf : s.connection.sendBuffer = t.connection.sendBuffer)
    {call : StreamCall} (h : s.Legal call) : t.Legal call := by
  cases call with
  | send message result => exact h
  | flush result => exact (show SendResult (t.connection.sendBuffer.headD []).length result from hbuf ▸ h)

theorem inOrder_congr (hbuf : s.connection.sendBuffer = t.connection.sendBuffer)
    {call : StreamCall} (h : s.InOrder call) : t.InOrder call := by
  cases call with
  | send message result => exact h.imp_left fun h => hbuf ▸ h
  | flush result => exact fun front hfront => h front (hbuf ▸ hfront)

/-- What a call does to a stream, in terms of its send buffer. -/
theorem call_handover (s : Stream ρ) (call : StreamCall) :
    (s.call call).promised = s.promised ++ (call.handover s.connection.sendBuffer).promised ∧
      (s.call call).accepted = s.accepted ++ (call.handover s.connection.sendBuffer).accepted := by
  cases call with
  | flush result => exact ⟨(List.append_nil _).symm, rfl⟩
  | send message result =>
    refine ⟨?_, rfl⟩
    have hraised := s.connection.send_raised s.handler message result
    by_cases hneg : toInt result < 0
    · simp [Stream.call, StreamCall.handover, hneg, hraised.mpr hneg]
    · have : (s.connection.send s.handler message result).raised = false := by
        rw [← Bool.not_eq_true, hraised]
        exact hneg
      simp [Stream.call, StreamCall.handover, hneg, this]

end Stream

namespace Connection

variable {ρ ρ' : Type} {c d : Connection} {handler : Handler ρ} {handler' : Handler ρ'}

/-- What `send` queues depends on the send buffer only. -/
theorem send_buffer_congr (hbuf : c.sendBuffer = d.sendBuffer) (message : Bytes) (result : Int) :
    (c.send handler message result).connection.sendBuffer =
      (d.send handler' message result).connection.sendBuffer := by
  unfold Connection.send
  simp only
  split
  · exact hbuf
  · split
    · exact congrArg (· ++ _) hbuf
    · exact hbuf

theorem sendFlush_buffer_congr (hbuf : c.sendBuffer = d.sendBuffer) (result : Int) :
    (c.sendFlush handler result).connection.sendBuffer =
      (d.sendFlush handler' result).connection.sendBuffer := by
  cases hd : d.sendBuffer with
  | nil => rw [sendFlush_nil (hbuf.trans hd), sendFlush_nil hd, hbuf]
  | cons front rest =>
    have hc := hbuf.trans hd
    rcases sendFlush_cases hc handler result with ⟨hneg, h⟩ | ⟨hnonneg, hlt, h⟩ | ⟨hnonneg, hge, h⟩ <;>
      rcases sendFlush_cases hd handler' result with ⟨hneg', h'⟩ | ⟨hnonneg', hlt', h'⟩ |
        ⟨hnonneg', hge', h'⟩ <;>
      first
        | omega
        | rw [h, h']
    · exact hbuf
    · exact hbuf

/-- A call that fails leaves the connection as it is. -/
theorem send_of_raised {message : Bytes} {result : Int}
    (h : (c.send handler message result).raised = true) :
    (c.send handler message result).connection = c := by
  rcases c.send_cases handler message result with ⟨-, hsend⟩ | ⟨-, -, hsend⟩ | ⟨-, -, hsend⟩ <;>
    rw [hsend] at h ⊢
  exact absurd h (by simp)

theorem sendFlush_of_raised {result : Int} (h : (c.sendFlush handler result).raised = true) :
    (c.sendFlush handler result).connection = c := by
  cases hbuf : c.sendBuffer with
  | nil => rw [sendFlush_nil hbuf]
  | cons front rest =>
    rcases sendFlush_cases hbuf handler result with ⟨-, hflush⟩ | ⟨-, -, hflush⟩ | ⟨-, -, hflush⟩ <;>
      rw [hflush] at h ⊢
    exact absurd h (by simp)

end Connection

namespace World

/-- The call on `p` that the next step is of, as a call on its stream. -/
def streamCall (p : SockPtr) (w : World) (i : Input) : Option StreamCall :=
  match w.stack, i with
  | .call (.send q message) :: _, .sent result _ => if q = p then some (.send message result) else none
  | .call (.sendFlush q) :: _, .sent result _ => if q = p then some (.flush result) else none
  | _, _ => none

/-- What the next step hands over from `p`. -/
def handovers (p : SockPtr) (w : World) (i : Input) : List Handover :=
  ((w.mem.deref p).bind fun c => (streamCall p w i).map (StreamCall.handover c.sendBuffer)).toList

/-- A stream on which nothing has been called. -/
def unusedStream : Stream SockPtr where
  connection := { node := 0, sock := -1, sendBuffer := [], actions := fun _ => [] }
  handler := { sockets := [], socketPtrs := [], invalid := 0 }
  accepted := []
  promised := []

/-- The stream has handed over what has been seen of `p`, and its send buffer is that of `p`. -/
structure Follows (p : SockPtr) (seen : List Handover) (w : World) (s : Stream SockPtr) : Prop where
  promised : s.promised = seen.flatMap Handover.promised
  accepted : s.accepted = seen.flatMap Handover.accepted
  buffer : ∀ c, w.mem.deref p = some c → s.connection.sendBuffer = c.sendBuffer
  unused : w.mem.nextNode ≤ p.node → s.connection.sendBuffer = []

variable {w w' : World} {i : Input} {p : SockPtr} {rest : List Frame}

/-- A move that hands over no bytes of `p` leaves its send buffer, or makes `p`. -/
theorem Move.keepsBuffer (h : Move w i w') (hnot : ¬ w.Wrote w' p) {c' : Connection}
    (hc' : w'.mem.deref p = some c') :
    (∃ c, w.mem.deref p = some c ∧ c'.sendBuffer = c.sendBuffer) ∨
      (p.node = w.mem.nextNode ∧ c'.sendBuffer = []) := by
  rcases h.touch with hsame | ⟨q, d, htouch, hderef⟩
  · exact .inl ⟨c', hsame p ▸ hc', rfl⟩
  · rw [hderef p] at hc'
    split at hc'
    · next hpq =>
      subst hpq
      cases htouch with
      | erased => exact absurd hc' (by simp)
      | inserted hnew _ hwiring =>
        obtain rfl := Option.some.inj hc'
        exact .inr ⟨hnew, by rcases hwiring with rfl | rfl <;> rfl⟩
      | @wired c f wiring rest hq _ hwiring =>
        obtain rfl := Option.some.inj hc'
        exact .inl ⟨c, hq, by rcases hwiring with ⟨-, rfl⟩ | ⟨-, rfl⟩ <;> rfl⟩
      | sent _ hwrote => exact absurd hwrote hnot
      | closed hq => exact .inl ⟨_, hq, Option.some.inj hc' ▸ rfl⟩
      | hooked hq _ => exact .inl ⟨_, hq, Option.some.inj hc' ▸ rfl⟩
    · exact .inl ⟨c', hc', rfl⟩

/-- Where the step is of a call on `p`. -/
theorem streamCall_cases {call : StreamCall} (h : streamCall p w i = some call) :
    ∃ rest result errno, i = .sent result errno ∧
      ((∃ message, w.stack = .call (.send p message) :: rest ∧ call = .send message result) ∨
        (w.stack = .call (.sendFlush p) :: rest ∧ call = .flush result)) := by
  unfold streamCall at h
  split at h
  · next q message rest result errno hstack =>
    obtain ⟨rfl, heq⟩ := Option.ite_none_right_eq_some.mp h
    exact ⟨rest, result, errno, rfl, .inl ⟨message, hstack, (Option.some.inj heq).symm⟩⟩
  · next q rest result errno hstack =>
    obtain ⟨rfl, heq⟩ := Option.ite_none_right_eq_some.mp h
    exact ⟨rest, result, errno, rfl, .inr ⟨hstack, (Option.some.inj heq).symm⟩⟩
  · exact absurd h (by simp)

/-- The kernel takes bytes from live connections only, in calls on them. -/
theorem wrote_live (h : w.step i = some w') (hi : ∀ p, i ≠ .call (.recv p))
    (hwrote : w.Wrote w' p) :
    ∃ c call, w.mem.deref p = some c ∧ streamCall p w i = some call := by
  have live : ∀ {g : Connection → World} {rest : List Frame},
      w' = { w with stack := rest }.access p g → ∃ c, w.mem.deref p = some c := by
    intro g rest heq
    cases hp : w.mem.deref p with
    | some c => exact ⟨c, rfl⟩
    | none =>
      rw [access_none (w := { w with stack := rest }) hp] at heq
      subst heq
      exact absurd hwrote (not_wrote_of_eq rfl)
  obtain ⟨rest, ⟨message, hstack⟩ | hstack⟩ := step_wrote h hi hwrote
  · obtain ⟨result, errno, rfl, -, hw'⟩ := (step_send hstack).mp h
    obtain ⟨c, hc⟩ := live hw'
    exact ⟨c, .send message result, hc, by simp [streamCall, hstack]⟩
  · obtain ⟨result, errno, rfl, -, hw'⟩ := (step_sendFlush hstack).mp h
    obtain ⟨c, hc⟩ := live hw'
    exact ⟨c, .flush result, hc, by simp [streamCall, hstack]⟩

/-- After `::send`, the connection has the send buffer that is left behind. -/
theorem sent_buffer {c : Connection} (hp : w.mem.deref p = some c) {s : Sent SockPtr}
    (hs : ∃ buffer, s.connection = { c with sendBuffer := buffer })
    (hraised : s.raised = true → s.connection = c) (taken : Bytes) (errno : Int) :
    ∃ d, (w.sent p s taken errno).mem.deref p = some d ∧
      d.sendBuffer = s.connection.sendBuffer := by
  unfold World.sent
  split
  · next hr =>
    rw [executeSocket_some (w := w.setErrno errno) hp]
    exact ⟨c, hp, by rw [hraised hr]⟩
  · obtain ⟨buffer, hs⟩ := hs
    refine ⟨s.connection, ?_, rfl⟩
    have hderef := Memory.deref_modify hp (f := fun _ => s.connection) (by rw [hs]) p
    rw [if_pos rfl] at hderef
    exact hderef

/-- A call on `p` has the same effect on its send buffer as on that of its stream. -/
theorem step_streamCall (h : w.step i = some w') {c : Connection} (hp : w.mem.deref p = some c)
    {call : StreamCall} (hcall : streamCall p w i = some call) :
    ∃ d, w'.mem.deref p = some d ∧ ∀ s : Stream SockPtr,
      s.connection.sendBuffer = c.sendBuffer →
        (s.call call).connection.sendBuffer = d.sendBuffer := by
  obtain ⟨rest, result, errno, rfl, ⟨message, hstack, rfl⟩ | ⟨hstack, rfl⟩⟩ :=
    streamCall_cases hcall
  · obtain ⟨_, _, heq, -, rfl⟩ := (step_send hstack).mp h
    obtain ⟨rfl, rfl⟩ := Input.sent.inj heq
    rw [World.send, access_some (w := { w with stack := rest }) hp]
    obtain ⟨d, hd, hbuf⟩ := sent_buffer (w := { w with stack := rest }) hp
      (c.send_frame w.mem.handler message result).1 c.send_of_raised
      (message.take result.toNat) errno
    exact ⟨d, hd, fun s hs => (Connection.send_buffer_congr hs _ _).trans hbuf.symm⟩
  · obtain ⟨_, _, heq, -, rfl⟩ := (step_sendFlush hstack).mp h
    obtain ⟨rfl, rfl⟩ := Input.sent.inj heq
    rw [World.sendFlush, access_some (w := { w with stack := rest }) hp]
    obtain ⟨d, hd, hbuf⟩ := sent_buffer (w := { w with stack := rest }) hp
      (c.sendFlush_frame w.mem.handler result).1 c.sendFlush_of_raised
      ((c.sendBuffer.headD []).take result.toNat) errno
    exact ⟨d, hd, fun s hs => (Connection.sendFlush_buffer_congr hs _).trans hbuf.symm⟩

/-- A step of a call on `p` is a step of the stream. -/
theorem Follows.call {seen : List Handover} {s : Stream SockPtr} (hf : Follows p seen w s)
    (hs : w.Sound) (h : w.step i = some w') {c : Connection} (hp : w.mem.deref p = some c)
    {call : StreamCall} (hcall : streamCall p w i = some call) :
    Follows p (seen ++ handovers p w i) w' (s.call call) := by
  obtain ⟨hpromised, haccepted⟩ := s.call_handover call
  have hbuf := hf.buffer c hp
  have hseen : handovers p w i = [call.handover s.connection.sendBuffer] := by
    simp [handovers, hp, hcall, hbuf]
  obtain ⟨d, hd, hcalled⟩ := step_streamCall h hp hcall
  refine ⟨?_, ?_, fun c' hc' => ?_, fun hnode => ?_⟩
  · rw [hpromised, hf.promised, hseen, List.flatMap_append]
    simp
  · rw [haccepted, hf.accepted, hseen, List.flatMap_append]
    simp
  · obtain rfl := Option.some.inj (hd.symm.trans hc')
    exact hcalled s hbuf
  · have := hs.mem.node_lt p c hp
    have := ((step_move h).ages hs).nextNode_le
    omega

/-- Other steps leave the stream. -/
theorem Follows.idle {seen : List Handover} {s : Stream SockPtr} (hf : Follows p seen w s)
    (hs : w.Sound) (hi : ∀ q, i ≠ .call (.recv q)) (h : w.step i = some w')
    (hnone : ∀ c, w.mem.deref p = some c → streamCall p w i = none) :
    Follows p (seen ++ handovers p w i) w' s := by
  have hseen : handovers p w i = [] := by
    cases hp : w.mem.deref p with
    | none => simp [handovers, hp]
    | some c => simp [handovers, hp, hnone c hp]
  have hnot : ¬ w.Wrote w' p := fun hwrote => by
    obtain ⟨c, call, hp, hcall⟩ := wrote_live h hi hwrote
    exact absurd ((hnone c hp).symm.trans hcall) (by simp)
  rw [hseen, List.append_nil]
  refine ⟨hf.promised, hf.accepted, fun c' hc' => ?_, fun hnode => hf.unused ?_⟩
  · rcases (step_move h).keepsBuffer hnot hc' with ⟨c, hc, hbuf⟩ | ⟨hnew, hbuf⟩
    · exact (hf.buffer c hc).trans hbuf.symm
    · exact (hf.unused hnew.ge).trans hbuf.symm
  · exact (((step_move h).ages hs).nextNode_le).trans hnode

/-- Every step is answered by at most one call of the stream, which is the call on `p` that the step
is of, and meets the send buffer of `p`. -/
theorem Follows.step {seen : List Handover} {s : Stream SockPtr} (hf : Follows p seen w s)
    (hs : w.Sound) (hi : ∀ q, i ≠ .call (.recv q)) (h : w.step i = some w')
    {ok : Stream SockPtr → StreamCall → Prop}
    (hok : ∀ c call, w.mem.deref p = some c → streamCall p w i = some call →
      s.connection.sendBuffer = c.sendBuffer → ok s call) :
    ∃ t, Machine.Reach Stream.step ok s t ∧ Follows p (seen ++ handovers p w i) w' t := by
  cases hcall : streamCall p w i with
  | none => exact ⟨s, .refl, hf.idle hs hi h fun _ _ => hcall⟩
  | some call =>
    cases hp : w.mem.deref p with
    | none => exact ⟨s, .refl, hf.idle hs hi h fun c hc => absurd (hp.symm.trans hc) (by simp)⟩
    | some c =>
      exact ⟨s.call call, .tail .refl (hok c call hp hcall (hf.buffer c hp)) rfl,
        hf.call hs h hp hcall⟩

theorem start_follows (owners : Owner → OwnerAction → Action Unit) (invalid : UShort)
    (p : SockPtr) : Follows p [] (start owners invalid) unusedStream where
  promised := rfl
  accepted := rfl
  buffer c hc := by simp [start, Memory.empty, Memory.deref] at hc
  unused _ := rfl

/-! ### Bytes in order -/

/-- A call on `p` in which the kernel takes less than 2 ^ 31 bytes, none of them ahead of queued
ones. -/
def InTurn (p : SockPtr) (w : World) (i : Input) : Prop :=
  ∀ c call, w.mem.deref p = some c → streamCall p w i = some call →
    call.result < 2 ^ 31 ∧ (Stream.ofConnection c w.mem.handler).InOrder call

/-- What `::send` returns is a failure, or a count of the bytes that it is given. -/
theorem legal_of_step (h : w.step i = some w') {c : Connection} (hp : w.mem.deref p = some c)
    {call : StreamCall} (hcall : streamCall p w i = some call) (hsmall : call.result < 2 ^ 31) :
    (Stream.ofConnection c w.mem.handler).Legal call := by
  have legal : ∀ {length : Nat} {result : Int}, w.canSend p length result = true →
      result < 2 ^ 31 → SendResult length result := by
    intro length result hcan hlt
    simp only [canSend, hp, Bool.or_eq_true, beq_iff_eq, Bool.and_eq_true, decide_eq_true_eq]
      at hcan
    unfold SendResult
    omega
  obtain ⟨rest, result, errno, rfl, ⟨message, hstack, rfl⟩ | ⟨hstack, rfl⟩⟩ :=
    streamCall_cases hcall
  · obtain ⟨_, _, heq, hcan, -⟩ := (step_send hstack).mp h
    obtain ⟨rfl, rfl⟩ := Input.sent.inj heq
    exact legal hcan hsmall
  · obtain ⟨_, _, heq, hcan, -⟩ := (step_sendFlush hstack).mp h
    obtain ⟨rfl, rfl⟩ := Input.sent.inj heq
    rw [hp] at hcan
    exact legal hcan hsmall

/-- In a run of public calls whose calls on `p` are in turn, what `send` has promised of `p` is what
the kernel has accepted, followed by what is queued. -/
theorem handovers_backlog {owners : Owner → OwnerAction → Action Unit} {invalid : UShort}
    {seen : List Handover}
    (h : Machine.Seen step (fun w i => Public w i ∧ InTurn p w i) (handovers p)
      (start owners invalid) seen w) :
    seen.flatMap Handover.accepted <+: seen.flatMap Handover.promised ∧
      ∀ c, w.mem.deref p = some c → seen.flatMap Handover.promised =
        seen.flatMap Handover.accepted ++ c.sendBuffer.flatten := by
  obtain ⟨s, hreach, hf⟩ : ∃ s, Machine.Reach Stream.step (fun u c => u.Legal c ∧ u.InOrder c)
      unusedStream s ∧ Follows p seen w s := by
    refine h.simulates (start_follows owners invalid p) ?_
    rintro seen u i v s hseen hf ⟨hpublic, hturn⟩ hstep
    have hs : u.Sound := (receiving_of_reach (hseen.reach.mono fun _ _ h => h.1)).1.sound
    have hi : ∀ q, i ≠ .call (.recv q) := by
      rintro q rfl
      exact absurd (hpublic.2 _ rfl) (by simp [Call.hidden])
    refine hf.step hs hi hstep fun c call hc hcall hbuf => ?_
    obtain ⟨hsmall, horder⟩ := hturn c call hc hcall
    exact ⟨Stream.legal_congr hbuf.symm (legal_of_step hstep hc hcall hsmall),
      Stream.inOrder_congr hbuf.symm horder⟩
  have hback : s.Backlog := by
    refine hreach.invariant (Stream.Fresh.backlog ⟨rfl, rfl, rfl⟩) fun u c v hu hok hstep => ?_
    obtain rfl := Option.some.inj hstep
    exact Stream.call_backlog hok.1 hok.2 hu
  rw [← hf.promised, ← hf.accepted]
  exact ⟨⟨_, hback.symm⟩, fun c hc => hf.buffer c hc ▸ hback⟩

end World

end Unisock.Tcp
