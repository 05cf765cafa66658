import Unisock.Tcp.Streams

/-! What the handler polls the connections for, over whole runs: always for reading, and for writing
while messages are queued. -/

namespace Unisock.Events.HandlerImpl

variable {ρ : Type} {h : HandlerImpl ρ} {socket fd : Int} {events : UShort}

/-! ### The interest of one descriptor, when another one is changed -/

theorem interest_addSocket (hsome : h.interest socket = some events) (fd : Int) (ref : ρ) :
    (h.addSocket fd ref).interest socket = some events := by
  obtain ⟨s, hs, rfl⟩ := Option.map_eq_some_iff.mp hsome
  simp [interest, addSocket, List.find?_append, hs]

theorem interest_addSocket_new (hfd : fd ∉ h.fds) (ref : ρ) :
    (h.addSocket fd ref).interest fd = some POLLIN := by
  have hnone : h.sockets.find? (fun s => s.fd == fd) = none := by
    rw [List.find?_eq_none]
    intro s hs heq
    exact hfd (List.mem_map.mpr ⟨s, hs, by simpa using heq⟩)
  simp [interest, addSocket, List.find?_append, hnone]

theorem find?_eq_of_filter {l m : List Pollfd} {q : Pollfd → Bool}
    (heq : l.filter q = m.filter q) : l.find? q = m.find? q := by
  rw [← List.head?_filter, ← List.head?_filter, heq]

theorem interest_delSocket (hne : fd ≠ socket) :
    (h.delSocket fd).interest socket = h.interest socket := by
  unfold delSocket
  split
  · rfl
  · next it hit =>
    have herase : h.sockets.eraseIdx it = h.sockets.eraseP fun s => s.fd == fd := by
      rw [List.eraseP_eq_eraseIdx, show h.sockets.findIdx? (fun s => s.fd == fd) = some it from hit]
    rw [interest, interest, find?_eq_of_filter (m := h.sockets)]
    rw [herase, Parallel.filter_eraseP]
    intro s _ hs
    have hs : s.fd = fd := by simpa using hs
    simpa [hs] using hne

theorem interest_socketWant (mask : UShort) (active : Bool) (hne : fd ≠ socket) :
    (h.socketWant mask fd active).interest socket = h.interest socket := by
  unfold socketWant
  split
  · rfl
  · next it hit =>
    obtain ⟨hlt, hfd, -⟩ := List.findIdx?_eq_some_iff_getElem.mp hit
    rw [interest, interest, find?_eq_of_filter (m := h.sockets)]
    refine Parallel.filter_modify fun s hs => ?_
    rw [List.getElem?_eq_getElem hlt, Option.some.injEq] at hs
    have hs : s.fd = fd := by rw [← hs]; simpa using hfd
    simp [hs, hne]

theorem interest_report {revents : List UShort} (hlen : revents.length = h.sockets.length) :
    (h.report revents).interest socket = h.interest socket := by
  have hview : ∀ l : List Pollfd, (l.find? fun s => s.fd == socket).map Pollfd.events =
      ((l.map fun s => (s.fd, s.events)).find? fun e => e.1 == socket).map Prod.snd := by
    intro l
    rw [List.find?_map, Option.map_map]
    rfl
  rw [interest, interest, hview, hview, report, List.map_zipWith]
  congr 2
  apply List.ext_getElem?
  intro i
  simp only [List.getElem?_map, List.getElem?_zipWith]
  rcases Nat.lt_or_ge i h.sockets.length with hi | hi
  · simp [hi, hlen]
  · simp [List.getElem?_eq_none hi]

end Unisock.Events.HandlerImpl

namespace Unisock.Tcp

open Unisock.Events

namespace World

/-- The entry of every open connection has an interest that agrees with its send buffer. -/
def Polled (R : UShort → List Bytes → Prop) (w : World) : Prop :=
  ∀ p c, w.mem.deref p = some c → 0 ≤ c.sock →
    ∃ events, w.mem.handler.interest p.key = some events ∧ R events c.sendBuffer

/-- The entry asks for `POLLIN`, and for `POLLOUT` only while a message is queued. -/
def AsksRightly (events : UShort) (buffer : List Bytes) : Prop :=
  hasBit events POLLIN = true ∧ (hasBit events POLLOUT = true → buffer ≠ [])

/-- The entry asks for `POLLIN`, and for `POLLOUT` exactly while a message is queued. -/
def AsksExactly (events : UShort) (buffer : List Bytes) : Prop :=
  hasBit events POLLIN = true ∧ (hasBit events POLLOUT = true ↔ buffer ≠ [])

/-- No `send_flush` pops a message while another one is queued behind it. -/
def PopsLast (w : World) (i : Input) : Prop :=
  ∀ p c call, w.mem.deref p = some c → streamCall p w i = some call →
    (Stream.ofConnection c w.mem.handler).PopsLast call

variable {w w' : World} {i : Input} {p : SockPtr}

/-- Open connections have different descriptors. -/
theorem key_ne (hs : w.Sound) {q : SockPtr} {c d : Connection} (hp : w.mem.deref p = some c)
    (hc : 0 ≤ c.sock) (hq : w.mem.deref q = some d) (hd : 0 ≤ d.sock) (hne : p ≠ q) :
    p.key ≠ q.key := by
  intro hkey
  have hmemp := hs.mem.element p c hp hc
  have hmemq := hs.mem.element q d hq hd
  rw [hkey] at hmemp
  have hkeys : (w.mem.handler.registrations.map Prod.fst).Nodup := by
    rw [hs.mem.aligned.map_fst_registrations]
    exact hs.mem.nodup
  exact hne (congrArg Prod.snd (List.inj_on_of_nodup_map hkeys hmemp hmemq rfl))

theorem sent_mem (w : World) (p : SockPtr) (s : Sent SockPtr) (taken : Bytes) (errno : Int) :
    (w.sent p s taken errno).mem = if s.raised then w.mem else w.mem.sent p s := by
  unfold World.sent
  split
  · unfold executeSocket access
    split <;> rfl
  · rfl

/-- What a call on `p` leaves in the memory is what the call leaves of its stream. -/
theorem step_streamCall_mem (h : w.step i = some w') {c : Connection} (hp : w.mem.deref p = some c)
    {call : StreamCall} (hcall : streamCall p w i = some call) :
    ∃ s : Sent SockPtr, (∃ buffer, s.connection = { c with sendBuffer := buffer }) ∧
      s.connection = ((Stream.ofConnection c w.mem.handler).call call).connection ∧
      s.handler = ((Stream.ofConnection c w.mem.handler).call call).handler ∧
      (w'.mem = w.mem.sent p s ∨ (w'.mem = w.mem ∧ s.connection = c ∧ s.handler = w.mem.handler)) := by
  obtain ⟨rest, result, errno, rfl, ⟨message, hstack, rfl⟩ | ⟨hstack, rfl⟩⟩ :=
    streamCall_cases hcall
  · obtain ⟨_, _, heq, -, rfl⟩ := (step_send hstack).mp h
    obtain ⟨rfl, rfl⟩ := Input.sent.inj heq
    rw [World.send, access_some (w := { w with stack := rest }) hp, sent_mem]
    refine ⟨_, (c.send_frame w.mem.handler message result).1, rfl, rfl, ?_⟩
    rcases c.send_cases w.mem.handler message result with ⟨-, hsend⟩ | ⟨-, -, hsend⟩ |
      ⟨-, -, hsend⟩ <;> simp [hsend]
  · obtain ⟨_, _, heq, -, rfl⟩ := (step_sendFlush hstack).mp h
    obtain ⟨rfl, rfl⟩ := Input.sent.inj heq
    rw [World.sendFlush, access_some (w := { w with stack := rest }) hp, sent_mem]
    refine ⟨_, (c.sendFlush_frame w.mem.handler result).1, rfl, rfl, ?_⟩
    cases hbuf : c.sendBuffer with
    | nil => simp [hbuf]
    | cons front rest =>
      rcases Connection.sendFlush_cases hbuf w.mem.handler result with ⟨-, hflush⟩ |
        ⟨-, -, hflush⟩ | ⟨-, -, hflush⟩ <;> simp [hflush]

/-- The interest of other descriptors is not touched by a call of the stream. -/
theorem interest_call {c : Connection} {handler : Handler SockPtr} {socket : Int}
    (hne : c.sock ≠ socket) (call : StreamCall) :
    ((Stream.ofConnection c handler).call call).handler.interest socket =
      handler.interest socket := by
  have htouch : ∀ active, (handler.socketWantWrite c.sock active).interest socket =
      handler.interest socket := fun active =>
    HandlerImpl.interest_socketWant POLLOUT active hne
  cases call with
  | send message result =>
    rcases (c.send_frame handler message result).2 with hsame | ⟨active, hwant⟩
    · exact congrArg (fun h : Handler SockPtr => h.interest socket) hsame
    · exact (congrArg (fun h : Handler SockPtr => h.interest socket) hwant).trans (htouch active)
  | flush result =>
    rcases (c.sendFlush_frame handler result).2 with hsame | ⟨active, hwant⟩
    · exact congrArg (fun h : Handler SockPtr => h.interest socket) hsame
    · exact (congrArg (fun h : Handler SockPtr => h.interest socket) hwant).trans (htouch active)

/-- A call on a connection: if it keeps the agreement of its own entry, all entries agree. -/
theorem Polled.call {R : UShort → List Bytes → Prop} (hpolled : w.Polled R) (hs : w.Sound)
    (h : w.step i = some w') {c : Connection} (hp : w.mem.deref p = some c) {call : StreamCall}
    (hcall : streamCall p w i = some call)
    (hkeeps : 0 ≤ c.sock → ∀ events, w.mem.handler.interest c.sock = some events →
      R events c.sendBuffer → ∃ events',
        ((Stream.ofConnection c w.mem.handler).call call).handler.interest c.sock = some events' ∧
        R events' ((Stream.ofConnection c w.mem.handler).call call).connection.sendBuffer) :
    w'.Polled R := by
  obtain ⟨s, ⟨buffer, hs'⟩, hconn, hhandler, hmem | ⟨hmem, -, -⟩⟩ := step_streamCall_mem h hp hcall
  · intro q d hq hopen
    have hnode : s.connection.node = c.node := by rw [hs']
    have hsock : s.connection.sock = c.sock := by rw [hs']
    have hderef : w'.mem.deref q = if q = p then some s.connection else w.mem.deref q := by
      rw [hmem]
      exact Memory.deref_modify hp (f := fun _ => s.connection) hnode q
    have hinterest : w'.mem.handler.interest q.key = s.handler.interest q.key := by rw [hmem]; rfl
    rw [hderef] at hq
    rw [hinterest, hhandler]
    split at hq
    · next hqp =>
      obtain rfl := Option.some.inj hq
      have hopen : 0 ≤ c.sock := hsock ▸ hopen
      have hkey : c.sock = q.key := hqp ▸ hs.mem.sock_eq hp hopen
      obtain ⟨events, hevents, hR⟩ := hpolled p c hp hopen
      rw [← hqp, ← hkey] at hevents
      rw [← hkey, hconn]
      exact hkeeps hopen events hevents hR
    · next hqp =>
      have hne : c.sock ≠ q.key := by
        intro heq
        by_cases hc : 0 ≤ c.sock
        · exact key_ne hs hp hc hq hopen (Ne.symm hqp) ((hs.mem.sock_eq hp hc).symm.trans heq)
        · have := hs.mem.sock_eq hq hopen
          omega
      rw [interest_call hne]
      exact hpolled q d hq hopen
  · intro q d hq hopen
    rw [hmem] at hq ⊢
    exact hpolled q d hq hopen

/-- A step of no such call keeps the agreement, if new entries have it. -/
theorem Polled.other {R : UShort → List Bytes → Prop} (hpolled : w.Polled R) (hs : w.Sound)
    (h : Move w i w') (hnot : ∀ p, ¬ w.Wrote w' p) (hnew : R POLLIN []) : w'.Polled R := by
  intro p c' hc' hopen
  -- a new element has a new entry, and the others keep theirs
  have added : ∀ {container : Container} {fd : Int} {f : Connection → Connection},
      w.Opens i fd → (w.mem.sockets container).contains fd = false →
      (∀ c, (f c).node = c.node) → (∀ c, (f c).sendBuffer = c.sendBuffer) →
      w'.mem = ((w.mem.openFd fd).addElement container fd).modify (w.mem.newPtr container fd) f →
      ∃ events, w'.mem.handler.interest p.key = some events ∧ R events c'.sendBuffer := by
    intro container fd f hopens hfree hnode hbuf hmem
    have hhandler : w'.mem.handler = w.mem.handler.addSocket fd (w.mem.newPtr container fd) := by
      rw [hmem]; rfl
    have hfd : fd ∉ w.mem.handler.fds := fun hin => hopens.2.2 (hs.mem.opened fd hin)
    rw [hmem, Memory.deref_added hfree hnode] at hc'
    rw [hhandler]
    split at hc'
    · next hp =>
      obtain rfl := Option.some.inj hc'
      subst hp
      exact ⟨POLLIN, HandlerImpl.interest_addSocket_new hfd _, by rw [hbuf]; exact hnew⟩
    · obtain ⟨events, hevents, hR⟩ := hpolled p c' hc' hopen
      exact ⟨events, HandlerImpl.interest_addSocket hevents fd _, hR⟩
  cases h with
  | @erase e cb q list rest hstack hlist hcb _ _ =>
    obtain ⟨c, hc, -⟩ := current_mem hlist hcb
    have hderef := (Memory.deref_eraseSocket hc p).symm.trans hc'
    exact hpolled p c' (Option.ite_none_left_eq_some.mp hderef).2 hopen
  | @closed f q c new rest errno hstack _ hq hsock _ =>
    have hderef := (Memory.deref_closeSocket hq c.sock p).symm.trans hc'
    split at hderef
    · obtain rfl := Option.some.inj hderef
      exact absurd hopen (by simp)
    · next hpq =>
      obtain ⟨events, hevents, hR⟩ := hpolled p c' hderef hopen
      refine ⟨events, ?_, hR⟩
      have hne : c.sock ≠ p.key := by
        rw [hs.mem.sock_eq hq hsock]
        exact key_ne hs hq hsock hderef hopen (Ne.symm hpq)
      exact (HandlerImpl.interest_delSocket hne).trans hevents
  | made _ _ _ hopens hfree =>
    exact added (f := Connection.setUpWiring) hopens hfree (fun _ => rfl) (fun _ => rfl) rfl
  | accepted _ _ hopens hfree =>
    exact added (f := Connection.acceptWiring) hopens hfree (fun _ => rfl) (fun _ => rfl) rfl
  | leaked _ _ _ _ _ hw' =>
    rcases hw' with ⟨k, rfl⟩ | ⟨o, arg, -, rfl⟩ <;> exact hpolled p c' hc' hopen
  | @finished f q c wiring action rest hstack hf hq =>
    have hsame : (wiring c).node = c.node ∧ (wiring c).sock = c.sock ∧
        (wiring c).sendBuffer = c.sendBuffer := by
      rcases hf with ⟨-, rfl, -⟩ | ⟨-, rfl, -⟩ <;> exact ⟨rfl, rfl, rfl⟩
    obtain ⟨hnode, hsock, hbuf⟩ := hsame
    have hderef := (Memory.deref_modify hq hnode p).symm.trans hc'
    split at hderef
    · next hpq =>
      obtain rfl := Option.some.inj hderef
      rw [hbuf]
      exact hpolled p c (hpq ▸ hq) (hsock ▸ hopen)
    · exact hpolled p c' hderef hopen
  | @wrote f q c buffer handler bytes rest hstack hf hq _ => exact absurd ⟨bytes, rfl⟩ (hnot q)
  | @hooked q c action flags rest hstack hq =>
    have hderef := (Memory.deref_modify hq (f := fun c => c.on action .user flags) rfl
      p).symm.trans hc'
    split at hderef
    · next hpq =>
      obtain rfl := Option.some.inj hderef
      exact hpolled p c (hpq ▸ hq) hopen
    · exact hpolled p c' hderef hopen
  | reported hstack _ hlen =>
    obtain ⟨events, hevents, hR⟩ := hpolled p c' hc' hopen
    exact ⟨events, (HandlerImpl.interest_report hlen).trans hevents, hR⟩
  | _ => exact hpolled p c' hc' hopen

theorem hasBit_pollin_set (events : UShort) :
    hasBit (events ||| POLLOUT) POLLIN = hasBit events POLLIN := by
  have : (events ||| POLLOUT) &&& POLLIN = events &&& POLLIN := by
    rw [BitVec.and_or_distrib_right]
    exact BitVec.or_zero
  rw [hasBit, this, hasBit]

theorem hasBit_pollin_cleared (events : UShort) :
    hasBit (events &&& ~~~POLLOUT) POLLIN = hasBit events POLLIN := by
  have : (events &&& ~~~POLLOUT) &&& POLLIN = events &&& POLLIN := by
    rw [BitVec.and_assoc]
    rfl
  rw [hasBit, this, hasBit]

/-- What a call does to the two bits and to the send buffer: it leaves them, or it queues a message
and asks for `POLLOUT`, or it pops one and does not ask any more. -/
theorem call_bits {c : Connection} {handler : Handler SockPtr} {events : UShort}
    (hevents : handler.interest c.sock = some events) (call : StreamCall) :
    ∃ events' buffer,
      ((Stream.ofConnection c handler).call call).handler.interest c.sock = some events' ∧
      ((Stream.ofConnection c handler).call call).connection.sendBuffer = buffer ∧
      hasBit events' POLLIN = hasBit events POLLIN ∧
      ((events' = events ∧ buffer = c.sendBuffer) ∨
        (hasBit events' POLLOUT = true ∧ buffer ≠ []) ∨
        (hasBit events' POLLOUT = false ∧
          ((Stream.ofConnection c handler).PopsLast call → buffer = []))) := by
  have hwant := handler.toHandlerImpl.socketWant_interest POLLOUT c.sock
  cases call with
  | send message result =>
    rcases c.send_cases handler message result with ⟨-, h⟩ | ⟨-, -, h⟩ | ⟨-, -, h⟩ <;>
      simp only [Stream.call, Stream.ofConnection, h]
    · exact ⟨events, _, hevents, rfl, rfl, .inl ⟨rfl, rfl⟩⟩
    · refine ⟨events ||| POLLOUT, _, ?_, rfl, hasBit_pollin_set events, .inr (.inl ⟨?_, by simp⟩)⟩
      · exact (hwant true).trans (by rw [hevents]; rfl)
      · exact Stream.hasBit_set events
    · exact ⟨events, _, hevents, rfl, rfl, .inl ⟨rfl, rfl⟩⟩
  | flush result =>
    cases hbuf : c.sendBuffer with
    | nil =>
      simp only [Stream.call, Stream.ofConnection, Connection.sendFlush_nil hbuf]
      exact ⟨events, _, hevents, hbuf, rfl, .inl ⟨rfl, rfl⟩⟩
    | cons front rest =>
      rcases Connection.sendFlush_cases hbuf handler result with ⟨-, h⟩ | ⟨-, -, h⟩ |
        ⟨hnonneg, hge, h⟩ <;> simp only [Stream.call, Stream.ofConnection, h]
      · exact ⟨events, _, hevents, hbuf, rfl, .inl ⟨rfl, rfl⟩⟩
      · exact ⟨events, _, hevents, hbuf, rfl, .inl ⟨rfl, rfl⟩⟩
      · refine ⟨events &&& ~~~POLLOUT, rest, ?_, rfl, hasBit_pollin_cleared events,
          .inr (.inr ⟨Stream.hasBit_cleared events, fun hlast => ?_⟩)⟩
        · exact (hwant false).trans (by rw [hevents]; rfl)
        · exact hlast front rest hbuf hnonneg hge

/-- Every step keeps an agreement that new entries have and that the calls on each connection keep. -/
theorem Polled.step {R : UShort → List Bytes → Prop} (hpolled : w.Polled R) (hs : w.Sound)
    (hi : ∀ q, i ≠ .call (.recv q)) (h : w.step i = some w') (hnew : R POLLIN [])
    (hkeeps : ∀ p c call, w.mem.deref p = some c → streamCall p w i = some call →
      ∀ events, w.mem.handler.interest c.sock = some events → R events c.sendBuffer → ∃ events',
        ((Stream.ofConnection c w.mem.handler).call call).handler.interest c.sock = some events' ∧
        R events' ((Stream.ofConnection c w.mem.handler).call call).connection.sendBuffer) :
    w'.Polled R := by
  by_cases hsends : ∃ p c call, w.mem.deref p = some c ∧ streamCall p w i = some call
  · obtain ⟨p, c, call, hp, hcall⟩ := hsends
    exact hpolled.call hs h hp hcall fun _ => hkeeps p c call hp hcall
  · refine hpolled.other hs (step_move h) (fun p hwrote => hsends ?_) hnew
    obtain ⟨c, call, hp, hcall⟩ := wrote_live h hi hwrote
    exact ⟨p, c, call, hp, hcall⟩

theorem start_polled (R : UShort → List Bytes → Prop) (owners : Owner → OwnerAction → Action Unit)
    (invalid : UShort) : (start owners invalid).Polled R :=
  fun p c hp => by simp [start, Memory.empty, Memory.deref] at hp

section Runs

variable {owners : Owner → OwnerAction → Action Unit} {invalid : UShort}

theorem public_ne_recv (hi : w.Public i) : ∀ q, i ≠ .call (.recv q) := by
  rintro q rfl
  exact absurd (hi.2 _ rfl) (by simp [Call.hidden])

theorem asksRightly_of_reach (h : Machine.Reach step Public (start owners invalid) w) :
    w.Sound ∧ w.Polled AsksRightly := by
  refine h.invariant (P := fun w => w.Sound ∧ w.Polled AsksRightly)
    ⟨start_sound owners invalid, start_polled _ owners invalid⟩ ?_
  rintro u i v ⟨hs, hpolled⟩ hok hstep
  refine ⟨(step_move hstep).sound hs, hpolled.step hs (public_ne_recv hok) hstep
    ⟨by decide, by decide⟩ ?_⟩
  intro p c call hp hcall events hevents ⟨hin, hout⟩
  obtain ⟨events', buffer, hevents', rfl, hin', hcases⟩ := call_bits hevents call
  refine ⟨events', hevents', hin'.trans hin, fun hbit => ?_⟩
  rcases hcases with ⟨rfl, hbuf⟩ | ⟨-, hbuf⟩ | ⟨hclear, -⟩
  · rw [hbuf]
    exact hout hbit
  · exact hbuf
  · exact absurd (hclear.symm.trans hbit) (by simp)

theorem asksExactly_of_reach
    (h : Machine.Reach step (fun w i => Public w i ∧ PopsLast w i) (start owners invalid) w) :
    w.Sound ∧ w.Polled AsksExactly := by
  refine h.invariant (P := fun w => w.Sound ∧ w.Polled AsksExactly)
    ⟨start_sound owners invalid, start_polled _ owners invalid⟩ ?_
  rintro u i v ⟨hs, hpolled⟩ hok hstep
  refine ⟨(step_move hstep).sound hs, hpolled.step hs (public_ne_recv hok.1) hstep
    ⟨by decide, by decide⟩ ?_⟩
  intro p c call hp hcall events hevents ⟨hin, hout⟩
  obtain ⟨events', buffer, hevents', rfl, hin', hcases⟩ := call_bits hevents call
  refine ⟨events', hevents', hin'.trans hin, ?_⟩
  rcases hcases with ⟨rfl, hbuf⟩ | ⟨hset, hbuf⟩ | ⟨hclear, hlast⟩
  · rw [hbuf]
    exact hout
  · exact iff_of_true hset hbuf
  · refine iff_of_false (by simp [hclear]) (not_not.mpr (hlast ?_))
    exact hok.2 p c call hp hcall

/-- In every run of public calls, the handler has an entry for every open connection that asks for
`POLLIN`, and for `POLLOUT` only while a message is queued; where no `send_flush` of the run pops a
message while another one is queued behind it, it asks for `POLLOUT` exactly while one is queued. -/
theorem polled_for (h : Machine.Reach step Public (start owners invalid) w) :
    w.Polled AsksRightly ∧
      (Machine.Reach step (fun w i => Public w i ∧ PopsLast w i) (start owners invalid) w →
        w.Polled AsksExactly) :=
  ⟨(asksRightly_of_reach h).2, fun h => (asksExactly_of_reach h).2⟩

end Runs

/-- The server of `acceptRun` sends two bytes, of which the kernel takes one. -/
def queueRun : List Input :=
  acceptRun ++ [.go, .go, .go, .call (.send accepted4 [1, 2]), .sent 1 0]

theorem polled_for_queueRun : ∃ w,
    Machine.run step (start (fun _ _ => []) 0) queueRun = some w ∧ w.Polled AsksRightly ∧
      (Machine.Reach step (fun w i => Public w i ∧ PopsLast w i) (start (fun _ _ => []) 0) w →
        w.Polled AsksExactly) := by
  have hsome : (Machine.run step (start (fun _ _ => []) 0) queueRun).isSome := by decide
  obtain ⟨w, hw⟩ := Option.isSome_iff_exists.mp hsome
  exact ⟨w, hw, polled_for (.of_checked public_of_isPublic (by decide) hw)⟩

end World

end Unisock.Tcp
