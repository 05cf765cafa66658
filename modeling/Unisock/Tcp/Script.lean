import Unisock.Tcp.Lifecycle

/-! A connection of a client and a connection that a server accepted, driven by the same script of
`send` calls and poll rounds. -/

namespace Unisock.Tcp

open Unisock.Events

/-- What the set-up of a connection registers for `WRITEABLE`. -/
def Container.flushing : Container → Action Callback
  | .clients _ => [⟨.sendFlush, ActionFlag.default⟩]
  | .listeners _ | .connections _ => []

/-- The lists of the element are those of its set-up, as far as writing goes. -/
def Wired (p : SockPtr) (c : Connection) : Prop :=
  c.actions .writeable = p.container.flushing ∧ c.actions .error = []

/-- One item of a script: a call of `send`, or a round of `poll` that reports `POLLOUT` for the
connection, with what `::send` returns in it. -/
inductive ScriptStep
  | send (message : Bytes) (result errno : Int)
  | round (result errno : Int)
deriving DecidableEq, Repr

namespace ScriptStep

/-- What the main program calls. -/
def call (p : SockPtr) : ScriptStep → Call
  | .send message _ _ => .send p message
  | .round _ _ => .poll

def sent : ScriptStep → Input
  | .send _ result errno | .round result errno => .sent result errno

def isRound : ScriptStep → Bool
  | .send _ _ _ => false
  | .round _ _ => true

/-- `::send` accepts a part of the message only. -/
def leavesRest : ScriptStep → Bool
  | .send message result _ => 0 ≤ toInt result && (toInt result).toNat < message.length
  | .round _ _ => false

/-- `::send` fails, or accepts at most the whole message. -/
def Legal : ScriptStep → Prop
  | .send message result _ => result = -1 ∨ (0 ≤ result ∧ result ≤ message.length)
  | .round _ _ => True

/-- What a call of `send` queues. -/
def rest : ScriptStep → List Bytes
  | .send message result errno =>
    if (send message result errno).leavesRest then [message.drop (toInt result).toNat] else []
  | .round _ _ => []

/-- What the kernel accepts in a call of `send`. -/
def taken : ScriptStep → Bytes
  | .send message result _ => if toInt result < 0 then [] else message.take result.toNat
  | .round _ _ => []

theorem rest_eq_nil (s : ScriptStep) : s.rest = [] ↔ s.leavesRest = false := by
  cases s with
  | send message result errno =>
    rw [rest]
    cases h : (send message result errno).leavesRest <;> simp
  | round _ _ => exact ⟨fun _ => rfl, fun _ => rfl⟩

end ScriptStep

/-- What the kernel accepted from `p` in this event. -/
def Event.written (p : SockPtr) : Event → Bytes
  | .wrote q bytes => if q = p then bytes else []
  | _ => []

namespace World

/-! ### Playing a script -/

def buffer (w : World) (p : SockPtr) : List Bytes :=
  (w.mem.deref p).elim [] Connection.sendBuffer

/-- The bytes that the kernel has accepted from `p`. -/
def output (w : World) (p : SockPtr) : Bytes := w.log.reverse.flatMap (Event.written p)

/-- The `revents` when `POLLOUT` is reported for `p` only. -/
def reports (w : World) (p : SockPtr) : List UShort :=
  w.mem.handler.sockets.map fun s => if s.fd = p.key then POLLOUT else 0

/-- What the machine gets next while an item is played on `p`. -/
def reply (p : SockPtr) (s : ScriptStep) (w : World) : Input :=
  match w.stack with
  | .call .poll :: _ => .polled 1 (w.reports p)
  | .call (.send _ _) :: _ => s.sent
  | .call (.sendFlush _) :: _ =>
    -- `send_flush` does not call `::send` on an empty buffer
    if (w.buffer p).isEmpty then .sent 0 0 else s.sent
  | _ => .go

/-- The machine runs until nothing is being executed: the functions that were at the top of the
stack, and the last state. -/
def settle (reply : World → Input) : Nat → World → Option (List Frame × World)
  | 0, _ => none
  | fuel + 1, w =>
    match w.stack with
    | [] => some ([], w)
    | f :: _ => (w.step (reply w)).bind fun w' =>
      (settle reply fuel w').map fun r => (f :: r.1, r.2)

/-- The item is played on `p`.  A round takes one step for each entry of the handler. -/
def play (p : SockPtr) (w : World) (s : ScriptStep) : Option (List Frame × World) :=
  (w.step (.call (s.call p))).bind (settle (reply p s) (w.mem.handler.count + 10))

/-- The state after the item, for scripts as runs of a machine. -/
def played (p : SockPtr) (w : World) (s : ScriptStep) : Option World := (w.play p s).map Prod.snd

/-- If the item reports `POLLOUT` while the buffer is not empty, `send_flush` is called. -/
def Flushes (p : SockPtr) (w : World) (s : ScriptStep) : Prop :=
  s.isRound = true → w.buffer p ≠ [] → ∀ r, w.play p s = some r → .call (.sendFlush p) ∈ r.1

/-- The script has the same effect on `p` in `w` as on `q` in `v`. -/
def Alike (w : World) (p : SockPtr) (v : World) (q : SockPtr) (script : List ScriptStep) : Prop :=
  ∃ w' v', Machine.run (played p) w script = some w' ∧ Machine.run (played q) v script = some v' ∧
    w'.output p = v'.output q ∧ w'.buffer p = v'.buffer q ∧
    Machine.Along (played p) (Flushes p) w script ∧ Machine.Along (played q) (Flushes q) v script

/-- The main program runs, and `p` is an open connection. -/
structure Open (w : World) (p : SockPtr) (c : Connection) : Prop where
  reach : ∃ owners invalid, Machine.Reach step OwnerHooks (start owners invalid) w
  idle : w.stack = []
  elem : w.mem.deref p = some c
  isOpen : 0 ≤ c.sock

/-! ### The lists of connections -/

variable {w w' : World} {i : Input} {p : SockPtr}

/-- `WRITEABLE` and `ERROR` lists stay as the set-up leaves them. -/
theorem Move.wired (ho : w.Orderly) (h : Move w i w')
    (hw : ∀ p c, w.mem.deref p = some c → Wired p c) {c' : Connection}
    (hc' : w'.mem.deref p = some c') : Wired p c' := by
  cases h with
  | @erase e cb q list rest hstack hlist hcb _ _ =>
    obtain ⟨c, hc, -⟩ := current_mem hlist hcb
    have hderef := (Memory.deref_eraseSocket hc p).symm.trans hc'
    exact hw p c' (Option.ite_none_left_eq_some.mp hderef).2
  | @closed f q c new rest errno hstack _ hq _ _ =>
    have hderef := (Memory.deref_closeSocket hq c.sock p).symm.trans hc'
    split at hderef
    · next hpq =>
      obtain rfl := Option.some.inj hderef
      exact hpq ▸ hw q c hq
    · exact hw p c' hderef
  | @made f container fd setUp rest hstack _ hsetUp _ hfree =>
    have hderef :=
      (Memory.deref_added (f := Connection.setUpWiring) hfree (fun _ => rfl) p).symm.trans
      hc'
    split at hderef
    · next hp =>
      obtain rfl := Option.some.inj hderef
      rcases hsetUp with ⟨⟨s, rfl⟩, -⟩ | ⟨⟨s, rfl⟩, -⟩ <;> rw [hp] <;> exact ⟨rfl, rfl⟩
    · exact hw p c' hderef
  | accepted hstack _ _ hfree =>
    have hderef := (Memory.deref_added (f := Connection.acceptWiring) hfree (fun _ => rfl)
      p).symm.trans hc'
    split at hderef
    · next hp =>
      obtain rfl := Option.some.inj hderef
      rw [hp]
      exact ⟨rfl, rfl⟩
    · exact hw p c' hderef
  | leaked _ _ _ _ _ hw' =>
    rcases hw' with ⟨k, rfl⟩ | ⟨o, arg, -, rfl⟩ <;> exact hw p c' hc'
  | @finished f q c wiring action rest hstack hf hq =>
    rcases hf with ⟨-, rfl, -⟩ | ⟨-, rfl, -⟩
    · have hderef := (Memory.deref_modify hq (f := Connection.listenWiring) rfl p).symm.trans hc'
      split at hderef
      · next hpq =>
        obtain rfl := Option.some.inj hderef
        exact hpq ▸ hw q c hq
      · exact hw p c' hderef
    · have hderef := (Memory.deref_modify hq (f := Connection.connectWiring) rfl p).symm.trans hc'
      split at hderef
      · next hpq =>
        obtain rfl := Option.some.inj hderef
        exact hpq ▸ hw q c hq
      · exact hw p c' hderef
  | @wrote f q c buffer handler bytes rest hstack hf hq _ =>
    have hderef := (Memory.deref_modify hq (f := fun _ => { c with sendBuffer := buffer }) rfl
      p).symm.trans hc'
    split at hderef
    · next hpq =>
      obtain rfl := Option.some.inj hderef
      exact hpq ▸ hw q c hq
    · exact hw p c' hderef
  | hooked hstack _ => exact (ho.ready hstack).elim
  | _ => exact hw p c' hc'

theorem wired_of_reach {owners : Owner → OwnerAction → Action Unit} {invalid : UShort}
    (h : Machine.Reach step OwnerHooks (start owners invalid) w) {c : Connection}
    (hp : w.mem.deref p = some c) : Wired p c := by
  have hinv : w.Orderly ∧ ∀ p c, w.mem.deref p = some c → Wired p c := by
    apply h.invariant
    · exact ⟨start_orderly owners invalid, fun p c hp => by
        simp [start, Memory.empty, Memory.deref] at hp⟩
    · rintro u i v ⟨ho, hu⟩ hok hstep
      have hmove := step_move hstep
      exact ⟨hmove.orderly ho hok, fun p c hp => hmove.wired ho hu hp⟩
  exact hinv.2 p c hp

/-! ### One item -/

section Settle

variable {reply : World → Input} {n m : Nat} {f : Frame} {rest : List Frame}
  {r : List Frame × World}

theorem settle_idle (reply : World → Input) (n : Nat) (hidle : w.stack = []) :
    settle reply (n + 1) w = some ([], w) := by
  rw [settle, hidle]

theorem settle_step (hstack : w.stack = f :: rest) (hstep : w.step (reply w) = some w')
    {fs : List Frame} {e : World} (h : settle reply n w' = some (fs, e)) :
    settle reply (n + 1) w = some (f :: fs, e) := by
  rw [settle, hstack]
  simp [hstep, h]

theorem settle_busy (hstack : w.stack = f :: rest) (h : settle reply (n + 1) w = some r) :
    ∃ w' r', w.step (reply w) = some w' ∧ settle reply n w' = some r' ∧ r = (f :: r'.1, r'.2) := by
  rw [settle, hstack] at h
  obtain ⟨w', hstep, h⟩ := Option.bind_eq_some_iff.mp h
  obtain ⟨r', hr', rfl⟩ := Option.map_eq_some_iff.mp h
  exact ⟨w', r', hstep, hr', rfl⟩

theorem settle_mono (h : settle reply n w = some r) (hle : n ≤ m) :
    settle reply m w = some r := by
  induction n generalizing w m r with
  | zero => exact absurd h (by simp [settle])
  | succ n ih =>
    obtain ⟨m, rfl⟩ : ∃ k, m = k + 1 := ⟨m - 1, by omega⟩
    cases hstack : w.stack with
    | nil =>
      rw [settle_idle _ _ hstack] at h ⊢
      exact h
    | cons f rest =>
      obtain ⟨w', r', hstep, hr', rfl⟩ := settle_busy hstack h
      exact settle_step hstack hstep (ih hr' (by omega))

theorem settle_reach {ok : World → Input → Prop} (hok : ∀ u, ok u (reply u))
    (h : settle reply n w = some r) : Machine.Reach step ok w r.2 ∧ r.2.stack = [] := by
  induction n generalizing w r with
  | zero => exact absurd h (by simp [settle])
  | succ n ih =>
    cases hstack : w.stack with
    | nil =>
      rw [settle_idle _ _ hstack] at h
      obtain rfl := Option.some.inj h
      exact ⟨.refl, hstack⟩
    | cons f rest =>
      obtain ⟨w', r', hstep, hr', rfl⟩ := settle_busy hstack h
      obtain ⟨hreach, hidle⟩ := ih hr'
      exact ⟨hreach.head (hok w) hstep, hidle⟩

end Settle

theorem reply_ownerHooks (s : ScriptStep) (u : World) : OwnerHooks u (reply p s u) := by
  intro q action flags
  unfold reply
  split <;> try split
  all_goals cases s <;> simp [ScriptStep.sent]

theorem play_eq {s : ScriptStep} {n : Nat} {r : List Frame × World} (hidle : w.stack = [])
    (hcall : w.callable (s.call p) = true)
    (h : settle (reply p s) n (w.push (.call (s.call p))) = some r)
    (hn : n ≤ w.mem.handler.count + 10) : w.play p s = some r := by
  rw [play, step, hidle]
  simp only [hcall, if_true, Option.bind_some]
  exact settle_mono h hn

theorem Open.play {c c' : Connection} (ho : w.Open p c) {s : ScriptStep}
    {r : List Frame × World} (h : w.play p s = some r) (hp : r.2.mem.deref p = some c')
    (hsock : c'.sock = c.sock) : r.2.Open p c' := by
  obtain ⟨owners, invalid, hreach⟩ := ho.reach
  obtain ⟨u, hstep, hsettle⟩ := Option.bind_eq_some_iff.mp h
  obtain ⟨hrest, hidle⟩ := settle_reach (reply_ownerHooks s) hsettle
  have hok : OwnerHooks w (.call (s.call p)) := by
    cases s <;> simp [OwnerHooks, ScriptStep.call]
  exact ⟨⟨owners, invalid, (hreach.tail hok hstep).trans hrest⟩, hidle, hp, hsock ▸ ho.isOpen⟩

theorem Open.wired {c : Connection} (ho : w.Open p c) : Wired p c := by
  obtain ⟨owners, invalid, hreach⟩ := ho.reach
  exact wired_of_reach hreach ho.elem

theorem output_wrote {w w' : World} {bytes : Bytes} (hlog : w'.log = .wrote p bytes :: w.log) :
    w'.output p = w.output p ++ bytes := by
  rw [output, hlog, List.reverse_cons, List.flatMap_append, output]
  simp [Event.written]

theorem step_end {w : World} {e : Execution} {rest : List Frame}
    (hstack : w.stack = .execute e :: rest) (hend : e.stop ≤ e.pos) (i : Input) :
    w.step i = some { w with stack := rest } := by
  rw [step_execute hstack, resume_end hend]

/-- `send` queues a rest and hands bytes over, whatever the wiring of the connection is. -/
theorem play_send {c : Connection} (ho : w.Open p c) {message : Bytes} {result errno : Int}
    (hlegal : (ScriptStep.send message result errno).Legal) :
    ∃ r c', w.play p (.send message result errno) = some r ∧ r.2.Open p c' ∧
      c'.sendBuffer = c.sendBuffer ++ (ScriptStep.send message result errno).rest ∧
      r.2.output p = w.output p ++ (ScriptStep.send message result errno).taken := by
  have hcall : w.callable (.send p message) = true := Option.isSome_of_eq_some ho.elem
  have hcan : w.canSend p message.length result = true := by
    have hopen := ho.isOpen
    rcases hlegal with h | ⟨h0, hle⟩
    · simp [canSend, ho.elem, h]
    · simp [canSend, ho.elem, hopen, h0, hle]
  have hstep : (w.push (.call (.send p message))).step (.sent result errno) =
      some (w.send p message result errno) := by
    have hidle : { w with stack := [] } = w := by rw [← ho.idle]
    simp only [step, push, perform, ho.idle, hidle]
    exact if_pos hcan
  -- once `send` has returned, one more state is the end
  have hreturn : ∀ (buffer : List Bytes) {handler : Handler SockPtr} {bytes : Bytes},
      w.send p message result errno =
        { w with mem := w.mem.sent p ⟨{ c with sendBuffer := buffer }, handler, false⟩ }.note
          (.wrote p bytes) →
      ∃ r c', w.play p (.send message result errno) = some r ∧ r.2.Open p c' ∧
        c'.sendBuffer = buffer ∧ r.2.output p = w.output p ++ bytes := by
    intro buffer handler bytes hsend
    have hend := settle_idle (w := w.send p message result errno)
      (reply p (.send message result errno)) 0 (by rw [hsend]; exact ho.idle)
    have hplay := play_eq (s := .send message result errno) ho.idle hcall
      (settle_step rfl hstep hend) (by omega)
    rw [hsend] at hplay
    have hp := Memory.deref_modify ho.elem (f := fun _ => { c with sendBuffer := buffer }) rfl p
    rw [if_pos rfl] at hp
    exact ⟨_, _, hplay, ho.play hplay hp rfl, rfl, output_wrote rfl⟩
  have hsend : w.send p message result errno =
      w.sent p (c.send w.mem.handler message result) (message.take result.toNat) errno :=
    access_some ho.elem _
  rcases c.send_cases w.mem.handler message result with ⟨hneg, hsent⟩ | ⟨h0, hlt, hsent⟩ |
    ⟨h0, hge, hsent⟩ <;> rw [hsent] at hsend
  · -- the `ERROR` list of the connection is empty
    have herror : (c.actions .error).length = 0 := by rw [ho.wired.2]; rfl
    have hraise : w.send p message result errno =
        (w.setErrno errno).push (.execute ⟨.socket p .error, 0, 0, .errno "send"⟩) := by
      rw [hsend, World.sent, if_pos rfl, executeSocket_some (w := w.setErrno errno) ho.elem, herror]
    rw [hraise] at hstep
    have hend := settle_idle (w := { w.setErrno errno with stack := w.stack })
      (reply p (.send message result errno)) 0 ho.idle
    have hlist := settle_step rfl (step_end (w := (w.setErrno errno).push
      (.execute ⟨.socket p .error, 0, 0, .errno "send"⟩)) rfl le_rfl _) hend
    have hplay := play_eq (s := .send message result errno) ho.idle hcall
      (settle_step rfl hstep hlist) (by omega)
    refine ⟨_, c, hplay, ho.play hplay ho.elem rfl, ?_, ?_⟩
    · simp [ScriptStep.rest, ScriptStep.leavesRest, not_le.mpr hneg]
    · simp only [ScriptStep.taken, hneg, if_true, List.append_nil]
      rfl
  · obtain ⟨r, c', hplay, hopen, hbuf, hout⟩ := hreturn _ hsend
    refine ⟨r, c', hplay, hopen, ?_, ?_⟩
    · simp [hbuf, ScriptStep.rest, ScriptStep.leavesRest, h0, hlt]
    · rw [hout, ScriptStep.taken, if_neg (by omega)]
  · obtain ⟨r, c', hplay, hopen, hbuf, hout⟩ := hreturn c.sendBuffer hsend
    refine ⟨r, c', hplay, hopen, ?_, ?_⟩
    · simp [hbuf, ScriptStep.rest, ScriptStep.leavesRest, not_lt.mpr hge]
    · rw [hout, ScriptStep.taken, if_neg (by omega)]

/-! ### Rounds -/

/-- The state during a round, once `::poll` has reported `POLLOUT` for `p`. -/
def reported (w : World) (p : SockPtr) (stack : List Frame) : World :=
  { w with
    mem := { w.mem with handler := w.mem.handler.report (w.reports p) }
    stack := stack }

theorem report_sockets (w : World) (p : SockPtr) :
    (w.mem.handler.report (w.reports p)).sockets = w.mem.handler.sockets.map fun s =>
      { s with revents := if s.fd = p.key then POLLOUT else 0 } := by
  show w.mem.handler.sockets.zipWith (fun s r => { s with revents := r }) (w.reports p) = _
  rw [reports, List.zipWith_map_right, List.zipWith_self]

/-- The one entry of an open connection. -/
theorem Open.entry {c : Connection} (ho : w.Open p c) :
    ∃ k : Nat, w.mem.handler.socketPtrs[k]? = some p ∧
      (∃ s : Pollfd, w.mem.handler.sockets[k]? = some s ∧ s.fd = p.key) ∧
      ∀ j (s : Pollfd), w.mem.handler.sockets[j]? = some s → s.fd = p.key → j = k := by
  obtain ⟨owners, invalid, hreach⟩ := ho.reach
  have hs := (sound_of_reach hreach).mem
  obtain ⟨k, hk⟩ := List.mem_iff_getElem?.mp (hs.element p c ho.elem ho.isOpen)
  obtain ⟨hfd, hptr⟩ := List.getElem?_zip_eq_some.mp hk
  have hlt : k < w.mem.handler.fds.length := (List.getElem?_eq_some_iff.mp hfd).1
  refine ⟨k, hptr, ?_, fun j s hj hkey => ?_⟩
  · rw [HandlerImpl.fds, List.getElem?_map, Option.map_eq_some_iff] at hfd
    exact hfd
  · have hj' : w.mem.handler.fds[j]? = some p.key := by
      rw [HandlerImpl.fds, List.getElem?_map, hj, Option.map_some, hkey]
    exact ((List.getElem?_inj hlt hs.nodup).mp (hfd.trans hj'.symm)).symm

theorem Open.canPoll {c : Connection} (ho : w.Open p c) : w.canPoll 1 (w.reports p) = true := by
  obtain ⟨owners, invalid, hreach⟩ := ho.reach
  have hs := (sound_of_reach hreach).mem
  have hmem : p.key ∈ w.mem.handler.fds := by
    have hentry := List.mem_map_of_mem (f := Prod.fst) (hs.element p c ho.elem ho.isOpen)
    rwa [hs.aligned.map_fst_registrations] at hentry
  have hcount : (w.reports p).countP (· != 0) = 1 := by
    rw [← List.count_eq_one_of_mem hs.nodup hmem, reports, List.countP_map, HandlerImpl.fds,
      List.count, List.countP_map]
    congr 1
    funext s
    by_cases h : s.fd = p.key <;> simp [h, POLLOUT]
  have hlength : (w.reports p).length = w.mem.handler.sockets.length := by
    rw [reports, List.length_map]
  rw [World.canPoll, hcount, hlength]
  simp

section Poll

variable {c : Connection} {s : ScriptStep} {Q : Frame → Prop} {n k : Nat} {r : List Frame × World}
  {l next : PollLoop} {rest : List Frame}

theorem step_polling (w : World) (p : SockPtr) (l : PollLoop) (rest : List Frame) (i : Input) :
    (w.reported p (.polling l :: rest)).step i = some ((w.reported p rest).pollNext l) := by
  simp only [step, reported]

theorem step_goOn (hturn : pollStep (w.mem.handler.report (w.reports p)) l = .goOn next)
    (i : Input) : (w.reported p (.polling l :: rest)).step i =
      some (w.reported p (.polling next :: rest)) := by
  have hturn' : pollStep (w.reported p rest).mem.handler l = .goOn next := hturn
  rw [step_polling, pollNext, hturn']
  rfl

theorem step_writeable (hp : w.mem.deref p = some c)
    (hturn : pollStep (w.mem.handler.report (w.reports p)) l = .writeable p next) (i : Input) :
    (w.reported p (.polling l :: rest)).step i = some (w.reported p
      (.execute ⟨.socket p .writeable, 0, (c.actions .writeable).length, .none⟩ ::
        .polling next :: rest)) := by
  have hturn' : pollStep (w.reported p rest).mem.handler l = .writeable p next := hturn
  rw [step_polling, pollNext, hturn']
  have hp' : ((w.reported p rest).push (.polling next)).mem.deref p = some c := hp
  exact congrArg some (executeSocket_some hp' .writeable .none)

theorem settle_entries (hQ : ∀ l, Q (.polling l))
    (hk : ∀ j < k, ∃ s, (w.mem.handler.report (w.reports p)).sockets[j]? = some s ∧ s.revents = 0)
    (h : ∀ ref, ∃ fs, settle (reply p s) n (w.reported p [.polling ⟨k, ref, 1, .entry⟩]) =
      some (fs, w') ∧ ∀ f ∈ fs, Q f) (d : Nat) (hd : d ≤ k) (ref : UShort) :
    ∃ fs, settle (reply p s) (n + d) (w.reported p [.polling ⟨k - d, ref, 1, .entry⟩]) =
      some (fs, w') ∧ ∀ f ∈ fs, Q f := by
  induction d generalizing ref with
  | zero => exact h ref
  | succ d ih =>
    obtain ⟨t, ht, hzero⟩ := hk (k - (d + 1)) (by omega)
    have hlt := (List.getElem?_eq_some_iff.mp ht).1
    have hnext : k - (d + 1) + 1 = k - d := by omega
    have hturn : pollStep (w.mem.handler.report (w.reports p)) ⟨k - (d + 1), ref, 1, .entry⟩ =
        .goOn ⟨k - d, (w.mem.handler.report (w.reports p)).getRef, 1, .entry⟩ := by
      simp [pollStep, ht, hzero, hlt.ne, hnext]
    obtain ⟨fs, hfs, hall⟩ := ih (by omega) (w.mem.handler.report (w.reports p)).getRef
    refine ⟨_, settle_step rfl (step_goOn hturn _) hfs, fun f hf => ?_⟩
    rcases List.mem_cons.mp hf with rfl | hf
    · exact hQ _
    · exact hall f hf

/-- At the entry of `p`, the loop gets to `on_writeable` in two turns. -/
theorem settle_entry (hQ : ∀ l, Q (.polling l)) (hp : w.mem.deref p = some c) {t : Pollfd}
    (ht : (w.mem.handler.report (w.reports p)).sockets[k]? = some t)
    (hrevents : t.revents = POLLOUT)
    (hptr : (w.mem.handler.report (w.reports p)).socketPtrs[k]? = some p)
    (h : settle (reply p s) n (w.reported p
      [.execute ⟨.socket p .writeable, 0, (c.actions .writeable).length, .none⟩,
        .polling ⟨k, (w.mem.handler.report (w.reports p)).getRef, 1, .written⟩]) = some r)
    (hall : ∀ f ∈ r.1, Q f) (ref : UShort) :
    ∃ fs, settle (reply p s) (n + 2) (w.reported p [.polling ⟨k, ref, 1, .entry⟩]) =
      some (fs, r.2) ∧ ∀ f ∈ fs, Q f := by
  have hne : k ≠ (w.mem.handler.report (w.reports p)).sockets.length :=
    (List.getElem?_eq_some_iff.mp ht).1.ne
  have hfirst : pollStep (w.mem.handler.report (w.reports p)) ⟨k, ref, 1, .entry⟩ =
      .goOn ⟨k, (w.mem.handler.report (w.reports p)).getRef, 1, .read⟩ := by
    simp [pollStep, ht, hrevents, hne, POLLOUT, POLLIN, hasBit]
  have hsecond : pollStep (w.mem.handler.report (w.reports p))
      ⟨k, (w.mem.handler.report (w.reports p)).getRef, 1, .read⟩ =
      .writeable p ⟨k, (w.mem.handler.report (w.reports p)).getRef, 1, .written⟩ := by
    simp [pollStep, ht, hrevents, hptr, POLLOUT, hasBit, Handler.refHasChanged]
  refine ⟨_, settle_step rfl (step_goOn hfirst _)
    (settle_step rfl (step_writeable hp hsecond _) h), fun f hf => ?_⟩
  rcases List.mem_cons.mp hf with rfl | hf
  · exact hQ _
  · rcases List.mem_cons.mp hf with rfl | hf
    · exact hQ _
    · exact hall f hf

/-- A round calls the `WRITEABLE` list of `p`, and goes on with what that leaves. -/
theorem play_round (ho : w.Open p c) (hround : s.isRound = true) (hpoll : Q (.call .poll))
    (hQ : ∀ l, Q (.polling l)) :
    ∃ l : PollLoop, l.phase = .written ∧ l.nChanges = 1 ∧ ∀ r, settle (reply p s) 6 (w.reported p
      [.execute ⟨.socket p .writeable, 0, (c.actions .writeable).length, .none⟩, .polling l]) =
        some r → (∀ f ∈ r.1, Q f) → ∃ fs, w.play p s = some (fs, r.2) ∧ ∀ f ∈ fs, Q f := by
  obtain ⟨k, hptr, ⟨t, ht, hkey⟩, honly⟩ := ho.entry
  have hlt : k < w.mem.handler.count := (List.getElem?_eq_some_iff.mp ht).1
  have hentry : (w.mem.handler.report (w.reports p)).sockets[k]? =
      some { t with revents := POLLOUT } := by
    rw [report_sockets, List.getElem?_map, ht]
    simp [hkey]
  have hbefore : ∀ j < k, ∃ s, (w.mem.handler.report (w.reports p)).sockets[j]? = some s ∧
      s.revents = 0 := by
    intro j hj
    have hjlt : j < w.mem.handler.sockets.length := hj.trans hlt
    refine ⟨_, by rw [report_sockets, List.getElem?_map, List.getElem?_eq_getElem hjlt]; rfl, ?_⟩
    refine if_neg fun hfd => ?_
    have := honly j _ (List.getElem?_eq_getElem hjlt) hfd
    omega
  refine ⟨⟨k, (w.mem.handler.report (w.reports p)).getRef, 1, .written⟩, rfl, rfl,
    fun r hr hall => ?_⟩
  obtain ⟨fs, hfs, hall'⟩ := settle_entries hQ hbefore
    (settle_entry hQ ho.elem hentry rfl hptr hr hall) k le_rfl 0
  rw [Nat.sub_self] at hfs
  have hcall : s.call p = .poll := by
    cases s with
    | send _ _ _ => exact absurd hround (by simp [ScriptStep.isRound])
    | round _ _ => rfl
  have hstep : (w.push (.call .poll)).step (.polled 1 (w.reports p)) =
      some (w.reported p [.polling (.start 1)]) := by
    have hempty : w.mem.handler.empty = false := by
      cases hsockets : w.mem.handler.sockets with
      | nil => simp [hsockets] at ht
      | cons _ _ => simp [HandlerImpl.empty, hsockets]
    have hcan := ho.canPoll
    have hidle : { w with stack := [] } = w := by rw [← ho.idle]
    simp only [step, push, ho.idle, perform, hidle, hempty, hcan]
    simp [reported]
  have hplay := play_eq (p := p) (s := s) (n := 6 + 2 + k + 1) (r := (.call .poll :: fs, r.2))
    ho.idle (by rw [hcall]; rfl) (by rw [hcall]; exact settle_step rfl hstep hfs) (by omega)
  refine ⟨_, hplay, fun f hf => ?_⟩
  rcases List.mem_cons.mp hf with rfl | hf
  · exact hpoll
  · exact hall' f hf

theorem step_leave (hstack : w.stack = .polling l :: rest) (hphase : l.phase = .written)
    (hn : l.nChanges = 1) (i : Input) :
    w.step i = some ({ w with stack := rest }.setReturned true) := by
  have hturn : pollStep w.mem.handler l = .leave := by simp [pollStep, hphase, hn]
  simp only [step, hstack, pollNext, hturn]

/-- No round calls `send_flush` on the connection of a client. -/
theorem play_round_client (ho : w.Open p c) (hround : s.isRound = true)
    (hclient : p.container.flushing = []) :
    ∃ r, w.play p s = some r ∧ r.2.Open p c ∧ r.2.output p = w.output p ∧
      .call (.sendFlush p) ∉ r.1 := by
  obtain ⟨l, hphase, hn, hplay⟩ := play_round (Q := fun f => f ≠ .call (.sendFlush p)) ho hround
    (by simp) (by simp)
  have hlist : (c.actions .writeable).length = 0 := by rw [ho.wired.1, hclient]; rfl
  rw [hlist] at hplay
  have hlast := settle_idle (w := (w.reported p []).setReturned true) (reply p s) 3 rfl
  have hloop := settle_step rfl (step_leave (w := w.reported p [.polling l]) rfl hphase hn _) hlast
  have hexecute := settle_step rfl (step_end (w := w.reported p
    [.execute ⟨.socket p .writeable, 0, 0, .none⟩, .polling l]) rfl le_rfl _) hloop
  obtain ⟨fs, hfs, hall⟩ := hplay _ hexecute (by simp)
  exact ⟨_, hfs, ho.play hfs ho.elem rfl, rfl, fun hmem => hall _ hmem rfl⟩

/-- With an empty buffer, a round leaves the connection of a server as it is. -/
theorem play_round_server (ho : w.Open p c) (hround : s.isRound = true)
    (hserver : p.container.flushing = [⟨.sendFlush, ActionFlag.default⟩])
    (hbuf : c.sendBuffer = []) :
    ∃ r, w.play p s = some r ∧ r.2.Open p c ∧ r.2.output p = w.output p := by
  obtain ⟨l, hphase, hn, hplay⟩ := play_round (Q := fun _ => True) ho hround trivial
    fun _ => trivial
  have hactions : c.actions .writeable = [⟨.sendFlush, ActionFlag.default⟩] := by
    rw [ho.wired.1, hserver]
  rw [hactions] at hplay
  let e : Execution := ⟨.socket p .writeable, 0, 1, .none⟩
  -- the callback calls `send_flush`, which finds nothing to send
  have hcallback : (w.reported p [.execute e, .polling l]).step .go =
      some (w.reported p [.call (.sendFlush p), .execute e.next, .polling l]) := by
    have hl : (w.reported p [.polling l]).callbacks e.list =
        some [⟨.sendFlush, ActionFlag.default⟩] := by
      show (w.mem.deref p).map (fun c => c.actions .writeable) = _
      rw [ho.elem, Option.map_some, hactions]
    exact (step_execute rfl).trans (resume_turn hl rfl rfl)
  have hreply : reply p s (w.reported p [.call (.sendFlush p), .execute e.next, .polling l]) =
      .sent 0 0 := by
    have hempty : ((w.mem.deref p).elim [] Connection.sendBuffer).isEmpty = true := by
      rw [ho.elem, Option.elim_some, hbuf]
      rfl
    exact if_pos hempty
  let flushed : World := { w.reported p [.execute e.next, .polling l] with
    mem := (w.reported p []).mem.sent p ⟨c, w.mem.handler.report (w.reports p), false⟩
    log := .wrote p [] :: w.log }
  have hflush : (w.reported p [.call (.sendFlush p), .execute e.next, .polling l]).step
      (.sent 0 0) = some flushed := by
    have hp : (w.reported p [.execute e.next, .polling l]).mem.deref p = some c := ho.elem
    have hcan : (w.reported p [.execute e.next, .polling l]).canSend p
        ((w.mem.deref p).elim [] fun c => c.sendBuffer.headD []).length 0 = true := by
      simp [canSend, hp, ho.isOpen]
    have hsend : (w.reported p [.execute e.next, .polling l]).sendFlush p 0 0 = flushed := by
      rw [sendFlush, access_some hp, Connection.sendFlush_nil hbuf, hbuf]
      rfl
    exact (if_pos hcan).trans (congrArg some hsend)
  have hp : flushed.mem.deref p = some c := by
    have hderef := Memory.deref_modify (m := (w.reported p []).mem) ho.elem (f := fun _ => c) rfl p
    rwa [if_pos rfl] at hderef
  have hlast := settle_idle (w := { flushed with stack := [] }.setReturned true) (reply p s) 1 rfl
  have hloop := settle_step rfl (step_leave (w := { flushed with stack := [.polling l] }) rfl hphase
    hn _) hlast
  have hend := settle_step rfl (step_end (w := flushed) (e := e.next) rfl le_rfl _) hloop
  have hcalled := settle_step rfl (hreply.symm ▸ hflush) hend
  have hexecute := settle_step rfl hcallback hcalled
  obtain ⟨fs, hfs, -⟩ := hplay _ hexecute (by simp)
  refine ⟨_, hfs, ho.play hfs hp rfl, ?_⟩
  rw [output_wrote (w := w) rfl, List.append_nil]

end Poll

/-! ### Whole scripts -/

variable {v : World} {q : SockPtr} {c d : Connection} {script : List ScriptStep}

theorem alike_cons {s : ScriptStep} {r r' : List Frame × World} (hp : w.play p s = some r)
    (hq : v.play q s = some r') (hw : Flushes p w s) (hv : Flushes q v s) :
    Alike w p v q (s :: script) ↔ Alike r.2 p r'.2 q script := by
  have hp' : played p w s = some r.2 := by rw [played, hp, Option.map_some]
  have hq' : played q v s = some r'.2 := by rw [played, hq, Option.map_some]
  simp only [Alike, Machine.run_cons, Machine.Along, hp', hq', Option.bind_some, Option.some.injEq,
    forall_eq', hw, hv, true_and]

theorem Open.buffer_eq (ho : w.Open p c) : w.buffer p = c.sendBuffer := by
  rw [buffer, ho.elem, Option.elim_some]

/-- By induction on the script: as long as nothing is queued, both connections do the same, and once
a rest is queued, the first round shows the difference. -/
theorem alike_iff (hw : w.Open p c) (hv : v.Open q d) (hclient : p.container.flushing = [])
    (hserver : q.container.flushing = [⟨.sendFlush, ActionFlag.default⟩])
    (hbuf : c.sendBuffer = d.sendBuffer) (hout : w.output p = v.output q)
    (hlegal : ∀ s ∈ script, s.Legal) :
    Alike w p v q script ↔ (c.sendBuffer ≠ [] → ∀ s ∈ script, s.isRound = false) ∧
      script.Pairwise fun s t => ¬ (s.leavesRest = true ∧ t.isRound = true) := by
  induction script generalizing w v c d with
  | nil =>
    refine ⟨fun _ => ⟨fun _ => by simp, .nil⟩, fun _ => ?_⟩
    refine ⟨w, v, rfl, rfl, hout, ?_, trivial, trivial⟩
    rw [hw.buffer_eq, hv.buffer_eq, hbuf]
  | cons s script ih =>
    have hrest : ∀ s ∈ script, s.Legal := fun s hs => hlegal s (List.mem_cons_of_mem _ hs)
    rw [List.pairwise_cons]
    cases s with
    | send message result errno =>
      have hs := hlegal _ List.mem_cons_self
      obtain ⟨r, c', hp, hr, hrbuf, hrout⟩ := play_send hw hs
      obtain ⟨r', d', hq, hr', hrbuf', hrout'⟩ := play_send hv hs
      have hnext := ih hr hr' (by rw [hrbuf, hrbuf', hbuf]) (by rw [hrout, hrout', hout]) hrest
      rw [alike_cons hp hq (fun h => absurd h (by simp [ScriptStep.isRound]))
        (fun h => absurd h (by simp [ScriptStep.isRound])), hnext, hrbuf]
      generalize hsend : ScriptStep.send message result errno = s
      have hround : s.isRound = false := by rw [← hsend]; rfl
      have hqueued := s.rest_eq_nil
      constructor
      · rintro ⟨hqueue, hpair⟩
        refine ⟨fun hne t ht => ?_, ?_, hpair⟩
        · rcases List.mem_cons.mp ht with rfl | ht
          · exact hround
          · exact hqueue (by simp [hne]) t ht
        · rintro t ht ⟨hleaves, hround'⟩
          have hne : s.rest ≠ [] := fun h => by simp [hqueued.mp h] at hleaves
          exact absurd (hround'.symm.trans (hqueue (by simp [hne]) t ht)) (by decide)
      · rintro ⟨hqueue, hfirst, hpair⟩
        refine ⟨fun hne t ht => ?_, hpair⟩
        by_cases hbufc : c.sendBuffer = []
        · have hleaves : s.leavesRest = true := by
            cases hl : s.leavesRest with
            | true => rfl
            | false => exact absurd (by rw [hbufc, hqueued.mpr hl]; rfl) hne
          cases ht' : t.isRound with
          | true => exact absurd ⟨hleaves, ht'⟩ (hfirst t ht)
          | false => rfl
        · exact hqueue hbufc t (List.mem_cons_of_mem _ ht)
    | round result errno =>
      obtain ⟨r, hp, hr, hrout, hnot⟩ := play_round_client hw (s := .round result errno) rfl hclient
      by_cases hempty : c.sendBuffer = []
      · obtain ⟨r', hq, hr', hrout'⟩ :=
          play_round_server hv (s := .round result errno) rfl hserver (hbuf ▸ hempty)
        have hnext := ih hr hr' hbuf (by rw [hrout, hrout', hout]) hrest
        rw [alike_cons hp hq (fun _ hne => absurd (hw.buffer_eq.trans hempty) hne)
          (fun _ hne => absurd (hv.buffer_eq.trans (hbuf ▸ hempty)) hne), hnext]
        simp [hempty, ScriptStep.leavesRest]
      · constructor
        · rintro ⟨w', v', -, -, -, -, halong, -⟩
          exact absurd (halong.1 rfl (by rw [hw.buffer_eq]; exact hempty) r hp) hnot
        · rintro ⟨hqueue, -⟩
          exact absurd (hqueue hempty _ List.mem_cons_self) (by simp [ScriptStep.isRound])

/-- A connection of a client and an accepted connection, with nothing queued and the same output so
far, do the same in a script if and only if no round comes after a `send` that leaves a rest. -/
theorem flush_alike_iff (hw : w.Open p c) (hv : v.Open q d)
    (hclient : ∃ client, p.container = .connections client)
    (hserver : ∃ server, q.container = .clients server) (hbuf : c.sendBuffer = [])
    (hbuf' : d.sendBuffer = []) (hout : w.output p = v.output q)
    (hlegal : ∀ s ∈ script, s.Legal) :
    Alike w p v q script ↔
      script.Pairwise fun s t => ¬ (s.leavesRest = true ∧ t.isRound = true) := by
  obtain ⟨client, hclient⟩ := hclient
  obtain ⟨server, hserver⟩ := hserver
  rw [alike_iff hw hv (by rw [hclient]; rfl) (by rw [hserver]; rfl) (hbuf.trans hbuf'.symm) hout
    hlegal]
  exact ⟨fun h => h.2, fun h => ⟨fun hne => absurd hbuf hne, h⟩⟩

def connectRun : List Input := [.call (.connect 0), .opened (.ok 3), .setUp none, .go, .go]

/-- What is seen of one connection when nothing is being executed. -/
def open? (w : World) (p : SockPtr) : Option (Bool × Int × List Bytes × Bytes) :=
  (w.mem.deref p).map fun c => (w.stack.isEmpty, c.sock, c.sendBuffer, w.output p)

theorem open_of_run {inputs : List Input} (fd : Int)
    (hok : Machine.checked step registersNothing (start (fun _ _ => []) 0) inputs = true)
    (h : (Machine.run step (start (fun _ _ => []) 0) inputs).bind (fun w => w.open? p) =
      some (true, fd, [], [])) (hfd : 0 ≤ fd) :
    ∃ w c, Machine.run step (start (fun _ _ => []) 0) inputs = some w ∧ w.Open p c ∧
      c.sendBuffer = [] ∧ w.output p = [] := by
  obtain ⟨w, hw, h⟩ := Option.bind_eq_some_iff.mp h
  obtain ⟨c, hc, h⟩ := Option.map_eq_some_iff.mp h
  simp only [Prod.mk.injEq, List.isEmpty_iff] at h
  obtain ⟨hidle, hsock, hbuf, hout⟩ := h
  have hcheck : ∀ u i, registersNothing u i = true → OwnerHooks u i := by
    rintro u i hi p action flags rfl
    exact absurd hi (by simp [registersNothing])
  exact ⟨w, c, hw, ⟨⟨_, _, .of_checked hcheck hok hw⟩, hidle, hc, by omega⟩, hbuf, hout⟩

def connected : SockPtr := { container := .connections 0, key := 3, node := 0 }

def acceptedRun : List Input := acceptRun ++ [.go, .go, .go]

theorem connect_open : ∃ w c, Machine.run step (start (fun _ _ => []) 0) connectRun = some w ∧
    w.Open connected c ∧ c.sendBuffer = [] ∧ w.output connected = [] :=
  open_of_run 3 (by decide) (by decide) (by decide)

theorem accept_open : ∃ w c, Machine.run step (start (fun _ _ => []) 0) acceptedRun = some w ∧
    w.Open accepted4 c ∧ c.sendBuffer = [] ∧ w.output accepted4 = [] :=
  open_of_run 4 (by decide) (by decide) (by decide)

/-- A message that is sent as a whole, and a round. -/
theorem flush_alike_iff_whole : ∃ w v,
    Machine.run step (start (fun _ _ => []) 0) connectRun = some w ∧
    Machine.run step (start (fun _ _ => []) 0) acceptedRun = some v ∧
    (Alike w connected v accepted4 [.send [1, 2] 2 0, .round 1 0] ↔
      [ScriptStep.send [1, 2] 2 0, .round 1 0].Pairwise
        fun s t => ¬ (s.leavesRest = true ∧ t.isRound = true)) := by
  obtain ⟨w, c, hw, hopen, hbuf, hout⟩ := connect_open
  obtain ⟨v, d, hv, hopen', hbuf', hout'⟩ := accept_open
  have hlegal : ∀ s ∈ [ScriptStep.send [1, 2] 2 0, .round 1 0], s.Legal := by
    simp [ScriptStep.Legal]
  exact ⟨w, v, hw, hv, flush_alike_iff hopen hopen' ⟨0, rfl⟩ ⟨0, rfl⟩ hbuf hbuf'
    (hout.trans hout'.symm) hlegal⟩

/-- A message of which the first byte is accepted, and a round: only the accepted connection sends
the other byte. -/
theorem client_keeps_rest : ¬ ∀ (w v : World) (p q : SockPtr) (c d : Connection)
    (script : List ScriptStep), w.Open p c → v.Open q d →
    (∃ client, p.container = .connections client) → (∃ server, q.container = .clients server) →
    c.sendBuffer = [] → d.sendBuffer = [] → w.output p = v.output q →
    (∀ s ∈ script, s.Legal) → Alike w p v q script := by
  intro hall
  obtain ⟨w, c, hw, hopen, hbuf, hout⟩ := connect_open
  obtain ⟨v, d, hv, hopen', hbuf', hout'⟩ := accept_open
  have hlegal : ∀ s ∈ [ScriptStep.send [1, 2] 1 0, .round 1 0], s.Legal := by
    simp [ScriptStep.Legal]
  obtain ⟨w', v', hw', hv', houtput, -⟩ := hall w v connected accepted4 c d _ hopen hopen'
    ⟨0, rfl⟩ ⟨0, rfl⟩ hbuf hbuf' (hout.trans hout'.symm) hlegal
  have hclient : ((Machine.run step (start (fun _ _ => []) 0) connectRun).bind fun w =>
      Machine.run (played connected) w [.send [1, 2] 1 0, .round 1 0]).map
        (fun w => w.output connected) = some [1] := by decide
  have hserver : ((Machine.run step (start (fun _ _ => []) 0) acceptedRun).bind fun v =>
      Machine.run (played accepted4) v [.send [1, 2] 1 0, .round 1 0]).map
        (fun v => v.output accepted4) = some [1, 2] := by decide
  rw [hw, Option.bind_some, hw'] at hclient
  rw [hv, Option.bind_some, hv'] at hserver
  have hone : w'.output connected = [1] := Option.some.inj hclient
  have htwo : v'.output accepted4 = [1, 2] := Option.some.inj hserver
  rw [hone, htwo] at houtput
  exact absurd houtput (by decide)

end World

end Unisock.Tcp
