import Unisock.Tcp.World

/-! What one step of the machine does, case by case: which of memory, log and stack it changes, and
what held when it did. -/

namespace Unisock.Tcp

open Unisock.Events

/-- The frames that execute no action list, set no socket up, and register nothing on an element. -/
def Frame.plain : Frame → Bool
  | .execute _ | .listening _ | .connecting _ | .call (.on _ _ _) => false
  | _ => true

/-- The connection that the callbacks are called with. -/
def Arg.socket? : Arg → Option SockPtr
  | .connection p | .message p _ => some p
  | .none | .bytes _ | .errno _ | .error _ _ => Option.none

/-- The container into which the function that is called inserts. -/
def Frame.target : Frame → Option Container
  | .call (.listen server) => some (.listeners server)
  | .call (.connect client) => some (.connections client)
  | .call (.accept p) =>
    match p.container with
    | .listeners server => some (.clients server)
    | _ => none
  | _ => none

theorem Frame.target_execute {f : Frame} {container : Container} (h : f.target = some container)
    (e : Execution) : f ≠ .execute e := by
  rintro rfl
  simp [Frame.target] at h

/-- The execution behind the callback at its iterator. -/
def Execution.next (e : Execution) : Execution := { e with pos := e.pos + 1 }

/-- What is left of the execution when it has called `cb`. -/
def Execution.after (e : Execution) (cb : ActionCallback Callback) : List Frame :=
  if cb.has ActionFlag.stopAfter then [] else [.execute e.next]

/-- The lambdas that only call a function on their own element. -/
def Callback.neutral : Callback → Bool
  | .user | .accept | .recv | .sendFlush => true
  | .erase | .notify _ | .receive => false

namespace World

/-- The callback that the execution `e` takes next, if it takes another one. -/
def current (w : World) (e : Execution) : Option (ActionCallback Callback) :=
  if e.pos < e.stop then
    ((w.callbacks e.list).filter fun l => l.length == e.stop).bind fun l => l[e.pos]?
  else none

/-- The machine gets the new descriptor `fd` from the system. -/
def Opens (w : World) (i : Input) (fd : Int) : Prop :=
  i = .opened (.ok fd) ∧ 0 ≤ fd ∧ fd ∉ w.mem.descriptors

/-- One step, by what it does. -/
inductive Move (w : World) (i : Input) : World → Prop
  /-- User code calls `c`. -/
  | called {c : Call} {old new rest : List Frame} (hi : i = .call c) (hc : w.callable c = true)
      (hstack : w.stack = old ++ rest)
      (hold : (old = [] ∧ rest = []) ∨ ∃ arg n, old = [.hook arg n])
      (hnew : ∀ f ∈ new, f.plain) :
      Move w i { w with stack := .call c :: (new ++ rest) }
  /-- The topmost function goes on without touching the sockets. -/
  | quiet {f : Frame} {new rest : List Frame} (errno : Int) (returned : Option Bool)
      (owners : Owner → OwnerAction → Action Unit) (hstack : w.stack = f :: rest)
      (hf : ∀ e, f = .execute e → w.current e = none)
      (howners : ∀ o action, owners o action = w.owners o action ∨
        ((w.owners o action).length < (owners o action).length ∧
          ∃ flags, f = .call (.onOwner o action flags)))
      (hnew : ∀ f ∈ new, f.plain) :
      Move w i { w with
        errno := errno
        returned := returned
        owners := owners
        stack := new ++ rest }
  | skipped {e : Execution} {cb : ActionCallback Callback} {rest : List Frame}
      (hstack : w.stack = .execute e :: rest) (hcb : w.current e = some cb)
      (hskip : cb.has ActionFlag.skip = true) :
      Move w i { w with stack := .execute e.next :: rest }
  /-- An execution calls a callback that only calls on. -/
  | entered {e : Execution} {cb : ActionCallback Callback} {f : Frame} {rest : List Frame}
      (hstack : w.stack = .execute e :: rest) (hcb : w.current e = some cb)
      (hskip : cb.has ActionFlag.skip = false) (hexec : cb.exec.neutral = true)
      (hf : f.plain = true) :
      Move w i { w with stack := f :: (e.after cb ++ rest) }
  | notify {e : Execution} {cb : ActionCallback Callback} {p : SockPtr} {list : SocketAction}
      {action : OwnerAction} {rest : List Frame} (hstack : w.stack = .execute e :: rest)
      (hlist : e.list = .socket p list) (hcb : w.current e = some cb)
      (hskip : cb.has ActionFlag.skip = false) (hexec : cb.exec = .notify action) :
      Move w i ({ w with stack := e.after cb ++ rest }.executeOwner p.container.owner action
        (.connection p))
  | receive {e : Execution} {cb : ActionCallback Callback} {p : SockPtr} {list : SocketAction}
      {bytes : Bytes} {rest : List Frame} (hstack : w.stack = .execute e :: rest)
      (hlist : e.list = .socket p list) (hcb : w.current e = some cb)
      (hskip : cb.has ActionFlag.skip = false) (hexec : cb.exec = .receive) :
      Move w i ({ w with stack := e.after cb ++ rest }.executeOwner p.container.owner .receive
        (.message p bytes))
  | erase {e : Execution} {cb : ActionCallback Callback} {p : SockPtr} {list : SocketAction}
      {rest : List Frame} (hstack : w.stack = .execute e :: rest)
      (hlist : e.list = .socket p list) (hcb : w.current e = some cb)
      (hskip : cb.has ActionFlag.skip = false) (hexec : cb.exec = .erase) :
      Move w i ({ w with
        mem := w.mem.eraseSocket p.container p.key
        stack := e.after cb ++ rest }.note (.erased p))
  /-- An element starts one of its lists other than `CLOSED`. -/
  | acted {f : Frame} {p : SockPtr} {c : Connection} {action : SocketAction} {arg : Arg}
      {new rest : List Frame} (errno : Int) (hstack : w.stack = f :: rest)
      (hf : ∀ e, f ≠ .execute e) (hp : w.mem.deref p = some c) (hnot : action ≠ .closed)
      (hrecv : action = .recv → 0 ≤ c.sock) (hnew : ∀ f ∈ new, f.plain) :
      Move w i { w with
        errno := errno
        stack := .execute ⟨.socket p action, 0, (c.actions action).length, arg⟩ :: (new ++ rest) }
  /-- `socket::close` on an open socket. -/
  | closed {f : Frame} {p : SockPtr} {c : Connection} {new rest : List Frame} (errno : Int)
      (hstack : w.stack = f :: rest) (hf : ∀ e, f ≠ .execute e) (hp : w.mem.deref p = some c)
      (hsock : 0 ≤ c.sock) (hnew : ∀ f ∈ new, f.plain) :
      Move w i { w with
        mem := w.mem.closeSocket p c.sock
        errno := errno
        log := .shut p c.sock :: .removed p c.sock :: w.log
        stack := .execute ⟨.socket p .closed, 0, (c.actions .closed).length, .none⟩ ::
          (new ++ rest) }
  | failed {f : Frame} {o : Owner} {fn : String} {new rest : List Frame} (errno : Int)
      (hstack : w.stack = f :: rest) (hf : ∀ e, f ≠ .execute e) (hnew : ∀ f ∈ new, f.plain) :
      Move w i ({ w with errno := errno, stack := new ++ rest }.error o fn)
  /-- `make_socket` in `listen` or `connect`. -/
  | made {f : Frame} {container : Container} {fd : Int} {setUp : SockPtr → Frame}
      {rest : List Frame} (hstack : w.stack = f :: rest) (htarget : f.target = some container)
      (hsetUp : ((∃ s, container = .listeners s) ∧ setUp = .listening) ∨
        ((∃ c, container = .connections c) ∧ setUp = .connecting))
      (hopens : w.Opens i fd) (hfree : (w.mem.sockets container).contains fd = false) :
      Move w i { w with
        mem := ((w.mem.openFd fd).addElement container fd).modify
          (w.mem.newPtr container fd) Connection.setUpWiring
        log := .obtained container fd (some (w.mem.newPtr container fd)) :: w.log
        stack := setUp (w.mem.newPtr container fd) :: rest }
  | accepted {f : Frame} {server : Nat} {fd : Int} {rest : List Frame}
      (hstack : w.stack = f :: rest) (htarget : f.target = some (.clients server)) (hopens : w.Opens i fd)
      (hfree : (w.mem.sockets (.clients server)).contains fd = false) :
      Move w i ({ w with
        mem := ((w.mem.openFd fd).addElement (.clients server) fd).modify
          (w.mem.newPtr (.clients server) fd) Connection.acceptWiring
        log := .obtained (.clients server) fd (some (w.mem.newPtr (.clients server) fd)) :: w.log
        stack := rest }.executeOwner (.server server) .accept
          (.connection (w.mem.newPtr (.clients server) fd)))
  /-- A descriptor from the system that no element gets. -/
  | leaked {f : Frame} {container : Container} {fd : Int} {w' : World} {new rest : List Frame}
      (hstack : w.stack = f :: rest) (htarget : f.target = some container)
      (hopens : w.Opens i fd)
      (htaken : (w.mem.sockets container).contains fd = true ∨
        (fd = 0 ∧ ∃ server, container = .clients server))
      (hnew : ∀ f ∈ new, f.plain)
      (hw' : let lost := { w with
          mem := w.mem.openFd fd
          log := .obtained container fd none :: w.log
          stack := new ++ rest }
        (∃ k, w' = lost.push (.crash k)) ∨
          ∃ o arg, arg.socket? = none ∧ w' = lost.executeOwner o .error arg) :
      Move w i w'
  | finished {f : Frame} {p : SockPtr} {c : Connection} {wiring : Connection → Connection}
      {action : OwnerAction} {rest : List Frame} (hstack : w.stack = f :: rest)
      (hf : (f = .listening p ∧ wiring = Connection.listenWiring ∧ action = .listen) ∨
        (f = .connecting p ∧ wiring = Connection.connectWiring ∧ action = .connect))
      (hp : w.mem.deref p = some c) :
      Move w i ({ w with
        mem := w.mem.modify p wiring
        stack := .returning true :: rest }.executeOwner p.container.owner action (.connection p))
  /-- `send` or `send_flush` without an error. -/
  | wrote {f : Frame} {p : SockPtr} {c : Connection} {buffer : List Bytes}
      {handler : Handler SockPtr} {bytes : Bytes} {rest : List Frame}
      (hstack : w.stack = f :: rest) (hf : ∀ e, f ≠ .execute e) (hp : w.mem.deref p = some c)
      (hhandler : handler = w.mem.handler ∨
        ∃ active, handler = w.mem.handler.socketWantWrite c.sock active) :
      Move w i { w with
        mem := w.mem.sent p ⟨{ c with sendBuffer := buffer }, handler, false⟩
        log := .wrote p bytes :: w.log
        stack := rest }
  | hooked {p : SockPtr} {c : Connection} {action : SocketAction} {flags : UShort}
      {rest : List Frame} (hstack : w.stack = .call (.on p action flags) :: rest)
      (hp : w.mem.deref p = some c) :
      Move w i { w with
        mem := w.mem.modify p fun c => c.on action .user flags
        stack := rest }
  | reported {f : Frame} {revents : List UShort} {l : PollLoop} {rest : List Frame}
      (hstack : w.stack = f :: rest) (hf : ∀ e, f ≠ .execute e)
      (hlen : revents.length = w.mem.handler.sockets.length) :
      Move w i { w with
        mem := { w.mem with handler := w.mem.handler.report revents }
        stack := .polling l :: rest }

/-! ### Accesses to elements -/

section Access

variable {w : World} {p : SockPtr} {c : Connection}

theorem access_some (hp : w.mem.deref p = some c) (g : Connection → World) :
    w.access p g = g c := by
  rw [access, hp]

theorem access_none (hp : w.mem.deref p = none) (g : Connection → World) :
    w.access p g = w.push (.crash .dangling) := by
  rw [access, hp]

theorem executeSocket_some (hp : w.mem.deref p = some c) (action : SocketAction) (arg : Arg) :
    w.executeSocket p action arg =
      w.push (.execute ⟨.socket p action, 0, (c.actions action).length, arg⟩) :=
  access_some hp _

theorem close_closed (hp : w.mem.deref p = some c) (hsock : c.sock < 0) (errno : Int) :
    w.close p errno = w := by
  rw [close, access_some hp, if_pos hsock]

/-- `close` on an open socket runs its `CLOSED` list. -/
theorem close_open (hp : w.mem.deref p = some c) (hsock : 0 ≤ c.sock) (errno : Int) :
    w.close p errno = { w with
      mem := w.mem.closeSocket p c.sock
      errno := errno
      log := .shut p c.sock :: .removed p c.sock :: w.log
      stack := .execute ⟨.socket p .closed, 0, (c.actions .closed).length, .none⟩ :: w.stack } := by
  have hp' : (w.mem.closeSocket p c.sock).deref p = some { c with sock := -1 } := by
    rw [Memory.deref_closeSocket hp, if_pos rfl]
  rw [close, access_some hp, if_neg (not_lt.mpr hsock)]
  exact executeSocket_some (c := { c with sock := -1 }) hp' .closed .none

end Access

section Turns

variable {w w' : World} {i : Input} {e : Execution} {rest : List Frame}

theorem resume_end (h : e.stop ≤ e.pos) : w.resume e i = some w := if_pos h

theorem resume_turn {executors : Action Callback} {cb : ActionCallback Callback}
    (hl : w.callbacks e.list = some executors) (hlen : executors.length = e.stop)
    (hcb : executors[e.pos]? = some cb) :
    w.resume e i =
      if cb.has ActionFlag.skip then some (w.push (.execute e.next))
      else { w with stack := e.after cb ++ w.stack }.invoke e cb.exec i := by
  have hlt : e.pos < e.stop := hlen ▸ (List.getElem?_eq_some_iff.mp hcb).1
  rw [resume, if_neg (Nat.not_le.mpr hlt), hl]
  simp only [hlen, ne_eq, not_true_eq_false, if_false, hcb, Option.map_some, ActionCallback.turn]
  by_cases hskip : cb.has ActionFlag.skip = true
  · simp [hskip, Execution.next]
  · by_cases hstop : cb.has ActionFlag.stopAfter = true
    · simp [hskip, hstop, Execution.after]
    · simp [hskip, hstop, Execution.after, Execution.next, push]

/-! What the callbacks of an execution do, each on its only input. -/

theorem invoke_user : w.invoke e .user i = some w' ↔
    ∃ calls, i = .enter calls ∧ w' = w.push (.hook (w.passed e.arg) calls) := by
  cases i <;> simp [invoke, eq_comm (b := w')]

theorem invoke_notify {p : SockPtr} {list : SocketAction} (hlist : e.list = .socket p list)
    {action : OwnerAction} : w.invoke e (.notify action) i = some w' ↔
      i = .go ∧ w' = w.executeOwner p.container.owner action (.connection p) := by
  cases i <;> simp [invoke, hlist, eq_comm (b := w')]

theorem invoke_erase {p : SockPtr} {list : SocketAction} (hlist : e.list = .socket p list) :
    w.invoke e .erase i = some w' ↔
      i = .go ∧
        w' = { w with mem := w.mem.eraseSocket p.container p.key }.note (.erased p) := by
  cases i <;> simp [invoke, hlist, eq_comm (b := w')]

theorem invoke_receive {p : SockPtr} {list : SocketAction} (hlist : e.list = .socket p list)
    {bytes : Bytes} (harg : e.arg = .bytes bytes) : w.invoke e .receive i = some w' ↔
      i = .go ∧ w' = w.executeOwner p.container.owner .receive (.message p bytes) := by
  cases i <;> simp [invoke, hlist, harg, eq_comm (b := w')]

theorem step_execute (hstack : w.stack = .execute e :: rest) :
    w.step i = { w with stack := rest }.resume e i := by
  simp only [step, hstack]

theorem step_raise {o : Owner} {fn : String} (hstack : w.stack = .raise o fn :: rest) :
    w.step i = some ({ w with stack := rest }.error o fn) := by
  simp only [step, hstack]

theorem step_returning {result : Bool} (hstack : w.stack = .returning result :: rest) :
    w.step i = some ({ w with stack := rest }.setReturned result) := by
  simp only [step, hstack]

end Turns

/-! ### Calls on elements: the only input of each, and the state that it leaves -/

section Calls

variable {w w' : World} {i : Input} {p : SockPtr} {rest : List Frame}

theorem step_call {c : Call} (hstack : w.stack = .call c :: rest) :
    w.step i = { w with stack := rest }.perform c i := by
  simp only [step, hstack]

theorem step_polled (hstack : w.stack = .call .poll :: rest) (n : Int) (revents : List UShort) :
    w.step (.polled n revents) =
      if w.mem.handler.empty then some ({ w with stack := rest }.setReturned false)
      else if w.canPoll n revents then
        some { w with
          mem := { w.mem with
            handler := if n < 0 then w.mem.handler else w.mem.handler.report revents }
          stack := .polling (.start n) :: rest }
      else none :=
  step_call hstack

theorem step_close (hstack : w.stack = .call (.close p) :: rest) :
    w.step i = some w' ↔
      ∃ errno, i = .closed errno ∧ w' = { w with stack := rest }.close p errno := by
  rw [step_call hstack]
  cases i <;> simp [perform, eq_comm (b := w')]

/-- A call that makes one `::send`. -/
theorem step_sending {call : Call} {can : Int → Bool} {next : Int → Int → World}
    (hstack : w.stack = .call call :: rest)
    (hsent : ∀ result errno, { w with stack := rest }.perform call (.sent result errno) =
      if can result then some (next result errno) else none)
    (honly : ∀ {w'}, { w with stack := rest }.perform call i = some w' →
      ∃ result errno, i = .sent result errno) :
    w.step i = some w' ↔
      ∃ result errno, i = .sent result errno ∧ can result = true ∧ w' = next result errno := by
  rw [step_call hstack]
  constructor
  · intro h
    obtain ⟨result, errno, rfl⟩ := honly h
    rw [hsent] at h
    obtain ⟨hcan, heq⟩ := Option.ite_none_right_eq_some.mp h
    exact ⟨result, errno, rfl, hcan, (Option.some.inj heq).symm⟩
  · rintro ⟨result, errno, rfl, hcan, rfl⟩
    rw [hsent, if_pos hcan]

theorem step_send {message : Bytes} (hstack : w.stack = .call (.send p message) :: rest) :
    w.step i = some w' ↔
      ∃ result errno, i = .sent result errno ∧ w.canSend p message.length result = true ∧
        w' = { w with stack := rest }.send p message result errno := by
  refine step_sending hstack (fun _ _ => rfl) fun h => ?_
  cases i with
  | sent result errno => exact ⟨result, errno, rfl⟩
  | _ => simp [perform] at h

theorem step_sendFlush (hstack : w.stack = .call (.sendFlush p) :: rest) :
    w.step i = some w' ↔
      ∃ result errno, i = .sent result errno ∧ w.canSend p
        ((w.mem.deref p).elim [] fun c => c.sendBuffer.headD []).length result = true ∧
        w' = { w with stack := rest }.sendFlush p result errno := by
  refine step_sending hstack (fun _ _ => rfl) fun h => ?_
  cases i with
  | sent result errno => exact ⟨result, errno, rfl⟩
  | _ => simp [perform] at h

theorem step_recv (hstack : w.stack = .call (.recv p) :: rest) :
    w.step i = some w' ↔
      ∃ result, i = .received result ∧ w.canRecv p result = true ∧
        w' = { w with stack := rest }.recv p result := by
  rw [step_call hstack]
  cases i with
  | received result =>
    simp only [perform, Option.ite_none_right_eq_some, Option.some.injEq, Input.received.injEq,
      eq_comm (b := w')]
    constructor
    · exact fun ⟨hcan, heq⟩ => ⟨result, rfl, hcan, heq⟩
    · rintro ⟨_, rfl, h⟩
      exact h
  | _ => simp [perform]

theorem step_closing {container : Container} (hstack : w.stack = .closing container :: rest) :
    w.step i = some w' ↔
      ∃ errno, i = .closed errno ∧
        w' = { w with stack := rest }.closeNext container errno := by
  cases i <;> simp [step, hstack, eq_comm (b := w')]

end Calls

section Cases

variable {w w' : World} {i : Input} {f : Frame} {rest : List Frame}

theorem Move.pop (hstack : w.stack = f :: rest) (hf : ∀ e, f = .execute e → w.current e = none) :
    Move w i { w with stack := rest } :=
  @Move.quiet w i f [] rest w.errno w.returned w.owners hstack hf (fun _ _ => .inl rfl) (by simp)

theorem Move.replace {g : Frame} (hstack : w.stack = f :: rest)
    (hf : ∀ e, f = .execute e → w.current e = none) (hg : g.plain = true) :
    Move w i ({ w with stack := rest }.push g) :=
  @Move.quiet w i f [g] rest w.errno w.returned w.owners hstack hf (fun _ _ => .inl rfl)
    (by simpa using hg)

theorem current_eq {below : World} (hmem : below.mem = w.mem) (howners : below.owners = w.owners)
    (e : Execution) : below.current e = w.current e := by
  cases hl : e.list <;> simp [current, callbacks, hl, hmem, howners]

/-- A turn of `execute` ends the execution, or takes the current callback. -/
theorem resume_cases {below : World} {e : Execution} (h : below.resume e i = some w') :
    (below.current e = none ∧ (w' = below ∨ ∃ k, w' = below.push (.crash k))) ∨
    ∃ cb, below.current e = some cb ∧
      ((cb.has ActionFlag.skip = true ∧ w' = below.push (.execute e.next)) ∨
        (cb.has ActionFlag.skip = false ∧
          { below with stack := e.after cb ++ below.stack }.invoke e cb.exec i = some w')) := by
  unfold resume at h
  split at h
  · next hend =>
    exact .inl ⟨by simp [current, Nat.not_lt.mpr hend], .inl (Option.some.inj h).symm⟩
  · next hend =>
    have hlt : e.pos < e.stop := Nat.lt_of_not_le hend
    split at h
    · next hnone =>
      exact .inl ⟨by simp [current, hnone], .inr ⟨_, (Option.some.inj h).symm⟩⟩
    · next executors hsome =>
      split at h
      · next hlen =>
        exact .inl ⟨by simp [current, hsome, hlen], .inr ⟨_, (Option.some.inj h).symm⟩⟩
      · next hlen =>
        have hcurrent : below.current e = executors[e.pos]? := by
          rw [current, if_pos hlt, hsome, Option.filter_some, if_pos (by simpa using hlen)]
          rfl
        cases hcb : executors[e.pos]? with
        | none => simp [hcb] at h
        | some cb =>
          refine .inr ⟨cb, hcurrent.trans hcb, ?_⟩
          simp only [hcb, Option.map_some, ActionCallback.turn] at h
          cases hskip : cb.has ActionFlag.skip with
          | true => exact .inl ⟨rfl, by simpa [hskip, Execution.next] using h.symm⟩
          | false =>
            refine .inr ⟨rfl, ?_⟩
            cases hstop : cb.has ActionFlag.stopAfter with
            | true => simpa [hskip, hstop, Execution.after] using h
            | false => simpa [hskip, hstop, Execution.after, Execution.next, push] using h

theorem invoke_move {e : Execution} {cb : ActionCallback Callback}
    (hstack : w.stack = .execute e :: rest) (hcb : w.current e = some cb)
    (hskip : cb.has ActionFlag.skip = false)
    (h : { w with stack := e.after cb ++ rest }.invoke e cb.exec i = some w') : Move w i w' := by
  have enter : ∀ g : Frame, g.plain = true → cb.exec.neutral = true →
      Move w i ({ w with stack := e.after cb ++ rest }.push g) := fun g hg hexec =>
    .entered hstack hcb hskip hexec hg
  unfold invoke at h
  split at h
  · next hexec => obtain rfl := Option.some.inj h; exact enter _ rfl (by rw [hexec]; rfl)
  · next hexec hlist => obtain rfl := Option.some.inj h; exact .erase hstack hlist hcb hskip hexec
  · next hexec hlist => obtain rfl := Option.some.inj h; exact .notify hstack hlist hcb hskip hexec
  · next hexec _ => obtain rfl := Option.some.inj h; exact enter _ rfl (by rw [hexec]; rfl)
  · next hexec _ => obtain rfl := Option.some.inj h; exact enter _ rfl (by rw [hexec]; rfl)
  · next hexec _ => obtain rfl := Option.some.inj h; exact enter _ rfl (by rw [hexec]; rfl)
  · next hexec hlist _ =>
    obtain rfl := Option.some.inj h
    exact .receive hstack hlist hcb hskip hexec
  · exact absurd h (by simp)

theorem resume_move {e : Execution} (hstack : w.stack = .execute e :: rest)
    (h : { w with stack := rest }.resume e i = some w') : Move w i w' := by
  have hcur : { w with stack := rest }.current e = w.current e := current_eq rfl rfl e
  have hnone : w.current e = none → ∀ e', Frame.execute e = .execute e' → w.current e' = none :=
    fun hn e' he => by
      obtain rfl := Frame.execute.inj he
      exact hn
  rcases resume_cases h with ⟨hn, rfl | ⟨k, rfl⟩⟩ | ⟨cb, hcb, ⟨hskip, rfl⟩ | ⟨hskip, hturn⟩⟩
  · exact .pop hstack (hnone (hcur ▸ hn))
  · exact .replace hstack (hnone (hcur ▸ hn)) rfl
  · exact .skipped hstack (hcur ▸ hcb) hskip
  · exact invoke_move hstack (hcur ▸ hcb) hskip hturn

/-! ### The functions of the library -/

section Functions

variable (hstack : w.stack = f :: rest) (hf : ∀ e, f ≠ .execute e)
include hstack hf

theorem quiet_move (errno : Int) (new : List Frame) (hnew : ∀ g ∈ new, g.plain) :
    Move w i { w with errno := errno, stack := new ++ rest } :=
  .quiet errno w.returned w.owners hstack (fun e h => absurd h (hf e)) (fun _ _ => .inl rfl) hnew

theorem return_move (result : Bool) : Move w i ({ w with stack := rest }.setReturned result) :=
  @Move.quiet w i f [] rest w.errno (some result) w.owners hstack (fun e h => absurd h (hf e))
    (fun _ _ => .inl rfl) (by simp)

theorem access_move {p : SockPtr} {g : Connection → World}
    (hg : ∀ c, w.mem.deref p = some c → Move w i (g c)) :
    Move w i ({ w with stack := rest }.access p g) := by
  cases hp : w.mem.deref p with
  | none =>
    rw [access_none (w := { w with stack := rest }) hp]
    exact .replace hstack (fun e he => absurd he (hf e)) rfl
  | some c =>
    rw [access_some (w := { w with stack := rest }) hp]
    exact hg c hp

theorem executeSocket_move {p : SockPtr} {action : SocketAction} {arg : Arg} (errno : Int)
    (new : List Frame) (hnot : action ≠ .closed)
    (hrecv : action = .recv → ∀ c, w.mem.deref p = some c → 0 ≤ c.sock)
    (hnew : ∀ g ∈ new, g.plain) :
    Move w i ({ w with errno := errno, stack := new ++ rest }.executeSocket p action arg) := by
  let below : World := { w with errno := errno, stack := new ++ rest }
  cases hp : w.mem.deref p with
  | none =>
    have hcrash : ∀ g ∈ .crash .dangling :: new, Frame.plain g = true := by
      simpa [Frame.plain] using hnew
    have heq : below.executeSocket p action arg = below.push (.crash .dangling) :=
      access_none (w := below) hp _
    exact heq ▸ quiet_move hstack hf errno _ hcrash
  | some c =>
    have heq := executeSocket_some (w := below) hp action arg
    exact heq ▸ .acted errno hstack hf hp hnot (fun hr => hrecv hr c hp) hnew

theorem close_move {p : SockPtr} (errno : Int) (new : List Frame) (hnew : ∀ g ∈ new, g.plain) :
    Move w i ({ w with stack := new ++ rest }.close p errno) := by
  let below : World := { w with stack := new ++ rest }
  cases hp : w.mem.deref p with
  | none =>
    have hcrash : ∀ g ∈ .crash .dangling :: new, Frame.plain g = true := by
      simpa [Frame.plain] using hnew
    have heq : below.close p errno = below.push (.crash .dangling) :=
      access_none (w := below) hp _
    exact heq ▸ quiet_move hstack hf w.errno _ hcrash
  | some c =>
    by_cases hsock : c.sock < 0
    · have heq := close_closed (w := below) hp hsock errno
      exact heq ▸ quiet_move hstack hf w.errno new hnew
    · have hopen : 0 ≤ c.sock := not_lt.mp hsock
      have heq := close_open (w := below) hp hopen errno
      exact heq ▸ .closed errno hstack hf hp hopen hnew

theorem sent_move {p : SockPtr} {c : Connection} {s : Sent SockPtr} {taken : Bytes} {errno : Int}
    (hp : w.mem.deref p = some c)
    (hconn : ∃ buffer, s.connection = { c with sendBuffer := buffer })
    (hhandler : s.handler = w.mem.handler ∨
      ∃ active, s.handler = w.mem.handler.socketWantWrite c.sock active) :
    Move w i ({ w with stack := rest }.sent p s taken errno) := by
  unfold sent
  split
  · exact executeSocket_move hstack hf errno [] (by decide) (by simp) (by simp)
  · obtain ⟨buffer, hbuf⟩ := hconn
    have hmove := @Move.wrote w i f p c buffer s.handler taken rest hstack hf hp hhandler
    rw [← hbuf] at hmove
    exact hmove

theorem error_move {o : Owner} {fn : String} (errno : Int) (new : List Frame)
    (hnew : ∀ g ∈ new, g.plain) :
    Move w i ({ w with errno := errno, stack := new ++ rest }.error o fn) :=
  .failed errno hstack hf hnew

theorem giveUp_move {p : SockPtr} {fn : String} (errno : Int) :
    Move w i ({ w with stack := rest }.giveUp p fn errno) :=
  error_move hstack hf errno [.call (.close p), .returning false] (by simp [Frame.plain])

end Functions

theorem makeSocket_move {container : Container} {fd : Int} {made : World → SockPtr → World}
    {failed : World → World} (new : List Frame) (hstack : w.stack = f :: rest)
    (htarget : f.target = some container) (hopens : w.Opens i fd) (hnew : ∀ g ∈ new, g.plain)
    (hmade : (w.mem.sockets container).contains fd = false →
      Move w i (made { w with
        mem := (w.mem.openFd fd).addElement container fd
        log := .obtained container fd (some (w.mem.newPtr container fd)) :: w.log
        stack := rest } (w.mem.newPtr container fd)))
    (hfailed : ∀ lost, ∃ o arg, arg.socket? = none ∧
      failed lost = { lost with stack := new ++ lost.stack }.executeOwner o .error arg) :
    Move w i ({ w with stack := rest }.makeSocket container fd made failed) := by
  unfold makeSocket Memory.insertSocket
  cases htaken : (w.mem.sockets container).contains fd with
  | true =>
    have hin : ((w.mem.openFd fd).sockets container).contains fd = true := htaken
    simp only [hin, if_true]
    exact .leaked hstack htarget hopens (.inl htaken) hnew (.inr (hfailed _))
  | false =>
    have hin : ((w.mem.openFd fd).sockets container).contains fd = false := htaken
    simp only [hin, if_false, Bool.false_eq_true]
    exact hmade htaken

theorem canOpen_opens {fd : Int} (hi : i = .opened (.ok fd)) (h : w.canOpen (.ok fd) = true) :
    w.Opens i fd := by
  simp only [canOpen, Bool.and_eq_true, decide_eq_true_eq, Bool.not_eq_true',
    List.contains_eq_mem, decide_eq_false_iff_not] at h
  exact ⟨hi, h⟩

theorem listen_move {server : Nat} {result : Except Int Int}
    (hstack : w.stack = .call (.listen server) :: rest) (hi : i = .opened result)
    (hopen : w.canOpen result = true) :
    Move w i ({ w with stack := rest }.listen server result) := by
  have hf : ∀ e, Frame.call (.listen server) ≠ .execute e := by simp
  cases result with
  | error errno => exact error_move hstack hf errno [.returning false] (by simp [Frame.plain])
  | ok fd =>
    have hopens := canOpen_opens hi hopen
    unfold listen
    refine makeSocket_move [.returning false] hstack rfl hopens (by simp [Frame.plain])
      (fun hfree => ?_) fun lost => ⟨_, _, rfl, rfl⟩
    exact .made hstack rfl (.inl ⟨⟨server, rfl⟩, rfl⟩) hopens hfree

theorem connect_move {client : Nat} {result : Except Int Int}
    (hstack : w.stack = .call (.connect client) :: rest) (hi : i = .opened result)
    (hopen : w.canOpen result = true) :
    Move w i ({ w with stack := rest }.connect client result) := by
  have hf : ∀ e, Frame.call (.connect client) ≠ .execute e := by simp
  cases result with
  | error errno => exact error_move hstack hf errno [.returning false] (by simp [Frame.plain])
  | ok fd =>
    have hopens := canOpen_opens hi hopen
    unfold connect
    refine makeSocket_move [.returning false] hstack rfl hopens (by simp [Frame.plain])
      (fun hfree => ?_) fun lost => ⟨_, _, rfl, rfl⟩
    exact .made hstack rfl (.inr ⟨⟨client, rfl⟩, rfl⟩) hopens hfree

theorem accept_move {p : SockPtr} {server : Nat} {result : Except Int Int}
    (hstack : w.stack = .call (.accept p) :: rest) (hserver : p.container = .listeners server)
    (hi : i = .opened result) (hopen : w.canOpen result = true) :
    Move w i ({ w with stack := rest }.accept p server result) := by
  have hf : ∀ e, Frame.call (.accept p) ≠ .execute e := by simp
  have htarget : (Frame.call (.accept p)).target = some (.clients server) := by
    simp [Frame.target, hserver]
  have hcrash : ∀ k, Move w i ({ w with stack := rest }.push (.crash k)) := fun k =>
    .replace hstack (fun e he => absurd he (hf e)) rfl
  refine access_move hstack hf fun c _ => ?_
  split
  · exact hcrash _
  · cases result with
    | error errno => exact error_move hstack hf errno [] (by simp)
    | ok fd =>
      have hopens := canOpen_opens hi hopen
      by_cases hfd : fd ≤ 0
      · have hzero : fd = 0 := le_antisymm hfd hopens.2.1
        simp only [if_pos hfd]
        exact @Move.leaked w i _ _ _ _ [] _ hstack htarget hopens (.inr ⟨hzero, server, rfl⟩) (by simp)
          (.inl ⟨_, rfl⟩)
      · simp only [if_neg hfd]
        refine makeSocket_move [] hstack htarget hopens (by simp) (fun hfree => ?_)
          fun lost => ⟨_, _, rfl, rfl⟩
        exact .accepted hstack htarget hopens hfree

theorem listenRest_move {p : SockPtr} {failure : Option (SetUpStep × Int)}
    (hstack : w.stack = .listening p :: rest)
    (h : { w with stack := rest }.listenRest p failure = some w') : Move w i w' := by
  have hf : ∀ e, Frame.listening p ≠ .execute e := by simp
  unfold listenRest at h
  split at h
  · obtain rfl := Option.some.inj h
    exact access_move hstack hf fun c hp => .finished hstack (.inl ⟨rfl, rfl, rfl⟩) hp
  · obtain rfl := Option.some.inj h
    exact giveUp_move hstack hf _
  · next errno =>
    obtain rfl := Option.some.inj h
    exact executeSocket_move hstack hf errno
      [.raise p.container.owner "bind", .call (.close p), .returning false] (by decide) (by simp)
      (by simp [Frame.plain])
  · obtain rfl := Option.some.inj h
    exact giveUp_move hstack hf _
  · exact absurd h (by simp)

theorem connectRest_move {p : SockPtr} {failure : Option (SetUpStep × Int)}
    (hstack : w.stack = .connecting p :: rest)
    (h : { w with stack := rest }.connectRest p failure = some w') : Move w i w' := by
  have hf : ∀ e, Frame.connecting p ≠ .execute e := by simp
  unfold connectRest at h
  split at h
  · obtain rfl := Option.some.inj h
    exact access_move hstack hf fun c hp => .finished hstack (.inr ⟨rfl, rfl, rfl⟩) hp
  · obtain rfl := Option.some.inj h
    exact giveUp_move hstack hf _
  · next errno =>
    obtain rfl := Option.some.inj h
    exact quiet_move hstack hf errno
      [.call (.close p), .raise p.container.owner "listen", .returning false] (by simp [Frame.plain])
  · exact absurd h (by simp)
  · exact absurd h (by simp)

theorem send_move {p : SockPtr} {message : Bytes} {result errno : Int}
    (hstack : w.stack = f :: rest) (hf : ∀ e, f ≠ .execute e) :
    Move w i ({ w with stack := rest }.send p message result errno) := by
  refine access_move hstack hf fun c hp => ?_
  obtain ⟨hconn, hhandler⟩ := c.send_frame w.mem.handler message result
  exact sent_move hstack hf hp hconn hhandler

theorem sendFlush_move {p : SockPtr} {result errno : Int} (hstack : w.stack = f :: rest)
    (hf : ∀ e, f ≠ .execute e) :
    Move w i ({ w with stack := rest }.sendFlush p result errno) := by
  refine access_move hstack hf fun c hp => ?_
  obtain ⟨hconn, hhandler⟩ := c.sendFlush_frame w.mem.handler result
  exact sent_move hstack hf hp hconn hhandler

theorem recv_move {p : SockPtr} {result : Except Int Bytes} (hstack : w.stack = f :: rest)
    (hf : ∀ e, f ≠ .execute e) (hcan : w.canRecv p result = true) :
    Move w i ({ w with stack := rest }.recv p result) := by
  unfold recv
  split
  · next errno => exact executeSocket_move hstack hf errno [] (by decide) (by simp) (by simp)
  · exact .replace hstack (fun e he => absurd he (hf e)) rfl
  · next bytes _ =>
    refine executeSocket_move hstack hf w.errno [] (by decide) (fun _ c hp => ?_) (by simp)
    simp only [canRecv, hp, Option.all_some, Bool.and_eq_true, decide_eq_true_eq] at hcan
    exact hcan.2

theorem pollNext_move {l : PollLoop} (hstack : w.stack = f :: rest) (hf : ∀ e, f ≠ .execute e) :
    Move w i ({ w with stack := rest }.pollNext l) := by
  have hidle : ∀ e, f = .execute e → w.current e = none := fun e he => absurd he (hf e)
  unfold pollNext
  split
  · exact return_move hstack hf true
  · exact .replace hstack hidle rfl
  · exact .replace hstack hidle rfl
  · next p next _ =>
    exact executeSocket_move hstack hf w.errno [.polling next] (by decide) (by simp)
      (by simp [Frame.plain])
  · next p next _ =>
    exact executeSocket_move hstack hf w.errno [.polling next] (by decide) (by simp)
      (by simp [Frame.plain])

/-- A registration makes its own list longer and leaves the others. -/
theorem onOwner_grows (w : World) (o : Owner) (action : OwnerAction) (flags : UShort) (o' : Owner)
    (action' : OwnerAction) :
    (w.onOwner o action flags).owners o' action' = w.owners o' action' ∨
      ((w.owners o' action').length < ((w.onOwner o action flags).owners o' action').length ∧
        ∃ flags', Frame.call (.onOwner o action flags) = .call (.onOwner o' action' flags')) := by
  unfold onOwner
  by_cases ho : o' = o
  · subst ho
    by_cases ha : action' = action
    · subst ha
      refine .inr ⟨?_, flags, rfl⟩
      simp only [Function.update_self, Action.length_addCallback]
      omega
    · exact .inl (by simp [ha])
  · exact .inl (by simp [ho])

theorem perform_move {c : Call} (hstack : w.stack = .call c :: rest)
    (h : { w with stack := rest }.perform c i = some w') : Move w i w' := by
  have hf : ∀ e, Frame.call c ≠ .execute e := by simp
  have hidle : ∀ e, Frame.call c = .execute e → w.current e = none := by simp
  unfold perform at h
  split at h
  · obtain ⟨hopen, h⟩ := Option.ite_none_right_eq_some.mp h
    obtain rfl := Option.some.inj h
    exact listen_move hstack rfl hopen
  · obtain ⟨hopen, h⟩ := Option.ite_none_right_eq_some.mp h
    obtain rfl := Option.some.inj h
    exact connect_move hstack rfl hopen
  · split at h
    · next server hserver =>
      obtain ⟨hopen, h⟩ := Option.ite_none_right_eq_some.mp h
      obtain rfl := Option.some.inj h
      exact accept_move hstack hserver rfl hopen
    · exact absurd h (by simp)
  · obtain ⟨-, h⟩ := Option.ite_none_right_eq_some.mp h
    obtain rfl := Option.some.inj h
    exact send_move hstack hf
  · obtain ⟨-, h⟩ := Option.ite_none_right_eq_some.mp h
    obtain rfl := Option.some.inj h
    exact sendFlush_move hstack hf
  · obtain ⟨hcan, h⟩ := Option.ite_none_right_eq_some.mp h
    obtain rfl := Option.some.inj h
    exact recv_move hstack hf hcan
  · obtain rfl := Option.some.inj h
    exact close_move hstack hf _ [] (by simp)
  · obtain rfl := Option.some.inj h
    exact .replace hstack hidle rfl
  · next o =>
    obtain rfl := Option.some.inj h
    cases o with
    | server id =>
      exact quiet_move hstack hf w.errno [.closing (.clients id), .closing (.listeners id)]
        (by simp [Frame.plain])
    | client id => exact .replace hstack hidle rfl
  · next p action flags =>
    obtain rfl := Option.some.inj h
    exact access_move hstack hf fun c hp => .hooked hstack hp
  · next o action flags =>
    obtain rfl := Option.some.inj h
    exact @Move.quiet w _ _ [] rest w.errno w.returned _ hstack hidle
      (onOwner_grows w o action flags) (by simp)
  · next n revents =>
    split at h
    · obtain rfl := Option.some.inj h
      exact return_move hstack hf false
    · obtain ⟨hcan, h⟩ := Option.ite_none_right_eq_some.mp h
      obtain rfl := Option.some.inj h
      split
      · exact .replace hstack hidle rfl
      · next hn =>
        refine .reported hstack hf ?_
        simp only [canPoll, Bool.or_eq_true, beq_iff_eq, Bool.and_eq_true] at hcan
        rcases hcan with hfail | ⟨hlen, -⟩
        · omega
        · exact hlen
  · exact absurd h (by simp)

/-- Every step is one of the moves. -/
theorem step_move (h : w.step i = some w') : Move w i w' := by
  unfold step at h
  cases hstack : w.stack with
  | nil =>
    simp only [hstack] at h
    split at h
    · next c =>
      obtain ⟨hc, h⟩ := Option.ite_none_right_eq_some.mp h
      obtain rfl := Option.some.inj h
      have hmove := @Move.called w (.call c) c [] [] [] rfl hc hstack (.inl ⟨rfl, rfl⟩) (by simp)
      simpa [push, hstack] using hmove
    · exact absurd h (by simp)
  | cons f rest =>
    simp only [hstack] at h
    split at h
    · next arg calls c =>
      obtain ⟨hc, h⟩ := Option.ite_none_right_eq_some.mp h
      obtain rfl := Option.some.inj h
      exact @Move.called w (.call c) c [.hook arg (calls + 1)] [.hook arg calls] rest rfl hc hstack
        (.inr ⟨_, _, rfl⟩) (by simp [Frame.plain])
    · next errno =>
      obtain rfl := Option.some.inj h
      exact quiet_move hstack (by simp) errno [] (by simp)
    · exact perform_move hstack h
    · exact resume_move hstack h
    · obtain rfl := Option.some.inj h
      exact error_move hstack (by simp) w.errno [] (by simp)
    · next container errno =>
      obtain rfl := Option.some.inj h
      unfold closeNext
      split
      · exact .pop hstack (by simp)
      · exact close_move hstack (by simp) errno [.closing container] (by simp [Frame.plain])
    · exact listenRest_move hstack h
    · exact connectRest_move hstack h
    · obtain rfl := Option.some.inj h
      exact pollNext_move hstack (by simp)
    · obtain rfl := Option.some.inj h
      exact return_move hstack (by simp) _
    · exact absurd h (by simp)

end Cases

end World

end Unisock.Tcp
