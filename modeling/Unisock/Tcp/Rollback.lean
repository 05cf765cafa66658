import Unisock.Tcp.Descriptors
import Unisock.Tcp.Installed

/-! `listen` and `connect` when a call after `make_socket` fails: the element that was inserted is
closed and erased, and the containers and the vectors of the handler are as they were before. -/

namespace Unisock.Tcp

open Unisock.Events

namespace Memory

variable {m : Memory} {container : Container} {fd : Int} {p : SockPtr} {c : Connection}

theorem modify_self (hp : m.deref p = some c) : m.modify p (fun _ => c) = m := by
  obtain ⟨helem, -⟩ := deref_eq_some.mp hp
  have hmap : (m.sockets p.container).modify p.key (fun _ => c) = m.sockets p.container := by
    refine Std.ExtTreeMap.ext_getElem? fun key => ?_
    rw [Std.ExtTreeMap.getElem?_modify]
    split
    · next hkey =>
      obtain rfl := Std.LawfulEqCmp.eq_of_compare hkey
      rw [helem]
      rfl
    · rfl
  rw [modify, hmap, Function.update_eq_self]

/-- A new element, after the calls of `listen` or `connect` that precede the one that fails. -/
def setUp (m : Memory) (container : Container) (fd : Int) : Memory :=
  ((m.openFd fd).addElement container fd).modify (m.newPtr container fd) Connection.setUpWiring

theorem deref_setUp (hfree : (m.sockets container).contains fd = false) :
    (m.setUp container fd).deref (m.newPtr container fd) =
      some (Connection.inserted m.nextNode fd).setUpWiring :=
  (deref_added (f := Connection.setUpWiring) hfree (fun _ => rfl) _).trans (if_pos rfl)

/-- The element is erased after it was closed: the containers are as before. -/
theorem sockets_undone (hfree : (m.sockets container).contains fd = false) :
    (((m.setUp container fd).closeSocket (m.newPtr container fd) fd).eraseSocket container fd).sockets
      = m.sockets := by
  have hnone : (m.sockets container)[fd]? = none :=
    Std.ExtTreeMap.getElem?_eq_none_of_contains_eq_false hfree
  funext k
  refine Std.ExtTreeMap.ext_getElem? fun key => ?_
  have hclose : ∀ k key, (((m.setUp container fd).closeSocket (m.newPtr container fd) fd).sockets
      k)[key]? = if k = container ∧ key = fd then
        (((m.setUp container fd).sockets k)[key]?).map fun c => { c with sock := -1 }
      else ((m.setUp container fd).sockets k)[key]? := fun k key => getElem?_modify ..
  have hset : ∀ k key, ((m.setUp container fd).sockets k)[key]? =
      if k = container ∧ key = fd then
        ((((m.openFd fd).addElement container fd).sockets k)[key]?).map Connection.setUpWiring
      else (((m.openFd fd).addElement container fd).sockets k)[key]? := fun k key =>
    getElem?_modify ..
  rw [getElem?_eraseSocket]
  split
  · next hslot => rw [hslot.1, hslot.2, hnone]
  · next hslot =>
    rw [hclose, if_neg hslot, hset, if_neg hslot, getElem?_addElement, if_neg hslot]
    rfl

/-- So are the vectors of the handler. -/
theorem handler_undone (ha : m.handler.Aligned) (hnew : fd ∉ m.handler.fds) :
    (((m.setUp container fd).closeSocket (m.newPtr container fd) fd).eraseSocket container
      fd).handler.toHandlerImpl = m.handler.toHandlerImpl :=
  HandlerImpl.delSocket_addSocket ha hnew _

end Memory

/-! ### Hooks that leave the sockets alone -/

/-- The events of calls that change nothing. -/
def Event.idle : Event → Bool
  | .wrote _ _ | .started _ .receive _ => true
  | _ => false

/-- What `send` and `recv` on the connection run are hooks, and `RECEIVE` hooks of its owner. -/
def Connection.Tame (c : Connection) : Prop :=
  (∀ cb ∈ c.actions .error, cb.exec = .user) ∧
    ∀ cb ∈ c.actions .recv, cb.exec = .user ∨ cb.exec = .receive

def Memory.Tame (m : Memory) : Prop := ∀ p c, m.deref p = some c → c.Tame

/-- The connection keeps its buffer, and the handler the interest in it. -/
def Sent.Unchanged (sent : Sent SockPtr) (c : Connection) (handler : Handler SockPtr) : Prop :=
  sent.connection = c ∧ sent.handler = handler

namespace World

/-- Hooks open and close no sockets and register no callbacks: what they call is `send`, `send_flush`
and `recv`, where `recv` does not meet the end of the stream. -/
def opensNothing : Input → Bool
  | .call (.send _ _) | .call (.sendFlush _) | .call (.recv _) => true
  | .call _ | .received (.ok []) => false
  | _ => true

def OpensNothing (_ : World) (i : Input) : Prop := opensNothing i = true

/-- `send` and `send_flush` leave no rest of a message behind and pop none. -/
def LeavesQueues (w : World) : Input → Prop
  | .sent result _ =>
    match w.stack with
    | .call (.send p message) :: _ => ∀ c, w.mem.deref p = some c →
        (c.send w.mem.handler message result).Unchanged c w.mem.handler
    | .call (.sendFlush p) :: _ => ∀ c, w.mem.deref p = some c →
        (c.sendFlush w.mem.handler result).Unchanged c w.mem.handler
    | _ => True
  | _ => True

/-- Hooks that leave the sockets as they are. -/
def Passive (w : World) (i : Input) : Prop := w.OpensNothing i ∧ w.LeavesQueues i

end World

/-- The functions that run while such hooks do.  The executions among them are over the whole of
their lists. -/
def Frame.Quiet (m : Memory) (owners : Owner → OwnerAction → Action Unit) : Frame → Prop
  | .hook _ _ => True
  | .call (.send p _) | .call (.sendFlush p) | .call (.recv p) => (m.deref p).isSome
  | .execute e =>
    match e.list with
    | .owner o action => e.stop = (owners o action).length
    | .socket p .error => ∃ c, m.deref p = some c ∧ e.stop = (c.actions .error).length
    | .socket p .recv => (∃ bytes, e.arg = .bytes bytes) ∧
        ∃ c, m.deref p = some c ∧ e.stop = (c.actions .recv).length
    | .socket _ _ => False
  | _ => False

namespace World

/-- From `w` to `t`, nothing has happened but calls that change nothing, and `new` is what is on the
stack in the place of the topmost function. -/
structure Idles (w t : World) (new : List Frame) : Prop where
  mem : t.mem = w.mem
  owners : t.owners = w.owners
  stack : t.stack = new ++ w.stack.tail
  quiet : ∀ g ∈ new, g.Quiet w.mem w.owners
  log : ∃ events, t.log = events ++ w.log ∧ ∀ e ∈ events, e.idle = true

section Idle

variable {w t : World} {i : Input} {f : Frame} {p : SockPtr} {c : Connection} {rest : List Frame}

theorem Idles.silent {new : List Frame} (hstack : w.stack = f :: rest) (hmem : t.mem = w.mem)
    (howners : t.owners = w.owners) (hlog : t.log = w.log) (ht : t.stack = new ++ rest)
    (hquiet : ∀ g ∈ new, g.Quiet w.mem w.owners) : w.Idles t new :=
  ⟨hmem, howners, by rw [hstack]; exact ht, hquiet, [], hlog, by simp⟩

/-- An execution over the whole of its list does not crash. -/
theorem resume_whole {e : Execution} {executors : Action Callback}
    (hl : w.callbacks e.list = some executors) (hlen : executors.length = e.stop)
    (hstep : w.resume e i = some t) :
    t = w ∨ ∃ cb ∈ executors, (cb.has ActionFlag.skip = true ∧ t = w.push (.execute e.next)) ∨
      (cb.has ActionFlag.skip = false ∧
        { w with stack := e.after cb ++ w.stack }.invoke e cb.exec i = some t) := by
  by_cases hend : e.stop ≤ e.pos
  · rw [resume_end hend] at hstep
    exact .inl (Option.some.inj hstep).symm
  · have hcb : executors[e.pos]? = some executors[e.pos] := List.getElem?_eq_getElem (by omega)
    have hmem : executors[e.pos] ∈ executors := List.getElem_mem _
    generalize executors[e.pos] = cb at hcb hmem
    refine .inr ⟨cb, hmem, ?_⟩
    rw [resume_turn hl hlen hcb] at hstep
    cases hskip : cb.has ActionFlag.skip with
    | true =>
      rw [hskip, if_pos rfl] at hstep
      exact .inl ⟨rfl, (Option.some.inj hstep).symm⟩
    | false =>
      rw [hskip, if_neg (by simp)] at hstep
      exact .inr ⟨rfl, hstep⟩

theorem Idles.sent (hstack : w.stack = f :: rest) (hp : w.mem.deref p = some c)
    {s : Sent SockPtr} (hsame : s.Unchanged c w.mem.handler) (taken : Bytes) (errno : Int) :
    ∃ new, w.Idles ({ w with stack := rest }.sent p s taken errno) new := by
  unfold World.sent
  split
  · have hpush := executeSocket_some (w := setErrno { w with stack := rest } errno) hp .error
      (.errno "send")
    rw [hpush]
    refine ⟨[_], .silent hstack rfl rfl rfl rfl fun g hg => ?_⟩
    rw [List.mem_singleton.mp hg]
    exact ⟨c, hp, rfl⟩
  · obtain ⟨connection, handler, raised⟩ := s
    obtain ⟨rfl, rfl⟩ := hsame
    have hmem : w.mem.sent p ⟨connection, w.mem.handler, raised⟩ = w.mem := by
      rw [Memory.sent, Memory.modify_self hp]
    refine ⟨[], hmem, rfl, by rw [hstack]; rfl, by simp, [.wrote p taken], rfl, by simp [Event.idle]⟩

theorem Idles.resume {e : Execution} (htame : w.mem.Tame) (hstack : w.stack = .execute e :: rest)
    (hquiet : (Frame.execute e).Quiet w.mem w.owners) (hstep : w.step i = some t) :
    ∃ new, w.Idles t new := by
  rw [step_execute hstack] at hstep
  have hnext : (Frame.execute e.next).Quiet w.mem w.owners := hquiet
  have hafter : ∀ cb, ∀ g ∈ e.after cb, g.Quiet w.mem w.owners := by
    intro cb g hg
    unfold Execution.after at hg
    split at hg
    · simp at hg
    · rw [List.mem_singleton.mp hg]
      exact hnext
  -- a hook is entered, or skipped, or there is none left
  have hook : ∀ executors, { w with stack := rest }.callbacks e.list = some executors →
      executors.length = e.stop → (∀ cb ∈ executors, cb.exec = .user ∨ (cb.exec = .receive ∧
        (∃ p action, e.list = .socket p action) ∧ ∃ bytes, e.arg = .bytes bytes)) →
      ∃ new, w.Idles t new := by
    intro executors hl hlen hall
    rcases resume_whole hl hlen hstep with rfl | ⟨cb, hcb, ⟨-, rfl⟩ | ⟨-, hbody⟩⟩
    · exact ⟨[], .silent hstack rfl rfl rfl rfl (by simp)⟩
    · exact ⟨[_], .silent hstack rfl rfl rfl rfl (by simpa using hnext)⟩
    rcases hall cb hcb with hexec | ⟨hexec, ⟨p, action, hlist⟩, bytes, harg⟩
    · rw [hexec] at hbody
      obtain ⟨calls, rfl, rfl⟩ := invoke_user.mp hbody
      refine ⟨.hook _ calls :: e.after cb, .silent hstack rfl rfl rfl rfl fun g hg => ?_⟩
      rcases List.mem_cons.mp hg with rfl | hg
      · trivial
      · exact hafter cb g hg
    · rw [hexec] at hbody
      obtain ⟨rfl, rfl⟩ := (invoke_receive hlist harg).mp hbody
      refine ⟨_ :: e.after cb, rfl, rfl, by rw [hstack]; rfl, fun g hg => ?_,
        [.started p.container.owner .receive (.message p bytes)], rfl, by simp [Event.idle]⟩
      rcases List.mem_cons.mp hg with rfl | hg
      · exact rfl
      · exact hafter cb g hg
  cases hlist : e.list with
  | owner o action =>
    simp only [Frame.Quiet, hlist] at hquiet
    refine hook ((w.owners o action).map fun cb => ⟨.user, cb.flags⟩) (by rw [hlist]; rfl)
      (by rw [List.length_map, hquiet]) fun cb hcb => .inl ?_
    obtain ⟨cb', -, rfl⟩ := List.mem_map.mp hcb
    rfl
  | socket p action =>
    simp only [Frame.Quiet, hlist] at hquiet
    cases action with
    | error =>
      obtain ⟨c, hp, hstop⟩ := hquiet
      exact hook (c.actions .error) (by simp [callbacks, hlist, hp]) hstop.symm fun cb hcb =>
        .inl ((htame p c hp).1 cb hcb)
    | recv =>
      obtain ⟨harg, c, hp, hstop⟩ := hquiet
      refine hook (c.actions .recv) (by simp [callbacks, hlist, hp]) hstop.symm fun cb hcb => ?_
      rcases (htame p c hp).2 cb hcb with hexec | hexec
      · exact .inl hexec
      · exact .inr ⟨hexec, ⟨p, .recv, hlist⟩, harg⟩
    | readable | writeable | closed => exact hquiet.elim

theorem Idles.recv {result : Except Int Bytes} (hstack : w.stack = f :: rest)
    (hp : w.mem.deref p = some c) (hresult : result ≠ .ok []) :
    ∃ new, w.Idles ({ w with stack := rest }.recv p result) new := by
  unfold World.recv
  split
  · next errno =>
    rw [executeSocket_some (w := setErrno { w with stack := rest } errno) hp]
    refine ⟨[_], .silent hstack rfl rfl rfl rfl fun g hg => ?_⟩
    rw [List.mem_singleton.mp hg]
    exact ⟨c, hp, rfl⟩
  · exact absurd rfl hresult
  · next bytes _ =>
    rw [executeSocket_some (w := { w with stack := rest }) hp]
    refine ⟨[_], .silent hstack rfl rfl rfl rfl fun g hg => ?_⟩
    rw [List.mem_singleton.mp hg]
    exact ⟨⟨bytes, rfl⟩, c, hp, rfl⟩

/-- A step of a passive hook, or of what it calls. -/
theorem Idles.step (htame : w.mem.Tame) (hstack : w.stack = f :: rest)
    (hquiet : f.Quiet w.mem w.owners) (hok : w.Passive i) (hstep : w.step i = some t) :
    ∃ new, w.Idles t new := by
  obtain ⟨hopens, hleaves⟩ := hok
  cases f with
  | hook arg calls =>
    rcases Discipline.step_hook hstack hstep with
      ⟨errno, -, rfl⟩ | ⟨call, calls', -, rfl, hcallable, rfl⟩
    · exact ⟨[], .silent hstack rfl rfl rfl rfl (by simp)⟩
    · refine ⟨[.call call, .hook arg calls'], .silent hstack rfl rfl rfl rfl fun g hg => ?_⟩
      rcases List.mem_cons.mp hg with rfl | hg
      · cases call with
        | send p _ | sendFlush p | recv p => exact hcallable
        | _ => exact absurd hopens (by simp [OpensNothing, opensNothing])
      · rw [List.mem_singleton.mp hg]
        trivial
  | call call =>
    cases call with
    | send p message =>
      obtain ⟨c, hp⟩ := Option.isSome_iff_exists.mp hquiet
      obtain ⟨result, errno, rfl, -, rfl⟩ := (step_send hstack).mp hstep
      simp only [LeavesQueues, hstack] at hleaves
      rw [send, access_some (w := { w with stack := rest }) hp]
      exact Idles.sent hstack hp (hleaves c hp) _ _
    | sendFlush p =>
      obtain ⟨c, hp⟩ := Option.isSome_iff_exists.mp hquiet
      obtain ⟨result, errno, rfl, -, rfl⟩ := (step_sendFlush hstack).mp hstep
      simp only [LeavesQueues, hstack] at hleaves
      rw [sendFlush, access_some (w := { w with stack := rest }) hp]
      exact Idles.sent hstack hp (hleaves c hp) _ _
    | recv p =>
      obtain ⟨c, hp⟩ := Option.isSome_iff_exists.mp hquiet
      obtain ⟨result, rfl, -, rfl⟩ := (step_recv hstack).mp hstep
      refine Idles.recv hstack hp fun heq => ?_
      subst heq
      exact absurd hopens (by simp [OpensNothing, opensNothing])
    | _ => exact hquiet.elim
  | execute e => exact Idles.resume htame hstack hquiet hstep
  | _ => exact hquiet.elim

end Idle

/-! ### What is still to be done after a failure -/

section Disposal

variable (m : Memory) (p : SockPtr) (fd : Int)

/-- What is below the `close` of the new element on the stack, and what has been logged before it:
`listen`, and `connect` where the address is not found, execute `ERROR` first; otherwise `connect`
does so afterwards.  Last comes `return false`. -/
inductive Below : List Frame → List Event → Prop
  | done (arg : Arg) : Below [.returning false] [.started p.container.owner .error arg]
  | raise (fn : String) : Below [.raise p.container.owner fn, .returning false] []

def closedMem : Memory := m.closeSocket p fd

def undoneMem : Memory := (m.closeSocket p fd).eraseSocket p.container p.key

/-- The stages of a failed call: what is left on the stack, the memory, and what has been logged. -/
inductive Disposal : List Frame → Memory → List Event → Prop
  /-- The `ERROR` action of `socket::bind` comes before all others. -/
  | bind (fn : String) :
      Disposal [.raise p.container.owner fn, .call (.close p), .returning false] m []
  | pending {below : List Frame} {events : List Event} (h : Below p below events) :
      Disposal (.call (.close p) :: below) m events
  | closed {below : List Frame} {events : List Event} (h : Below p below events) :
      Disposal (.execute ⟨.socket p .closed, 0, 2, .none⟩ :: below) (closedMem m p fd)
        (.shut p fd :: .removed p fd :: events)
  | told {below : List Frame} {events : List Event} (h : Below p below events) :
      Disposal (.execute ⟨.socket p .closed, 1, 2, .none⟩ :: below) (closedMem m p fd)
        (.started p.container.owner p.container.endAction (.connection p) :: .shut p fd ::
          .removed p fd :: events)
  | erased {below : List Frame} {events : List Event} (h : Below p below events) :
      Disposal below (undoneMem m p fd)
        (.erased p :: .started p.container.owner p.container.endAction (.connection p) ::
          .shut p fd :: .removed p fd :: events)
  | raised (arg : Arg) :
      Disposal [.returning false] (undoneMem m p fd)
        [.started p.container.owner .error arg, .erased p,
          .started p.container.owner p.container.endAction (.connection p), .shut p fd,
          .removed p fd]

/-- Above `rest`, the hooks of a stage run. -/
structure DisposalStage (rest : List Frame) (log : List Event) (w : World)
    (above todo : List Frame) (events new : List Event) : Prop where
  stack : w.stack = above ++ (todo ++ rest)
  quiet : ∀ f ∈ above, f.Quiet w.mem w.owners
  disposal : Disposal m p fd todo w.mem events
  log : w.log = new ++ log
  events : new.filter (fun e => !e.idle) = events

/-- The stages are over, and the call has returned `false`. -/
structure DisposalOver (rest : List Frame) (log : List Event) (w : World) (new : List Event) :
    Prop where
  stack : w.stack = rest
  returned : w.returned = some false
  disposal : Disposal m p fd [.returning false] w.mem (new.filter fun e => !e.idle)
  log : w.log = new ++ log

def Disposing (rest : List Frame) (log : List Event) (w : World) : Prop :=
  (∃ above todo events new, DisposalStage m p fd rest log w above todo events new) ∨
    ∃ new, DisposalOver m p fd rest log w new

variable {m p fd} {w t : World} {i : Input} {c : Connection} {rest : List Frame} {log : List Event}

theorem DisposalStage.of_hooks {f : Frame} {above todo : List Frame} {events new : List Event}
    (htame : w.mem.Tame) (h : DisposalStage m p fd rest log w (f :: above) todo events new)
    (hok : w.Passive i) (hstep : w.step i = some t) : Disposing m p fd rest log t := by
  obtain ⟨front, hidles⟩ :=
    Idles.step htame h.stack (h.quiet f List.mem_cons_self) hok hstep
  obtain ⟨idle, hidle, hall⟩ := hidles.log
  have hmem := hidles.mem
  have hstack := hidles.stack
  rw [h.stack, List.cons_append, List.tail_cons, ← List.append_assoc] at hstack
  refine .inl ⟨front ++ above, todo, events, idle ++ new, hstack, fun g hg => ?_,
    hmem ▸ h.disposal, ?_, ?_⟩
  · rw [hmem, hidles.owners]
    rcases List.mem_append.mp hg with hg | hg
    · exact hidles.quiet g hg
    · exact h.quiet g (List.mem_cons_of_mem _ hg)
  · rw [hidle, h.log, List.append_assoc]
  · have hnone : idle.filter (fun e => !e.idle) = [] := by
      rw [List.filter_eq_nil_iff]
      intro e he
      simp [hall e he]
    rw [List.filter_append, hnone, List.nil_append, h.events]

/-- An `ERROR` action of the owner starts. -/
theorem DisposalStage.of_raise {fn : String} {todo : List Frame} {events new : List Event}
    (h : DisposalStage m p fd rest log w [] (.raise p.container.owner fn :: todo) events new)
    (hstage : ∀ arg, Disposal m p fd todo w.mem
      (.started p.container.owner .error arg :: events))
    (hstep : w.step i = some t) : Disposing m p fd rest log t := by
  have hstack : w.stack = .raise p.container.owner fn :: (todo ++ rest) := h.stack
  obtain rfl := Option.some.inj ((step_raise hstack).symm.trans hstep)
  refine .inl ⟨[_], todo, _, .started p.container.owner .error (.errno fn) :: new, rfl,
    fun g hg => ?_, hstage (.errno fn), congrArg _ h.log, ?_⟩
  · rw [List.mem_singleton.mp hg]
    exact rfl
  · rw [← h.events]
    simp [Event.idle]

/-- The call returns. -/
theorem DisposalStage.of_returning {events new : List Event}
    (h : DisposalStage m p fd rest log w [] [.returning false] events new) (hstep : w.step i = some t) :
    Disposing m p fd rest log t := by
  have hstack : w.stack = .returning false :: rest := h.stack
  obtain rfl := Option.some.inj ((step_returning hstack).symm.trans hstep)
  exact .inr ⟨new, rfl, rfl, h.events ▸ h.disposal, h.log⟩

/-- The elements of every stage have the lists of those of `m`. -/
theorem Disposal.tame {todo : List Frame} {mem : Memory} {events : List Event} (htame : m.Tame)
    (hp : m.deref p = some c) (h : Disposal m p fd todo mem events) : mem.Tame := by
  have hclosed : (closedMem m p fd).Tame := by
    intro q d hq
    rw [closedMem, Memory.deref_closeSocket hp] at hq
    split at hq
    · obtain rfl := Option.some.inj hq
      exact htame p c hp
    · exact htame q d hq
  have hundone : (undoneMem m p fd).Tame := by
    intro q d hq
    rw [undoneMem, Memory.deref_eraseSocket
      ((Memory.deref_closeSocket hp fd p).trans (if_pos rfl))] at hq
    split at hq
    · exact absurd hq (by simp)
    · exact hclosed q d hq
  cases h with
  | bind _ | pending _ => exact htame
  | closed _ | told _ => exact hclosed
  | erased _ | raised _ => exact hundone

theorem Disposing.step (htame : m.Tame) (hp : m.deref p = some c) (hsock : c.sock = fd)
    (hopen : 0 ≤ fd)
    (hlist : c.actions .closed = p.container.installed) (h : Disposing m p fd rest log w)
    (hrest : w.stack ≠ rest) (hok : w.Passive i) (hstep : w.step i = some t) :
    Disposing m p fd rest log t := by
  obtain ⟨above, todo, events, new, h⟩ | ⟨new, h⟩ := h
  swap
  · exact absurd h.stack hrest
  have hclosed : (closedMem m p fd).deref p = some { c with sock := -1 } :=
    (Memory.deref_closeSocket hp fd p).trans (if_pos rfl)
  cases above with
  | cons f above => exact h.of_hooks (h.disposal.tame htame hp) hok hstep
  | nil =>
    obtain ⟨hstack, -, hstage, hlog, hevents⟩ := id h
    rw [List.nil_append] at hstack
    generalize hmem : w.mem = mem at hstage
    cases hstage with
    | bind fn => exact h.of_raise (fun arg => hmem ▸ .pending (.done arg)) hstep
    | @pending below events hbelow =>
      have hp' : w.mem.deref p = some c := hmem ▸ hp
      have hstack' : w.stack = .call (.close p) :: (below ++ rest) := hstack
      obtain ⟨errno, rfl, rfl⟩ := (step_close hstack').mp hstep
      rw [close_open (w := { w with stack := below ++ rest }) hp' (by omega), hlist]
      refine .inl ⟨[], .execute ⟨.socket p .closed, 0, 2, .none⟩ :: below,
        .shut p fd :: .removed p fd :: events, .shut p c.sock :: .removed p c.sock :: new, rfl,
        by simp, ?_, congrArg (_ :: _ :: ·) hlog, ?_⟩
      · rw [hsock, hmem]
        exact .closed hbelow
      · rw [← hevents, hsock]
        rfl
    | @closed below events hbelow =>
      have hp' : w.mem.deref p = some { c with sock := -1 } := hmem ▸ hclosed
      have hstack' : w.stack = .execute ⟨.socket p .closed, 0, 2, .none⟩ :: (below ++ rest) := hstack
      obtain rfl := step_told hstack' hp' hlist hstep
      refine .inl ⟨[_], .execute ⟨.socket p .closed, 1, 2, .none⟩ :: below,
        .started p.container.owner p.container.endAction (.connection p) :: .shut p fd ::
          .removed p fd :: events,
        .started p.container.owner p.container.endAction (.connection p) :: new, rfl,
        fun g hg => ?_, ?_, congrArg _ hlog, ?_⟩
      · rw [List.mem_singleton.mp hg]
        exact rfl
      · have hmem' : (w.executeOwner p.container.owner p.container.endAction
            (.connection p)).mem = closedMem m p fd := hmem
        exact hmem'.symm ▸ Disposal.told hbelow
      · rw [← hevents]
        cases p.container <;> simp [Event.idle, Container.endAction]
    | @told below events hbelow =>
      have hp' : w.mem.deref p = some { c with sock := -1 } := hmem ▸ hclosed
      have hstack' : w.stack = .execute ⟨.socket p .closed, 1, 2, .none⟩ :: (below ++ rest) := hstack
      obtain rfl := step_erased hstack' hp' hlist hstep
      refine .inl ⟨[], below, .erased p :: .started p.container.owner p.container.endAction
          (.connection p) :: .shut p fd :: .removed p fd :: events,
        .erased p :: new, rfl, by simp, ?_, congrArg _ hlog, ?_⟩
      · have hmem' : w.mem.eraseSocket p.container p.key = undoneMem m p fd := by
          rw [hmem]
          rfl
        exact hmem'.symm ▸ Disposal.erased hbelow
      · rw [← hevents]
        simp [Event.idle]
    | erased hbelow =>
      cases hbelow with
      | done arg => exact h.of_returning hstep
      | raise fn => exact h.of_raise (fun arg => hmem ▸ .raised arg) hstep
    | raised arg => exact h.of_returning hstep

theorem Disposing.not_crash (h : Disposing m p fd rest log w) (k : Crash) (below : List Frame) :
    w.stack ≠ .crash k :: (below ++ rest) := by
  intro hcrash
  obtain ⟨above, todo, events, new, h⟩ | ⟨new, h⟩ := h
  swap
  · have hlen := congrArg List.length (h.stack.symm.trans hcrash)
    simp only [List.length_cons, List.length_append] at hlen
    omega
  obtain ⟨hstack, hquiet, hstage, -⟩ := h
  rw [hstack, ← List.append_assoc, ← List.cons_append] at hcrash
  have htop := List.append_cancel_right hcrash
  cases above with
  | cons f above =>
    obtain ⟨rfl, -⟩ := List.cons.inj htop
    exact hquiet _ List.mem_cons_self
  | nil =>
    rw [List.nil_append] at htop
    generalize w.mem = mem at hstage
    cases hstage with
    | erased hbelow => cases hbelow <;> simp at htop
    | _ => simp at htop

theorem Disposal.todo_ne {todo : List Frame} {mem : Memory} {events : List Event}
    (h : Disposal m p fd todo mem events) : todo ≠ [] := by
  cases h with
  | erased hbelow => cases hbelow <;> simp
  | _ => simp

/-- When the call has returned, every stage is over. -/
theorem Disposing.returned (h : Disposing m p fd rest log w) (hreturn : w.stack = rest) :
    w.returned = some false ∧ w.mem = undoneMem m p fd ∧ ∃ new arg, w.log = new ++ log ∧
      (new.filter fun e => !e.idle).Perm [.started p.container.owner .error arg, .erased p,
        .started p.container.owner p.container.endAction (.connection p), .shut p fd,
        .removed p fd] := by
  obtain ⟨above, todo, events, new, h⟩ | ⟨new, h⟩ := h
  · have hempty := h.stack
    rw [hreturn, ← List.append_assoc, List.self_eq_append_left, List.append_eq_nil_iff] at hempty
    exact absurd hempty.2 h.disposal.todo_ne
  obtain ⟨-, hreturned, hstage, hlog⟩ := h
  refine ⟨hreturned, ?_⟩
  generalize w.mem = mem at hstage
  generalize hevents : (new.filter fun e => !e.idle) = events at hstage
  generalize htodo : [Frame.returning false] = todo at hstage
  cases hstage with
  | erased hbelow =>
    cases hbelow with
    | done arg =>
      refine ⟨rfl, new, arg, hlog, ?_⟩
      rw [hevents]
      have hcomm := fun (first : Event) (others : List Event) =>
        @List.perm_append_comm _ others [first]
      exact hcomm _ [_, _, _, _]
    | raise fn => simp at htodo
  | raised arg => exact ⟨rfl, new, arg, hlog, hevents ▸ .refl _⟩
  | _ => simp at htodo

end Disposal

end World

/-! ### A failed call -/

def Event.starts (o : Owner) (action : OwnerAction) : Event → Bool
  | .started o' action' _ => o' == o && action' == action
  | _ => false

theorem Event.idle_of_isShut {e : Event} (h : World.isShut fd e = true) : e.idle = false := by
  cases e with
  | shut _ _ => rfl
  | _ => cases h

theorem Event.idle_of_starts {e : Event} {o : Owner} {action : OwnerAction}
    (h : e.starts o action = true) (hreceive : action ≠ .receive) : e.idle = false := by
  cases e with
  | started o' action' arg =>
    simp only [starts, Bool.and_eq_true, beq_iff_eq] at h
    obtain ⟨-, rfl⟩ := h
    cases action' with
    | receive => exact absurd rfl hreceive
    | _ => rfl
  | _ => cases h

/-- The container into which the call inserts before it sets the socket up. -/
def Call.setsUp : Call → Option Container
  | .listen server => some (.listeners server)
  | .connect client => some (.connections client)
  | _ => none

theorem Call.setsUp_not_clients {call : Call} {container : Container}
    (hcall : call.setsUp = some container) (server : Nat) :
    container ≠ .clients server := by
  cases call with
  | listen _ | connect _ =>
    obtain rfl := Option.some.inj hcall
    simp
  | _ => simp [Call.setsUp] at hcall

namespace World

/-- From `w` to `t`, a call of the owner that got the descriptor `fd` has returned `false` and left
nothing behind. -/
structure RolledBack (w : World) (o : Owner) (fd : Int) (t : World) (new : List Event) : Prop where
  returned : t.returned = some false
  log : t.log = new ++ w.log
  containers : t.mem.sockets = w.mem.sockets
  vectors : t.mem.handler.toHandlerImpl = w.mem.handler.toHandlerImpl
  shut : new.countP (isShut fd) = 1
  error : new.countP (Event.starts o .error) = 1
  closed : new.countP (Event.starts o .closed) = 1

section Failure

variable {w w₁ w₂ t : World} {p : SockPtr} {call : Call} {container : Container} {fd : Int}
  {failure : SetUpStep × Int} {rest : List Frame}

/-- `make_socket` under a free key. -/
theorem step_made (hstack : w.stack = .call call :: rest) (hcall : call.setsUp = some container)
    (hfree : (w.mem.sockets container).contains fd = false)
    (hstep : w.step (.opened (.ok fd)) = some w₁) :
    0 ≤ fd ∧ fd ∉ w.mem.descriptors ∧
      ∃ setUp : SockPtr → Frame, (setUp = .listening ∨ setUp = .connecting) ∧ w₁ = { w with
        mem := w.mem.setUp container fd
        log := .obtained container fd (some (w.mem.newPtr container fd)) :: w.log
        stack := setUp (w.mem.newPtr container fd) :: rest } := by
  have hinsert : (w.mem.openFd fd).insertSocket container fd =
      some ((w.mem.openFd fd).addElement container fd, w.mem.newPtr container fd) :=
    if_neg (by rw [show (w.mem.openFd fd).sockets = w.mem.sockets from rfl, hfree]; simp)
  cases call with
  | listen server =>
    obtain rfl := Option.some.inj hcall
    simp only [step, hstack, perform] at hstep
    obtain ⟨hcan, hstep⟩ := Option.ite_none_right_eq_some.mp hstep
    have hopens := canOpen_opens rfl hcan
    simp only [World.listen, makeSocket, hinsert, Option.some.injEq] at hstep
    exact ⟨hopens.2.1, hopens.2.2, .listening, .inl rfl, hstep.symm⟩
  | connect client =>
    obtain rfl := Option.some.inj hcall
    simp only [step, hstack, perform] at hstep
    obtain ⟨hcan, hstep⟩ := Option.ite_none_right_eq_some.mp hstep
    have hopens := canOpen_opens rfl hcan
    simp only [World.connect, makeSocket, hinsert, Option.some.injEq] at hstep
    exact ⟨hopens.2.1, hopens.2.2, .connecting, .inr rfl, hstep.symm⟩
  | _ => simp [Call.setsUp] at hcall

/-- What is below the `close` on the new element: `connect` executes `ERROR` after it, if it is
`::connect` that fails. -/
def closeBase (o : Owner) (rest : List Frame) : SetUpStep → List Frame
  | .connect => .raise o "listen" :: .returning false :: rest
  | .addrinfo | .bind | .listen => .returning false :: rest

/-- The branches of a failure after `make_socket`: `ERROR` first and then `close`, with the `ERROR`
action of `socket::bind` in front of both in one of them, or the other way round. -/
inductive GivesUp (w : World) (p : SockPtr) (rest : List Frame) : List Frame → World → Prop
  | error (fn : String) (errno : Int) : GivesUp w p rest (.returning false :: rest)
      ({ w with
        errno := errno
        stack := .call (.close p) :: .returning false :: rest }.error p.container.owner fn)
  | bind (errno : Int) : GivesUp w p rest (.returning false :: rest)
      ({ w with
        errno := errno
        stack := .raise p.container.owner "bind" :: .call (.close p) :: .returning false ::
          rest }.executeSocket p .error (.errno "bind"))
  | close (errno : Int) :
      GivesUp w p rest (.raise p.container.owner "listen" :: .returning false :: rest) { w with
        errno := errno
        stack := .call (.close p) :: .raise p.container.owner "listen" :: .returning false :: rest }

/-- These branches by the call that fails, with its `errno`. -/
inductive FailsWith (w : World) (p : SockPtr) (rest : List Frame) (errno : Int) :
    SetUpStep → World → Prop
  | error {failing : SetUpStep} (fn : String) (hfailing : failing = .addrinfo ∨ failing = .listen) :
      FailsWith w p rest errno failing
        ({ w with
          errno := errno
          stack := .call (.close p) :: .returning false :: rest }.error p.container.owner fn)
  | bind : FailsWith w p rest errno .bind
      ({ w with
        errno := errno
        stack := .raise p.container.owner "bind" :: .call (.close p) :: .returning false ::
          rest }.executeSocket p .error (.errno "bind"))
  | connect : FailsWith w p rest errno .connect { w with
      errno := errno
      stack := .call (.close p) :: .raise p.container.owner "listen" :: .returning false :: rest }

theorem step_failsWith {setUp : SockPtr → Frame} {failing : SetUpStep} {errno : Int}
    (hsetUp : setUp = .listening ∨ setUp = .connecting) (hstack : w.stack = setUp p :: rest)
    (hstep : w.step (.setUp (some (failing, errno))) = some t) :
    FailsWith w p rest errno failing t := by
  rcases hsetUp with rfl | rfl
  · simp only [step, hstack] at hstep
    cases failing with
    | addrinfo =>
      obtain rfl := Option.some.inj hstep
      exact .error "getaddrinfo" (.inl rfl)
    | bind =>
      obtain rfl := Option.some.inj hstep
      exact .bind
    | listen =>
      obtain rfl := Option.some.inj hstep
      exact .error "listen" (.inr rfl)
    | connect => simp [listenRest] at hstep
  · simp only [step, hstack] at hstep
    cases failing with
    | addrinfo =>
      obtain rfl := Option.some.inj hstep
      exact .error "getaddrinfo" (.inl rfl)
    | connect =>
      obtain rfl := Option.some.inj hstep
      exact .connect
    | bind | listen => simp [connectRest] at hstep

theorem step_givesUp {setUp : SockPtr → Frame} (hsetUp : setUp = .listening ∨ setUp = .connecting)
    (hstack : w.stack = setUp p :: rest) (hstep : w.step (.setUp (some failure)) = some t) :
    GivesUp w p rest (closeBase p.container.owner rest failure.1) t := by
  obtain ⟨failing, errno⟩ := failure
  cases step_failsWith hsetUp hstack hstep with
  | error fn hfailing =>
    rcases hfailing with rfl | rfl
    · exact .error fn errno
    · exact .error fn errno
  | bind => exact .bind errno
  | connect => exact .close errno

/-- The branch of `socket::bind`. -/
theorem bindFailed_eq {c : Connection} (hp : w.mem.deref p = some c) (errno : Int) :
    ({ w with
      errno := errno
      stack := .raise p.container.owner "bind" :: .call (.close p) :: .returning false ::
        rest }.executeSocket p .error (.errno "bind")) = { w with
      errno := errno
      stack := .execute ⟨.socket p .error, 0, (c.actions .error).length, .errno "bind"⟩ ::
        .raise p.container.owner "bind" :: .call (.close p) :: .returning false :: rest } :=
  executeSocket_some (w := { w with
    errno := errno
    stack := .raise p.container.owner "bind" :: .call (.close p) :: .returning false :: rest }) hp ..

theorem GivesUp.disposing {c : Connection} {base : List Frame} (h : GivesUp w p rest base t)
    (hp : w.mem.deref p = some c) : Disposing w.mem p fd rest w.log t := by
  cases h with
  | error fn errno =>
    refine .inl ⟨[_], [.call (.close p), .returning false],
      [.started p.container.owner .error (.errno fn)], [.started p.container.owner .error (.errno fn)],
      rfl, fun g hg => ?_, .pending (.done _), rfl, rfl⟩
    rw [List.mem_singleton.mp hg]
    exact rfl
  | bind errno =>
    rw [bindFailed_eq hp]
    refine .inl ⟨[_], [.raise p.container.owner "bind", .call (.close p), .returning false], [], [],
      rfl, fun g hg => ?_, .bind "bind", rfl, rfl⟩
    rw [List.mem_singleton.mp hg]
    exact ⟨c, hp, rfl⟩
  | close errno =>
    exact .inl ⟨[], [.call (.close p), .raise p.container.owner "listen", .returning false], [], [],
      rfl, by simp, .pending (.raise "listen"), rfl, rfl⟩

theorem Disposing.reach {m : Memory} {c : Connection} {log : List Event} {ok : World → Input → Prop}
    (htame : m.Tame) (hp : m.deref p = some c) (hsock : c.sock = fd) (hopen : 0 ≤ fd)
    (hlist : c.actions .closed = p.container.installed) (h : Disposing m p fd rest log w)
    (hok : ∀ u i, ok u i → u.Passive i)
    (hreach : Machine.Reach World.step (fun u i => u.stack ≠ rest ∧ ok u i) w t) :
    Disposing m p fd rest log t :=
  hreach.invariant h fun u i _ hu hi => hu.step htame hp hsock hopen hlist hi.1 (hok u i hi.2)

theorem Disposing.rolledBack {log : List Event} (hnot : ∀ server, container ≠ .clients server)
    (haligned : w.mem.handler.Aligned) (hnew : fd ∉ w.mem.handler.fds)
    (hfree : (w.mem.sockets container).contains fd = false)
    (hlog : log = .obtained container fd (some (w.mem.newPtr container fd)) :: w.log)
    (h : Disposing (w.mem.setUp container fd) (w.mem.newPtr container fd) fd rest log t)
    (hreturn : t.stack = rest) : ∃ new, RolledBack w container.owner fd t new := by
  obtain ⟨hreturned, hmem, new, arg, hlog', hperm⟩ := h.returned hreturn
  have hend : container.endAction = .closed := by
    cases container with
    | clients server => exact absurd rfl (hnot server)
    | listeners _ | connections _ => rfl
  have hperm : (new.filter fun e => !e.idle).Perm
      [.started container.owner .error arg, .erased (w.mem.newPtr container fd),
        .started container.owner .closed (.connection (w.mem.newPtr container fd)),
        .shut (w.mem.newPtr container fd) fd, .removed (w.mem.newPtr container fd) fd] := by
    rw [← hend]
    exact hperm
  refine ⟨new ++ [.obtained container fd (some (w.mem.newPtr container fd))], {
    returned := hreturned
    log := by rw [hlog', hlog, List.append_assoc, List.singleton_append]
    containers := (congrArg Memory.sockets hmem).trans (Memory.sockets_undone hfree)
    vectors := (congrArg (fun m => m.handler.toHandlerImpl) hmem).trans
      (Memory.handler_undone haligned hnew)
    shut := ?_
    error := ?_
    closed := ?_ }⟩
  · rw [List.countP_append, countP_of_perm_filter hperm fun e => Event.idle_of_isShut]
    simp [isShut]
  · rw [List.countP_append,
      countP_of_perm_filter hperm fun e he => Event.idle_of_starts he (by decide)]
    simp [Event.starts]
  · rw [List.countP_append,
      countP_of_perm_filter hperm fun e he => Event.idle_of_starts he (by decide)]
    simp [Event.starts]

end Failure

/-! ### The call returns -/

/-- Hooks that write whole messages to open connections and call nothing else. -/
def WritesWhole (w : World) : Input → Prop
  | .call (.send p message) =>
    message.length < 2 ^ 31 ∧ ∃ c, w.mem.deref p = some c ∧ 0 ≤ c.sock
  | .call _ => False
  | .sent result _ =>
    match w.stack with
    | .call (.send _ message) :: _ => (message.length : Int) ≤ toInt result
    | _ => True
  | _ => True

/-- The discipline of these hooks, until the stack is `base`. -/
def resting (base : List Frame) : Discipline where
  base := base.length
  ok u i := u.stack ≠ base ∧ u.Passive i ∧ u.WritesWhole i
  effect s t := t.mem = s.mem ∧ t.owners = s.owners
  internal w i hbase hi := by
    refine ⟨fun heq => hbase.ne' (congrArg List.length heq), ?_⟩
    cases i with
    | go | enter _ | ret _ | closed _ => exact ⟨⟨rfl, trivial⟩, trivial⟩
    | _ => exact hi.elim
  refl s := ⟨rfl, rfl⟩
  trans h h' := ⟨h'.1.trans h.1, h'.2.trans h.2⟩
  owners h := h.2

section Returning

variable {w t : World} {p : SockPtr} {c : Connection} {base rest : List Frame}

theorem send_whole (c : Connection) (handler : Handler SockPtr) {message : Bytes} {result : Int}
    (hwhole : (message.length : Int) ≤ toInt result) :
    c.send handler message result = ⟨c, handler, false⟩ := by
  rcases c.send_cases handler message result with ⟨h, -⟩ | ⟨h, hlt, -⟩ | ⟨-, -, h⟩
  · omega
  · omega
  · exact h

theorem resting_send {message : Bytes} (hlen : message.length < 2 ^ 31)
    (hp : w.mem.deref p = some c) (hopen : 0 ≤ c.sock)
    (hstack : w.stack = .call (.send p message) :: rest) (hrest : base.length ≤ rest.length) :
    (resting base).Ends rest ((resting base).Leaves w) w := by
  have hne : w.stack ≠ base := fun heq => by
    have := congrArg List.length (hstack.symm.trans heq)
    rw [List.length_cons] at this
    omega
  refine Discipline.send_call (D := resting base) hstack ⟨message.length, 0, ?_, ?_⟩
    fun result errno hok => ?_
  · have hwhole : (message.length : Int) ≤ toInt message.length :=
      (toInt_of_range (by omega) (by omega)).ge
    refine ⟨hne, ⟨rfl, ?_⟩, ?_⟩
    · simp only [LeavesQueues, hstack]
      intro d _
      rw [send_whole d w.mem.handler hwhole]
      exact ⟨rfl, rfl⟩
    · simpa only [WritesWhole, hstack] using hwhole
  · simp [canSend, hp, hopen]
  · obtain ⟨-, -, hwhole⟩ := hok
    simp only [WritesWhole, hstack] at hwhole
    rw [World.send, access_some (w := { w with stack := rest }) hp]
    rw [send_whole c _ hwhole]
    refine .now ⟨rfl, ?_, rfl⟩
    exact (congrArg (fun m => m) (Memory.modify_self hp) :)

theorem resting_hooks (w : World) : (resting base).HooksEnd w := by
  intro t arg calls rest hrest _ hstack
  refine Discipline.hook_ends hstack hrest fun u call above habove _ hok hcallable => ?_
  obtain ⟨-, -, hwrites⟩ := hok
  cases call with
  | send p message =>
    obtain ⟨hlen, c, hp, hopen⟩ := hwrites
    exact resting_send (w := { u with stack := .call (.send p message) :: above }) hlen hp hopen rfl
      habove
  | _ => exact hwrites.elim

theorem resting_error (o : Owner) (fn : String) (hrest : base.length ≤ w.stack.length) :
    (resting base).Ends w.stack (fun t => t.mem = w.mem) (w.error o fn) := by
  have hends := Discipline.executeOwner_ends (D := resting base) (w := w) hrest
    (resting_hooks (w.note (.started o .error (.errno fn))))
  exact hends.mono fun u hu => ⟨hu.1, hu.2.1⟩

theorem resting_raise {o : Owner} {fn : String} (hstack : w.stack = .raise o fn :: rest)
    (hrest : base.length ≤ rest.length) :
    (resting base).Ends rest (fun t => t.mem = w.mem) w := by
  have hends := Discipline.raise_ends (D := resting base) hstack hrest
    (resting_hooks (w.note (.started o .error (.errno fn))))
  exact hends.mono fun u hu => ⟨hu.1, hu.2.1⟩

theorem resting_close (hstack : w.stack = .call (.close p) :: rest)
    (hrest : base.length ≤ rest.length) (hp : w.mem.deref p = some c) (hopen : 0 ≤ c.sock)
    (hlist : c.actions .closed = p.container.installed) :
    (resting base).Ends rest (fun t => t.owners = w.owners) w := by
  refine Discipline.close_call (D := resting base) hstack hrest fun errno => ?_
  have hends := Discipline.close_ends (D := resting base) (w := { w with stack := rest }) hrest hp
    hopen hlist (fun mid hmid => ?_) (fun u _ => resting_hooks u) errno
  · refine hends.mono fun u hu => ⟨hu.1, ?_⟩
    obtain ⟨-, mid, hmid, hstored⟩ := hu
    exact (congrArg Stored.owners hstored).trans hmid.2
  · refine ⟨{ c with sock := -1 }, ?_, hlist⟩
    rw [hmid.1]
    exact (Memory.deref_closeSocket hp c.sock p).trans (if_pos rfl)

theorem GivesUp.ends {below : List Frame} (h : GivesUp w p rest below t)
    (hp : w.mem.deref p = some c) (hopen : 0 ≤ c.sock)
    (hlist : c.actions .closed = p.container.installed) (hnone : c.actions .error = []) :
    (resting rest).Ends rest (fun _ => True) t := by
  cases h with
  | error fn errno =>
    have hrest : (resting rest).base ≤
        (Frame.call (.close p) :: .returning false :: rest).length := Nat.le_add_right _ 2
    have hends := resting_error (w := { w with
      errno := errno
      stack := .call (.close p) :: .returning false :: rest }) p.container.owner fn hrest
    refine hends.bind fun u hu => ?_
    have hp' : u.mem.deref p = some c := by
      rw [show u.mem = w.mem from hu.2]
      exact hp
    refine (resting_close hu.1 (Nat.le_succ _) hp' hopen hlist).bind fun v hv => ?_
    exact Discipline.returning_ends hv.1 le_rfl trivial
  | bind errno =>
    rw [bindFailed_eq hp, hnone]
    have hbind : rest.length ≤ (Frame.raise p.container.owner "bind" :: .call (.close p) ::
        .returning false :: rest).length := Nat.le_add_right _ 3
    have hdone : (resting rest).Ends
        (.raise p.container.owner "bind" :: .call (.close p) :: .returning false :: rest)
        (fun u => u.mem = w.mem) { w with
          errno := errno
          stack := .execute ⟨.socket p .error, 0, 0, .errno "bind"⟩ ::
            .raise p.container.owner "bind" :: .call (.close p) :: .returning false :: rest } :=
      Discipline.end_ends rfl hbind (Nat.zero_le 0) rfl
    refine hdone.bind fun u hu => ?_
    refine (resting_raise hu.1 (Nat.le_add_right _ 2)).bind fun v hv => ?_
    have hp' : v.mem.deref p = some c := by
      rw [show v.mem = w.mem from hv.2.trans hu.2]
      exact hp
    refine (resting_close hv.1 (Nat.le_succ _) hp' hopen hlist).bind fun z hz => ?_
    exact Discipline.returning_ends hz.1 le_rfl trivial
  | close errno =>
    have hbase : rest.length ≤
        (.raise p.container.owner "listen" :: .returning false :: rest).length := Nat.le_add_right _ 2
    have hclose := resting_close (w := { w with
      errno := errno
      stack := .call (.close p) :: .raise p.container.owner "listen" :: .returning false :: rest }) rfl
      hbase hp hopen hlist
    refine hclose.bind fun u hu => ?_
    refine (resting_raise hu.1 (Nat.le_succ _)).bind fun v hv => ?_
    exact Discipline.returning_ends hv.1 le_rfl trivial

end Returning

/-! ### Elements of reachable states -/

end World

theorem Connection.Tame.on {c : Connection} (h : c.Tame) {action : SocketAction} {exec : Callback}
    {flags : UShort} (herror : action = .error → exec = .user)
    (hrecv : action = .recv → exec = .user ∨ exec = .receive) : (c.on action exec flags).Tame :=
  ⟨Connection.forall_on (P := fun exec => exec = .user) h.1 fun heq => herror heq.symm,
    Connection.forall_on (P := fun exec => exec = .user ∨ exec = .receive) h.2
      fun heq => hrecv heq.symm⟩

theorem Connection.Tame.inserted (node : Nat) (fd : Int) : (Connection.inserted node fd).Tame := by
  refine .on ⟨?_, ?_⟩ (by simp) (by simp)
  all_goals simp

theorem Connection.Tame.setUpWiring {c : Connection} (h : c.Tame) : c.setUpWiring.Tame :=
  h.on (by simp) (by simp)

theorem Connection.Tame.acceptWiring {c : Connection} (h : c.Tame) : c.acceptWiring.Tame :=
  (((h.on (by simp) (by simp)).on (by simp) (by simp)).on (by simp) (by simp)).on (by simp)
    fun _ => .inr rfl

namespace Memory

variable {m : Memory} {p : SockPtr} {c : Connection} {f : Connection → Connection}

theorem Tame.modify (h : m.Tame) (hp : m.deref p = some c) (hnode : (f c).node = c.node)
    (hf : (f c).Tame) : (m.modify p f).Tame := by
  intro q d hq
  rw [deref_modify hp hnode] at hq
  split at hq
  · obtain rfl := Option.some.inj hq
    exact hf
  · exact h q d hq

theorem Tame.added (h : m.Tame) {container : Container} {fd : Int}
    (hfree : (m.sockets container).contains fd = false) (hnode : ∀ c, (f c).node = c.node)
    (hf : (f (Connection.inserted m.nextNode fd)).Tame) :
    (((m.openFd fd).addElement container fd).modify (m.newPtr container fd) f).Tame := by
  intro q d hq
  rw [deref_added hfree hnode] at hq
  split at hq
  · obtain rfl := Option.some.inj hq
    exact hf
  · exact h q d hq

end Memory

namespace World

variable {w w' : World} {i : Input}

theorem Move.tame (h : Move w i w') (htame : w.mem.Tame) : w'.mem.Tame := by
  cases h with
  | erase _ hlist hcb _ _ =>
    obtain ⟨c, hc, -⟩ := current_mem hlist hcb
    intro p d hp
    have hderef := (Memory.deref_eraseSocket hc p).symm.trans hp
    exact htame p d (Option.ite_none_left_eq_some.mp hderef).2
  | @closed _ _ c _ _ _ _ _ hp _ _ =>
    exact htame.modify (f := fun c => { c with sock := -1 }) hp rfl (htame _ c hp)
  | made _ _ _ _ hfree =>
    exact htame.added hfree (fun _ => rfl) (.setUpWiring (.inserted _ _))
  | accepted _ _ _ hfree =>
    exact htame.added hfree (fun _ => rfl) (.acceptWiring (.inserted _ _))
  | leaked _ _ _ _ _ hw' =>
    rcases hw' with ⟨k, rfl⟩ | ⟨o, arg, -, rfl⟩ <;> exact htame
  | @finished _ _ c _ _ _ _ hf hp =>
    have hc : c.Tame := htame _ c hp
    rcases hf with ⟨-, rfl, -⟩ | ⟨-, rfl, -⟩
    · exact htame.modify hp rfl (hc.on (by simp) (by simp))
    · exact htame.modify hp rfl ((hc.on (by simp) (by simp)).on (by simp) fun _ => .inr rfl)
  | @wrote _ _ c buffer _ _ _ _ _ hp _ =>
    exact htame.modify (f := fun _ => { c with sendBuffer := buffer }) hp rfl (htame _ c hp)
  | @hooked p c action flags rest _ hp =>
    exact htame.modify (f := fun c => c.on action .user flags) hp rfl
      ((htame _ c hp).on (fun _ => rfl) fun _ => .inl rfl)
  | _ => exact htame

theorem tame_of_reach {owners : Owner → OwnerAction → Action Unit} {invalid : UShort}
    {ok : World → Input → Prop} (h : Machine.Reach step ok (start owners invalid) w) :
    w.mem.Tame :=
  h.invariant (fun p c hp => by simp [start, Memory.empty, Memory.deref] at hp)
    fun _ _ _ hu _ hstep => (step_move hstep).tame hu

/-! ### Failed calls are undone -/

/-- A run back to the stack `rest` with inputs that `ok` admits crashes nowhere, and when it is there
the call of the owner that got `fd` has left nothing behind. -/
def Undoes (ok : World → Input → Prop) (w : World) (o : Owner) (fd : Int) (rest : List Frame)
    (w₂ : World) : Prop :=
  ∀ t, Machine.Reach step (fun u i => u.stack ≠ rest ∧ ok u i) w₂ t →
    (∀ k below, t.stack ≠ .crash k :: (below ++ rest)) ∧
    (t.stack = rest → ∃ new, RolledBack w o fd t new)

section Undone

variable {w₁ w₂ : World} {call : Call} {container : Container} {fd : Int}
  {failure : SetUpStep × Int} {rest : List Frame}

/-- If a call after `make_socket` fails, `listen` and `connect` return `false`; containers and
handler are then as before the call, the descriptor is closed once, and `ERROR` and `CLOSED` have been
started once, whatever hooks do that leave sockets, lists of callbacks and queues alone.  The call
returns if these hooks only write whole messages. -/
theorem failed_setUp_undone (hw : w.mem.Corresponds)
    (hopened : ∀ fd ∈ w.mem.handler.fds, fd ∈ w.mem.descriptors) (htame : w.mem.Tame)
    (hstack : w.stack = .call call :: rest) (hcall : call.setsUp = some container)
    (hfree : (w.mem.sockets container).contains fd = false)
    (hmade : w.step (.opened (.ok fd)) = some w₁)
    (hfail : w₁.step (.setUp (some failure)) = some w₂) :
    Undoes Passive w container.owner fd rest w₂ ∧
    Returns (fun u i => u.Passive i ∧ u.WritesWhole i) rest
      (fun t => ∃ new, RolledBack w container.owner fd t new) w₂ := by
  have hnot := Call.setsUp_not_clients hcall
  obtain ⟨hopen, hfd, setUp, hsetUp, rfl⟩ := step_made hstack hcall hfree hmade
  have hgives := step_givesUp hsetUp rfl hfail
  have hp := Memory.deref_setUp hfree
  have hlist : (Connection.inserted w.mem.nextNode fd).setUpWiring.actions .closed =
      container.installed := setUpWiring_closed hnot w.mem.nextNode fd
  have hsetUpTame : (w.mem.setUp container fd).Tame :=
    htame.added hfree (fun _ => rfl) (.setUpWiring (.inserted _ _))
  have hsafe : Undoes Passive w container.owner fd rest w₂ := by
    intro t hreach
    have hdisposing : Disposing (w.mem.setUp container fd) (w.mem.newPtr container fd) fd rest _ t :=
      (hgives.disposing hp).reach hsetUpTame hp rfl hopen hlist (fun _ _ h => h) hreach
    exact ⟨hdisposing.not_crash, hdisposing.rolledBack hnot hw.aligned
      (fun hmem => hfd (hopened fd hmem)) hfree rfl⟩
  refine ⟨hsafe, ?_⟩
  have hends := Machine.Inevitable.and_of_first (hgives.ends hp hopen hlist rfl)
    (Q := fun t => ∃ new, RolledBack w container.owner fd t new) fun t hreach hreturn =>
      (hsafe t (hreach.mono fun u i h => ⟨h.1.1, h.1.2.1⟩)).2 hreturn.1
  exact hends.mono fun t ht => ⟨ht.1.1, ht.2⟩

end Undone

def errorHook : Owner → OwnerAction → Action Unit
  | .client 0, .error => [⟨(), ActionFlag.default⟩]
  | _, _ => []

/-- It has connected on descriptor 3 and connects again. -/
def connectTwice : List Input :=
  [.call (.connect 0), .opened (.ok 3), .setUp none, .go, .go, .call (.connect 0)]

/-- The address of the second connection is not found. -/
def addressFails : List Input := [.opened (.ok 4), .setUp (some (.addrinfo, 2))]

theorem connectTwice_state : ∃ w w₁ w₂,
    Machine.run step (start errorHook 0) connectTwice = some w ∧
    w.stack = [.call (.connect 0)] ∧ (w.mem.sockets (.connections 0)).contains 4 = false ∧
    w.step (.opened (.ok 4)) = some w₁ ∧ w₁.step (.setUp (some (.addrinfo, 2))) = some w₂ ∧
    Machine.run step (start errorHook 0) (connectTwice ++ addressFails) = some w₂ := by
  have hend : (Machine.run step (start errorHook 0) connectTwice).map (fun w =>
      (w.stack, (w.mem.sockets (.connections 0)).contains 4)) =
        some ([.call (.connect 0)], false) := by decide
  have hfails : (Machine.run step (start errorHook 0) (connectTwice ++ addressFails)).isSome := by
    decide
  obtain ⟨w, hw, hend⟩ := Option.map_eq_some_iff.mp hend
  obtain ⟨hstack, hfree⟩ := Prod.mk.inj hend
  obtain ⟨w₂, hrun⟩ := Option.isSome_iff_exists.mp hfails
  have hsteps := hrun
  rw [Machine.run_append, hw, Option.bind_some, addressFails, Machine.run_cons] at hsteps
  obtain ⟨w₁, hw₁, hsteps⟩ := Option.bind_eq_some_iff.mp hsteps
  obtain ⟨t, hw₂, hsteps⟩ := Option.bind_eq_some_iff.mp hsteps
  obtain rfl := Option.some.inj hsteps
  exact ⟨w, w₁, t, hw, hstack, hfree, hw₁, hw₂, hrun⟩

theorem failed_setUp_undone_address : ∃ w w₂,
    Machine.run step (start errorHook 0) connectTwice = some w ∧
    Machine.run step (start errorHook 0) (connectTwice ++ addressFails) = some w₂ ∧
    Undoes Passive w (.client 0) 4 [] w₂ ∧
    Returns (fun u i => u.Passive i ∧ u.WritesWhole i) []
      (fun t => ∃ new, RolledBack w (.client 0) 4 t new) w₂ := by
  obtain ⟨w, w₁, w₂, hw, hstack, hfree, hw₁, hw₂, hrun⟩ := connectTwice_state
  have hreach : Machine.Reach step Any (start errorHook 0) w := .of_run (fun _ _ => trivial) hw
  have hs := (sound_of_reach hreach).mem
  have hundone := failed_setUp_undone hs.toCorresponds hs.opened (tame_of_reach hreach) hstack rfl
    hfree hw₁ hw₂
  exact ⟨w, w₂, hw, hrun, hundone⟩

/-- The `ERROR` hook sends two bytes on the first connection, and `::send` takes one of them. -/
def sendHalf : List Input :=
  [.enter 1, .call (.send { container := .connections 0, key := 3, node := 0 } [1, 2]),
    .sent 1 0, .ret 0, .go, .closed 0, .go, .go, .go, .go]

def queued (m : Memory) : Option (List Bytes) :=
  ((m.sockets (.connections 0))[(3 : Int)]?).map Connection.sendBuffer

/-- The first connection is then in its container with the rest of the message, which it did not have
before the call. -/
theorem failed_setUp_keeps_rest : ¬ ∀ (w w₁ w₂ : World) (call : Call) (container : Container)
    (fd : Int) (failure : SetUpStep × Int) (rest : List Frame), w.mem.Corresponds →
    (∀ fd ∈ w.mem.handler.fds, fd ∈ w.mem.descriptors) → w.mem.Tame →
    w.stack = .call call :: rest → call.setsUp = some container →
    (w.mem.sockets container).contains fd = false → w.step (.opened (.ok fd)) = some w₁ →
    w₁.step (.setUp (some failure)) = some w₂ → Undoes OpensNothing w container.owner fd rest w₂ := by
  intro hall
  obtain ⟨w, w₁, w₂, hw, hstack, hfree, hw₁, hw₂, hrun⟩ := connectTwice_state
  have hreach : Machine.Reach step Any (start errorHook 0) w := .of_run (fun _ _ => trivial) hw
  have hs := (sound_of_reach hreach).mem
  have hundone := hall w w₁ w₂ (.connect 0) (.connections 0) 4 (.addrinfo, 2) [] hs.toCorresponds
    hs.opened (tame_of_reach hreach) hstack rfl hfree hw₁ hw₂
  have hbefore : (Machine.run step (start errorHook 0) connectTwice).map (fun w =>
      queued w.mem) = some (some []) := by decide
  have hchecked : (Machine.run step (start errorHook 0) (connectTwice ++ addressFails)).map
      (fun w => Machine.checked step (fun u i => u.stack != [] && opensNothing i) w sendHalf) =
        some true := by decide
  have hafter : (Machine.run step (start errorHook 0)
      (connectTwice ++ addressFails ++ sendHalf)).map (fun t => (t.stack, queued t.mem)) =
        some ([], some [[2]]) := by decide
  rw [hw, Option.map_some, Option.some.injEq] at hbefore
  rw [hrun, Option.map_some, Option.some.injEq] at hchecked
  rw [Machine.run_append, hrun, Option.bind_some] at hafter
  obtain ⟨t, ht, hend⟩ := Option.map_eq_some_iff.mp hafter
  obtain ⟨hreturn, hafter⟩ := Prod.mk.inj hend
  have hrest : Machine.Reach step (fun u i => u.stack ≠ [] ∧ OpensNothing u i) w₂ t :=
    .of_checked (fun u i h => by simpa [OpensNothing] using h) hchecked ht
  obtain ⟨new, hrolled⟩ := (hundone t hrest).2 hreturn
  rw [queued, hrolled.containers, ← queued, hbefore] at hafter
  exact absurd hafter (by decide)

end World

end Unisock.Tcp
