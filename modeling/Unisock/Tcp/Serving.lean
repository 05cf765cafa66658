import Unisock.Tcp.Closing
import Unisock.Tcp.Installed
import Unisock.Tcp.Wiring

/-! Hooks of servers and clients that send and close, where no other hooks are registered: they return,
whether their sends fail or not, and each socket that they close moves the counter of the handler. -/

namespace Unisock.Tcp

open Unisock.Events

namespace Container

@[simp] theorem wiring_closed (container : Container) :
    container.wiring .closed = container.installed := by
  cases container <;> rfl

@[simp] theorem wiring_error (container : Container) : container.wiring .error = [] := by
  cases container <;> rfl

end Container

namespace Memory

/-- Every element has the callbacks that `listen`, `accept` and `connect` leave. -/
structure Fitted (m : Memory) : Prop extends Sound m where
  wired : ∀ p c, m.deref p = some c → c.actions = p.container.wiring

/-- Every element of the container is open. -/
def Opened (m : Memory) (container : Container) : Prop :=
  ∀ p c, p.container = container → m.deref p = some c → 0 ≤ c.sock

/-- From `m` to `m'`, calls have closed sockets, and the counter of the handler has moved by as many. -/
structure Sheds (m m' : Memory) : Prop extends Closes m m' where
  counted : ∃ k, m'.handler.invalid = m.handler.invalid + BitVec.ofNat 16 k ∧
    m'.handler.count + k ≤ m.handler.count ∧ (k = 0 → m'.handler.count = m.handler.count)

variable {m m' m'' : Memory} {p : SockPtr} {c : Connection}

theorem Fitted.closed_list (hm : m.Fitted) (hp : m.deref p = some c) :
    c.actions .closed = p.container.installed := by
  rw [hm.wired p c hp, Container.wiring_closed]

theorem Fitted.closable (hm : m.Fitted) {container : Container} (hopen : m.Opened container) :
    m.Closable container := by
  refine fun p c hk hp => ⟨hopen p c hk hp, ?_⟩
  rintro ⟨cb, hcb, hcuts⟩
  rw [hm.closed_list hp] at hcb
  rcases List.mem_cons.mp hcb with rfl | hcb
  · rw [cuts, World.notify_plain, World.notify_plain] at hcuts
    simp at hcuts
  · obtain rfl := List.mem_singleton.mp hcb
    exact absurd hcuts (by decide)

theorem Fitted.closed (hm : m.Fitted) (hp : m.deref p = some c) (hopen : 0 ≤ c.sock) :
    (m.closeSocket p c.sock).Fitted where
  toSound := hm.toSound.closed hp hopen
  wired q d hd := by
    rw [deref_closeSocket hp] at hd
    split at hd
    · next hq =>
      obtain rfl := Option.some.inj hd
      exact hm.wired q c (hq ▸ hp)
    · exact hm.wired q d hd

theorem Sheds.refl (m : Memory) : m.Sheds m where
  toCloses := .refl m
  counted := ⟨0, by simp, le_rfl, fun _ => rfl⟩

theorem Sheds.trans (h : m.Sheds m') (h' : m'.Sheds m'') : m.Sheds m'' where
  toCloses := h.toCloses.trans h'.toCloses
  counted := by
    obtain ⟨k, hinvalid, hcount, hsame⟩ := h.counted
    obtain ⟨k', hinvalid', hcount', hsame'⟩ := h'.counted
    refine ⟨k + k', ?_, by omega, fun hzero => ?_⟩
    · rw [hinvalid', hinvalid, BitVec.ofNat_add, BitVec.add_assoc]
    · rw [hsame' (by omega), hsame (by omega)]

theorem Sheds.fitted (h : m.Sheds m') (hm : m.Fitted) : m'.Fitted where
  toSound := h.changes.sound hm.toSound
  wired p c' hc' := by
    obtain ⟨c, hc, hactions, -⟩ := h.old p c' hc'
    exact hactions.trans (hm.wired p c hc)

/-- `close` on an open socket, around what its hooks close. -/
theorem Sheds.close (hm : m.Fitted) (hp : m.deref p = some c) (hopen : 0 ≤ c.sock)
    (h : (m.closeSocket p c.sock).Sheds m') :
    m.Sheds (m'.eraseSocket p.container p.key) ∧
      (m'.eraseSocket p.container p.key).handler.count < m.handler.count := by
  obtain ⟨hcloses, hless, -⟩ :=
    Closes.close hm.toSound hp hopen h.toCloses (.inr rfl)
  obtain ⟨k, hinvalid, hcount, -⟩ := h.counted
  have hone := hm.count_closeSocket hp hopen
  refine ⟨⟨hcloses, k + 1, ?_, ?_, fun h => absurd h (Nat.succ_ne_zero k)⟩, hless⟩
  · have hshut : (m.closeSocket p c.sock).handler.invalid = m.handler.invalid + 1 := rfl
    show m'.handler.invalid = _
    rw [hinvalid, hshut, Nat.add_comm k 1, BitVec.ofNat_add, BitVec.add_assoc]
    rfl
  · show m'.handler.count + (k + 1) ≤ _
    omega

theorem Sheds.sent (hp : m.deref p = some c) {buffer : List Bytes} {handler : Handler SockPtr}
    (hhandler : handler = m.handler ∨
      ∃ active, handler = m.handler.socketWantWrite c.sock active) :
    m.Sheds (m.sent p ⟨{ c with sendBuffer := buffer }, handler, false⟩) where
  toCloses := .sent hp hhandler
  counted := by
    have hsame : handler.invalid = m.handler.invalid ∧ handler.fds = m.handler.fds := by
      rcases hhandler with rfl | ⟨active, rfl⟩
      · exact ⟨rfl, rfl⟩
      · exact ⟨rfl, HandlerImpl.socketWant_fds ..⟩
    have hcount : handler.count = m.handler.count := by
      rw [← HandlerImpl.fds_length, hsame.2, HandlerImpl.fds_length]
    exact ⟨0, hsame.1.trans (by simp), hcount.le, fun _ => hcount⟩

end Memory

/-- The calls that open no socket, receive nothing and register nothing. -/
def Call.serves : Call → Bool
  | .send _ _ | .sendFlush _ | .close _ | .closeContainer _ | .closeOwner _ => true
  | .listen _ | .connect _ | .accept _ | .recv _ | .on _ _ _ | .onOwner _ _ _ | .poll => false

namespace World

/-- Hooks send and close, and the containers that they close have only open elements.  No connection
is accepted on descriptor 0. -/
def ServeHooks (w : World) : Input → Prop
  | .call call => call.serves ∧ ∀ container ∈ call.closes, w.mem.Opened container
  | .opened result => result ≠ .ok 0
  | _ => True

/-- The discipline of hooks that send and close. -/
def serving : Discipline where
  base := 0
  ok := ServeHooks
  effect s t := t.owners = s.owners ∧ s.mem.Sheds t.mem
  internal w i _ hi := by
    cases i with
    | go | enter _ | ret _ | closed _ => trivial
    | _ => exact hi.elim
  refl s := ⟨rfl, .refl s.mem⟩
  trans h h' := ⟨h'.1.trans h.1, h.2.trans h'.2⟩
  owners h := h.1

/-- Such hooks return, where at most `n` sockets are registered. -/
def ServesEnd (n : Nat) : Prop :=
  ∀ w : World, w.mem.Fitted → w.mem.handler.count ≤ n → serving.HooksEnd w

variable {w t : World} {rest : List Frame} {p : SockPtr} {c : Connection}

/-- No hook is registered for the errors of an element. -/
theorem error_ends (hm : w.mem.Fitted) (hp : w.mem.deref p = some c) (arg : Arg) :
    serving.Ends w.stack (serving.Leaves w) (w.executeSocket p .error arg) := by
  rw [executeSocket_some hp, hm.wired p c hp, Container.wiring_error]
  exact Discipline.end_ends rfl (Nat.zero_le _) le_rfl (serving.refl _)

theorem sentServed_ends (hm : w.mem.Fitted) (hp : w.mem.deref p = some c) {s : Sent SockPtr}
    (hconn : ∃ buffer, s.connection = { c with sendBuffer := buffer })
    (hhandler : s.handler = w.mem.handler ∨
      ∃ active, s.handler = w.mem.handler.socketWantWrite c.sock active)
    (taken : Bytes) (errno : Int) :
    serving.Ends w.stack (serving.Leaves w) (w.sent p s taken errno) := by
  unfold World.sent
  split
  · exact error_ends (w := w.setErrno errno) hm hp _
  · next hraised =>
    obtain ⟨buffer, hconn⟩ := hconn
    obtain ⟨connection, handler, raised⟩ := s
    simp only [Bool.not_eq_true] at hraised hconn hhandler
    subst hraised hconn
    exact .now ⟨rfl, rfl, Memory.Sheds.sent hp hhandler⟩

theorem sendServed_ends {message : Bytes} (hm : w.mem.Fitted) (hp : w.mem.deref p = some c)
    (hstack : w.stack = .call (.send p message) :: rest) :
    serving.Ends rest (serving.Leaves w) w := by
  refine Discipline.send_call hstack ⟨-1, 0, trivial, by simp [canSend, hp]⟩
    fun result errno _ => ?_
  obtain ⟨hconn, hhandler⟩ := c.send_frame w.mem.handler message result
  rw [send, access_some (w := { w with stack := rest }) hp]
  exact sentServed_ends (w := { w with stack := rest }) hm hp hconn hhandler _ _

theorem sendFlushServed_ends (hm : w.mem.Fitted) (hp : w.mem.deref p = some c)
    (hstack : w.stack = .call (.sendFlush p) :: rest) :
    serving.Ends rest (serving.Leaves w) w := by
  refine Discipline.sendFlush_call hstack ⟨-1, 0, trivial, by simp [canSend, hp]⟩
    fun result errno _ => ?_
  obtain ⟨hconn, hhandler⟩ := c.sendFlush_frame w.mem.handler result
  rw [sendFlush, access_some (w := { w with stack := rest }) hp]
  exact sentServed_ends (w := { w with stack := rest }) hm hp hconn hhandler _ _

/-- `close` on a connection ends: an open one is not registered any more then. -/
theorem closeServed_ends (hhooks : ∀ m < w.mem.handler.count, ServesEnd m) (hm : w.mem.Fitted)
    (hp : w.mem.deref p = some c) (errno : Int) :
    serving.Ends w.stack (fun t => serving.Leaves w t ∧
      (0 ≤ c.sock → t.mem.handler.count < w.mem.handler.count)) (w.close p errno) := by
  by_cases hopen : 0 ≤ c.sock
  · have hlist := hm.closed_list hp
    have hshut : (w.mem.closeSocket p c.sock).deref p = some { c with sock := -1 } :=
      (Memory.deref_closeSocket hp c.sock p).trans (if_pos rfl)
    refine (Discipline.close_ends (Nat.zero_le _) hp hopen hlist ?_ ?_ errno).mono ?_
    · rintro mid ⟨-, hmid⟩
      obtain ⟨c', hc', hactions, -⟩ := hmid.toCloses.closed hshut (Int.negSucc_lt_zero 0)
      exact ⟨c', hc', (congrFun hactions .closed).trans hlist⟩
    · intro t ht
      have hmem : t.mem = w.mem.closeSocket p c.sock := congrArg Stored.mem ht
      exact hhooks _ (hm.count_closeSocket hp hopen) t (hmem ▸ hm.closed hp hopen) (hmem ▸ le_rfl)
    · rintro t ⟨hstack, mid, ⟨howners, hmid⟩, ht⟩
      obtain ⟨hsheds, hless⟩ := Memory.Sheds.close hm hp hopen hmid
      have hmem : t.mem = mid.mem.eraseSocket p.container p.key := congrArg Stored.mem ht
      have howners' : t.owners = mid.owners := congrArg Stored.owners ht
      refine ⟨hstack, ⟨howners'.trans howners, ?_⟩, fun _ => hmem ▸ hless⟩
      show w.mem.Sheds t.mem
      exact hmem ▸ hsheds
  · rw [close_closed hp (by omega)]
    exact .now ⟨rfl, serving.refl _, fun h => absurd h hopen⟩

/-- The loop of `socket_container::close` ends: each turn leaves fewer sockets registered. -/
theorem closingServed_ends {container : Container} (hhooks : ∀ m < w.mem.handler.count, ServesEnd m)
    (hm : w.mem.Fitted) (hk : w.mem.Closable container)
    (hstack : w.stack = .closing container :: rest) :
    serving.Ends rest (serving.Leaves w) w := by
  induction hn : w.mem.handler.count using Nat.strong_induction_on generalizing w with
  | _ n ih =>
    subst hn
    refine .later ⟨.closed 0, _, trivial, (step_closing hstack).mpr ⟨0, rfl, rfl⟩⟩
      fun i t _ ht => ?_
    obtain ⟨errno, rfl, rfl⟩ := (step_closing hstack).mp ht
    unfold closeNext
    cases hbegin : w.mem.begin? container with
    | none => exact .now ⟨rfl, serving.refl _⟩
    | some entry =>
      obtain ⟨key, c⟩ := entry
      have hp : w.mem.deref (.pointer container key c) = some c :=
        Memory.deref_pointer (Memory.begin?_eq_some hbegin)
      have hturn := closeServed_ends (w := { w with stack := .closing container :: rest }) hhooks hm
        hp errno
      refine hturn.bind ?_
      rintro t ⟨htstack, ht, hless⟩
      have hless := hless (hk _ c rfl hp).1
      have hrest := ih _ hless (fun m hm => hhooks m (hm.trans hless)) (ht.2.fitted hm)
        (ht.2.closable hk) htstack rfl
      exact hrest.mono fun u hu => ⟨hu.1, serving.trans ht hu.2⟩

theorem closingsServed_ends {containers : List Container}
    (hhooks : ∀ m < w.mem.handler.count, ServesEnd m) (hm : w.mem.Fitted)
    (hk : ∀ container ∈ containers, w.mem.Closable container)
    (hstack : w.stack = containers.map .closing ++ rest) :
    serving.Ends rest (serving.Leaves w) w := by
  induction containers generalizing w with
  | nil => exact .now ⟨hstack, serving.refl _⟩
  | cons container containers ih =>
    refine Discipline.Ends.seq (closingServed_ends hhooks hm (hk _ List.mem_cons_self) hstack)
      fun t ht hleaves => ?_
    refine ih (fun m hm => hhooks m (hm.trans_le hleaves.2.count)) (hleaves.2.fitted hm) ?_ ht
    exact fun k hmem => hleaves.2.closable (hk k (List.mem_cons_of_mem _ hmem))

theorem callServed_ends {call : Call} (hhooks : ∀ m < w.mem.handler.count, ServesEnd m)
    (hm : w.mem.Fitted) (hcallable : w.callable call = true) (hok : w.ServeHooks (.call call))
    (hstack : w.stack = .call call :: rest) : serving.Ends rest (serving.Leaves w) w := by
  obtain ⟨hserves, hopened⟩ := hok
  have closes : call.closes ≠ [] → serving.Ends rest (serving.Leaves w) w := by
    intro hne
    have hstep := step_closes hne hstack
    refine .later ⟨.go, _, trivial, hstep _⟩ fun i t _ ht => ?_
    obtain rfl := Option.some.inj ((hstep i).symm.trans ht)
    exact closingsServed_ends (w := { w with stack := call.closes.map .closing ++ rest }) hhooks hm
      (fun k hk => hm.closable (hopened k hk)) rfl
  cases call with
  | send p message =>
    obtain ⟨c, hp⟩ := Option.isSome_iff_exists.mp hcallable
    exact sendServed_ends hm hp hstack
  | sendFlush p =>
    obtain ⟨c, hp⟩ := Option.isSome_iff_exists.mp hcallable
    exact sendFlushServed_ends hm hp hstack
  | close p =>
    obtain ⟨c, hp⟩ := Option.isSome_iff_exists.mp hcallable
    refine Discipline.close_call hstack (Nat.zero_le _) fun errno => ?_
    have hends := closeServed_ends (w := { w with stack := rest }) hhooks hm hp errno
    exact hends.mono fun u hu => ⟨hu.1, hu.2.1⟩
  | closeContainer container => exact closes (by simp [Call.closes])
  | closeOwner o => exact closes (by cases o <;> simp [Call.closes, Owner.containers])
  | _ => exact absurd hserves (by simp [Call.serves])

/-- Such hooks return: by induction on the number of registered sockets. -/
theorem serves_end (n : Nat) : ServesEnd n := by
  induction n using Nat.strong_induction_on with
  | _ n ih =>
    intro w hm hcount t arg calls rest _ ht hstack
    refine Discipline.hook_ends hstack (Nat.zero_le _) fun u call above _ hu hok hcallable => ?_
    have hleaves := serving.trans ht hu
    have hhooks : ∀ m < u.mem.handler.count, ServesEnd m := fun m hm =>
      ih m (hm.trans_le (hleaves.2.count.trans hcount))
    exact callServed_ends (w := { u with stack := .call call :: above }) hhooks
      (hleaves.2.fitted hm) (by cases call <;> exact hcallable) hok rfl

end World

end Unisock.Tcp
