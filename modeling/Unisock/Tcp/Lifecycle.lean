import Unisock.Tcp.Descriptors

/-! The order of what happens to one connection, in runs whose hooks are registered on servers and
clients only: it starts, receives, leaves the handler, is closed, and ends, each at most once but
for the messages. -/

namespace Unisock.Tcp

open Unisock.Events

inductive Mark
  | started (o : Owner) (action : OwnerAction)
  | removed (fd : Int)
  | shut (fd : Int)
deriving DecidableEq, Repr

/-- What an event says about the connection `p`. -/
def Event.mark (p : SockPtr) : Event → Option Mark
  | .started o action arg => if arg.socket? = some p then some (.started o action) else none
  | .removed q fd => if q = p then some (.removed fd) else none
  | .shut q fd => if q = p then some (.shut fd) else none
  | .obtained _ _ _ | .erased _ | .wrote _ _ => none

/-- The action of the owner that a connection of this container starts with. -/
def Container.startAction : Container → OwnerAction
  | .listeners _ => .listen
  | .clients _ => .accept
  | .connections _ => .connect

/-- The action of the owner that a connection of this container ends with. -/
def Container.endAction : Container → OwnerAction
  | .clients _ => .disconnect
  | .listeners _ | .connections _ => .closed

namespace SockPtr

/-- The start of the connection, and any number of messages. -/
def started (p : SockPtr) (n : Nat) : List Mark :=
  .started p.container.owner p.container.startAction ::
    List.replicate n (.started p.container.owner .receive)

/-- The history of a connection that has not been closed: a client connection may have failed before
its start. -/
def Opened (p : SockPtr) (h : List Mark) : Prop :=
  ((∀ s, p.container ≠ .clients s) ∧ h = []) ∨ ∃ n, h = p.started n

/-- The end of the history of a connection that is closed. -/
def ending (p : SockPtr) : List Mark :=
  [.removed p.key, .shut p.key, .started p.container.owner p.container.endAction]

/-- The histories that a connection can have. -/
def Lifecycle (p : SockPtr) (h : List Mark) : Prop :=
  h = [] ∨ ∃ opened closed, p.Opened opened ∧ closed <+: p.ending ∧ h = opened ++ closed

end SockPtr

namespace World

/-- What the log says about `p`, from the first event on. -/
def history (w : World) (p : SockPtr) : List Mark := (w.log.filterMap (Event.mark p)).reverse

theorem history_cons {w w' : World} {e : Event} (hlog : w'.log = e :: w.log) (p : SockPtr) :
    w'.history p = w.history p ++ (e.mark p).toList := by
  unfold history
  rw [hlog]
  cases hmark : e.mark p with
  | none => simp [hmark]
  | some m => simp [hmark]

theorem history_congr {w w' : World} (hlog : w'.log = w.log) (p : SockPtr) :
    w'.history p = w.history p := by
  rw [history, hlog, history]

/-- The socket and the lists of the element that `p` points to. -/
def look (w : World) (p : SockPtr) : Option (Int × (SocketAction → Action Callback)) :=
  (w.mem.deref p).map fun c => (c.sock, c.actions)

end World

/-- The lists of an element on which the user registers nothing. -/
structure Shape (p : SockPtr) (actions : SocketAction → Action Callback) : Prop where
  closed : actions .closed = [⟨.notify p.container.endAction, ActionFlag.default⟩,
    ⟨.erase, ActionFlag.queueEnd ||| ActionFlag.stopAfter⟩]
  recv : actions .recv = [] ∨ actions .recv = [⟨.receive, ActionFlag.default⟩]
  others : ∀ action, action ≠ .closed → action ≠ .recv → ∀ cb ∈ actions action,
    cb.exec.neutral = true

/-- The callback at one position of one of the lists. -/
theorem Shape.callback {p : SockPtr} {actions : SocketAction → Action Callback}
    (h : Shape p actions) {list : SocketAction} {pos : Nat} {cb : ActionCallback Callback}
    (hget : (actions list)[pos]? = some cb) :
    (list = .closed ∧ pos = 0 ∧ cb = ⟨.notify p.container.endAction, ActionFlag.default⟩) ∨
    (list = .closed ∧ cb.exec = .erase) ∨ (list = .recv ∧ pos = 0 ∧ cb.exec = .receive) ∨
    cb.exec.neutral = true := by
  by_cases hclosed : list = .closed
  · subst hclosed
    rw [h.closed] at hget
    rcases pos with _ | _ | n
    · exact .inl ⟨rfl, rfl, (Option.some.inj hget).symm⟩
    · obtain rfl := Option.some.inj hget
      exact .inr (.inl ⟨rfl, rfl⟩)
    · simp at hget
  · by_cases hrecv : list = .recv
    · subst hrecv
      rcases h.recv with hnil | hone
      · simp [hnil] at hget
      · rw [hone] at hget
        rcases pos with _ | n
        · obtain rfl := Option.some.inj hget
          exact .inr (.inr (.inl ⟨rfl, rfl, rfl⟩))
        · simp at hget
    · exact .inr (.inr (.inr (h.others list hclosed hrecv cb (List.mem_of_getElem? hget))))

/-- Only the first callback of the `CLOSED` list notifies. -/
theorem Shape.notifies {p : SockPtr} {actions : SocketAction → Action Callback}
    (h : Shape p actions) {list : SocketAction} {pos : Nat} {cb : ActionCallback Callback}
    {action : OwnerAction} (hget : (actions list)[pos]? = some cb)
    (hexec : cb.exec = .notify action) :
    list = .closed ∧ pos = 0 ∧ action = p.container.endAction := by
  rcases h.callback hget with ⟨hl, hpos, rfl⟩ | ⟨-, herase⟩ | ⟨-, -, hrecv⟩ | hneutral
  · exact ⟨hl, hpos, (Callback.notify.inj hexec).symm⟩
  · exact absurd (herase.symm.trans hexec) (by simp)
  · exact absurd (hrecv.symm.trans hexec) (by simp)
  · rw [hexec] at hneutral
    exact absurd hneutral (by simp [Callback.neutral])

/-- Only the one callback of the `RECV` list hands on what is received. -/
theorem Shape.receives {p : SockPtr} {actions : SocketAction → Action Callback}
    (h : Shape p actions) {list : SocketAction} {pos : Nat} {cb : ActionCallback Callback}
    (hget : (actions list)[pos]? = some cb) (hexec : cb.exec = .receive) :
    list = .recv ∧ pos = 0 := by
  rcases h.callback hget with ⟨-, -, rfl⟩ | ⟨-, herase⟩ | ⟨hl, hpos, -⟩ | hneutral
  · exact absurd hexec (by simp)
  · exact absurd (herase.symm.trans hexec) (by simp)
  · exact ⟨hl, hpos⟩
  · rw [hexec] at hneutral
    exact absurd hneutral (by simp [Callback.neutral])

/-- What holds of the callbacks of a list, and of the one that is added. -/
theorem Connection.forall_on {c : Connection} {action a : SocketAction} {exec : Callback}
    {flags : UShort} {P : Callback → Prop} (hold : ∀ cb ∈ c.actions a, P cb.exec)
    (hnew : a = action → P exec) : ∀ cb ∈ (c.on action exec flags).actions a, P cb.exec := by
  intro cb hcb
  rw [Connection.on_actions] at hcb
  split at hcb
  · next haction =>
    rcases Action.mem_addCallback.mp hcb with rfl | hcb
    · exact hnew haction
    · exact hold cb hcb
  · exact hold cb hcb

theorem Shape.setUp {p : SockPtr} (node : Nat) (fd : Int)
    (hend : p.container.endAction = .closed) :
    Shape p (Connection.inserted node fd).setUpWiring.actions where
  closed := by rw [hend]; rfl
  recv := .inl rfl
  others action hclosed _ cb hcb := by
    rw [Connection.setUpWiring, Connection.on_actions, if_neg hclosed, Connection.inserted,
      Connection.on_actions, if_neg hclosed] at hcb
    exact absurd hcb (by simp)

theorem Shape.accept {p : SockPtr} (node : Nat) (fd : Int)
    (hend : p.container.endAction = .disconnect) :
    Shape p (Connection.inserted node fd).acceptWiring.actions where
  closed := by rw [hend]; rfl
  recv := .inr rfl
  others action hclosed hrecv cb hcb := by
    cases action with
    | closed => exact absurd rfl hclosed
    | recv => exact absurd rfl hrecv
    | readable => exact List.mem_singleton.mp hcb ▸ rfl
    | writeable => exact List.mem_singleton.mp hcb ▸ rfl
    | error => exact absurd hcb (List.not_mem_nil)

/-- Callbacks that only call on keep the shape in lists other than `CLOSED` and `RECV`. -/
theorem Shape.on {p : SockPtr} {c : Connection} (h : Shape p c.actions) {action : SocketAction}
    (hclosed : action ≠ .closed) (hrecv : action ≠ .recv) {exec : Callback} {flags : UShort}
    (hexec : exec.neutral = true) : Shape p (c.on action exec flags).actions where
  closed := by rw [Connection.on_actions, if_neg hclosed.symm, h.closed]
  recv := by rw [Connection.on_actions, if_neg hrecv.symm]; exact h.recv
  others a hac har :=
    Connection.forall_on (P := fun exec => exec.neutral = true) (h.others a hac har) fun _ => hexec

theorem Shape.receive {p : SockPtr} {c : Connection} (h : Shape p c.actions)
    (hnil : c.actions .recv = []) :
    Shape p (c.on .recv .receive ActionFlag.default).actions where
  closed := by rw [Connection.on_actions, if_neg (by simp), h.closed]
  recv := by
    rw [Connection.on_actions, if_pos rfl, hnil]
    exact .inr rfl
  others a hac har cb hcb := by
    rw [Connection.on_actions, if_neg har] at hcb
    exact h.others a hac har cb hcb

/-- The execution with which the `CLOSED` list of `p` starts. -/
def SockPtr.closedExecution (p : SockPtr) : Execution where
  list := .socket p .closed
  pos := 0
  stop := 2
  arg := .none

namespace World

/-- Where the connection `p` is in its life. -/
inductive Stage (w : World) (p : SockPtr) : Prop
  | absent (hlook : w.look p = none) (hh : w.history p = [])
  | fresh {sock : Int} {actions : SocketAction → Action Callback}
      (hlook : w.look p = some (sock, actions)) (hshape : Shape p actions) (hopen : 0 ≤ sock)
      (hrecv : actions .recv = []) (hclients : ∀ s, p.container ≠ .clients s)
      (hh : w.history p = [])
  | live {sock : Int} {actions : SocketAction → Action Callback}
      (hlook : w.look p = some (sock, actions)) (hshape : Shape p actions) (hopen : 0 ≤ sock)
      (n : Nat) (hh : w.history p = p.started n)
  | closing {sock : Int} {actions : SocketAction → Action Callback}
      (hlook : w.look p = some (sock, actions)) (hshape : Shape p actions)
      {opened : List Mark} (hopened : p.Opened opened)
      (hh : w.history p = opened ++ [.removed p.key, .shut p.key])
      (htop : w.stack.head? = some (.execute p.closedExecution))
  | finished (hnode : p.node < w.mem.nextNode)
      (hlook : ∀ sock actions, w.look p = some (sock, actions) → Shape p actions ∧ sock < 0)
      {opened : List Mark} (hopened : p.Opened opened)
      (hh : w.history p = opened ++ p.ending)

end World

/-- What can stand below another frame: an execution there has passed a callback. -/
def Frame.Waiting : Frame → Prop
  | .execute e => 1 ≤ e.pos
  | .listening _ | .connecting _ | .call (.on _ _ _) => False
  | _ => True

namespace World

/-- Nothing has happened to the open element `p` yet. -/
def Untouched (w : World) (p : SockPtr) : Prop :=
  (∃ sock actions, w.look p = some (sock, actions) ∧ 0 ≤ sock ∧ Shape p actions ∧
    actions .recv = []) ∧ w.history p = []

/-- What the step finds when the frame is at the top. -/
def Ready (w : World) : Frame → Prop
  | .listening p => (∃ s, p.container = .listeners s) ∧ w.Untouched p
  | .connecting p => (∃ c, p.container = .connections c) ∧ w.Untouched p
  | .execute e => e.pos = 0 → ∀ p,
      (e.list = .socket p .recv → ∃ sock actions, w.look p = some (sock, actions) ∧ 0 ≤ sock) ∧
      (e.list = .socket p .closed → e = p.closedExecution ∧ ∃ opened, p.Opened opened ∧
        w.history p = opened ++ [.removed p.key, .shut p.key])
  | .call (.on _ _ _) => False
  | _ => True

/-- The invariant of runs in which nothing is registered on connections. -/
structure Orderly (w : World) : Prop where
  sound : w.Sound
  tail : ∀ f ∈ w.stack.tail, f.Waiting
  head : ∀ f ∈ w.stack.head?, w.Ready f
  stage : ∀ p, w.Stage p

variable {w w' : World} {i : Input} {f : Frame} {rest : List Frame} {p q : SockPtr}

/-! ### Frames that wait -/

theorem waiting_of_plain (h : f.plain = true) : f.Waiting := by
  cases f with
  | call c => cases c <;> simp_all [Frame.plain, Frame.Waiting]
  | _ => simp_all [Frame.plain, Frame.Waiting]

theorem Ready.of_waiting (h : f.Waiting) : w.Ready f := by
  cases f with
  | execute e =>
    intro hpos
    have : 1 ≤ e.pos := h
    omega
  | call c => cases c <;> simp_all [Frame.Waiting, Ready]
  | listening _ => exact h.elim
  | connecting _ => exact h.elim
  | _ => trivial

theorem waiting_append {new : List Frame} (hnew : ∀ g ∈ new, g.plain = true)
    (hrest : ∀ g ∈ rest, g.Waiting) : ∀ g ∈ new ++ rest, g.Waiting := by
  intro g hg
  rcases List.mem_append.mp hg with hg | hg
  · exact waiting_of_plain (hnew g hg)
  · exact hrest g hg

theorem waiting_after {e : Execution} {cb : ActionCallback Callback}
    (hrest : ∀ g ∈ rest, g.Waiting) : ∀ g ∈ e.after cb ++ rest, g.Waiting := by
  intro g hg
  rcases List.mem_append.mp hg with hg | hg
  · unfold Execution.after at hg
    split at hg
    · exact absurd hg (by simp)
    · rw [List.mem_singleton.mp hg]
      exact Nat.succ_pos e.pos
  · exact hrest g hg

theorem Orderly.waiting (ho : w.Orderly) (hstack : w.stack = f :: rest) :
    ∀ g ∈ rest, g.Waiting := by
  have htail := ho.tail
  rwa [hstack] at htail

theorem Orderly.ready (ho : w.Orderly) (hstack : w.stack = f :: rest) : w.Ready f :=
  ho.head f (by rw [hstack]; exact rfl)

/-! ### Stages that stay -/

/-- The step does not take the callback with which the closing of `p` goes on. -/
def Undisturbed (w : World) (p : SockPtr) : Prop :=
  w.stack.head? = some (.execute p.closedExecution) →
    w.current p.closedExecution ≠ some ⟨.notify p.container.endAction, ActionFlag.default⟩

theorem Undisturbed.of_frame (hstack : w.stack = f :: rest) (hf : ∀ e, f ≠ .execute e)
    (p : SockPtr) : w.Undisturbed p := by
  intro htop
  rw [hstack] at htop
  exact absurd (Option.some.inj htop) (hf _)

theorem Undisturbed.of_current {e : Execution} {cb : ActionCallback Callback}
    (hstack : w.stack = .execute e :: rest) (hcb : w.current e = some cb)
    (hne : cb ≠ ⟨.notify p.container.endAction, ActionFlag.default⟩) : w.Undisturbed p := by
  intro htop hcurrent
  rw [hstack] at htop
  obtain rfl := Frame.execute.inj (Option.some.inj htop)
  exact hne (Option.some.inj (hcb.symm.trans hcurrent))

/-- While `p` is closing, the next step takes the callback that notifies its owner. -/
theorem current_closing {sock : Int} {actions : SocketAction → Action Callback}
    (hlook : w.look p = some (sock, actions)) (hshape : Shape p actions) :
    w.current p.closedExecution =
      some ⟨.notify p.container.endAction, ActionFlag.default⟩ := by
  obtain ⟨c, hc, hview⟩ := Option.map_eq_some_iff.mp hlook
  obtain ⟨-, rfl⟩ := Prod.mk.inj hview
  have hlist : w.callbacks (.socket p .closed) = some
      [⟨.notify p.container.endAction, ActionFlag.default⟩,
        ⟨.erase, ActionFlag.queueEnd ||| ActionFlag.stopAfter⟩] := by
    simp [callbacks, hc, hshape.closed]
  show ((w.callbacks (.socket p .closed)).filter fun l => l.length == 2).bind (fun l => l[0]?) = _
  rw [hlist]
  rfl

theorem Undisturbed.of_other {e : Execution} {list : SocketAction}
    (hstack : w.stack = .execute e :: rest) (hlist : e.list = .socket p list) (hqp : q ≠ p) :
    w.Undisturbed q := by
  intro htop
  rw [hstack] at htop
  obtain rfl := Frame.execute.inj (Option.some.inj htop)
  exact absurd (ActionList.socket.inj hlist).1 hqp

theorem Stage.carry (h : w.Stage p) (hlook : w'.look p = w.look p)
    (hh : w'.history p = w.history p) (hnode : w.mem.nextNode ≤ w'.mem.nextNode)
    (hcalm : w.Undisturbed p) : w'.Stage p := by
  cases h with
  | absent hl hhist => exact .absent (hlook.trans hl) (hh.trans hhist)
  | fresh hl hshape hopen hrecv hclients hhist =>
    exact .fresh (hlook.trans hl) hshape hopen hrecv hclients (hh.trans hhist)
  | live hl hshape hopen n hhist => exact .live (hlook.trans hl) hshape hopen n (hh.trans hhist)
  | closing hl hshape _ _ htop => exact absurd (current_closing hl hshape) (hcalm htop)
  | finished hlt hl hopened hhist =>
    exact .finished (hlt.trans_le hnode) (fun sock actions h => hl sock actions (hlook ▸ h)) hopened
      (hh.trans hhist)

theorem Stage.shape (h : w.Stage p) {sock : Int} {actions : SocketAction → Action Callback}
    (hlook : w.look p = some (sock, actions)) : Shape p actions := by
  cases h with
  | absent hl _ => exact absurd (hl.symm.trans hlook) (by simp)
  | fresh hl hshape _ _ _ _ =>
    exact (Prod.mk.inj (Option.some.inj (hl.symm.trans hlook))).2 ▸ hshape
  | live hl hshape _ _ _ => exact (Prod.mk.inj (Option.some.inj (hl.symm.trans hlook))).2 ▸ hshape
  | closing hl hshape _ _ _ =>
    exact (Prod.mk.inj (Option.some.inj (hl.symm.trans hlook))).2 ▸ hshape
  | finished _ hl _ _ => exact (hl sock actions hlook).1

theorem Orderly.of_waiting (ho : w.Orderly) (h : Move w i w') (hlook : ∀ p, w'.look p = w.look p)
    (hh : ∀ p, w'.history p = w.history p) (hcalm : ∀ p, w.Undisturbed p)
    (hwait : ∀ g ∈ w'.stack, g.Waiting) : w'.Orderly where
  sound := h.sound ho.sound
  tail g hg := hwait g (List.mem_of_mem_tail hg)
  head g hg := .of_waiting (hwait g (List.mem_of_head? hg))
  stage p := (ho.stage p).carry (hlook p) (hh p) (h.ages ho.sound).nextNode_le (hcalm p)

/-! ### What the moves do to one connection -/

theorem look_congr (h : w'.mem.deref q = w.mem.deref q) : w'.look q = w.look q := by
  rw [look, look, h]

theorem look_some {c : Connection} (hp : w.mem.deref p = some c) :
    w.look p = some (c.sock, c.actions) := by
  rw [look, hp]
  rfl

theorem history_started {o : Owner} {action : OwnerAction} {arg : Arg}
    (hlog : w'.log = .started o action arg :: w.log) (q : SockPtr) :
    w'.history q =
      w.history q ++ if arg.socket? = some q then [.started o action] else [] := by
  rw [history_cons hlog q]
  by_cases harg : arg.socket? = some q <;> simp [Event.mark, harg]

/-- The connection that an action is started with is the only one whose history goes on. -/
theorem Stage.carry_started {o : Owner} {action : OwnerAction} {arg : Arg} (h : w.Stage q)
    (hlog : w'.log = .started o action arg :: w.log) (harg : arg.socket? = some p) (hqp : q ≠ p)
    (hlook : w'.look q = w.look q) (hnode : w.mem.nextNode ≤ w'.mem.nextNode)
    (hcalm : w.Undisturbed q) : w'.Stage q := by
  refine h.carry hlook ?_ hnode hcalm
  rw [history_started hlog, harg, if_neg fun heq => hqp (Option.some.inj heq).symm,
    List.append_nil]

theorem Orderly.of_owner (ho : w.Orderly) (h : Move w i w') {o : Owner} {action : OwnerAction}
    {stop : Nat} {arg : Arg} {below : List Frame}
    (hstack' : w'.stack = .execute ⟨.owner o action, 0, stop, arg⟩ :: below)
    (hwait : ∀ g ∈ below, g.Waiting) (hstage : ∀ q, w'.Stage q) : w'.Orderly where
  sound := h.sound ho.sound
  tail := by
    rw [hstack']
    exact hwait
  head g hg := by
    rw [hstack'] at hg
    obtain rfl := Option.some.inj hg
    exact fun _ _ => ⟨by simp, by simp⟩
  stage := hstage

theorem Orderly.notify (ho : w.Orderly) (h : Move w i w') {e : Execution}
    {cb : ActionCallback Callback} {list : SocketAction} {action : OwnerAction} {stop : Nat}
    (hstack : w.stack = .execute e :: rest) (hlist : e.list = .socket p list)
    (hcb : w.current e = some cb) (hexec : cb.exec = .notify action) (hmem : w'.mem = w.mem)
    (hlog : w'.log = .started p.container.owner action (.connection p) :: w.log)
    (hstack' : w'.stack = .execute ⟨.owner p.container.owner action, 0, stop, .connection p⟩ ::
      (e.after cb ++ rest)) : w'.Orderly := by
  refine ho.of_owner h hstack' (waiting_after (ho.waiting hstack)) fun q => ?_
  obtain ⟨c, hc, hget, -⟩ := current_mem hlist hcb
  have hshape : Shape p c.actions := (ho.stage p).shape (look_some hc)
  have hlook : ∀ q, w'.look q = w.look q := fun q => look_congr (by rw [hmem])
  obtain ⟨rfl, hpos, rfl⟩ := hshape.notifies hget hexec
  by_cases hqp : q = p
  · subst hqp
    obtain ⟨-, hready⟩ := ho.ready hstack hpos q
    obtain ⟨-, opened, hopened, hh⟩ := hready hlist
    obtain ⟨hnode, hsock⟩ := ho.sound.closing e q (hstack ▸ List.mem_cons_self) hlist
    refine .finished (by rw [hmem]; exact hnode) (fun sock actions hl => ?_) hopened ?_
    · rw [hlook, look_some hc] at hl
      obtain ⟨rfl, rfl⟩ := Prod.mk.inj (Option.some.inj hl)
      exact ⟨hshape, hsock c hc⟩
    · rw [history_started hlog, hh]
      simp [Arg.socket?, SockPtr.ending]
  · exact (ho.stage q).carry_started hlog rfl hqp (hlook q) (by rw [hmem])
      (.of_other hstack hlist hqp)

theorem Orderly.receive (ho : w.Orderly) (h : Move w i w') {e : Execution}
    {cb : ActionCallback Callback} {list : SocketAction} {bytes : Bytes} {stop : Nat}
    (hstack : w.stack = .execute e :: rest) (hlist : e.list = .socket p list)
    (hcb : w.current e = some cb) (hexec : cb.exec = .receive) (hmem : w'.mem = w.mem)
    (hlog : w'.log = .started p.container.owner .receive (.message p bytes) :: w.log)
    (hstack' : w'.stack = .execute ⟨.owner p.container.owner .receive, 0, stop,
      .message p bytes⟩ :: (e.after cb ++ rest)) : w'.Orderly := by
  refine ho.of_owner h hstack' (waiting_after (ho.waiting hstack)) fun q => ?_
  obtain ⟨c, hc, hget, -⟩ := current_mem hlist hcb
  have hshape : Shape p c.actions := (ho.stage p).shape (look_some hc)
  have hlook : ∀ q, w'.look q = w.look q := fun q => look_congr (by rw [hmem])
  -- the `RECV` list has this one callback, so its execution has just begun
  obtain ⟨rfl, hpos⟩ := hshape.receives hget hexec
  by_cases hqp : q = p
  · subst hqp
    obtain ⟨hready, -⟩ := ho.ready hstack hpos q
    obtain ⟨sock, actions, hl, hopen⟩ := hready hlist
    obtain ⟨rfl, rfl⟩ := Prod.mk.inj (Option.some.inj ((look_some hc).symm.trans hl))
    cases ho.stage q with
    | absent hl' _ => exact absurd (hl'.symm.trans hl) (by simp)
    | fresh hl' _ _ hnil _ _ =>
      obtain ⟨rfl, rfl⟩ := Prod.mk.inj (Option.some.inj (hl'.symm.trans hl))
      simp [hnil] at hget
    | live hl' hshape' hopen' n hh =>
      refine .live ((hlook q).trans hl') hshape' hopen' (n + 1) ?_
      rw [history_started hlog, hh]
      simp [Arg.socket?, SockPtr.started, List.replicate_succ']
    | closing _ _ _ _ htop =>
      rw [hstack] at htop
      obtain rfl := Frame.execute.inj (Option.some.inj htop)
      exact absurd hlist (by simp [SockPtr.closedExecution])
    | finished _ hl' _ _ =>
      have := (hl' _ _ hl).2
      omega
  · exact (ho.stage q).carry_started hlog rfl hqp (hlook q) (by rw [hmem])
      (.of_other hstack hlist hqp)

theorem Orderly.erase (ho : w.Orderly) (h : Move w i w') {e : Execution}
    {cb : ActionCallback Callback} {list : SocketAction} (hstack : w.stack = .execute e :: rest)
    (hlist : e.list = .socket p list) (hcb : w.current e = some cb) (hexec : cb.exec = .erase)
    (hmem : w'.mem = w.mem.eraseSocket p.container p.key) (hlog : w'.log = .erased p :: w.log)
    (hstack' : w'.stack = e.after cb ++ rest) : w'.Orderly := by
  obtain ⟨c, hc, hget, -⟩ := current_mem hlist hcb
  have hwait : ∀ g ∈ w'.stack, g.Waiting := hstack' ▸ waiting_after (ho.waiting hstack)
  have hhist : ∀ q, w'.history q = w.history q := fun q => by
    simp [history_cons hlog q, Event.mark]
  have hcalm : ∀ q, w.Undisturbed q := fun q =>
    .of_current hstack hcb fun heq => absurd hexec (by rw [heq]; simp)
  refine {
    sound := h.sound ho.sound
    tail := fun g hg => hwait g (List.mem_of_mem_tail hg)
    head := fun g hg => .of_waiting (hwait g (List.mem_of_head? hg))
    stage := fun q => ?_ }
  by_cases hqp : q = p
  · subst hqp
    obtain ⟨rfl, -⟩ := ho.sound.mem.erases q c list cb hc (List.mem_of_getElem? hget) hexec
    obtain ⟨hnode, hsock⟩ := ho.sound.closing e q (hstack ▸ List.mem_cons_self) hlist
    have hneg : c.sock < 0 := hsock c hc
    have hgone : w'.look q = none := by
      rw [look, hmem, Memory.deref_eraseSocket hc, if_pos rfl]
      rfl
    cases ho.stage q with
    | absent hl _ => exact absurd (hl.symm.trans (look_some hc)) (by simp)
    | fresh hl _ hopen _ _ _ =>
      obtain ⟨rfl, -⟩ := Prod.mk.inj (Option.some.inj (hl.symm.trans (look_some hc)))
      omega
    | live hl _ hopen _ _ =>
      obtain ⟨rfl, -⟩ := Prod.mk.inj (Option.some.inj (hl.symm.trans (look_some hc)))
      omega
    | closing hl hshape _ _ htop => exact absurd (current_closing hl hshape) (hcalm q htop)
    | finished hlt _ hopened hh =>
      refine .finished (by rw [hmem]; exact hlt) (fun sock actions hl => ?_) hopened
        ((hhist q).trans hh)
      exact absurd (hgone.symm.trans hl) (by simp)
  · refine (ho.stage q).carry (look_congr ?_) (hhist q) (by rw [hmem]; exact le_rfl) (hcalm q)
    rw [hmem, Memory.deref_eraseSocket hc, if_neg hqp]

theorem Orderly.closed (ho : w.Orderly) (h : Move w i w') {c : Connection} {new : List Frame}
    (hstack : w.stack = f :: rest) (hf : ∀ e, f ≠ .execute e) (hp : w.mem.deref p = some c)
    (hsock : 0 ≤ c.sock) (hnew : ∀ g ∈ new, g.plain) (hmem : w'.mem = w.mem.closeSocket p c.sock)
    (hlog : w'.log = .shut p c.sock :: .removed p c.sock :: w.log)
    (hstack' : w'.stack =
      .execute ⟨.socket p .closed, 0, (c.actions .closed).length, .none⟩ :: (new ++ rest)) :
    w'.Orderly := by
  have hshape : Shape p c.actions := (ho.stage p).shape (look_some hp)
  have hkey : c.sock = p.key := ho.sound.mem.sock_eq hp hsock
  have hexec : (⟨.socket p .closed, 0, (c.actions .closed).length, .none⟩ : Execution) =
      p.closedExecution := by
    rw [hshape.closed]
    rfl
  rw [hexec] at hstack'
  have hhist : ∀ q, w'.history q =
      w.history q ++ if p = q then [.removed p.key, .shut p.key] else [] := fun q => by
    have hremoved := @history_cons w (w.note (.removed p c.sock)) _ rfl q
    have hshut := history_cons (w := w.note (.removed p c.sock)) hlog q
    rw [hshut, hremoved, hkey]
    by_cases hqp : p = q <;> simp [Event.mark, hqp]
  have hderef : ∀ q, w'.mem.deref q =
      if q = p then some { c with sock := -1 } else w.mem.deref q := fun q => by
    rw [hmem, Memory.deref_closeSocket hp]
  -- before its end, the connection was fresh or live
  have hopened : ∃ opened, p.Opened opened ∧ w.history p = opened := by
    cases ho.stage p with
    | absent hl _ => exact absurd (hl.symm.trans (look_some hp)) (by simp)
    | fresh _ _ _ _ hclients hh => exact ⟨[], .inl ⟨hclients, rfl⟩, hh⟩
    | live _ _ _ n hh => exact ⟨_, .inr ⟨n, rfl⟩, hh⟩
    | closing hl hshape' _ _ htop =>
      exact absurd (current_closing hl hshape') (Undisturbed.of_frame hstack hf p htop)
    | finished _ hl _ _ =>
      have := (hl _ _ (look_some hp)).2
      omega
  obtain ⟨opened, hopened, hopenedh⟩ := hopened
  refine {
    sound := h.sound ho.sound
    tail := by rw [hstack']; exact waiting_append hnew (ho.waiting hstack)
    head := fun g hg => ?_
    stage := fun q => ?_ }
  · rw [hstack'] at hg
    obtain rfl := Option.some.inj hg
    intro _ q
    refine ⟨by simp [SockPtr.closedExecution], fun hq => ?_⟩
    obtain ⟨rfl, -⟩ := ActionList.socket.inj hq
    exact ⟨rfl, opened, hopened, by rw [hhist, if_pos rfl, hopenedh]⟩
  · by_cases hqp : q = p
    · subst hqp
      exact .closing (look_some ((hderef q).trans (if_pos rfl))) hshape hopened
        (by rw [hhist, if_pos rfl, hopenedh]) (by rw [hstack']; rfl)
    · refine (ho.stage q).carry (look_congr ((hderef q).trans (if_neg hqp))) ?_
        (h.ages ho.sound).nextNode_le (.of_frame hstack hf q)
      rw [hhist, if_neg (Ne.symm hqp), List.append_nil]

/-- Nothing is known of an element that has not been made. -/
theorem Orderly.history_new (ho : w.Orderly) (hnode : p.node = w.mem.nextNode) :
    w.history p = [] := by
  have hlook : w.look p = none := by
    rw [look, Option.map_eq_none_iff, Option.eq_none_iff_forall_ne_some]
    intro c hc
    have := ho.sound.mem.node_lt p c hc
    omega
  cases ho.stage p with
  | absent _ hh => exact hh
  | fresh hl _ _ _ _ _ => exact absurd (hlook.symm.trans hl) (by simp)
  | live hl _ _ _ _ => exact absurd (hlook.symm.trans hl) (by simp)
  | closing hl _ _ _ _ => exact absurd (hlook.symm.trans hl) (by simp)
  | finished hlt _ _ _ => omega

theorem Orderly.made (ho : w.Orderly) (h : Move w i w') {container : Container} {fd : Int}
    {setUp : SockPtr → Frame} (hstack : w.stack = f :: rest)
    (htarget : f.target = some container)
    (hsetUp : ((∃ s, container = .listeners s) ∧ setUp = .listening) ∨
      ((∃ c, container = .connections c) ∧ setUp = .connecting))
    (hopens : w.Opens i fd) (hfree : (w.mem.sockets container).contains fd = false)
    (hmem : w'.mem = ((w.mem.openFd fd).addElement container fd).modify
      (w.mem.newPtr container fd) Connection.setUpWiring)
    (hlog : w'.log = .obtained container fd (some (w.mem.newPtr container fd)) :: w.log)
    (hstack' : w'.stack = setUp (w.mem.newPtr container fd) :: rest) : w'.Orderly := by
  have hclients : ∀ s, container ≠ .clients s := by
    rcases hsetUp with ⟨⟨s, rfl⟩, -⟩ | ⟨⟨c, rfl⟩, -⟩ <;> simp
  have hshape : Shape (w.mem.newPtr container fd)
      (Connection.inserted w.mem.nextNode fd).setUpWiring.actions := by
    refine .setUp _ _ ?_
    rcases hsetUp with ⟨⟨s, rfl⟩, -⟩ | ⟨⟨c, rfl⟩, -⟩ <;> rfl
  have hderef : ∀ q, w'.mem.deref q = _ := fun q =>
    hmem ▸ Memory.deref_added (f := Connection.setUpWiring) hfree (fun _ => rfl) q
  have hlook := look_some ((hderef (w.mem.newPtr container fd)).trans (if_pos rfl))
  have hhist : ∀ q, w'.history q = w.history q := fun q => by
    simp [history_cons hlog q, Event.mark]
  have hh : w'.history (w.mem.newPtr container fd) = [] := (hhist _).trans (ho.history_new rfl)
  refine {
    sound := h.sound ho.sound
    tail := by rw [hstack']; exact ho.waiting hstack
    head := fun g hg => ?_
    stage := fun q => ?_ }
  · rw [hstack'] at hg
    obtain rfl := Option.some.inj hg
    have huntouched : w'.Untouched (w.mem.newPtr container fd) :=
      ⟨⟨_, _, hlook, hopens.2.1, hshape, rfl⟩, hh⟩
    rcases hsetUp with ⟨hcontainer, rfl⟩ | ⟨hcontainer, rfl⟩
    · exact ⟨hcontainer, huntouched⟩
    · exact ⟨hcontainer, huntouched⟩
  · by_cases hq : q = w.mem.newPtr container fd
    · subst hq
      exact .fresh hlook hshape hopens.2.1 rfl hclients hh
    · exact (ho.stage q).carry (look_congr ((hderef q).trans (if_neg hq))) (hhist q)
        (h.ages ho.sound).nextNode_le (.of_frame hstack (Frame.target_execute htarget) q)

theorem Orderly.accepted (ho : w.Orderly) (h : Move w i w') {server : Nat} {fd : Int} {stop : Nat}
    {p : SockPtr} (hnew : p = w.mem.newPtr (.clients server) fd) (hstack : w.stack = f :: rest)
    (htarget : f.target = some (.clients server)) (hopens : w.Opens i fd)
    (hfree : (w.mem.sockets (.clients server)).contains fd = false)
    (hmem : w'.mem = ((w.mem.openFd fd).addElement (.clients server) fd).modify p
      Connection.acceptWiring)
    (hlog : w'.log = .started (.server server) .accept (.connection p) ::
      .obtained (.clients server) fd (some p) :: w.log)
    (hstack' : w'.stack =
      .execute ⟨.owner (.server server) .accept, 0, stop, .connection p⟩ :: rest) :
    w'.Orderly := by
  subst hnew
  have hderef : ∀ q, w'.mem.deref q = _ := fun q =>
    hmem ▸ Memory.deref_added (f := Connection.acceptWiring) hfree (fun _ => rfl) q
  let made := w.note (.obtained (.clients server) fd (some (w.mem.newPtr (.clients server) fd)))
  have hmade : ∀ q, made.history q = w.history q := fun q => by
    simp [@history_cons w made _ rfl q, Event.mark]
  refine ho.of_owner h hstack' (ho.waiting hstack) fun q => ?_
  by_cases hq : q = w.mem.newPtr (.clients server) fd
  · subst hq
    refine .live (look_some ((hderef _).trans (if_pos rfl))) (.accept _ _ rfl) hopens.2.1 0 ?_
    rw [history_started (w := made) hlog, hmade, ho.history_new rfl, Arg.socket?, if_pos rfl]
    rfl
  · refine (ho.stage q).carry (look_congr ((hderef q).trans (if_neg hq))) ?_
      (h.ages ho.sound).nextNode_le (.of_frame hstack (Frame.target_execute htarget) q)
    rw [history_started (w := made) hlog, hmade, Arg.socket?,
      if_neg fun heq => hq (Option.some.inj heq).symm, List.append_nil]

theorem Orderly.finished (ho : w.Orderly) (h : Move w i w') {c : Connection}
    {wiring : Connection → Connection} {action : OwnerAction} {stop : Nat}
    (hstack : w.stack = f :: rest) (hf : ∀ e, f ≠ .execute e) (hp : w.mem.deref p = some c)
    (hready : 0 ≤ c.sock ∧ c.actions .recv = [] ∧ w.history p = [])
    (haction : action = p.container.startAction) (hnode : (wiring c).node = c.node)
    (hsock : (wiring c).sock = c.sock) (hshape : Shape p (wiring c).actions)
    (hmem : w'.mem = w.mem.modify p wiring)
    (hlog : w'.log = .started p.container.owner action (.connection p) :: w.log)
    (hstack' : w'.stack = .execute ⟨.owner p.container.owner action, 0, stop, .connection p⟩ ::
      .returning true :: rest) :
    w'.Orderly := by
  obtain ⟨hopen, hrecv, hh⟩ := hready
  have hderef : ∀ q, w'.mem.deref q = if q = p then some (wiring c) else w.mem.deref q :=
    fun q => by rw [hmem, Memory.deref_modify hp hnode]
  refine ho.of_owner h hstack' (List.forall_mem_cons.mpr ⟨trivial, ho.waiting hstack⟩) fun q => ?_
  by_cases hq : q = p
  · subst hq
    refine .live (look_some ((hderef q).trans (if_pos rfl))) hshape (hsock.symm ▸ hopen) 0 ?_
    rw [history_started hlog, hh, Arg.socket?, if_pos rfl, haction]
    rfl
  · exact (ho.stage q).carry_started hlog rfl hq (look_congr ((hderef q).trans (if_neg hq)))
      (h.ages ho.sound).nextNode_le (.of_frame hstack hf q)

theorem Orderly.failed (ho : w.Orderly) (h : Move w i w') {o : Owner} {arg : Arg} {stop : Nat}
    {below : List Frame} (hstack' : w'.stack = .execute ⟨.owner o .error, 0, stop, arg⟩ :: below)
    (hwait : ∀ g ∈ below, g.Waiting) (hlook : ∀ q, w'.look q = w.look q)
    (hh : ∀ q, w'.history q = w.history q) (hcalm : ∀ q, w.Undisturbed q) : w'.Orderly :=
  ho.of_owner h hstack' hwait fun q =>
    (ho.stage q).carry (hlook q) (hh q) (h.ages ho.sound).nextNode_le (hcalm q)

theorem Orderly.called (ho : w.Orderly) (h : Move w i w') {c : Call} {old new : List Frame}
    (hc : ∀ p action flags, c ≠ .on p action flags) (hstack : w.stack = old ++ rest)
    (hold : (old = [] ∧ rest = []) ∨ ∃ arg n, old = [.hook arg n]) (hnew : ∀ g ∈ new, g.plain)
    (hmem : w'.mem = w.mem) (hlog : w'.log = w.log)
    (hstack' : w'.stack = .call c :: (new ++ rest)) : w'.Orderly := by
  have hrest : ∀ g ∈ rest, g.Waiting := by
    rcases hold with ⟨rfl, rfl⟩ | ⟨arg, n, rfl⟩
    · simp
    · exact ho.waiting hstack
  have hcall : (Frame.call c).Waiting := by
    cases c with
    | on p action flags => exact absurd rfl (hc p action flags)
    | _ => trivial
  refine ho.of_waiting h (fun q => look_congr (by rw [hmem])) (history_congr hlog) (fun q => ?_) ?_
  · intro htop
    rcases hold with ⟨rfl, rfl⟩ | ⟨arg, n, rfl⟩ <;> rw [hstack] at htop <;> simp at htop
  · rw [hstack']
    intro g hg
    rcases List.mem_cons.mp hg with rfl | hg
    · exact hcall
    · exact waiting_append hnew hrest g hg

theorem Orderly.acted (ho : w.Orderly) (h : Move w i w') {c : Connection} {action : SocketAction}
    {arg : Arg} {new : List Frame} (hstack : w.stack = f :: rest) (hf : ∀ e, f ≠ .execute e)
    (hp : w.mem.deref p = some c) (hnot : action ≠ .closed) (hrecv : action = .recv → 0 ≤ c.sock)
    (hnew : ∀ g ∈ new, g.plain) (hmem : w'.mem = w.mem) (hlog : w'.log = w.log)
    (hstack' : w'.stack =
      .execute ⟨.socket p action, 0, (c.actions action).length, arg⟩ :: (new ++ rest)) :
    w'.Orderly where
  sound := h.sound ho.sound
  tail := by rw [hstack']; exact waiting_append hnew (ho.waiting hstack)
  head g hg := by
    rw [hstack'] at hg
    obtain rfl := Option.some.inj hg
    intro _ q
    constructor
    · intro hq
      obtain ⟨rfl, haction⟩ := ActionList.socket.inj hq
      exact ⟨_, _, (look_congr (by rw [hmem])).trans (look_some hp), hrecv haction⟩
    · intro hq
      exact absurd (ActionList.socket.inj hq).2 hnot
  stage q := (ho.stage q).carry (look_congr (by rw [hmem])) (history_congr hlog q)
    (h.ages ho.sound).nextNode_le (.of_frame hstack hf q)

/-- Every move but a registration on a connection keeps the invariant. -/
theorem Move.orderly (ho : w.Orderly) (h : Move w i w')
    (hi : ∀ p action flags, i ≠ .call (.on p action flags)) : w'.Orderly := by
  have hmove := h
  cases h with
  | @called c old new rest hcall hc hstack hold hnew =>
    exact ho.called hmove (fun p a fl heq => hi p a fl (hcall.trans (by rw [heq]))) hstack hold hnew
      rfl rfl rfl
  | quiet errno _ owners hstack hf _ hnew =>
    refine ho.of_waiting hmove (fun q => rfl) (fun q => rfl) (fun q htop hcur => ?_)
      (waiting_append hnew (ho.waiting hstack))
    rw [hstack] at htop
    exact absurd ((hf _ (Option.some.inj htop)).symm.trans hcur) (by simp)
  | skipped hstack hcb hskip =>
    refine ho.of_waiting hmove (fun q => rfl) (fun q => rfl) (fun q => .of_current hstack hcb ?_) ?_
    · rintro rfl
      exact absurd hskip (by simp [ActionCallback.has, ActionFlag.default, ActionFlag.skip])
    · intro g hg
      rcases List.mem_cons.mp hg with rfl | hg
      · exact Nat.succ_pos _
      · exact ho.waiting hstack g hg
  | entered hstack hcb _ hexec hf =>
    refine ho.of_waiting hmove (fun q => rfl) (fun q => rfl) (fun q => .of_current hstack hcb ?_) ?_
    · rintro rfl
      exact absurd hexec (by simp [Callback.neutral])
    · intro g hg
      rcases List.mem_cons.mp hg with rfl | hg
      · exact waiting_of_plain hf
      · exact waiting_after (ho.waiting hstack) g hg
  | notify hstack hlist hcb _ hexec => exact ho.notify hmove hstack hlist hcb hexec rfl rfl rfl
  | receive hstack hlist hcb _ hexec => exact ho.receive hmove hstack hlist hcb hexec rfl rfl rfl
  | erase hstack hlist hcb _ hexec => exact ho.erase hmove hstack hlist hcb hexec rfl rfl rfl
  | acted errno hstack hf hp hnot hrecv hnew =>
    exact ho.acted hmove hstack hf hp hnot hrecv hnew rfl rfl rfl
  | closed errno hstack hf hp hsock hnew =>
    exact ho.closed hmove hstack hf hp hsock hnew rfl rfl rfl
  | failed errno hstack hf hnew =>
    refine ho.failed hmove rfl (waiting_append hnew (ho.waiting hstack)) (fun q => rfl) (fun q => ?_)
      (.of_frame hstack hf)
    rw [history_started rfl, Arg.socket?, if_neg (by simp), List.append_nil]
    rfl
  | made hstack htarget hsetUp hopens hfree =>
    exact ho.made hmove hstack htarget hsetUp hopens hfree rfl rfl rfl
  | accepted hstack htarget hopens hfree =>
    exact ho.accepted hmove rfl hstack htarget hopens hfree rfl rfl rfl
  | @leaked f container fd _ new rest hstack htarget hopens _ hnew hw' =>
    have hcalm : ∀ q, w.Undisturbed q := .of_frame hstack (Frame.target_execute htarget)
    let lost := w.note (.obtained container fd none)
    have hlost : ∀ q, lost.history q = w.history q := fun q => by
      simp [@history_cons w lost _ rfl q, Event.mark]
    have hbelow := waiting_append hnew (ho.waiting hstack)
    rcases hw' with ⟨k, rfl⟩ | ⟨o, arg, harg, rfl⟩
    · refine ho.of_waiting hmove (fun q => rfl) hlost hcalm ?_
      intro g hg
      rcases List.mem_cons.mp hg with rfl | hg
      · trivial
      · exact hbelow g hg
    · refine ho.failed hmove rfl hbelow (fun q => rfl) (fun q => ?_) hcalm
      rw [history_started (w := lost) rfl, hlost, harg, if_neg (by simp), List.append_nil]
  | @finished f p c wiring action rest hstack hf hp =>
    have hshape : Shape p c.actions := (ho.stage p).shape (look_some hp)
    have hready := ho.ready hstack
    have huntouched : w.Untouched p → 0 ≤ c.sock ∧ c.actions .recv = [] ∧ w.history p = [] := by
      rintro ⟨⟨sock, actions, hl, hopen, -, hrecv⟩, hh⟩
      obtain ⟨rfl, rfl⟩ := Prod.mk.inj (Option.some.inj (hl.symm.trans (look_some hp)))
      exact ⟨hopen, hrecv, hh⟩
    rcases hf with ⟨rfl, rfl, rfl⟩ | ⟨rfl, rfl, rfl⟩
    · obtain ⟨⟨s, hs⟩, hun⟩ := hready
      exact ho.finished hmove hstack (by simp) hp (huntouched hun) (by rw [hs]; rfl) rfl rfl
        (hshape.on (by simp) (by simp) rfl) rfl rfl rfl
    · obtain ⟨⟨s, hs⟩, hun⟩ := hready
      have hreadable : Shape p (c.on .readable .recv ActionFlag.default).actions :=
        hshape.on (by simp) (by simp) rfl
      exact ho.finished hmove hstack (by simp) hp (huntouched hun) (by rw [hs]; rfl) rfl rfl
        (hreadable.receive (huntouched hun).2.1) rfl rfl rfl
  | @wrote f p c buffer handler bytes rest hstack hf hp _ =>
    refine ho.of_waiting hmove (fun q => ?_) (fun q => ?_) (.of_frame hstack hf)
      (ho.waiting hstack)
    · have hderef := Memory.deref_modify hp (f := fun _ => { c with sendBuffer := buffer }) rfl q
      by_cases hq : q = p
      · subst hq
        rw [look_some hp]
        exact look_some (c := { c with sendBuffer := buffer }) (hderef.trans (if_pos rfl))
      · exact look_congr (hderef.trans (if_neg hq))
    · simpa [Event.mark] using history_cons (e := .wrote p bytes) (w := w) rfl q
  | hooked hstack _ => exact (ho.ready hstack).elim
  | reported hstack hf _ =>
    refine ho.of_waiting hmove (fun q => rfl) (fun q => rfl) (.of_frame hstack hf) ?_
    intro g hg
    rcases List.mem_cons.mp hg with rfl | hg
    · trivial
    · exact ho.waiting hstack g hg

theorem start_orderly (owners : Owner → OwnerAction → Action Unit) (invalid : UShort) :
    (start owners invalid).Orderly where
  sound := start_sound owners invalid
  tail f hf := absurd hf (by simp [start])
  head f hf := absurd hf (by simp [start])
  stage p := .absent (by simp [look, start, Memory.empty, Memory.deref]) rfl

theorem Stage.in_order (h : w.Stage p) : p.Lifecycle (w.history p) := by
  cases h with
  | absent _ hh => exact .inl hh
  | fresh _ _ _ _ _ hh => exact .inl hh
  | live _ _ _ n hh => exact .inr ⟨p.started n, [], .inr ⟨n, rfl⟩, List.nil_prefix, by simp [hh]⟩
  | closing _ _ hopened hh _ => exact .inr ⟨_, _, hopened, ⟨_, rfl⟩, hh⟩
  | finished _ _ hopened hh => exact .inr ⟨_, _, hopened, List.prefix_refl _, hh⟩

/-- User code registers its hooks on servers and clients. -/
def OwnerHooks (_ : World) (i : Input) : Prop :=
  ∀ p action flags, i ≠ .call (.on p action flags)

theorem orderly_of_reach {owners : Owner → OwnerAction → Action Unit} {invalid : UShort}
    (h : Machine.Reach step OwnerHooks (start owners invalid) w) : w.Orderly :=
  h.invariant (start_orderly owners invalid) fun _ _ _ hu hok hstep =>
    (step_move hstep).orderly hu hok

/-- In every state of every run whose hooks are registered on servers and clients, each connection
has gone through its life in order, and no descriptor has been closed twice. -/
theorem lifecycle {owners : Owner → OwnerAction → Action Unit} {invalid : UShort}
    (h : Machine.Reach step OwnerHooks (start owners invalid) w) :
    (∀ p : SockPtr, p.Lifecycle (w.history p)) ∧
      ∀ fd, w.log.countP (isShut fd) ≤ w.log.countP (isObtained fd) := by
  have ho := orderly_of_reach h
  refine ⟨fun p => (ho.stage p).in_order, fun fd => ?_⟩
  exact (Nat.le_add_right _ _).trans (counted_of_reach h fd).le

/-- The input is no registration on a connection. -/
def registersNothing (_ : World) : Input → Bool
  | .call (.on _ _ _) => false
  | _ => true

theorem lifecycle_accept : ∃ w,
    Machine.run step (start (fun _ _ => []) 0) acceptRun = some w ∧
      (∀ p : SockPtr, p.Lifecycle (w.history p)) ∧
        ∀ fd, w.log.countP (isShut fd) ≤ w.log.countP (isObtained fd) := by
  have hsome : (Machine.run step (start (fun _ _ => []) 0) acceptRun).isSome := by decide
  obtain ⟨w, hw⟩ := Option.isSome_iff_exists.mp hsome
  have hok : ∀ u i, registersNothing u i = true → OwnerHooks u i := by
    rintro u i hi p action flags rfl
    exact absurd hi (by simp [registersNothing])
  exact ⟨w, hw, lifecycle (.of_checked hok (by decide) hw)⟩

end World

end Unisock.Tcp
