import Unisock.Lib.Observed
import Unisock.Tcp.Effects
import Unisock.Tcp.Lifecycle

/-! What `::recv` returns on a connection against the messages that the `RECEIVE` hooks of its owner
are called with, over whole runs: every chunk is handed on once, as one message, in order. -/

namespace Unisock.Tcp

open Unisock.Events

/-- The functions that `connection`, `server` and `client` keep from the user code. -/
def Call.hidden : Call → Bool
  | .accept _ | .sendFlush _ | .recv _ => true
  | _ => false

/-- The message from `p` that its owner starts its `RECEIVE` hooks with. -/
def Event.message (p : SockPtr) : Event → List Bytes
  | .started o .receive (.message q bytes) => if q = p ∧ o = p.container.owner then [bytes] else []
  | _ => []

/-- The chunk from `p` with which a `RECV` list is about to begin. -/
def Frame.arriving (p : SockPtr) : Frame → List Bytes
  | .execute ⟨.socket q .recv, 0, _, .bytes bytes⟩ => if q = p then [bytes] else []
  | _ => []

/-- What `_insert_socket` and the set-up leave for `RECV`. -/
def receiver : Action Callback := [⟨.receive, ActionFlag.default⟩]

/-- Where one of the lists calls `recv`, the `RECV` list hands on what is received. -/
def HandsOn (actions : SocketAction → Action Callback) : Prop :=
  (∃ action, ∃ cb ∈ actions action, cb.exec = .recv) → actions .recv = receiver

namespace World

/-- User code calls what is public, and registers its hooks on servers and clients. -/
def Public (w : World) (i : Input) : Prop :=
  OwnerHooks w i ∧ ∀ c, i = .call c → c.hidden = false

/-- The bytes that `::recv` returns on `p` in the next step, if it returns any. -/
def received (p : SockPtr) (w : World) (i : Input) : List Bytes :=
  match w.stack, i with
  | .call (.recv q) :: _, .received (.ok (byte :: bytes)) => if q = p then [byte :: bytes] else []
  | _, _ => []

/-- The messages from `p` that its owner has been told of. -/
def delivered (w : World) (p : SockPtr) : List Bytes := w.log.reverse.flatMap (Event.message p)

/-- The chunk from `p` that has been received and not been handed on yet. -/
def arriving (w : World) (p : SockPtr) : List Bytes := w.stack.head?.elim [] (Frame.arriving p)

/-- The `RECV` list of the live element `p` hands on what is received. -/
def Fed (w : World) (p : SockPtr) : Prop :=
  ∃ c, w.mem.deref p = some c ∧ c.actions .recv = receiver

/-- What holds when the frame is at the top. -/
def FedTop (w : World) : Frame → Prop
  | .call (.recv p) => w.Fed p
  | .execute e => ∀ p, e.list = .socket p .recv → e.pos = 0 →
      w.Fed p ∧ e.stop = 1 ∧ ∃ bytes, e.arg = .bytes bytes
  | _ => True

/-- The invariant of runs of public calls: a reception can only be under way at the top. -/
structure Receiving (w : World) : Prop where
  tail : ∀ f ∈ w.stack.tail, f.still
  head : ∀ f ∈ w.stack.head?, w.FedTop f
  lists : ∀ p c, w.mem.deref p = some c → HandsOn c.actions

variable {w w' : World} {i : Input} {f : Frame} {rest : List Frame} {p : SockPtr}

/-! ### The lists of the elements -/

/-- What the set-up paths establish of the lists of an element, every move keeps: lists change in the
set-up only, and a connection has an empty `RECV` list before `connect` ends. -/
theorem Move.lists {P : SockPtr → (SocketAction → Action Callback) → Prop} (ho : w.Orderly)
    (h : Move w i w')
    (hsetUp : ∀ p node fd, P p (Connection.inserted node fd).setUpWiring.actions)
    (haccept : ∀ p node fd, P p (Connection.inserted node fd).acceptWiring.actions)
    (hlisten : ∀ p (c : Connection), P p c.actions → P p c.listenWiring.actions)
    (hconnect : ∀ p (c : Connection), c.actions .recv = [] → P p c.actions →
      P p c.connectWiring.actions)
    (hw : ∀ p c, w.mem.deref p = some c → P p c.actions) :
    ∀ p c, w'.mem.deref p = some c → P p c.actions := by
  intro p c' hc'
  rcases h.touch with hsame | ⟨q, d, htouch, hderef⟩
  · exact hw p c' (hsame p ▸ hc')
  · rw [hderef p] at hc'
    split at hc'
    · next hpq =>
      subst hpq
      cases htouch with
      | erased => exact absurd hc' (by simp)
      | @closed c hq =>
        obtain rfl := Option.some.inj hc'
        exact hw p c hq
      | inserted _ _ hwiring =>
        obtain rfl := Option.some.inj hc'
        rcases hwiring with rfl | rfl
        · exact hsetUp _ _ _
        · exact haccept _ _ _
      | @wired c f wiring rest hq hstack hwiring =>
        obtain rfl := Option.some.inj hc'
        rcases hwiring with ⟨-, rfl⟩ | ⟨rfl, rfl⟩
        · exact hlisten p c (hw p c hq)
        · obtain ⟨-, ⟨sock, actions, hl, -, -, hrecv⟩, -⟩ := ho.ready hstack
          obtain ⟨-, rfl⟩ := Prod.mk.inj (Option.some.inj ((look_some hq).symm.trans hl))
          exact hconnect p c hrecv (hw p c hq)
      | @sent c buffer hq _ =>
        obtain rfl := Option.some.inj hc'
        exact hw p c hq
      | hooked _ hstack => exact (ho.ready hstack).elim
    · exact hw p c' hc'

theorem handsOn_of_none {actions : SocketAction → Action Callback}
    (h : ∀ action, ∀ cb ∈ actions action, cb.exec ≠ .recv) : HandsOn actions :=
  fun ⟨action, cb, hcb, hexec⟩ => absurd hexec (h action cb hcb)

/-- A callback that does not call `recv`, on another list than `RECV`. -/
theorem HandsOn.on {c : Connection} (h : HandsOn c.actions) {action : SocketAction}
    (haction : action ≠ .recv) {exec : Callback} (hexec : exec ≠ .recv) (flags : UShort) :
    HandsOn (c.on action exec flags).actions := by
  rintro ⟨a, cb, hcb, hrecv⟩
  rw [Connection.on_actions, if_neg haction.symm]
  refine h ?_
  by_contra hnone
  push Not at hnone
  refine Connection.forall_on (P := fun exec => exec ≠ .recv) (fun cb hcb => ?_) (fun _ => hexec)
    cb hcb hrecv
  exact hnone a cb hcb

theorem Move.handsOn (ho : w.Orderly) (h : Move w i w')
    (hw : ∀ p c, w.mem.deref p = some c → HandsOn c.actions) :
    ∀ p c, w'.mem.deref p = some c → HandsOn c.actions := by
  have hinserted : ∀ node fd, HandsOn (Connection.inserted node fd).actions := by
    intro node fd
    refine handsOn_of_none fun action cb hcb => ?_
    refine Connection.forall_on (P := fun exec => exec ≠ .recv) (fun cb hcb => ?_) (fun _ => ?_)
      cb hcb
    · exact absurd hcb (by simp)
    · simp
  refine h.lists (P := fun _ actions => HandsOn actions) ho (fun p node fd => ?_) (fun p node fd _ => rfl) (fun p c hc => ?_)
    (fun p c hrecv _ _ => ?_) hw
  · exact HandsOn.on (hinserted node fd) (by simp) (by simp) _
  · exact HandsOn.on hc (by simp) (by simp) _
  · have hon : (c.on .readable .recv ActionFlag.default).actions .recv = [] := by
      rw [Connection.on_actions, if_neg (by simp), hrecv]
    rw [Connection.connectWiring, Connection.on_actions, if_pos rfl, hon]
    rfl

/-! ### Frames and events at which nothing is received -/

theorem FedTop.of_still (h : f.still = true) : w.FedTop f := by
  cases f with
  | call c => cases c <;> simp_all [Frame.still, FedTop]
  | execute e =>
    intro p hlist hpos
    simp [Frame.still, hlist, hpos] at h
  | _ => trivial

theorem arriving_of_still (h : f.still = true) (p : SockPtr) : f.arriving p = [] := by
  unfold Frame.arriving
  split
  · simp [Frame.still] at h
  · rfl

theorem Receiving.of_still (ho : w.Orderly) (hr : w.Receiving) (hmove : Move w i w')
    (hstill : ∀ f ∈ w'.stack, f.still) : w'.Receiving ∧ ∀ p, w'.arriving p = [] := by
  refine ⟨⟨fun f hf => hstill f (List.mem_of_mem_tail hf),
    fun f hf => .of_still (hstill f (List.mem_of_head? hf)), hmove.handsOn ho hr.lists⟩, fun p => ?_⟩
  unfold arriving
  cases hhead : w'.stack.head? with
  | none => rfl
  | some f => exact arriving_of_still (hstill f (List.mem_of_head? hhead)) p

theorem delivered_append {new : List Event} (hlog : w'.log = new ++ w.log)
    (hnew : ∀ e ∈ new, e.message p = []) : w'.delivered p = w.delivered p := by
  have hnone : new.reverse.flatMap (Event.message p) = [] := by
    rw [List.flatMap_eq_nil_iff]
    exact fun e he => hnew e (List.mem_reverse.mp he)
  rw [delivered, hlog, List.reverse_append, List.flatMap_append, hnone, List.append_nil, delivered]

theorem message_of_still {e : Event} (h : e.still = true) : e.message p = [] := by
  unfold Event.message
  split
  · simp [Event.still] at h
  · rfl

theorem received_of_ne (h : ∀ q, w.stack.head? ≠ some (.call (.recv q))) :
    received p w i = [] := by
  unfold received
  split
  · next hstack => exact absurd (by rw [hstack]; rfl) (h _)
  · rfl

/-- Where a `RECV` list is about to begin, its callback is the next one. -/
theorem Fed.current {e : Execution} (h : w.Fed p) (hlist : e.list = .socket p .recv)
    (hpos : e.pos = 0) (hstop : e.stop = 1) :
    w.current e = some ⟨.receive, ActionFlag.default⟩ := by
  obtain ⟨c, hc, hrecv⟩ := h
  simp only [World.current, callbacks, hlist, hpos, hstop, hc, Option.map_some, hrecv]
  rfl

theorem arriving_call {c : Call} (hstack : w.stack = .call c :: rest) : w.arriving p = [] := by
  rw [arriving, hstack]
  rfl

/-- Where another callback than that of a `RECV` list is next, no chunk waits. -/
theorem Receiving.arriving_of_current {e : Execution} (hr : w.Receiving)
    (hstack : w.stack = .execute e :: rest)
    (hne : ∀ cb, w.current e = some cb → cb.exec ≠ .receive) : w.arriving p = [] := by
  have htop : w.FedTop (.execute e) := hr.head _ (by rw [hstack]; rfl)
  rw [arriving, hstack]
  unfold Frame.arriving
  simp only [List.head?_cons, Option.elim_some]
  split
  · next heq =>
    obtain rfl := Frame.execute.inj heq
    obtain ⟨hfed, hstop, -⟩ := htop _ rfl rfl
    exact absurd rfl (hne _ (hfed.current rfl rfl hstop))
  · rfl

/-- No chunk waits where the next step moves no bytes. -/
theorem Receiving.arriving_eq_nil (hr : w.Receiving) (hstill : ¬ w.Transfers) :
    w.arriving p = [] := by
  cases hstack : w.stack with
  | nil => rw [arriving, hstack]; rfl
  | cons f rest =>
    cases f with
    | execute e =>
      refine hr.arriving_of_current hstack fun cb hcb hexec => ?_
      exact hstill (.inr ⟨e, cb, rest, hstack, hcb, .inr hexec⟩)
    | _ => rw [arriving, hstack]; rfl

/-! ### What the steps do that move bytes -/

/-- A call that makes one `::send` begins no reception. -/
theorem sending_effect {g : Connection → World} {q : SockPtr}
    (hg : ∀ c, w.mem.deref q = some c →
      ∃ s taken errno, g c = { w with stack := rest }.sent q s taken errno) :
    ∃ new, ({ w with stack := rest }.access q g).stack = new ++ rest ∧ (∀ f ∈ new, f.still) ∧
      ∀ p, ({ w with stack := rest }.access q g).delivered p = w.delivered p := by
  cases hq : w.mem.deref q with
  | none =>
    rw [access_none (w := { w with stack := rest }) hq]
    exact ⟨[.crash .dangling], rfl, by simp [Frame.still], fun p => rfl⟩
  | some c =>
    obtain ⟨s, taken, errno, hsent⟩ := hg c hq
    rw [access_some (w := { w with stack := rest }) hq, hsent]
    rcases sent_effect { w with stack := rest } q s taken errno with happends | ⟨hstack, hlog⟩
    · obtain ⟨⟨new, hnew, hstill⟩, events, hlog, hevents⟩ := happends
      exact ⟨new, hnew, hstill, fun p =>
        delivered_append (w := w) hlog fun e he => message_of_still (hevents e he)⟩
    · refine ⟨[], hstack, by simp, fun p => ?_⟩
      have hone : (({ w with stack := rest }.sent q s taken errno).log) =
          [.wrote q taken] ++ w.log := hlog
      exact delivered_append hone (by simp [Event.message])

/-- After a step, the messages and the chunk under way are those of before and what was received. -/
def Advanced (w : World) (i : Input) (w' : World) : Prop :=
  w'.Receiving ∧ ∀ p, w'.delivered p ++ w'.arriving p =
    w.delivered p ++ w.arriving p ++ received p w i

/-- A step at which nothing is received or handed on. -/
theorem Advanced.of_still (ho : w.Orderly) (hr : w.Receiving) (hmove : Move w i w')
    (hstill : ∀ f ∈ w'.stack, f.still) (harriving : ∀ p, w.arriving p = [])
    (hdelivered : ∀ p, w'.delivered p = w.delivered p) (hnone : ∀ p, received p w i = []) :
    w.Advanced i w' := by
  obtain ⟨hr', hnil⟩ := hr.of_still ho hmove hstill
  refine ⟨hr', fun p => ?_⟩
  rw [hnil, harriving, hdelivered, hnone, List.append_nil, List.append_nil]

theorem Receiving.sent (ho : w.Orderly) (hr : w.Receiving) (hmove : Move w i w') {c : Call}
    (hstack : w.stack = .call c :: rest) (hnot : ∀ q, c ≠ .recv q)
    (hsent : ∃ new, w'.stack = new ++ rest ∧ (∀ f ∈ new, f.still) ∧
      ∀ p, w'.delivered p = w.delivered p) : w.Advanced i w' := by
  obtain ⟨new, hstack', hstill, hdelivered⟩ := hsent
  have htail : ∀ f ∈ rest, f.still := by simpa [hstack] using hr.tail
  refine .of_still ho hr hmove (fun f hf => ?_) (fun p => arriving_call hstack) hdelivered fun p =>
    received_of_ne fun q hq => ?_
  · rw [hstack'] at hf
    exact (List.mem_append.mp hf).elim (hstill f) (htail f)
  · rw [hstack] at hq
    exact hnot q (Frame.call.inj (Option.some.inj hq))

theorem Receiving.recv (ho : w.Orderly) (hr : w.Receiving) {q : SockPtr}
    (hstack : w.stack = .call (.recv q) :: rest) (h : w.step i = some w') : w.Advanced i w' := by
  have hmove := step_move h
  have htail : ∀ f ∈ rest, f.still := by simpa [hstack] using hr.tail
  obtain ⟨result, rfl, -, rfl⟩ := (step_recv hstack).mp h
  have hother : (∀ byte bytes, result ≠ .ok (byte :: bytes)) →
      ∀ p, received p w (.received result) = [] := by
    intro hne p
    unfold received
    split
    · next heq => exact absurd (Input.received.inj heq) (hne _ _)
    · rfl
  rcases result with errno | _ | ⟨byte, bytes⟩
  · have happends : { w with stack := rest }.Appends ({ w with stack := rest }.recv q (.error errno)) :=
      ((Appends.refl _).errno errno).executeSocket (by simp) _
    obtain ⟨⟨new, hnew, hstill⟩, events, hlog, hevents⟩ := happends
    refine .of_still ho hr hmove (fun f hf => ?_) (fun p => arriving_call hstack) (fun p => ?_)
      (hother (by simp))
    · rw [hnew] at hf
      exact (List.mem_append.mp hf).elim (hstill f) (htail f)
    · exact delivered_append hlog fun e he => message_of_still (hevents e he)
  · refine .of_still ho hr hmove (fun f hf => ?_) (fun p => arriving_call hstack) (fun p => rfl)
      (hother (by simp))
    rcases List.mem_cons.mp hf with rfl | hf
    · rfl
    · exact htail f hf
  · have hfed : w.Fed q := hr.head (.call (.recv q)) (by rw [hstack]; rfl)
    obtain ⟨c, hc, hrecv⟩ := hfed
    have heq : { w with stack := rest }.recv q (.ok (byte :: bytes)) =
        { w with stack := .execute ⟨.socket q .recv, 0, 1, .bytes (byte :: bytes)⟩ :: rest } := by
      have hexec := executeSocket_some (w := { w with stack := rest }) hc .recv
        (.bytes (byte :: bytes))
      rw [hrecv] at hexec
      exact hexec
    rw [heq] at hmove ⊢
    refine ⟨⟨htail, fun f hf => ?_, hmove.handsOn ho hr.lists⟩, fun p => ?_⟩
    · obtain rfl := Option.some.inj hf
      intro p hlist _
      obtain ⟨rfl, -⟩ := ActionList.socket.inj hlist
      exact ⟨⟨c, hc, hrecv⟩, rfl, _, rfl⟩
    · have hchunk : received p w (.received (.ok (byte :: bytes))) =
          if q = p then [byte :: bytes] else [] := by simp [received, hstack]
      rw [arriving_call hstack, hchunk, List.append_nil]
      rfl

theorem invoke_recv {e : Execution} (h : w.invoke e .recv i = some w') :
    ∃ p action, e.list = .socket p action ∧ w' = w.push (.call (.recv p)) := by
  cases hlist : e.list with
  | owner o action => cases i <;> simp [invoke, hlist] at h
  | socket p action =>
    cases i with
    | go => exact ⟨p, action, rfl, by simpa [invoke, hlist] using h.symm⟩
    | _ => simp [invoke, hlist] at h

/-- The `READABLE` list calls `recv`. -/
theorem Receiving.called (ho : w.Orderly) (hr : w.Receiving) {e : Execution}
    {cb : ActionCallback Callback} (hstack : w.stack = .execute e :: rest)
    (hcb : w.current e = some cb) (hexec : cb.exec = .recv) (h : w.step i = some w') :
    w.Advanced i w' := by
  have hmove := step_move h
  have htail : ∀ f ∈ rest, f.still := by simpa [hstack] using hr.tail
  have harriving : ∀ p, w.arriving p = [] := fun p => by
    refine hr.arriving_of_current hstack fun cb' hcb' hreceive => ?_
    obtain rfl := Option.some.inj (hcb.symm.trans hcb')
    exact absurd (hexec.symm.trans hreceive) (by simp)
  have hnone : ∀ p, received p w i = [] := fun p => received_of_ne (by simp [hstack])
  have hcur : { w with stack := rest }.current e = w.current e := current_eq rfl rfl e
  have hafter : ∀ f ∈ e.after cb ++ rest, f.still := fun f hf => by
    obtain ⟨new, hnew, hstill⟩ := ((Appends.refl { w with stack := rest }).after e cb).stack
    rw [show e.after cb ++ rest = new ++ rest from hnew] at hf
    exact (List.mem_append.mp hf).elim (hstill f) (htail f)
  rw [step_execute hstack] at h
  rcases resume_cases h with ⟨hend, -⟩ | ⟨cb', hcb', hturn⟩
  · exact absurd (hend.symm.trans (hcur.trans hcb)) (by simp)
  · obtain rfl := Option.some.inj (hcb'.symm.trans (hcur.trans hcb))
    rcases hturn with ⟨-, rfl⟩ | ⟨-, hturn⟩
    · refine .of_still ho hr hmove (fun f hf => ?_) harriving (fun p => rfl) hnone
      rcases List.mem_cons.mp hf with rfl | hf
      · simp only [Frame.still, Execution.next]
        split <;> simp
      · exact htail f hf
    · rw [hexec] at hturn
      obtain ⟨q, action, hlist, rfl⟩ := invoke_recv hturn
      obtain ⟨c, hc, hget, -⟩ := current_mem hlist hcb
      have hfed : w.Fed q :=
        ⟨c, hc, hr.lists q c hc ⟨action, cb', List.mem_of_getElem? hget, hexec⟩⟩
      refine ⟨⟨hafter, fun f hf => ?_, hmove.handsOn ho hr.lists⟩, fun p => ?_⟩
      · obtain rfl := Option.some.inj hf
        exact hfed
      · rw [harriving, hnone, List.append_nil, List.append_nil]
        exact List.append_nil _

/-- The callback of a `RECV` list hands its chunk on. -/
theorem Receiving.handed (ho : w.Orderly) (hr : w.Receiving) {e : Execution}
    {cb : ActionCallback Callback} (hstack : w.stack = .execute e :: rest)
    (hcb : w.current e = some cb) (hexec : cb.exec = .receive) (h : w.step i = some w') :
    w.Advanced i w' := by
  have hmove := step_move h
  have htail : ∀ f ∈ rest, f.still := by simpa [hstack] using hr.tail
  have hnone : ∀ p, received p w i = [] := fun p => received_of_ne (by simp [hstack])
  have hcur : { w with stack := rest }.current e = w.current e := current_eq rfl rfl e
  obtain ⟨l, hl, -, hget⟩ := current_callbacks hcb
  cases hlist : e.list with
  | owner o action =>
    -- hooks of the user are all that these lists hold
    simp only [callbacks, hlist, Option.some.injEq] at hl
    rw [← hl, List.getElem?_map, Option.map_eq_some_iff] at hget
    obtain ⟨cb', -, rfl⟩ := hget
    exact absurd hexec (by simp)
  | socket q action =>
    obtain ⟨c, hc, hget, -⟩ := current_mem hlist hcb
    obtain ⟨rfl, hpos⟩ := ((ho.stage q).shape (look_some hc)).receives hget hexec
    obtain ⟨hfed, hstop, bytes, harg⟩ := hr.head (.execute e) (by rw [hstack]; rfl) q hlist hpos
    obtain rfl := Option.some.inj ((hfed.current hlist hpos hstop).symm.trans hcb)
    have hw' : w' = { w with stack := .execute e.next :: rest }.executeOwner q.container.owner
        .receive (.message q bytes) := by
      rw [step_execute hstack] at h
      rcases resume_cases h with ⟨hend, -⟩ | ⟨cb', hcb', hturn⟩
      · exact absurd (hend.symm.trans (hcur.trans hcb)) (by simp)
      · obtain rfl := Option.some.inj (hcb'.symm.trans (hcur.trans hcb))
        rcases hturn with ⟨hskip, -⟩ | ⟨-, hturn⟩
        · exact absurd hskip (by decide)
        · exact ((invoke_receive hlist harg).mp hturn).2
    subst hw'
    have hstill : ∀ f ∈ Frame.execute e.next :: rest, f.still := fun f hf => by
      rcases List.mem_cons.mp hf with rfl | hf
      · simp [Frame.still, Execution.next, hlist]
      · exact htail f hf
    refine ⟨⟨hstill, fun f hf => ?_, hmove.handsOn ho hr.lists⟩, fun p => ?_⟩
    · obtain rfl := Option.some.inj hf
      exact .of_still rfl
    · have hbefore : w.arriving p = if q = p then [bytes] else [] := by
        obtain ⟨list, pos, stop, arg⟩ := e
        obtain ⟨rfl, rfl, rfl, rfl⟩ : list = _ ∧ pos = _ ∧ stop = _ ∧ arg = _ :=
          ⟨hlist, hpos, hstop, harg⟩
        rw [arriving, hstack]
        rfl
      have hafter : ({ w with stack := .execute e.next :: rest }.executeOwner q.container.owner
          .receive (.message q bytes)).delivered p =
            w.delivered p ++ if q = p then [bytes] else [] := by
        rw [delivered, executeOwner, push, note, List.reverse_cons, List.flatMap_append, delivered]
        by_cases hqp : q = p
        · subst hqp
          simp [Event.message]
        · simp [Event.message, hqp]
      rw [hafter, hnone, hbefore, List.append_nil]
      exact List.append_nil _

theorem Receiving.step (ho : w.Orderly) (hr : w.Receiving) (hi : w.Public i)
    (h : w.step i = some w') : w.Advanced i w' := by
  by_cases htransfers : w.Transfers
  · rcases htransfers with ⟨c, rest, hstack, hc⟩ | ⟨e, cb, rest, hstack, hcb, hexec | hexec⟩
    · cases c with
      | recv q => exact hr.recv ho hstack h
      | send q message =>
        refine hr.sent ho (step_move h) hstack (by simp) ?_
        obtain ⟨result, errno, -, -, rfl⟩ := (step_send hstack).mp h
        exact sending_effect (w := w) (q := q) fun c _ => ⟨_, _, _, rfl⟩
      | sendFlush q =>
        refine hr.sent ho (step_move h) hstack (by simp) ?_
        obtain ⟨result, errno, -, -, rfl⟩ := (step_sendFlush hstack).mp h
        exact sending_effect (w := w) (q := q) fun c _ => ⟨_, _, _, rfl⟩
      | _ => exact absurd hc (by simp [Call.transfers])
    · exact hr.called ho hstack hcb hexec h
    · exact hr.handed ho hstack hcb hexec h
  · have hrecv : ∀ q, i ≠ .call (.recv q) := by
      rintro q rfl
      exact absurd (hi.2 _ rfl) (by simp [Call.hidden])
    obtain ⟨⟨new, hnew, hstill⟩, events, hlog, hevents⟩ := step_appends h hrecv htransfers
    refine .of_still ho hr (step_move h) (fun f hf => ?_) (fun p => hr.arriving_eq_nil htransfers)
      (fun p => delivered_append hlog fun e he => message_of_still (hevents e he)) fun p => ?_
    · rw [hnew] at hf
      exact (List.mem_append.mp hf).elim (hstill f) (hr.tail f)
    · refine received_of_ne fun q hq => htransfers (.inl ?_)
      obtain ⟨rest, hstack⟩ := List.head?_eq_some_iff.mp hq
      exact ⟨_, rest, hstack, rfl⟩

theorem start_receiving (owners : Owner → OwnerAction → Action Unit) (invalid : UShort) :
    (start owners invalid).Receiving where
  tail f hf := absurd hf (by simp [start])
  head f hf := absurd hf (by simp [start])
  lists p c hc := by simp [start, Memory.empty, Memory.deref] at hc

section Runs

variable {owners : Owner → OwnerAction → Action Unit} {invalid : UShort} {chunks : List Bytes}

theorem receiving_of_reach (h : Machine.Reach step Public (start owners invalid) w) :
    w.Orderly ∧ w.Receiving := by
  refine h.invariant (P := fun w => w.Orderly ∧ w.Receiving)
    ⟨start_orderly owners invalid, start_receiving owners invalid⟩ ?_
  rintro u i v ⟨ho, hr⟩ hok hstep
  exact ⟨(step_move hstep).orderly ho hok.1, (hr.step ho hok hstep).1⟩

/-- What has been received on `p` is what its owner has been told of and what is about to be handed
on. -/
theorem received_eq (h : Machine.Seen step Public (received p) (start owners invalid) chunks w) :
    chunks = w.delivered p ++ w.arriving p := by
  refine h.invariant (P := fun chunks w => chunks = w.delivered p ++ w.arriving p) rfl ?_
  intro seen u i v hseen hu hok hstep
  obtain ⟨ho, hr⟩ := receiving_of_reach hseen.reach
  rw [(hr.step ho hok hstep).2 p, hu]

/-- In every run of public calls, the chunks that `::recv` has returned on a connection are, in order,
the messages that the `RECEIVE` hooks of its owner have been started with, but for one that is about
to be handed on; while nothing is being executed, they are these messages. -/
theorem received_delivered
    (h : Machine.Seen step Public (received p) (start owners invalid) chunks w) :
    chunks = w.delivered p ++ w.arriving p ∧ (w.arriving p).length ≤ 1 ∧
      (w.stack = [] → chunks = w.delivered p) := by
  refine ⟨received_eq h, ?_, fun hidle => ?_⟩
  · unfold arriving Frame.arriving
    cases w.stack.head? with
    | none => simp
    | some f =>
      simp only [Option.elim_some]
      split
      · split <;> simp
      · simp
  · rw [received_eq h, arriving, hidle]
    exact List.append_nil _

end Runs

/-- The input is admitted in runs of public calls. -/
def isPublic (_ : World) : Input → Bool
  | .call (.on _ _ _) => false
  | .call c => !c.hidden
  | _ => true

theorem public_of_isPublic (w : World) (i : Input) (hi : isPublic w i = true) : w.Public i := by
  constructor
  · rintro p action flags rfl
    exact absurd hi (by simp [isPublic])
  · rintro c rfl
    cases c <;> simp_all [isPublic, Call.hidden]

/-- The server of `acceptRun` receives two bytes. -/
def receiveRun : List Input :=
  acceptRun ++ [.go, .go, .go, .call .poll, .polled 1 [0, POLLIN], .go, .go, .go,
    .received (.ok [7, 8]), .go]

theorem received_delivered_receiveRun : ∃ w,
    Machine.run step (start (fun _ _ => []) 0) receiveRun = some w ∧
      [[7, 8]] = w.delivered accepted4 ++ w.arriving accepted4 ∧
        (w.arriving accepted4).length ≤ 1 ∧ (w.stack = [] → [[7, 8]] = w.delivered accepted4) := by
  have hsome : (Machine.run step (start (fun _ _ => []) 0) receiveRun).isSome := by decide
  obtain ⟨w, hw⟩ := Option.isSome_iff_exists.mp hsome
  have hshown : Machine.shown step (received accepted4) (start (fun _ _ => []) 0) receiveRun =
      [[7, 8]] := by decide
  have hseen : Machine.Seen step Public (received accepted4) (start (fun _ _ => []) 0) _ w :=
    .of_checked public_of_isPublic (by decide) hw
  rw [hshown] at hseen
  exact ⟨w, hw, received_delivered hseen⟩

end World

end Unisock.Tcp
