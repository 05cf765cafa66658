import Unisock.Tcp.Frames

/-! What one step adds to the stack and to the log, by the function at the top: a `RECV` list begins
in `recv` only, which only its callback calls; `send` and `send_flush` alone hand bytes to the kernel;
and a message is handed on by the callback of a `RECV` list only.  And which element a step changes,
which is one at most. -/

namespace Unisock.Tcp

open Unisock.Events

/-- The calls that move bytes between the kernel and the program. -/
def Call.transfers : Call → Bool
  | .send _ _ | .sendFlush _ | .recv _ => true
  | _ => false

/-- No reception begins at this frame. -/
def Frame.still : Frame → Bool
  | .call (.recv _) => false
  | .execute e =>
    match e.list with
    | .socket _ .recv => 1 ≤ e.pos
    | _ => true
  | _ => true

/-- No bytes are handed over in this event. -/
def Event.still : Event → Bool
  | .wrote _ _ | .started _ _ (.message _ _) => false
  | _ => true

def Arg.isMessage : Arg → Bool
  | .message _ _ => true
  | _ => false

namespace World

/-- Frames have been put on the stack and events noted, none of which moves bytes. -/
structure Appends (w w' : World) : Prop where
  stack : ∃ new, w'.stack = new ++ w.stack ∧ ∀ f ∈ new, f.still
  log : ∃ new, w'.log = new ++ w.log ∧ ∀ e ∈ new, e.still

namespace Appends

variable {w w' w'' : World} {f : Frame} {p : SockPtr}

theorem of_eq (hstack : w'.stack = w.stack) (hlog : w'.log = w.log) : w.Appends w' :=
  ⟨⟨[], hstack, by simp⟩, ⟨[], hlog, by simp⟩⟩

theorem refl (w : World) : w.Appends w := of_eq rfl rfl

theorem trans (h : w.Appends w') (h' : w'.Appends w'') : w.Appends w'' := by
  obtain ⟨⟨fs, hfs, hfstill⟩, ⟨es, hes, hestill⟩⟩ := h
  obtain ⟨⟨fs', hfs', hfstill'⟩, ⟨es', hes', hestill'⟩⟩ := h'
  refine ⟨⟨fs' ++ fs, by rw [hfs', hfs, List.append_assoc], fun f hf => ?_⟩,
    ⟨es' ++ es, by rw [hes', hes, List.append_assoc], fun e he => ?_⟩⟩
  · exact (List.mem_append.mp hf).elim (hfstill' f) (hfstill f)
  · exact (List.mem_append.mp he).elim (hestill' e) (hestill e)

theorem push (h : w.Appends w') (hf : f.still = true) : w.Appends (w'.push f) :=
  h.trans ⟨⟨[f], rfl, by simpa using hf⟩, ⟨[], rfl, by simp⟩⟩

theorem note (h : w.Appends w') {e : Event} (he : e.still = true) : w.Appends (w'.note e) :=
  h.trans ⟨⟨[], rfl, by simp⟩, ⟨[e], rfl, by simpa using he⟩⟩

theorem mem (h : w.Appends w') (m : Memory) : w.Appends { w' with mem := m } := h.trans (of_eq rfl rfl)

theorem errno (h : w.Appends w') (errno : Int) : w.Appends (w'.setErrno errno) :=
  h.trans (of_eq rfl rfl)

theorem returned (h : w.Appends w') (result : Bool) : w.Appends (w'.setReturned result) :=
  h.trans (of_eq rfl rfl)

theorem executeOwner (h : w.Appends w') {arg : Arg} (harg : arg.isMessage = false) (o : Owner)
    (action : OwnerAction) : w.Appends (w'.executeOwner o action arg) := by
  refine (h.note ?_).push rfl
  cases arg <;> simp_all [Event.still, Arg.isMessage]

theorem error (h : w.Appends w') (o : Owner) (fn : String) : w.Appends (w'.error o fn) :=
  h.executeOwner rfl o .error

theorem access (h : w.Appends w') {g : Connection → World} (hg : ∀ c, w.Appends (g c)) :
    w.Appends (w'.access p g) := by
  unfold World.access
  split
  · exact h.push rfl
  · exact hg _

theorem executeSocket (h : w.Appends w') {action : SocketAction} (haction : action ≠ .recv)
    (arg : Arg) : w.Appends (w'.executeSocket p action arg) := by
  refine h.access fun c => h.push ?_
  cases action <;> simp_all [Frame.still]

theorem close (h : w.Appends w') (errno : Int) : w.Appends (w'.close p errno) := by
  refine h.access fun c => ?_
  split
  · exact h
  · exact (((h.mem _).note rfl).note rfl).errno errno |>.executeSocket (by simp) _

theorem makeSocket (h : w.Appends w') {container : Container} {fd : Int}
    {made : World → SockPtr → World} {failed : World → World}
    (hmade : ∀ v q, w.Appends v → w.Appends (made v q)) (hfailed : ∀ v, w.Appends v → w.Appends (failed v)) :
    w.Appends (w'.makeSocket container fd made failed) := by
  unfold World.makeSocket
  split
  · exact hfailed _ ((h.mem _).note rfl)
  · exact hmade _ _ ((h.mem _).note rfl)

theorem giveUp (h : w.Appends w') (fn : String) (errno : Int) : w.Appends (w'.giveUp p fn errno) :=
  (((h.errno errno).push rfl).push rfl).error _ fn

theorem listen (h : w.Appends w') (server : Nat) (result : Except Int Int) :
    w.Appends (w'.listen server result) := by
  unfold World.listen
  cases result with
  | error errno => exact ((h.errno errno).push rfl).error _ _
  | ok fd =>
    refine h.makeSocket (fun v q hv => ?_) fun v hv => (hv.push rfl).error _ _
    exact (hv.mem _).push rfl

theorem connect (h : w.Appends w') (client : Nat) (result : Except Int Int) :
    w.Appends (w'.connect client result) := by
  unfold World.connect
  cases result with
  | error errno => exact ((h.errno errno).push rfl).error _ _
  | ok fd =>
    refine h.makeSocket (fun v q hv => ?_) fun v hv => (hv.push rfl).error _ _
    exact (hv.mem _).push rfl

theorem accept (h : w.Appends w') (server : Nat) (result : Except Int Int) :
    w.Appends (w'.accept p server result) := by
  refine h.access fun c => ?_
  split
  · exact h.push rfl
  · cases result with
    | error errno => exact (h.errno errno).error _ _
    | ok fd =>
      simp only
      split
      · exact ((h.mem _).note rfl).push rfl
      · exact h.makeSocket (fun v q hv => (hv.mem _).executeOwner rfl _ _)
          fun v hv => hv.executeOwner rfl _ _

theorem listenRest (h : w.Appends w') {failure : Option (SetUpStep × Int)}
    (hw'' : w'.listenRest p failure = some w'') : w.Appends w'' := by
  unfold World.listenRest at hw''
  split at hw''
  · obtain rfl := Option.some.inj hw''
    exact h.access fun c => ((h.mem _).push rfl).executeOwner rfl _ _
  · obtain rfl := Option.some.inj hw''
    exact h.giveUp _ _
  · obtain rfl := Option.some.inj hw''
    exact ((((h.errno _).push rfl).push rfl).push rfl).executeSocket (by simp) _
  · obtain rfl := Option.some.inj hw''
    exact h.giveUp _ _
  · cases hw''

theorem connectRest (h : w.Appends w') {failure : Option (SetUpStep × Int)}
    (hw'' : w'.connectRest p failure = some w'') : w.Appends w'' := by
  unfold World.connectRest at hw''
  split at hw''
  · obtain rfl := Option.some.inj hw''
    exact h.access fun c => ((h.mem _).push rfl).executeOwner rfl _ _
  · obtain rfl := Option.some.inj hw''
    exact h.giveUp _ _
  · obtain rfl := Option.some.inj hw''
    exact (((h.errno _).push rfl).push rfl).push rfl
  · cases hw''
  · cases hw''

theorem pollNext (h : w.Appends w') (l : PollLoop) : w.Appends (w'.pollNext l) := by
  unfold World.pollNext
  split
  · exact h.returned true
  · exact h.push rfl
  · exact h.push rfl
  · exact (h.push rfl).executeSocket (by simp) _
  · exact (h.push rfl).executeSocket (by simp) _

theorem closeNext (h : w.Appends w') (container : Container) (errno : Int) :
    w.Appends (w'.closeNext container errno) := by
  unfold World.closeNext
  split
  · exact h
  · exact (h.push rfl).close errno

theorem closeOwner (h : w.Appends w') (o : Owner) : w.Appends (w'.closeOwner o) := by
  cases o with
  | server id => exact (h.push rfl).push rfl
  | client id => exact h.push rfl

theorem perform (h : w.Appends w') {c : Call} {i : Input} (hc : c.transfers = false)
    (hw'' : w'.perform c i = some w'') : w.Appends w'' := by
  unfold World.perform at hw''
  split at hw''
  · obtain ⟨-, heq⟩ := Option.ite_none_right_eq_some.mp hw''
    exact Option.some.inj heq ▸ h.listen _ _
  · obtain ⟨-, heq⟩ := Option.ite_none_right_eq_some.mp hw''
    exact Option.some.inj heq ▸ h.connect _ _
  · split at hw''
    · obtain ⟨-, heq⟩ := Option.ite_none_right_eq_some.mp hw''
      exact Option.some.inj heq ▸ h.accept _ _
    · cases hw''
  · exact absurd hc (by simp [Call.transfers])
  · exact absurd hc (by simp [Call.transfers])
  · exact absurd hc (by simp [Call.transfers])
  · exact Option.some.inj hw'' ▸ h.close _
  · exact Option.some.inj hw'' ▸ h.push rfl
  · exact Option.some.inj hw'' ▸ h.closeOwner _
  · exact Option.some.inj hw'' ▸ h.access fun c => h.mem _
  · exact Option.some.inj hw'' ▸ h.trans (of_eq rfl rfl)
  · split at hw''
    · exact Option.some.inj hw'' ▸ h.returned false
    · obtain ⟨-, heq⟩ := Option.ite_none_right_eq_some.mp hw''
      exact Option.some.inj heq ▸ (h.mem _).push rfl
  · cases hw''

theorem after (h : w.Appends w') (e : Execution) (cb : ActionCallback Callback) :
    w.Appends { w' with stack := e.after cb ++ w'.stack } := by
  refine h.trans ⟨⟨e.after cb, rfl, fun f hf => ?_⟩, ⟨[], rfl, by simp⟩⟩
  unfold Execution.after at hf
  split at hf
  · exact absurd hf (by simp)
  · rw [List.mem_singleton.mp hf]
    simp only [Frame.still, Execution.next]
    split <;> simp

/-- The callbacks that neither call `recv` nor hand a message on. -/
theorem invoke (h : w.Appends w') {e : Execution} {exec : Callback} {i : Input}
    (hrecv : exec ≠ .recv) (hreceive : exec ≠ .receive) (hw'' : w'.invoke e exec i = some w'') :
    w.Appends w'' := by
  unfold World.invoke at hw''
  split at hw''
  · exact Option.some.inj hw'' ▸ h.push rfl
  · exact Option.some.inj hw'' ▸ (h.mem _).note rfl
  · exact Option.some.inj hw'' ▸ h.executeOwner rfl _ _
  · exact Option.some.inj hw'' ▸ h.push rfl
  · exact absurd rfl hrecv
  · exact Option.some.inj hw'' ▸ h.push rfl
  · exact absurd rfl hreceive
  · cases hw''

end Appends

/-- The top of the stack calls `send`, `send_flush` or `recv`, or the callback that calls `recv`, or
the one that hands a message on. -/
def Transfers (w : World) : Prop :=
  (∃ c rest, w.stack = .call c :: rest ∧ c.transfers = true) ∨
  ∃ e cb rest, w.stack = .execute e :: rest ∧ w.current e = some cb ∧
    (cb.exec = .recv ∨ cb.exec = .receive)

/-- A step from elsewhere moves no bytes, if the user code does not call `recv`. -/
theorem step_appends {w w' : World} {i : Input} (h : w.step i = some w')
    (hi : ∀ p, i ≠ .call (.recv p)) (hstill : ¬ w.Transfers) :
    { w with stack := w.stack.tail }.Appends w' := by
  have hcall : ∀ c, i = .call c → (Frame.call c).still = true := by
    rintro c rfl
    cases c <;> first | rfl | exact absurd rfl (hi _)
  unfold step at h
  cases hstack : w.stack with
  | nil =>
    simp only [hstack] at h
    split at h
    · obtain ⟨-, heq⟩ := Option.ite_none_right_eq_some.mp h
      refine Option.some.inj heq ▸ Appends.push (.of_eq ?_ rfl) (hcall _ rfl)
      simp [hstack]
    · cases h
  | cons f rest =>
    simp only [hstack] at h
    have hbelow : { w with stack := rest }.Appends { w with stack := rest } := .refl _
    split at h
    · obtain ⟨-, heq⟩ := Option.ite_none_right_eq_some.mp h
      exact Option.some.inj heq ▸ (hbelow.push rfl).push (hcall _ rfl)
    · exact Option.some.inj h ▸ hbelow.errno _
    · next _ c =>
      have hc : c.transfers = false := by
        by_contra htransfers
        exact hstill (.inl ⟨c, rest, hstack, by simpa using htransfers⟩)
      exact hbelow.perform hc h
    · next _ e =>
      have hcur : { w with stack := rest }.current e = w.current e := current_eq rfl rfl e
      rcases resume_cases h with ⟨-, rfl | ⟨k, rfl⟩⟩ | ⟨cb, hcb, ⟨-, rfl⟩ | ⟨-, hturn⟩⟩
      · exact hbelow
      · exact hbelow.push rfl
      · refine hbelow.push ?_
        simp only [Frame.still, Execution.next]
        split <;> simp
      · have hexec : ∀ exec, cb.exec = exec → exec ≠ .recv ∧ exec ≠ .receive := by
          rintro exec rfl
          refine ⟨fun he => hstill (.inr ⟨e, cb, rest, hstack, hcur ▸ hcb, .inl he⟩),
            fun he => hstill (.inr ⟨e, cb, rest, hstack, hcur ▸ hcb, .inr he⟩)⟩
        obtain ⟨hrecv, hreceive⟩ := hexec _ rfl
        exact (hbelow.after e cb).invoke hrecv hreceive hturn
    · exact Option.some.inj h ▸ hbelow.error _ _
    · exact Option.some.inj h ▸ hbelow.closeNext _ _
    · exact hbelow.listenRest h
    · exact hbelow.connectRest h
    · exact Option.some.inj h ▸ hbelow.pollNext _
    · exact Option.some.inj h ▸ hbelow.returned _
    · cases h

/-! ### Where bytes are handed to the kernel -/

variable {w w' : World} {i : Input} {p : SockPtr} {bytes : Bytes}

/-- The last event is that the kernel takes bytes from `p`. -/
def Wrote (w w' : World) (p : SockPtr) : Prop := ∃ bytes, w'.log = .wrote p bytes :: w.log

theorem Appends.not_wrote (h : w.Appends w') : ¬ w.Wrote w' p := by
  rintro ⟨bytes, hlog⟩
  obtain ⟨new, hnew, hstill⟩ := h.log
  have heq : new = [.wrote p bytes] := by
    rw [hnew, ← List.singleton_append] at hlog
    exact List.append_cancel_right hlog
  exact absurd (hstill _ (heq ▸ List.mem_singleton_self _)) (by simp [Event.still])

theorem not_wrote_of_eq (hlog : w'.log = w.log) : ¬ w.Wrote w' p := by
  rintro ⟨bytes, hwrote⟩
  rw [hlog] at hwrote
  exact absurd (congrArg List.length hwrote) (by simp)

theorem sent_effect (w : World) (p : SockPtr) (s : Sent SockPtr) (taken : Bytes) (errno : Int) :
    w.Appends (w.sent p s taken errno) ∨
      (w.sent p s taken errno).stack = w.stack ∧
        (w.sent p s taken errno).log = .wrote p taken :: w.log := by
  unfold World.sent
  split
  · exact .inl (((Appends.refl w).errno errno).executeSocket (by simp) _)
  · exact .inr ⟨rfl, rfl⟩

/-- A call that makes one `::send` hands over bytes of its own connection. -/
theorem sending_wrote {q : SockPtr} {g : Connection → World}
    (hg : ∀ c, ∃ s taken errno, g c = w.sent q s taken errno) (h : w.Wrote (w.access q g) p) :
    q = p := by
  cases hq : w.mem.deref q with
  | none =>
    rw [access_none hq] at h
    exact absurd h (not_wrote_of_eq rfl)
  | some c =>
    obtain ⟨s, taken, errno, hsent⟩ := hg c
    rw [access_some hq, hsent] at h
    rcases sent_effect w q s taken errno with happends | ⟨-, hlog⟩
    · exact absurd h happends.not_wrote
    · obtain ⟨bytes, hwrote⟩ := h
      exact (Event.wrote.inj (List.cons.inj (hlog.symm.trans hwrote)).1).1

/-- The execution of a `RECV` or `READABLE` list hands nothing to the kernel. -/
theorem turn_not_wrote {e : Execution} {rest : List Frame} (hstack : w.stack = .execute e :: rest)
    {cb : ActionCallback Callback} (hcb : w.current e = some cb)
    (hexec : cb.exec = .recv ∨ cb.exec = .receive) (h : w.step i = some w') :
    ¬ w.Wrote w' p := by
  have hcur : { w with stack := rest }.current e = w.current e := current_eq rfl rfl e
  rw [step_execute hstack] at h
  rcases resume_cases h with ⟨-, rfl | ⟨k, rfl⟩⟩ | ⟨cb', hcb', ⟨-, rfl⟩ | ⟨-, hturn⟩⟩
  · exact not_wrote_of_eq rfl
  · exact not_wrote_of_eq rfl
  · exact not_wrote_of_eq rfl
  · obtain rfl := Option.some.inj (hcb'.symm.trans (hcur.trans hcb))
    rintro ⟨bytes, hlog⟩
    rcases hexec with hexec | hexec <;> rw [hexec] at hturn <;> unfold invoke at hturn <;>
      split at hturn
    all_goals first | contradiction | skip
    all_goals obtain rfl := Option.some.inj hturn
    · exact not_wrote_of_eq rfl ⟨bytes, hlog⟩
    · exact absurd (List.cons.inj hlog).1 (by simp)

/-- Only `send` and `send_flush` on a connection hand its bytes to the kernel. -/
theorem step_wrote (h : w.step i = some w') (hi : ∀ p, i ≠ .call (.recv p))
    (hwrote : w.Wrote w' p) :
    ∃ rest, (∃ message, w.stack = .call (.send p message) :: rest) ∨
      w.stack = .call (.sendFlush p) :: rest := by
  by_cases htransfers : w.Transfers
  · rcases htransfers with ⟨c, rest, hstack, hc⟩ | ⟨e, cb, rest, hstack, hcb, hexec⟩
    · have below : ∀ {v : World}, w.Wrote v p → { w with stack := rest }.Wrote v p := id
      cases c with
      | recv q =>
        obtain ⟨result, -, -, rfl⟩ := (step_recv hstack).mp h
        refine absurd (below hwrote) ?_
        rcases result with errno | _ | _
        · exact Appends.not_wrote (((Appends.refl _).errno errno).executeSocket (by simp) _)
        · exact not_wrote_of_eq rfl
        · unfold World.recv executeSocket access
          simp only
          split <;> exact not_wrote_of_eq rfl
      | send q message =>
        obtain ⟨result, errno, -, -, rfl⟩ := (step_send hstack).mp h
        obtain rfl := sending_wrote (fun c => ⟨_, _, _, rfl⟩) (below hwrote)
        exact ⟨rest, .inl ⟨message, hstack⟩⟩
      | sendFlush q =>
        obtain ⟨result, errno, -, -, rfl⟩ := (step_sendFlush hstack).mp h
        obtain rfl := sending_wrote (fun c => ⟨_, _, _, rfl⟩) (below hwrote)
        exact ⟨rest, .inr hstack⟩
      | _ => exact absurd hc (by simp [Call.transfers])
    · exact absurd hwrote (turn_not_wrote hstack hcb hexec h)
  · exact absurd hwrote (step_appends h hi htransfers).not_wrote

/-! ### The element that a step changes -/

/-- What a step makes of the element `q`, where it is changed. -/
inductive Touch (w w' : World) (q : SockPtr) : Option Connection → Prop
  | erased {e : Execution} {cb : ActionCallback Callback} {list : SocketAction} {rest : List Frame}
      (hstack : w.stack = .execute e :: rest) (hlist : e.list = .socket q list)
      (hcb : w.current e = some cb) (hexec : cb.exec = .erase) : Touch w w' q none
  | closed {c : Connection} (hq : w.mem.deref q = some c) (hopen : 0 ≤ c.sock)
      (htop : w'.stack.head? =
        some (.execute ⟨.socket q .closed, 0, (c.actions .closed).length, .none⟩)) :
      Touch w w' q (some { c with sock := -1 })
  | inserted {fd : Int} {wiring : Connection → Connection} (hnew : q.node = w.mem.nextNode)
      (hfd : 0 ≤ fd)
      (hwiring : wiring = Connection.setUpWiring ∨ wiring = Connection.acceptWiring)
      (htop : (wiring = Connection.setUpWiring ∧ (w'.stack.head? = some (.listening q) ∨
          w'.stack.head? = some (.connecting q))) ∨
        (wiring = Connection.acceptWiring ∧ ∃ s, q.container = .clients s)) :
      Touch w w' q (some (wiring (Connection.inserted w.mem.nextNode fd)))
  | wired {c : Connection} {f : Frame} {wiring : Connection → Connection} {rest : List Frame}
      (hq : w.mem.deref q = some c) (hstack : w.stack = f :: rest)
      (hwiring : (f = .listening q ∧ wiring = Connection.listenWiring) ∨
        (f = .connecting q ∧ wiring = Connection.connectWiring)) : Touch w w' q (some (wiring c))
  | sent {c : Connection} {buffer : List Bytes} (hq : w.mem.deref q = some c)
      (hwrote : w.Wrote w' q) : Touch w w' q (some { c with sendBuffer := buffer })
  | hooked {c : Connection} {action : SocketAction} {flags : UShort} {rest : List Frame}
      (hq : w.mem.deref q = some c) (hstack : w.stack = .call (.on q action flags) :: rest) :
      Touch w w' q (some (c.on action .user flags))

/-- A step changes one element at most. -/
theorem Move.touch (h : Move w i w') :
    (∀ p, w'.mem.deref p = w.mem.deref p) ∨
      ∃ q d, Touch w w' q d ∧
        ∀ p, w'.mem.deref p = if p = q then d else w.mem.deref p := by
  cases h with
  | @erase e cb q list rest hstack hlist hcb _ hexec =>
    obtain ⟨c, hc, -⟩ := current_mem hlist hcb
    exact .inr ⟨q, none, .erased hstack hlist hcb hexec, Memory.deref_eraseSocket hc⟩
  | @closed f q c new rest errno hstack _ hq hsock _ =>
    exact .inr ⟨q, _, .closed hq hsock rfl, Memory.deref_closeSocket hq c.sock⟩
  | @made f container fd setUp rest hstack _ hsetUp hopens hfree =>
    refine .inr ⟨_, _, .inserted rfl hopens.2.1 (.inl rfl) (.inl ⟨rfl, ?_⟩),
      Memory.deref_added hfree fun _ => rfl⟩
    rcases hsetUp with ⟨-, rfl⟩ | ⟨-, rfl⟩
    · exact .inl rfl
    · exact .inr rfl
  | accepted hstack _ hopens hfree =>
    exact .inr ⟨_, _, .inserted rfl hopens.2.1 (.inr rfl) (.inr ⟨rfl, _, rfl⟩),
      Memory.deref_added hfree fun _ => rfl⟩
  | leaked _ _ _ _ _ hw' =>
    rcases hw' with ⟨k, rfl⟩ | ⟨o, arg, -, rfl⟩ <;> exact .inl fun p => rfl
  | @finished f q c wiring action rest hstack hf hq =>
    have hwiring : (f = .listening q ∧ wiring = Connection.listenWiring) ∨
        (f = .connecting q ∧ wiring = Connection.connectWiring) :=
      hf.imp (fun h => ⟨h.1, h.2.1⟩) fun h => ⟨h.1, h.2.1⟩
    have hnode : (wiring c).node = c.node := by
      rcases hwiring with ⟨-, rfl⟩ | ⟨-, rfl⟩ <;> rfl
    exact .inr ⟨q, _, .wired hq hstack hwiring, Memory.deref_modify hq hnode⟩
  | @wrote f q c buffer handler bytes rest hstack hf hq _ =>
    exact .inr ⟨q, _, .sent hq ⟨bytes, rfl⟩,
      Memory.deref_modify hq (f := fun _ => { c with sendBuffer := buffer }) rfl⟩
  | @hooked q c action flags rest hstack hq =>
    exact .inr ⟨q, _, .hooked hq hstack,
      Memory.deref_modify hq (f := fun c => c.on action .user flags) rfl⟩
  | _ => exact .inl fun p => rfl

end World

end Unisock.Tcp
