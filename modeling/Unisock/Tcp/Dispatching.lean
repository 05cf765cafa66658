import Unisock.Events.Replay
import Unisock.Lib.Observed
import Unisock.Tcp.Effects
import Unisock.Tcp.Registry

/-! The rounds of servers and clients against those of a handler alone: whatever the objects that
`poll_impl` calls back do, and however their hooks nest, a round of the machine is one in which each
callback makes some calls to the handler. -/

namespace Unisock.Tcp

open Unisock.Events

/-- The frames other than `poll_impl` and a call of it. -/
def Frame.apart : Frame → Bool
  | .polling _ | .call .poll => false
  | _ => true

/-- An entry of the handler comes or goes. -/
def Event.changes : Event → Bool
  | .removed _ _ | .obtained _ _ (some _) => true
  | _ => false

namespace World

/-- Frames have been put on the stack, none of `poll_impl`, and the handler has been called; the log
has an event for each change of its entries. -/
structure Operates (w w' : World) : Prop where
  stack : ∃ new, w'.stack = new ++ w.stack ∧ ∀ f ∈ new, f.apart
  handler : ∃ cs new, w'.mem.handler = w.mem.handler.calls cs ∧ w'.log = new ++ w.log ∧
    new.countP Event.changes = Events.changes cs

namespace Operates

variable {w w' w'' : World} {f : Frame} {p : SockPtr}

theorem of_eq (hstack : w'.stack = w.stack) (hhandler : w'.mem.handler = w.mem.handler)
    (hlog : w'.log = w.log) : w.Operates w' :=
  ⟨⟨[], hstack, by simp⟩, ⟨[], [], hhandler, hlog, rfl⟩⟩

theorem refl (w : World) : w.Operates w := of_eq rfl rfl rfl

theorem trans (h : w.Operates w') (h' : w'.Operates w'') : w.Operates w'' := by
  obtain ⟨⟨fs, hfs, hfapart⟩, ⟨cs, es, hcs, hes, hcount⟩⟩ := h
  obtain ⟨⟨fs', hfs', hfapart'⟩, ⟨cs', es', hcs', hes', hcount'⟩⟩ := h'
  refine ⟨⟨fs' ++ fs, by rw [hfs', hfs, List.append_assoc], fun f hf => ?_⟩,
    ⟨cs ++ cs', es' ++ es, ?_, by rw [hes', hes, List.append_assoc], ?_⟩⟩
  · exact (List.mem_append.mp hf).elim (hfapart' f) (hfapart f)
  · rw [hcs', hcs, Handler.calls, Handler.calls, Handler.calls, List.foldl_append]
  · rw [List.countP_append, hcount, hcount', Events.changes, Events.changes, Events.changes,
      List.countP_append, Nat.add_comm]

theorem push (h : w.Operates w') (hf : f.apart = true) : w.Operates (w'.push f) :=
  h.trans ⟨⟨[f], rfl, by simpa using hf⟩, ⟨[], [], rfl, rfl, rfl⟩⟩

theorem note (h : w.Operates w') {e : Event} (he : e.changes = false) : w.Operates (w'.note e) :=
  h.trans ⟨⟨[], rfl, by simp⟩, ⟨[], [e], rfl, rfl, by simp [Events.changes, he]⟩⟩

/-- The elements may change. -/
theorem sockets (h : w.Operates w') {m : Memory} (hm : w'.mem.handler = m.handler) :
    w.Operates { w' with mem := m } :=
  h.trans (of_eq rfl hm.symm rfl)

theorem openFd (h : w.Operates w') (fd : Int) : w.Operates { w' with mem := w'.mem.openFd fd } :=
  h.sockets rfl

theorem modify (h : w.Operates w') (q : SockPtr) (g : Connection → Connection) :
    w.Operates { w' with mem := w'.mem.modify q g } :=
  h.sockets rfl

theorem eraseSocket (h : w.Operates w') (container : Container) (key : Int) :
    w.Operates { w' with mem := w'.mem.eraseSocket container key } :=
  h.sockets rfl

theorem errno (h : w.Operates w') (errno : Int) : w.Operates (w'.setErrno errno) :=
  h.trans (of_eq rfl rfl rfl)

theorem returned (h : w.Operates w') (result : Bool) : w.Operates (w'.setReturned result) :=
  h.trans (of_eq rfl rfl rfl)

theorem executeOwner (h : w.Operates w') (o : Owner) (action : OwnerAction) (arg : Arg) :
    w.Operates (w'.executeOwner o action arg) :=
  (h.note rfl).push rfl

theorem error (h : w.Operates w') (o : Owner) (fn : String) : w.Operates (w'.error o fn) :=
  h.executeOwner o .error _

theorem access (h : w.Operates w') {g : Connection → World} (hg : ∀ c, w.Operates (g c)) :
    w.Operates (w'.access p g) := by
  unfold World.access
  split
  · exact h.push rfl
  · exact hg _

theorem executeSocket (h : w.Operates w') (action : SocketAction) (arg : Arg) :
    w.Operates (w'.executeSocket p action arg) :=
  h.access fun _ => h.push rfl

theorem close (h : w.Operates w') (errno : Int) : w.Operates (w'.close p errno) := by
  refine h.access fun c => ?_
  split
  · exact h
  · have hshut : w'.Operates (({ w' with mem := w'.mem.closeSocket p c.sock }.note
        (.removed p c.sock)).note (.shut p c.sock)) :=
      ⟨⟨[], rfl, by simp⟩, ⟨[.deleteSocket c.sock], [.shut p c.sock, .removed p c.sock], rfl, rfl,
        rfl⟩⟩
    exact ((h.trans hshut).errno errno).executeSocket _ _

theorem makeSocket (h : w.Operates w') {container : Container} {fd : Int}
    {made : World → SockPtr → World} {failed : World → World}
    (hmade : ∀ v q, w.Operates v → w.Operates (made v q))
    (hfailed : ∀ v, w.Operates v → w.Operates (failed v)) :
    w.Operates (w'.makeSocket container fd made failed) := by
  unfold World.makeSocket Memory.insertSocket
  split
  · exact hfailed _ ((h.openFd fd).note rfl)
  · next mem q hinsert =>
    obtain ⟨-, heq⟩ := Option.ite_none_left_eq_some.mp hinsert
    obtain ⟨rfl, rfl⟩ := Prod.mk.inj (Option.some.inj heq)
    refine hmade _ _ (h.trans ⟨⟨[], rfl, by simp⟩, ⟨[.addSocket fd (w'.mem.newPtr container fd)],
      [_], rfl, rfl, rfl⟩⟩)

theorem giveUp (h : w.Operates w') (fn : String) (errno : Int) : w.Operates (w'.giveUp p fn errno) :=
  (((h.errno errno).push rfl).push rfl).error _ fn

theorem listen (h : w.Operates w') (server : Nat) (result : Except Int Int) :
    w.Operates (w'.listen server result) := by
  unfold World.listen
  cases result with
  | error errno => exact ((h.errno errno).push rfl).error _ _
  | ok fd =>
    refine h.makeSocket (fun v q hv => ?_) fun v hv => (hv.push rfl).error _ _
    exact (hv.modify _ _).push rfl

theorem connect (h : w.Operates w') (client : Nat) (result : Except Int Int) :
    w.Operates (w'.connect client result) := by
  unfold World.connect
  cases result with
  | error errno => exact ((h.errno errno).push rfl).error _ _
  | ok fd =>
    refine h.makeSocket (fun v q hv => ?_) fun v hv => (hv.push rfl).error _ _
    exact (hv.modify _ _).push rfl

theorem accept (h : w.Operates w') (server : Nat) (result : Except Int Int) :
    w.Operates (w'.accept p server result) := by
  refine h.access fun c => ?_
  split
  · exact h.push rfl
  · cases result with
    | error errno => exact (h.errno errno).error _ _
    | ok fd =>
      simp only
      split
      · exact ((h.openFd fd).note rfl).push rfl
      · exact h.makeSocket (fun v q hv => (hv.modify _ _).executeOwner _ _ _)
          fun v hv => hv.executeOwner _ _ _

theorem listenRest (h : w.Operates w') {failure : Option (SetUpStep × Int)}
    (hw'' : w'.listenRest p failure = some w'') : w.Operates w'' := by
  unfold World.listenRest at hw''
  split at hw''
  · obtain rfl := Option.some.inj hw''
    exact h.access fun c => ((h.modify _ _).push rfl).executeOwner _ _ _
  · obtain rfl := Option.some.inj hw''
    exact h.giveUp _ _
  · obtain rfl := Option.some.inj hw''
    exact ((((h.errno _).push rfl).push rfl).push rfl).executeSocket _ _
  · obtain rfl := Option.some.inj hw''
    exact h.giveUp _ _
  · cases hw''

theorem connectRest (h : w.Operates w') {failure : Option (SetUpStep × Int)}
    (hw'' : w'.connectRest p failure = some w'') : w.Operates w'' := by
  unfold World.connectRest at hw''
  split at hw''
  · obtain rfl := Option.some.inj hw''
    exact h.access fun c => ((h.modify _ _).push rfl).executeOwner _ _ _
  · obtain rfl := Option.some.inj hw''
    exact h.giveUp _ _
  · obtain rfl := Option.some.inj hw''
    exact (((h.errno _).push rfl).push rfl).push rfl
  · cases hw''
  · cases hw''

theorem closeNext (h : w.Operates w') (container : Container) (errno : Int) :
    w.Operates (w'.closeNext container errno) := by
  unfold World.closeNext
  split
  · exact h
  · exact (h.push rfl).close errno

theorem closeOwner (h : w.Operates w') (o : Owner) : w.Operates (w'.closeOwner o) := by
  cases o with
  | server id => exact (h.push rfl).push rfl
  | client id => exact h.push rfl

/-- `send` or `send_flush`. -/
theorem sent (h : w.Operates w') {c : Connection} {s : Sent SockPtr}
    (hhandler : s.handler = w'.mem.handler ∨
      ∃ active, s.handler = w'.mem.handler.socketWantWrite c.sock active)
    (taken : Bytes) (errno : Int) : w.Operates (w'.sent p s taken errno) := by
  unfold World.sent
  split
  · exact (h.errno errno).executeSocket _ _
  · refine h.trans ⟨⟨[], rfl, by simp⟩, ?_⟩
    rcases hhandler with heq | ⟨active, heq⟩
    · exact ⟨[], [.wrote p taken], heq, rfl, rfl⟩
    · exact ⟨[.wantWrite c.sock active], [.wrote p taken], heq, rfl, rfl⟩

theorem recv (h : w.Operates w') (result : Except Int Bytes) : w.Operates (w'.recv p result) := by
  match result with
  | .error errno => exact (h.errno errno).executeSocket _ _
  | .ok [] => exact h.push rfl
  | .ok (b :: bytes) => exact h.executeSocket _ _

theorem perform (h : w.Operates w') {c : Call} {i : Input} (hc : (Frame.call c).apart = true)
    (hw'' : w'.perform c i = some w'') : w.Operates w'' := by
  unfold World.perform at hw''
  split at hw''
  · obtain ⟨-, heq⟩ := Option.ite_none_right_eq_some.mp hw''
    exact Option.some.inj heq ▸ h.listen _ _
  · obtain ⟨-, heq⟩ := Option.ite_none_right_eq_some.mp hw''
    exact Option.some.inj heq ▸ h.connect _ _
  · split at hw''
    · obtain ⟨-, heq⟩ := Option.ite_none_right_eq_some.mp hw''
      exact Option.some.inj heq ▸ h.accept _ _
    · cases hw''
  · obtain ⟨-, heq⟩ := Option.ite_none_right_eq_some.mp hw''
    exact Option.some.inj heq ▸ h.access fun c => h.sent (c.send_frame _ _ _).2 _ _
  · obtain ⟨-, heq⟩ := Option.ite_none_right_eq_some.mp hw''
    exact Option.some.inj heq ▸ h.access fun c => h.sent (c.sendFlush_frame _ _).2 _ _
  · obtain ⟨-, heq⟩ := Option.ite_none_right_eq_some.mp hw''
    exact Option.some.inj heq ▸ h.recv _
  · exact Option.some.inj hw'' ▸ h.close _
  · exact Option.some.inj hw'' ▸ h.push rfl
  · exact Option.some.inj hw'' ▸ h.closeOwner _
  · exact Option.some.inj hw'' ▸ h.access fun c => h.modify _ _
  · exact Option.some.inj hw'' ▸ h.trans (of_eq rfl rfl rfl)
  · exact absurd hc (by decide)
  · cases hw''

theorem invoke (h : w.Operates w') {e : Execution} {exec : Callback} {i : Input}
    (hw'' : w'.invoke e exec i = some w'') : w.Operates w'' := by
  unfold World.invoke at hw''
  split at hw''
  · exact Option.some.inj hw'' ▸ h.push rfl
  · exact Option.some.inj hw'' ▸ (h.eraseSocket _ _).note rfl
  · exact Option.some.inj hw'' ▸ h.executeOwner _ _ _
  · exact Option.some.inj hw'' ▸ h.push rfl
  · exact Option.some.inj hw'' ▸ h.push rfl
  · exact Option.some.inj hw'' ▸ h.push rfl
  · exact Option.some.inj hw'' ▸ h.executeOwner _ _ _
  · cases hw''

theorem resume (h : w.Operates w') {e : Execution} {i : Input}
    (hw'' : w'.resume e i = some w'') : w.Operates w'' := by
  rcases resume_cases hw'' with ⟨-, rfl | ⟨k, rfl⟩⟩ | ⟨cb, -, ⟨-, rfl⟩ | ⟨-, hturn⟩⟩
  · exact h
  · exact h.push rfl
  · exact h.push rfl
  · have hafter : w.Operates { w' with stack := e.after cb ++ w'.stack } := by
      refine h.trans ⟨⟨e.after cb, rfl, fun f hf => ?_⟩, ⟨[], [], rfl, rfl, rfl⟩⟩
      unfold Execution.after at hf
      split at hf
      · exact absurd hf (by simp)
      · rw [List.mem_singleton.mp hf]
        rfl
    exact hafter.invoke hturn

end Operates

variable {w w' : World} {i : Input} {f : Frame} {rest : List Frame}

/-- Until the round is over, where hooks do not call `poll`. -/
def WithinRound (w : World) (i : Input) : Prop := w.stack ≠ [] ∧ i ≠ .call .poll

/-- No function but `poll` runs `poll_impl`. -/
theorem step_operates (hstack : w.stack = f :: rest) (hf : f.apart = true)
    (hi : i ≠ .call .poll) (h : w.step i = some w') : { w with stack := rest }.Operates w' := by
  have hbelow : { w with stack := rest }.Operates { w with stack := rest } := .refl _
  simp only [step, hstack] at h
  split at h
  · obtain ⟨-, heq⟩ := Option.ite_none_right_eq_some.mp h
    refine Option.some.inj heq ▸ (hbelow.push rfl).push ?_
    unfold Frame.apart
    split <;> simp_all
  · exact Option.some.inj h ▸ hbelow.errno _
  · exact hbelow.perform hf h
  · exact hbelow.resume h
  · exact Option.some.inj h ▸ hbelow.error _ _
  · exact Option.some.inj h ▸ hbelow.closeNext _ _
  · exact hbelow.listenRest h
  · exact hbelow.connectRest h
  · exact absurd hf (by simp [Frame.apart])
  · exact Option.some.inj h ▸ hbelow.returned _
  · cases h

/-! ### The round of the handler that a run makes -/

/-- Where a round of `poll_impl` stands, when no callback of it is at work. -/
def roundStatus : List Frame → Option RoundStatus
  | [.polling l] => some (.running l)
  | [] => some .returned
  | [.crash .wild] => some .wild
  | _ => none

/-- What the loop of `poll_impl` calls in the step. -/
def dispatched (w : World) (_ : Input) : List (PollCall SockPtr) :=
  match w.stack with
  | .polling l :: _ => (((pollStep w.mem.handler l).call? l.it).map Prod.fst).toList
  | _ => []

/-- The round of the handler has come to where the machine is, at a turn of the loop or in the callback
behind which it goes on.  Since the log was `log`, it has an event for each change of the entries. -/
inductive InRound (h : Handler SockPtr) (nChanges : Int) (log : List Event)
    (seen : List (PollCall SockPtr)) (w : World) : Prop
  | turn {bs : List (List (HandlerCall SockPtr))} {status : RoundStatus} {new : List Event}
      (hr : Round.Follows h nChanges bs ⟨w.mem.handler, status, seen⟩)
      (hstack : roundStatus w.stack = some status) (hlog : w.log = new ++ log)
      (hcount : new.countP Event.changes = Events.changes bs.flatten)
  | within {bs : List (List (HandlerCall SockPtr))} {cs : List (HandlerCall SockPtr)}
      {r : Round SockPtr} {l next : PollLoop} {call : PollCall SockPtr} {above : List Frame}
      {new : List Event} (hr : Round.Follows h nChanges bs r) (hstatus : r.status = .running l)
      (hturn : (pollStep r.handler l).call? l.it = some (call, next))
      (hseen : seen = r.made ++ [call]) (hhandler : w.mem.handler = r.handler.calls cs)
      (hstack : w.stack = above ++ [.polling next]) (habove : above ≠ [])
      (hapart : ∀ f ∈ above, f.apart) (hlog : w.log = new ++ log)
      (hcount : new.countP Event.changes = Events.changes bs.flatten + Events.changes cs)

section Simulation

variable {h : Handler SockPtr} {nChanges : Int} {log : List Event} {seen : List (PollCall SockPtr)}

theorem dispatched_apart (hstack : w.stack = f :: rest) (hf : f.apart = true) (i : Input) :
    w.dispatched i = [] := by
  unfold dispatched
  rw [hstack]
  cases f <;> first | rfl | exact absurd hf (by simp [Frame.apart])

theorem executeSocket_push (w : World) (p : SockPtr) (action : SocketAction) (arg : Arg) :
    ∃ f, f.apart = true ∧ w.executeSocket p action arg = w.push f := by
  cases hp : w.mem.deref p with
  | none => exact ⟨_, rfl, access_none hp _⟩
  | some c => exact ⟨_, rfl, executeSocket_some hp action arg⟩

/-- A turn of the loop. -/
theorem InRound.polling {bs : List (List (HandlerCall SockPtr))} {l : PollLoop} {new : List Event}
    (hr : Round.Follows h nChanges bs ⟨w.mem.handler, .running l, seen⟩)
    (hstack : w.stack = [.polling l]) (hlog : w.log = new ++ log)
    (hcount : new.countP Event.changes = Events.changes bs.flatten)
    (hw' : w' = { w with stack := [] }.pollNext l) :
    InRound h nChanges log (seen ++ w.dispatched i) w' := by
  have hshow : w.dispatched i =
      (((pollStep w.mem.handler l).call? l.it).map Prod.fst).toList := by
    unfold dispatched
    rw [hstack]
  -- a turn that calls nothing
  have silent : ∀ status, (pollStep w.mem.handler l).call? l.it = none →
      (Round.mk w.mem.handler (.running l) seen).step (Round.replay bs) =
        ⟨w.mem.handler, status, seen⟩ →
      w'.mem.handler = w.mem.handler → w'.log = w.log → roundStatus w'.stack = some status →
      InRound h nChanges log (seen ++ w.dispatched i) w' := by
    intro status hturn hstep hhandler hlog' hstack'
    have hnext := hr.silent rfl hturn
    rw [hstep, ← hhandler] at hnext
    rw [hshow, hturn]
    refine .turn (by simpa using hnext) hstack' (hlog'.trans hlog) hcount
  -- a turn that calls `on_readable` or `on_writeable`
  have called : ∀ call next p action,
      (pollStep w.mem.handler l).call? l.it = some (call, next) →
      w' = { w with stack := [.polling next] }.executeSocket p action .none →
      InRound h nChanges log (seen ++ w.dispatched i) w' := by
    intro call next p action hturn hw'
    obtain ⟨f, hf, hpush⟩ := executeSocket_push { w with stack := [.polling next] } p action .none
    have hhandler : w.mem.handler = w.mem.handler.calls [] := rfl
    have hstack' : [f, .polling next] = [f] ++ [.polling next] := rfl
    rw [hshow, hturn, hw', hpush]
    exact .within hr rfl hturn rfl hhandler hstack' (by simp) (by simpa using hf) hlog hcount
  cases hact : pollStep w.mem.handler l with
  | leave =>
    have hnext : w' = { w with stack := [] }.setReturned true := by rw [hw', pollNext, hact]
    exact silent .returned (by rw [hact]; rfl) (by simp only [Round.step, hact])
      (by rw [hnext]; rfl) (by rw [hnext]; rfl) (by rw [hnext]; rfl)
  | wild =>
    have hnext : w' = { w with stack := [.crash .wild] } := by rw [hw', pollNext, hact]; rfl
    exact silent .wild (by rw [hact]; rfl) (by simp only [Round.step, hact])
      (by rw [hnext]) (by rw [hnext]) (by rw [hnext]; rfl)
  | goOn next =>
    have hnext : w' = { w with stack := [.polling next] } := by rw [hw', pollNext, hact]; rfl
    exact silent (.running next) (by rw [hact]; rfl) (by simp only [Round.step, hact])
      (by rw [hnext]) (by rw [hnext]) (by rw [hnext]; rfl)
  | readable p next =>
    exact called _ next p .readable (by rw [hact]; rfl) (by rw [hw', pollNext, hact]; rfl)
  | writeable p next =>
    exact called _ next p .writeable (by rw [hact]; rfl) (by rw [hw', pollNext, hact]; rfl)

theorem InRound.step (hround : InRound h nChanges log seen w) (hok : w.WithinRound i)
    (hstep : w.step i = some w') : InRound h nChanges log (seen ++ w.dispatched i) w' := by
  cases hround with
  | @turn bs status new hr hstack hlog hcount =>
    unfold roundStatus at hstack
    split at hstack
    · next l hl =>
      obtain rfl := Option.some.inj hstack
      simp only [World.step, hl] at hstep
      exact .polling hr hl hlog hcount (Option.some.inj hstep).symm
    · next hl => exact absurd hl hok.1
    · next hl =>
      simp [World.step, hl] at hstep
    · cases hstack
  | @within bs cs r l next call above new hr hstatus hturn hseen hhandler hstack habove hapart hlog
      hcount =>
    obtain ⟨f, above, rfl⟩ := List.exists_cons_of_ne_nil habove
    obtain ⟨hf, hapart⟩ := List.forall_mem_cons.mp hapart
    obtain ⟨⟨frames, hframes, hfapart⟩, ⟨cs', new', hcs', hnew', hcount'⟩⟩ :=
      step_operates hstack hf hok.2 hstep
    rw [dispatched_apart hstack hf, List.append_nil]
    have hhandler' : w'.mem.handler = r.handler.calls (cs ++ cs') := by
      rw [hcs']
      show w.mem.handler.calls cs' = _
      rw [hhandler, Handler.calls, Handler.calls, Handler.calls, List.foldl_append]
    have hlog' : w'.log = (new' ++ new) ++ log := by
      rw [hnew', List.append_assoc, ← hlog]
    have hchanges : Events.changes (cs ++ cs') = Events.changes cs + Events.changes cs' :=
      List.countP_append
    have hcount'' : (new' ++ new).countP Event.changes =
        Events.changes bs.flatten + Events.changes (cs ++ cs') := by
      rw [List.countP_append, hcount, hcount', hchanges]
      omega
    have hstack' : w'.stack = (frames ++ above) ++ [.polling next] := by
      rw [hframes, List.append_assoc]
      rfl
    by_cases hend : frames ++ above = []
    · -- the callback has returned
      rw [hend, List.nil_append] at hstack'
      have hnext := hr.called hstatus hturn (cs ++ cs')
      rw [← hhandler', ← hseen] at hnext
      refine .turn hnext (by rw [hstack']; rfl) hlog' (hcount''.trans ?_)
      rw [List.flatten_append, List.flatten_singleton]
      exact List.countP_append.symm
    · refine .within hr hstatus hturn hseen hhandler' hstack' hend (fun g hg => ?_) hlog' hcount''
      exact (List.mem_append.mp hg).elim (hfapart g) (hapart g)

theorem inRound_of_seen {t : World} (hstack : w.stack = [.polling (.start nChanges)])
    (hseen : Machine.Seen step WithinRound dispatched w seen t) :
    InRound w.mem.handler nChanges w.log seen t := by
  refine hseen.invariant (P := fun seen t => InRound w.mem.handler nChanges w.log seen t) ?_ ?_
  · have hlog : w.log = [] ++ w.log := rfl
    exact .turn (.start _ _) (by rw [hstack]; rfl) hlog rfl
  · exact fun seen u i v _ hround hok hstep => hround.step hok hstep

/-- Whatever the objects that `poll_impl` calls back do but call `poll`, and however their hooks nest:
where no callback is at work, the calls that the loop has made, the handler, and where the loop stands are
those of a round of the handler alone, in which each callback makes some calls to it. -/
theorem round_refines {t : World} (hstack : w.stack = [.polling (.start nChanges)])
    (hseen : Machine.Seen step WithinRound dispatched w seen t) {status : RoundStatus}
    (hstatus : roundStatus t.stack = some status) :
    ∃ behaviour n, (Round.step behaviour)^[n] (Round.start w.mem.handler nChanges) =
      ⟨t.mem.handler, status, seen⟩ := by
  cases inRound_of_seen hstack hseen with
  | turn hr hstack' _ _ =>
    obtain rfl := Option.some.inj (hstack'.symm.trans hstatus)
    obtain ⟨-, n, hn⟩ := hr
    exact ⟨_, n, hn⟩
  | @within _ _ _ _ next _ above _ _ _ _ _ _ hstack' habove _ _ _ =>
    rw [hstack'] at hstatus
    obtain ⟨f, above, rfl⟩ := List.exists_cons_of_ne_nil habove
    cases above <;> simp [roundStatus] at hstatus

section Runs

variable {owners : Owner → OwnerAction → Action Unit} {invalid : UShort}

end Runs

end Simulation

/-! ### A server that accepts a connection -/

def listening3 : SockPtr := { container := .listeners 0, key := 3, node := 0 }

/-- A server listens on descriptor 3, and `poll` is called. -/
def pollCall : List Input :=
  [.call (.listen 0), .opened (.ok 3), .setUp none, .go, .go, .call .poll]

/-- The input is no call of `poll`. -/
def pollsNot : Input → Bool
  | .call .poll => false
  | _ => true

/-- The round in which it accepts. -/
def acceptRound : List Input := [.go, .go, .opened (.ok 4), .go, .go, .go]

def acceptEvents : List Event :=
  [.started (.server 0) .accept (.connection accepted4),
    .obtained (.clients 0) 4 (some accepted4)]

theorem acceptRound_seen : ∃ u w t,
    Machine.run step (start (fun _ _ => []) 0) pollCall = some u ∧ u.stack = [.call .poll] ∧
      u.step (.polled 1 [POLLIN]) = some w ∧ w.stack = [.polling (.start 1)] ∧
      Machine.Seen step WithinRound dispatched w [⟨.readable, 0, listening3⟩] t ∧
      t.stack = [] ∧ t.log = acceptEvents ++ u.log := by
  let called : Option World := Machine.run step (start (fun _ _ => []) 0) pollCall
  let polled : Option World := called.bind fun (u : World) => u.step (.polled 1 [POLLIN])
  have hsome : ((polled.bind fun w => Machine.run step w acceptRound).filter fun t =>
      t.stack.isEmpty).isSome := by decide
  obtain ⟨t, ht⟩ := Option.isSome_iff_exists.mp hsome
  obtain ⟨ht, hend⟩ := Option.filter_eq_some_iff.mp ht
  obtain ⟨w, hw, ht⟩ := Option.bind_eq_some_iff.mp ht
  obtain ⟨u, hu, hpoll⟩ := Option.bind_eq_some_iff.mp hw
  have hustack : called.map World.stack = some [.call .poll] := by decide
  have hwstack : polled.map World.stack = some [.polling (.start 1)] := by decide
  have hulog : called.map World.log = some
      [.started (.server 0) .listen (.connection listening3),
        .obtained (.listeners 0) 3 (some listening3)] := by decide
  have htlog : (polled.bind fun w => Machine.run step w acceptRound).map World.log = some
      (acceptEvents ++ [.started (.server 0) .listen (.connection listening3),
        .obtained (.listeners 0) 3 (some listening3)]) := by decide
  have hchecked : (polled.map fun w => Machine.checked step
      (fun v i => !v.stack.isEmpty && pollsNot i) w acceptRound) = some true := by decide
  have hshown : (polled.map fun w => Machine.shown step dispatched w acceptRound) =
      some [⟨.readable, 0, listening3⟩] := by decide
  rw [hu, Option.map_some, Option.some.injEq] at hustack hulog
  rw [hw, Option.map_some, Option.some.injEq] at hwstack hchecked hshown
  rw [hw, Option.bind_some, ht, Option.map_some, Option.some.injEq] at htlog
  have hok : ∀ (v : World) i, (!v.stack.isEmpty && pollsNot i) = true → v.WithinRound i := by
    rintro v i hv
    simp only [Bool.and_eq_true, Bool.not_eq_true', List.isEmpty_eq_false_iff] at hv
    exact ⟨hv.1, fun hi => absurd hv.2 (by simp [hi, pollsNot])⟩
  have hseen : Machine.Seen step WithinRound dispatched w
      (Machine.shown step dispatched w acceptRound) t := .of_checked hok hchecked ht
  rw [hshown] at hseen
  exact ⟨u, w, t, hu, hustack, hpoll, hwstack, hseen, List.isEmpty_iff.mp hend, by rw [htlog, hulog]⟩

theorem round_refines_accept : ∃ w t,
    Machine.Seen step WithinRound dispatched w [⟨.readable, 0, listening3⟩] t ∧
      ∃ behaviour n, (Round.step behaviour)^[n] (Round.start w.mem.handler 1) =
        ⟨t.mem.handler, .returned, [⟨.readable, 0, listening3⟩]⟩ := by
  obtain ⟨u, w, t, -, -, -, hstack, hseen, hend, -⟩ := acceptRound_seen
  exact ⟨w, t, hseen, round_refines hstack hseen (by rw [hend]; rfl)⟩

end World

end Unisock.Tcp
