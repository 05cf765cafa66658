import Unisock.Tcp.Erasing

/-! Which elements the functions on the stack are about: a step pushes functions about the element of
the topmost one and about elements that are in their containers, and closes an element in `close`
only. -/

namespace Unisock.Tcp

open Unisock.Events

/-- The element that the function uses. -/
def Frame.subject : Frame → Option SockPtr
  | .call (.accept p) | .call (.send p _) | .call (.sendFlush p) | .call (.recv p)
  | .call (.close p) | .call (.on p _ _) | .listening p | .connecting p => some p
  | .execute e =>
    match e.list with
    | .socket p _ => some p
    | .owner _ _ => none
  | _ => none

/-- The element that `poll_impl` calls back next. -/
def called? : PollAct SockPtr → Option SockPtr
  | .readable p _ | .writeable p _ => some p
  | .leave | .wild | .goOn _ => none

/-- `begin()` of the container, as a pointer. -/
def Memory.first? (m : Memory) (container : Container) : Option SockPtr :=
  (m.begin? container).map fun e => .pointer container e.1 e.2

namespace World

/-- A function on the stack is about `p`. -/
def Mentions (w : World) (p : SockPtr) : Prop := ∃ f ∈ w.stack, f.subject = some p

/-- The next step uses `p`. -/
def Uses (w : World) (p : SockPtr) : Prop :=
  match w.stack with
  | [] => False
  | .polling l :: _ => called? (pollStep w.mem.handler l) = some p
  | .closing container :: _ => w.mem.first? container = some p
  | f :: _ => f.subject = some p

/-- The next step is `close` on `p`. -/
def ClosesNext (w : World) (p : SockPtr) : Prop :=
  match w.stack with
  | .call (.close q) :: _ => q = p
  | .closing container :: _ => w.mem.first? container = some p
  | _ => False

/-- From `w`, with `f` on top of `rest`, to `t`: what is new on the stack is about the element of `f`
or about elements in their containers, and no element has been closed but by `close`. -/
structure Adds (f : Frame) (rest : List Frame) (w t : World) : Prop where
  names : ∃ new, t.stack = new ++ rest ∧ ∀ g ∈ new, ∀ q, g.subject = some q →
    f.subject = some q ∨ (t.mem.deref q).isSome
  shuts : ∀ q, ¬ w.ClosesNext q → t.log.countP (Event.shuts q) = w.log.countP (Event.shuts q)

section Combinators

variable {f g : Frame} {rest : List Frame} {w b : World} {p : SockPtr} {c : Connection}

theorem Adds.pop (f : Frame) (rest : List Frame) (w : World) :
    Adds f rest w { w with stack := rest } :=
  ⟨⟨[], rfl, by simp⟩, fun _ _ => rfl⟩

theorem Adds.push (h : Adds f rest w b)
    (hg : ∀ q, g.subject = some q → f.subject = some q ∨ (b.mem.deref q).isSome) :
    Adds f rest w (b.push g) := by
  obtain ⟨⟨new, hstack, hnew⟩, hshuts⟩ := h
  refine ⟨⟨g :: new, congrArg (g :: ·) hstack, fun g' hg' => ?_⟩, hshuts⟩
  rcases List.mem_cons.mp hg' with rfl | hg'
  · exact hg
  · exact hnew g' hg'

theorem Adds.note (h : Adds f rest w b) {e : Event} (he : ∀ q, e.shuts q = false) :
    Adds f rest w (b.note e) := by
  refine ⟨h.names, fun q hq => ?_⟩
  rw [← h.shuts q hq]
  exact List.countP_cons_of_neg (by simp [he q])

theorem Adds.setErrno (h : Adds f rest w b) (errno : Int) : Adds f rest w (b.setErrno errno) :=
  ⟨h.names, h.shuts⟩

theorem Adds.setReturned (h : Adds f rest w b) (result : Bool) :
    Adds f rest w (b.setReturned result) :=
  ⟨h.names, h.shuts⟩

/-- Elements stay in their containers. -/
theorem Adds.store (h : Adds f rest w b) {m : Memory}
    (hm : ∀ q, (b.mem.deref q).isSome → (m.deref q).isSome) :
    Adds f rest w { b with mem := m } := by
  obtain ⟨⟨new, hstack, hnew⟩, hshuts⟩ := h
  exact ⟨⟨new, hstack, fun g hg q hq => (hnew g hg q hq).imp_right (hm q)⟩, hshuts⟩

theorem Adds.crash (h : Adds f rest w b) (k : Crash) : Adds f rest w (b.push (.crash k)) :=
  h.push fun q hq => by simp [Frame.subject] at hq

theorem Adds.returning (h : Adds f rest w b) (result : Bool) :
    Adds f rest w (b.push (.returning result)) :=
  h.push fun q hq => by simp [Frame.subject] at hq

theorem Adds.executeOwner (h : Adds f rest w b) (o : Owner) (action : OwnerAction) (arg : Arg) :
    Adds f rest w (b.executeOwner o action arg) :=
  (h.note fun _ => rfl).push fun q hq => by simp [Frame.subject] at hq

theorem Adds.error (h : Adds f rest w b) (o : Owner) (fn : String) :
    Adds f rest w (b.error o fn) :=
  h.executeOwner _ _ _

theorem Adds.access {g : Connection → World} (h : Adds f rest w b)
    (hg : ∀ c, b.mem.deref p = some c → Adds f rest w (g c)) : Adds f rest w (b.access p g) := by
  cases hp : b.mem.deref p with
  | none =>
    rw [access_none hp]
    exact h.crash _
  | some c =>
    rw [access_some hp]
    exact hg c hp

theorem Adds.executeSocket (h : Adds f rest w b) (action : SocketAction) (arg : Arg) :
    Adds f rest w (b.executeSocket p action arg) := by
  refine h.access fun c hp => h.push fun q hq => .inr ?_
  obtain rfl : p = q := Option.some.inj hq
  exact Option.isSome_of_eq_some hp

theorem Adds.close (h : Adds f rest w b) (hcloses : w.ClosesNext p) (errno : Int) :
    Adds f rest w (b.close p errno) := by
  cases hp : b.mem.deref p with
  | none =>
    rw [World.close, access_none hp]
    exact h.crash _
  | some c =>
    by_cases hsock : c.sock < 0
    · rw [close_closed hp hsock]
      exact h
    · rw [close_open hp (not_lt.mp hsock)]
      have hmem : ∀ q, (b.mem.deref q).isSome →
          ((b.mem.closeSocket p c.sock).deref q).isSome := fun q hq =>
        Memory.isSome_modify (f := fun c => { c with sock := -1 }) hp rfl hq
      obtain ⟨⟨new, hstack, hnew⟩, hshuts⟩ := h
      refine ⟨⟨.execute _ :: new, congrArg (_ :: ·) hstack, fun g hg q hq => ?_⟩, fun q hq => ?_⟩
      · rcases List.mem_cons.mp hg with rfl | hg
        · obtain rfl : p = q := Option.some.inj hq
          exact .inr (hmem p (Option.isSome_of_eq_some hp))
        · exact (hnew g hg q hq).imp_right (hmem q)
      · have hne : (p == q) = false := by
          rw [beq_eq_false_iff_ne]
          rintro rfl
          exact hq hcloses
        rw [← hshuts q hq, List.countP_cons_of_neg (by simp [Event.shuts, hne]),
          List.countP_cons_of_neg (by simp [Event.shuts])]

end Combinators

section Steps

variable {w t : World} {i : Input} {f : Frame} {rest : List Frame} {p : SockPtr}

theorem callable_alive {call : Call} (h : w.callable call = true) {q : SockPtr}
    (hq : (Frame.call call).subject = some q) : (w.mem.deref q).isSome := by
  cases call with
  | accept p =>
    obtain rfl : p = q := Option.some.inj hq
    simp only [callable, Bool.and_eq_true] at h
    exact h.2
  | send p _ | sendFlush p | recv p | close p | on p _ _ =>
    obtain rfl : p = q := Option.some.inj hq
    exact h
  | _ => simp [Frame.subject] at hq

theorem Adds.makeSocket {container : Container} {fd : Int} {made : World → SockPtr → World}
    {failed : World → World} {b : World} (h : Adds f rest w b)
    (hmade : (b.mem.sockets container).contains fd = false →
      Adds f rest w (made ({ b with mem := (b.mem.openFd fd).addElement container fd }.note
        (.obtained container fd (some (b.mem.newPtr container fd)))) (b.mem.newPtr container fd)))
    (hfailed : ∀ lost, Adds f rest w lost → Adds f rest w (failed lost)) :
    Adds f rest w (b.makeSocket container fd made failed) := by
  unfold World.makeSocket Memory.insertSocket
  cases htaken : (b.mem.sockets container).contains fd with
  | true =>
    have hin : ((b.mem.openFd fd).sockets container).contains fd = true := htaken
    simp only [hin, if_true]
    exact hfailed _ ((h.store (m := b.mem.openFd fd) fun _ hq => hq).note fun _ => rfl)
  | false =>
    have hin : ((b.mem.openFd fd).sockets container).contains fd = false := htaken
    simp only [hin, if_false, Bool.false_eq_true]
    exact hmade htaken

theorem Adds.setUp {container : Container} {fd : Int} {setUp : SockPtr → Frame} {b : World}
    (h : Adds f rest w b) (hfree : (b.mem.sockets container).contains fd = false)
    (hsetUp : setUp = .listening ∨ setUp = .connecting) :
    Adds f rest w ({ b with
      mem := ((b.mem.openFd fd).addElement container fd).modify (b.mem.newPtr container fd)
        Connection.setUpWiring
      log := .obtained container fd (some (b.mem.newPtr container fd)) :: b.log }.push
        (setUp (b.mem.newPtr container fd))) := by
  have hadded := (h.store fun _ hq => Memory.isSome_added (f := Connection.setUpWiring) hfree
    (fun _ => rfl) (.inr hq)).note (e := .obtained container fd (some (b.mem.newPtr container fd)))
      fun _ => rfl
  refine hadded.push fun q hq => .inr ?_
  have heq : b.mem.newPtr container fd = q := by
    rcases hsetUp with rfl | rfl <;> exact Option.some.inj hq
  exact Memory.isSome_added hfree (fun _ => rfl) (.inl heq.symm)

theorem adds_sent {c : Connection} {b : World} (h : Adds f rest w b) (hp : b.mem.deref p = some c)
    {s : Sent SockPtr} (hnode : s.connection.node = c.node) (taken : Bytes) (errno : Int) :
    Adds f rest w (b.sent p s taken errno) := by
  unfold World.sent
  split
  · exact (h.setErrno errno).executeSocket _ _
  · refine (h.store fun q hq => ?_).note fun _ => rfl
    exact Memory.isSome_modify (f := fun _ => s.connection) hp hnode hq

theorem adds_recv {b : World} (h : Adds f rest w b) (hf : f.subject = some p)
    (result : Except Int Bytes) : Adds f rest w (b.recv p result) := by
  unfold World.recv
  split
  · exact (h.setErrno _).executeSocket _ _
  · exact h.push (g := .call (.close p)) fun _ hq => .inl (hf.trans hq)
  · exact h.executeSocket _ _

theorem adds_giveUp {b : World} (h : Adds f rest w b) (hf : f.subject = some p) (fn : String)
    (errno : Int) : Adds f rest w (b.giveUp p fn errno) :=
  (((h.setErrno errno).returning false).push (g := .call (.close p)) fun _ hq =>
    .inl (hf.trans hq)).error _ _

theorem invoke_adds {e : Execution} {exec : Callback} {below : List Frame}
    (hbelow : ∀ g ∈ below, ∃ e', g = .execute e' ∧ e'.list = e.list)
    (h : { w with stack := below ++ rest }.invoke e exec i = some t) :
    Adds (.execute e) rest w t := by
  have hnames : ∀ g ∈ below, ∀ q, g.subject = some q → (Frame.execute e).subject = some q := by
    intro g hg q hq
    obtain ⟨e', rfl, hlist⟩ := hbelow g hg
    simpa only [Frame.subject, hlist] using hq
  have hadds : Adds (.execute e) rest w { w with stack := below ++ rest } :=
    ⟨⟨below, rfl, fun g hg q hq => .inl (hnames g hg q hq)⟩, fun _ _ => rfl⟩
  have hlist : ∀ {p action}, e.list = .socket p action → (Frame.execute e).subject = some p := by
    intro p action hlist
    simp only [Frame.subject, hlist]
  unfold invoke at h
  split at h
  · obtain rfl := Option.some.inj h
    exact hadds.push fun q hq => by simp [Frame.subject] at hq
  · obtain rfl := Option.some.inj h
    exact ⟨⟨below, rfl, fun g hg q hq => .inl (hnames g hg q hq)⟩, fun _ _ =>
      List.countP_cons_of_neg (by simp [Event.shuts])⟩
  · obtain rfl := Option.some.inj h
    exact hadds.executeOwner _ _ _
  · next hl =>
    obtain rfl := Option.some.inj h
    exact hadds.push fun q hq => .inl ((hlist hl).trans hq)
  · next hl =>
    obtain rfl := Option.some.inj h
    exact hadds.push fun q hq => .inl ((hlist hl).trans hq)
  · next hl =>
    obtain rfl := Option.some.inj h
    exact hadds.push fun q hq => .inl ((hlist hl).trans hq)
  · obtain rfl := Option.some.inj h
    exact hadds.executeOwner _ _ _
  · exact absurd h (by simp)

theorem resume_adds {e : Execution} (h : { w with stack := rest }.resume e i = some t) :
    Adds (.execute e) rest w t := by
  rcases resume_cases h with ⟨-, rfl | ⟨k, rfl⟩⟩ | ⟨cb, -, ⟨-, rfl⟩ | ⟨-, hbody⟩⟩
  · exact .pop _ _ _
  · exact (Adds.pop _ _ _).crash _
  · exact (Adds.pop _ _ _).push fun q hq => .inl hq
  · refine invoke_adds (fun g hg => ?_) hbody
    unfold Execution.after at hg
    split at hg
    · simp at hg
    · exact ⟨e.next, List.mem_singleton.mp hg, rfl⟩

theorem perform_adds {call : Call} (hstack : w.stack = .call call :: rest)
    (h : { w with stack := rest }.perform call i = some t) : Adds (.call call) rest w t := by
  have hpop := Adds.pop (.call call) rest w
  unfold perform at h
  split at h
  · next server result =>
    obtain ⟨-, h⟩ := Option.ite_none_right_eq_some.mp h
    obtain rfl := Option.some.inj h
    cases result with
    | error errno => exact ((hpop.setErrno errno).returning false).error _ _
    | ok fd =>
      unfold World.listen
      refine hpop.makeSocket (fun hfree => ?_) fun lost hlost => (hlost.returning false).error _ _
      exact hpop.setUp hfree (.inl rfl)
  · next client result =>
    obtain ⟨-, h⟩ := Option.ite_none_right_eq_some.mp h
    obtain rfl := Option.some.inj h
    cases result with
    | error errno => exact ((hpop.setErrno errno).returning false).error _ _
    | ok fd =>
      unfold World.connect
      refine hpop.makeSocket (fun hfree => ?_) fun lost hlost => (hlost.returning false).error _ _
      exact hpop.setUp hfree (.inr rfl)
  · next p result =>
    split at h
    · next server _ =>
      obtain ⟨-, h⟩ := Option.ite_none_right_eq_some.mp h
      obtain rfl := Option.some.inj h
      refine hpop.access fun c _ => ?_
      split
      · exact hpop.crash _
      · cases result with
        | error errno => exact (hpop.setErrno errno).executeOwner _ _ _
        | ok fd =>
          dsimp only
          split
          · exact ((hpop.store (m := w.mem.openFd fd) fun _ hq => hq).note fun _ => rfl).crash _
          · refine hpop.makeSocket (fun hfree => ?_) fun lost hlost => hlost.executeOwner _ _ _
            have hadded := (hpop.store fun _ hq => Memory.isSome_added
              (f := Connection.acceptWiring) hfree (fun _ => rfl) (.inr hq)).note
                (e := .obtained (.clients server) fd (some (w.mem.newPtr (.clients server) fd)))
                  fun _ => rfl
            exact hadded.executeOwner _ _ _
    · exact absurd h (by simp)
  · next p message result errno =>
    obtain ⟨-, h⟩ := Option.ite_none_right_eq_some.mp h
    obtain rfl := Option.some.inj h
    refine hpop.access fun c hp => adds_sent hpop hp ?_ _ _
    obtain ⟨⟨buffer, hbuffer⟩, -⟩ := c.send_frame w.mem.handler message result
    have hnode := congrArg Connection.node hbuffer
    exact hnode
  · next p result errno =>
    obtain ⟨-, h⟩ := Option.ite_none_right_eq_some.mp h
    obtain rfl := Option.some.inj h
    refine hpop.access fun c hp => adds_sent hpop hp ?_ _ _
    obtain ⟨⟨buffer, hbuffer⟩, -⟩ := c.sendFlush_frame w.mem.handler result
    have hnode := congrArg Connection.node hbuffer
    exact hnode
  · obtain ⟨-, h⟩ := Option.ite_none_right_eq_some.mp h
    obtain rfl := Option.some.inj h
    exact adds_recv hpop rfl _
  · obtain rfl := Option.some.inj h
    exact hpop.close (by simp only [ClosesNext, hstack]) _
  · obtain rfl := Option.some.inj h
    exact hpop.push fun q hq => by simp [Frame.subject] at hq
  · next o =>
    obtain rfl := Option.some.inj h
    cases o with
    | server id =>
      exact (hpop.push fun q hq => by simp [Frame.subject] at hq).push fun q hq => by
        simp [Frame.subject] at hq
    | client id => exact hpop.push fun q hq => by simp [Frame.subject] at hq
  · next p action flags =>
    obtain rfl := Option.some.inj h
    refine hpop.access fun c hp => hpop.store fun q hq => ?_
    exact Memory.isSome_modify (f := fun c => c.on action .user flags) hp rfl hq
  · obtain rfl := Option.some.inj h
    exact ⟨⟨[], rfl, by simp⟩, fun _ _ => rfl⟩
  · split at h
    · obtain rfl := Option.some.inj h
      exact hpop.setReturned _
    · obtain ⟨-, h⟩ := Option.ite_none_right_eq_some.mp h
      obtain rfl := Option.some.inj h
      refine (hpop.store fun q hq => ?_).push fun q hq => by simp [Frame.subject] at hq
      exact hq
  · exact absurd h (by simp)

theorem step_adds (hstack : w.stack = f :: rest) (h : w.step i = some t) : Adds f rest w t := by
  have hpop := Adds.pop f rest w
  unfold step at h
  simp only [hstack] at h
  split at h
  · next calls call =>
    obtain ⟨hc, h⟩ := Option.ite_none_right_eq_some.mp h
    obtain rfl := Option.some.inj h
    refine (hpop.push fun q hq => by simp [Frame.subject] at hq).push fun q hq => .inr ?_
    exact callable_alive hc hq
  · obtain rfl := Option.some.inj h
    exact hpop.setErrno _
  · exact perform_adds hstack h
  · exact resume_adds h
  · obtain rfl := Option.some.inj h
    exact hpop.executeOwner _ _ _
  · next container errno =>
    obtain rfl := Option.some.inj h
    unfold closeNext
    split
    · exact hpop
    · next key c hbegin =>
      have hbegin : w.mem.begin? container = some (key, c) := hbegin
      have hcloses : w.ClosesNext (.pointer container key c) := by
        simp only [ClosesNext, hstack, Memory.first?, hbegin, Option.map_some]
      exact (hpop.push fun q hq => by simp [Frame.subject] at hq).close hcloses _
  · next p failure =>
    unfold listenRest at h
    split at h
    · obtain rfl := Option.some.inj h
      refine hpop.access fun c hp => ((hpop.store fun q hq => ?_).returning true).executeOwner _ _ _
      exact Memory.isSome_modify (f := Connection.listenWiring) hp rfl hq
    · obtain rfl := Option.some.inj h
      exact adds_giveUp hpop rfl _ _
    · next errno =>
      obtain rfl := Option.some.inj h
      have hclose := ((hpop.setErrno errno).returning false).push (g := .call (.close p))
        fun q hq => .inl hq
      exact (hclose.push fun q hq => by simp [Frame.subject] at hq).executeSocket _ _
    · obtain rfl := Option.some.inj h
      exact adds_giveUp hpop rfl _ _
    · exact absurd h (by simp)
  · next p failure =>
    unfold connectRest at h
    split at h
    · obtain rfl := Option.some.inj h
      refine hpop.access fun c hp => ((hpop.store fun q hq => ?_).returning true).executeOwner _ _ _
      exact Memory.isSome_modify (f := Connection.connectWiring) hp rfl hq
    · obtain rfl := Option.some.inj h
      exact adds_giveUp hpop rfl _ _
    · next errno =>
      obtain rfl := Option.some.inj h
      have hraise := ((hpop.setErrno errno).returning false).push
        (g := .raise p.container.owner "listen") fun q hq => by simp [Frame.subject] at hq
      exact hraise.push fun q hq => .inl hq
    all_goals exact absurd h (by simp)
  · next l =>
    obtain rfl := Option.some.inj h
    unfold pollNext
    split
    · exact hpop.setReturned _
    · exact hpop.crash _
    · exact hpop.push fun q hq => by simp [Frame.subject] at hq
    all_goals
      exact (hpop.push fun q hq => by simp [Frame.subject] at hq).executeSocket _ _
  · obtain rfl := Option.some.inj h
    exact hpop.setReturned _
  · exact absurd h (by simp)

/-- A function that is about an element which is not in its container was on the stack before. -/
theorem step_mentions (h : w.step i = some t) (hp : t.Mentions p) :
    w.Mentions p ∨ (t.mem.deref p).isSome := by
  obtain ⟨g, hg, hsubject⟩ := hp
  cases hstack : w.stack with
  | nil =>
    simp only [step, hstack] at h
    split at h
    · obtain ⟨hc, h⟩ := Option.ite_none_right_eq_some.mp h
      obtain rfl := Option.some.inj h
      rw [push, hstack, List.mem_singleton] at hg
      exact .inr (callable_alive hc (hg ▸ hsubject))
    · exact absurd h (by simp)
  | cons f rest =>
    obtain ⟨new, hnew, hnames⟩ := (step_adds hstack h).names
    rw [hnew] at hg
    rcases List.mem_append.mp hg with hg | hg
    · rcases hnames g hg p hsubject with hf | halive
      · exact .inl ⟨f, hstack ▸ List.mem_cons_self, hf⟩
      · exact .inr halive
    · exact .inl ⟨g, hstack ▸ List.mem_cons_of_mem _ hg, hsubject⟩

/-- The functions on the stack are about elements that have been made already. -/
theorem mentioned_of_reach {owners : Owner → OwnerAction → Action Unit} {invalid : UShort}
    {ok : World → Input → Prop} (h : Machine.Reach step ok (start owners invalid) w)
    (hp : w.Mentions p) : p.node < w.mem.nextNode := by
  have hinv : w.Sound ∧ ∀ p, w.Mentions p → p.node < w.mem.nextNode := by
    apply h.invariant
    · refine ⟨start_sound owners invalid, ?_⟩
      rintro p ⟨f, hf, -⟩
      exact absurd hf (List.not_mem_nil)
    · rintro u i v ⟨hs, hu⟩ - hstep
      have hmove := step_move hstep
      have hv := hmove.sound hs
      refine ⟨hv, fun p hp => ?_⟩
      rcases step_mentions hstep hp with hp | hp
      · exact (hu p hp).trans_le (hmove.ages hs).nextNode_le
      · obtain ⟨c, hc⟩ := Option.isSome_iff_exists.mp hp
        exact hv.mem.node_lt p c hc
  exact hinv.2 p hp

theorem called_mem {l : PollLoop} (h : called? (pollStep w.mem.handler l) = some p) :
    p ∈ w.mem.handler.socketPtrs := by
  unfold pollStep at h
  split at h
  · split at h
    · simp [called?] at h
    · split at h
      · simp [called?] at h
      · split at h
        · simp [called?] at h
        · split at h
          · split at h
            · simp [called?] at h
            · next hget =>
              obtain rfl := Option.some.inj h
              exact List.mem_of_getElem? hget
          · simp [called?] at h
  · split at h
    · simp [called?] at h
    · split at h
      · simp [called?] at h
      · split at h
        · split at h
          · simp [called?] at h
          · next hget =>
            obtain rfl := Option.some.inj h
            exact List.mem_of_getElem? hget
        · simp [called?] at h
  · split at h <;> simp [called?] at h

/-- A step uses elements that functions on the stack are about, and elements in their containers. -/
theorem Uses.mentioned (hc : w.mem.Corresponds) (h : w.Uses p) :
    w.Mentions p ∨ (w.mem.deref p).isSome := by
  unfold Uses at h
  split at h
  · exact h.elim
  · have hmem := called_mem h
    rw [← hc.aligned.map_snd_registrations, List.mem_map] at hmem
    obtain ⟨⟨fd, q⟩, hentry, rfl⟩ := hmem
    obtain ⟨c, hq, -⟩ := hc.entry fd q hentry
    exact .inr (Option.isSome_of_eq_some hq)
  · next container _ _ =>
    obtain ⟨⟨key, c⟩, hbegin, rfl⟩ := Option.map_eq_some_iff.mp h
    exact .inr (Option.isSome_of_eq_some (Memory.deref_pointer (Memory.begin?_eq_some hbegin)))
  · next f rest _ _ hstack => exact .inl ⟨f, hstack ▸ List.mem_cons_self, h⟩

/-- An open element stays open in every step that does not close it. -/
theorem stays_open (hs : w.Sound) {c : Connection} (hp : w.mem.deref p = some c) (hopen : 0 ≤ c.sock)
    (hnot : ¬ w.ClosesNext p) (h : w.step i = some t) :
    ∃ c', t.mem.deref p = some c' ∧ 0 ≤ c'.sock := by
  have hshut := ((step_move h).balanced hs (hs.mem.node_lt p c hp)).shut
  have hlog : t.log.countP (Event.shuts p) = w.log.countP (Event.shuts p) := by
    cases hstack : w.stack with
    | nil =>
      simp only [step, hstack] at h
      split at h
      · obtain ⟨-, h⟩ := Option.ite_none_right_eq_some.mp h
        obtain rfl := Option.some.inj h
        rfl
      · exact absurd h (by simp)
    | cons f rest => exact (step_adds hstack h).shuts p hnot
  rw [shutCount, shutCount, hlog, hp, Option.elim_some, if_pos hopen] at hshut
  cases hc : t.mem.deref p with
  | none => simp [hc] at hshut
  | some c' =>
    refine ⟨c', rfl, ?_⟩
    by_contra hclosed
    simp [hc, hclosed] at hshut

end Steps

end World

end Unisock.Tcp
