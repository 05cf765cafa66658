import Unisock.Tcp.Serving

/-! A round of `poll_impl` with all that it calls: `accept`, `recv` and `send_flush` of the elements, the
hooks of their owners, and what these close.  Every round returns, and uses no element that has gone. -/

namespace Unisock.Tcp

open Unisock.Events

namespace Memory

/-- From `m` to `m'`, an element has been called back: one connection more at most, and the counter of
the handler tells whether entries have come or gone. -/
structure Serves (m m' : Memory) : Prop where
  fitted : m'.Fitted
  counted : ∃ k, m'.handler.invalid = m.handler.invalid + BitVec.ofNat 16 k ∧
    k ≤ m.handler.count + 2 ∧ (k = 0 → m'.handler.count = m.handler.count)

variable {m m' m'' : Memory}

theorem Sheds.serves (h : m''.Sheds m') (hm : m''.Fitted) (hhandler : m''.handler = m.handler) :
    m.Serves m' where
  fitted := h.fitted hm
  counted := by
    obtain ⟨k, hinvalid, hcount, hsame⟩ := hhandler ▸ h.counted
    exact ⟨k, hinvalid, by omega, hsame⟩

/-- The counter is the same only if nothing has come or gone. -/
theorem Serves.count_eq (h : m.Serves m') (hcount : m.handler.count + 2 < 65536)
    (hinvalid : m'.handler.invalid = m.handler.invalid) : m'.handler.count = m.handler.count := by
  obtain ⟨k, hk, hle, hsame⟩ := h.counted
  refine hsame ?_
  have hzero : BitVec.ofNat 16 k = 0#16 := BitVec.add_right_eq_self.mp (hk.symm.trans hinvalid)
  have hnat := congrArg BitVec.toNat hzero
  rwa [BitVec.toNat_ofNat, Nat.mod_eq_of_lt (by omega)] at hnat

theorem Fitted.leaked (hm : m.Fitted) (fd : Int) : (m.openFd fd).Fitted where
  toSound := hm.toSound.leaked fd
  wired := hm.wired

/-- The memory with a connection that a server has accepted. -/
def accepted (m : Memory) (server : Nat) (fd : Int) : Memory :=
  ((m.openFd fd).addElement (.clients server) fd).modify (m.newPtr (.clients server) fd)
    Connection.acceptWiring

theorem Fitted.accepted (hm : m.Fitted) {server : Nat} {fd : Int} (hfd : 0 ≤ fd)
    (hnew : fd ∉ m.descriptors) (hfree : (m.sockets (.clients server)).contains fd = false) :
    (m.accepted server fd).Fitted where
  toSound := by
    have hadded : ((m.openFd fd).addElement (.clients server) fd).Sound :=
      Changes.sound hm.toSound (.single (.added hfd hnew hfree))
    have hderef := (deref_addElement (m := m.openFd fd) hfree _).trans (if_pos rfl)
    exact hadded.wired hderef rfl rfl (World.acceptWiring_erase _)
  wired q d hd := by
    rw [Memory.accepted, deref_added (f := Connection.acceptWiring) hfree fun _ => rfl] at hd
    split at hd
    · next hq =>
      obtain rfl := Option.some.inj hd
      rw [hq]
      rfl
    · exact hm.wired q d hd

theorem Sheds.accepted {server : Nat} {fd : Int} (h : (m.accepted server fd).Sheds m')
    (hm : (m.accepted server fd).Fitted) : m.Serves m' where
  fitted := h.fitted hm
  counted := by
    obtain ⟨k, hinvalid, hcount, -⟩ := h.counted
    have hadded : (m.accepted server fd).handler.count = m.handler.count + 1 := by
      show (m.handler.sockets ++ [_]).length = _
      rw [List.length_append]
      rfl
    refine ⟨k + 1, ?_, by omega, fun h => absurd h (Nat.succ_ne_zero k)⟩
    have hone : (m.accepted server fd).handler.invalid = m.handler.invalid + 1 := rfl
    rw [hinvalid, hone, Nat.add_comm k 1, BitVec.ofNat_add, BitVec.add_assoc]
    rfl

/-- Each position of the vectors has the object of an open element. -/
theorem Corresponds.at_position (hc : m.Corresponds) {it : Nat} (hit : it < m.handler.count) :
    ∃ s p c, m.handler.sockets[it]? = some s ∧ m.handler.socketPtrs[it]? = some p ∧
      m.deref p = some c ∧ 0 ≤ c.sock := by
  have hit : it < m.handler.sockets.length := hit
  have hptrs : it < m.handler.socketPtrs.length := hc.aligned ▸ hit
  have hs := List.getElem?_eq_getElem hit
  have hp := List.getElem?_eq_getElem hptrs
  have hreg : (m.handler.sockets[it].fd, m.handler.socketPtrs[it]) ∈ m.handler.registrations := by
    refine List.mem_of_getElem? (i := it) ?_
    rw [HandlerImpl.registrations, List.getElem?_zip_eq_some]
    exact ⟨by rw [HandlerImpl.fds, List.getElem?_map, hs]; rfl, hp⟩
  obtain ⟨c, hc, -, -, hopen⟩ := hc.entry _ _ hreg
  exact ⟨_, _, c, hs, hp, hc, hopen⟩

end Memory

namespace World

variable {w t : World} {rest : List Frame} {p : SockPtr} {c : Connection}

/-! ### Lists of one callback -/

/-- A list whose only callback is `exec`. -/
theorem Discipline.single_ends {D : Discipline} {R : Stored → Prop} {action : SocketAction} {arg : Arg}
    {exec : Callback} (hbase : D.base ≤ w.stack.length) (hp : w.mem.deref p = some c)
    (hlist : c.actions action = [⟨exec, ActionFlag.default⟩])
    (hbody : D.BodyEnds { w with stack := .execute ⟨.socket p action, 1, 1, arg⟩ :: w.stack }
      ⟨.socket p action, 0, 1, arg⟩ exec fun t => R t.stored) :
    D.Ends w.stack (fun t => R t.stored) (w.executeSocket p action arg) := by
  have hplain : ∀ flag,
      (⟨exec, ActionFlag.default⟩ : ActionCallback Callback).has flag = false := by
    simp [ActionCallback.has, ActionFlag.default]
  have hafter : Execution.after ⟨.socket p action, 0, 1, arg⟩ ⟨exec, ActionFlag.default⟩ =
      [.execute ⟨.socket p action, 1, 1, arg⟩] := if_neg (by simp [hplain])
  rw [executeSocket_some hp, hlist]
  have hl : (w.push (.execute ⟨.socket p action, 0, 1, arg⟩)).callbacks (.socket p action) =
      some [⟨exec, ActionFlag.default⟩] := by
    show (w.mem.deref p).map _ = _
    rw [hp, Option.map_some, hlist]
  refine turn_ends (w := w.push (.execute ⟨.socket p action, 0, 1, arg⟩))
    (e := ⟨.socket p action, 0, 1, arg⟩) rfl hbase hl rfl rfl
    (fun h => absurd ((hplain _).symm.trans h) (by decide)) fun _ => ?_
  · rw [hafter]
    exact ⟨hbody.1, fun i t ht => (hbody.2 i t ht).bind fun u hu =>
      end_ends hu.1 hbase le_rfl hu.2⟩

/-- A callback that calls a function on its element. -/
theorem Discipline.calls_ends {D : Discipline} {R : World → Prop} {e : Execution} {exec : Callback}
    (call : Call) (hexec : ∀ i t, w.invoke e exec i = some t ↔ i = .go ∧ t = w.push (.call call))
    (hcall : D.Ends w.stack R (w.push (.call call))) : D.BodyEnds w e exec R := by
  refine ⟨⟨.go, _, trivial, (hexec _ _).mpr ⟨rfl, rfl⟩⟩, fun i t ht => ?_⟩
  obtain ⟨rfl, rfl⟩ := (hexec i t).mp ht
  exact hcall

/-! ### What the elements do when they are called back -/

theorem served_hooks (hm : w.mem.Fitted) : serving.HooksEnd w := serves_end _ w hm le_rfl

theorem executeServed_ends (hm : w.mem.Fitted) (o : Owner) (action : OwnerAction) (arg : Arg) :
    serving.Ends w.stack (serving.Leaves w) (w.executeOwner o action arg) :=
  Discipline.executeOwner_ends (Nat.zero_le _) (served_hooks hm)

/-- A message is handed to the hooks of the owner. -/
theorem received_ends (hm : w.mem.Fitted) (hp : w.mem.deref p = some c) (bytes : Bytes) :
    serving.Ends w.stack (serving.Leaves w) (w.executeSocket p .recv (.bytes bytes)) := by
  have hlist := congrFun (hm.wired p c hp) .recv
  have handed : c.actions .recv = [⟨.receive, ActionFlag.default⟩] →
      serving.Ends w.stack (serving.Leaves w) (w.executeSocket p .recv (.bytes bytes)) := by
    intro hlist
    refine Discipline.single_ends (R := serving.effect w.stored) (Nat.zero_le _) hp hlist
      ⟨⟨.go, _, trivial, (invoke_receive rfl rfl).mpr ⟨rfl, rfl⟩⟩, fun i t ht => ?_⟩
    obtain ⟨-, rfl⟩ := (invoke_receive rfl rfl).mp ht
    exact executeServed_ends (w := { w with
      stack := .execute ⟨.socket p .recv, 1, 1, .bytes bytes⟩ :: w.stack }) hm _ _ _
  cases hk : p.container with
  | listeners server =>
    rw [hk] at hlist
    rw [executeSocket_some hp, hlist]
    exact Discipline.end_ends rfl (Nat.zero_le _) le_rfl (serving.refl _)
  | clients server => exact handed (hlist.trans (by rw [hk]; rfl))
  | connections client => exact handed (hlist.trans (by rw [hk]; rfl))

theorem recv_ends (hm : w.mem.Fitted) (hp : w.mem.deref p = some c)
    (hstack : w.stack = .call (.recv p) :: rest) : serving.Ends rest (serving.Leaves w) w := by
  refine .later ⟨.received (.error 0), _, trivial,
    (step_recv hstack).mpr ⟨_, rfl, rfl, rfl⟩⟩ fun i t _ ht => ?_
  obtain ⟨result, -, -, rfl⟩ := (step_recv hstack).mp ht
  match result with
  | .error errno => exact error_ends (w := { w with errno := errno, stack := rest }) hm hp _
  | .ok [] =>
    -- the peer has closed the connection
    refine Discipline.close_call (w := { w with stack := .call (.close p) :: rest }) rfl
      (Nat.zero_le _) fun errno => ?_
    have hends := closeServed_ends (w := { w with stack := rest }) (fun m _ => serves_end m) hm hp
      errno
    exact hends.mono fun u hu => ⟨hu.1, hu.2.1⟩
  | .ok (b :: bytes) => exact received_ends (w := { w with stack := rest }) hm hp _

theorem step_accept {server : Nat} {i : Input} (hlistener : p.container = .listeners server)
    (hstack : w.stack = .call (.accept p) :: rest) :
    w.step i = some t ↔ ∃ result, i = .opened result ∧ w.canOpen result = true ∧
      t = { w with stack := rest }.accept p server result := by
  rw [step_call hstack]
  cases i with
  | opened result =>
    simp only [perform, hlistener, Option.ite_none_right_eq_some, Option.some.injEq,
      Input.opened.injEq, eq_comm (b := t)]
    constructor
    · rintro ⟨hcan, heq⟩
      exact ⟨result, rfl, hcan, heq⟩
    · rintro ⟨_, rfl, h⟩
      exact h
  | _ => simp [perform]

theorem accept_ends {server : Nat} (hm : w.mem.Fitted) (hp : w.mem.deref p = some c)
    (hopen : 0 ≤ c.sock) (hlistener : p.container = .listeners server)
    (hstack : w.stack = .call (.accept p) :: rest) :
    serving.Ends rest (fun t => w.mem.Serves t.mem) w := by
  -- no connection is made
  have failed : ∀ v : World, v.stack = rest → v.mem.Fitted → v.mem.handler = w.mem.handler →
      ∀ o action arg,
        serving.Ends rest (fun t => w.mem.Serves t.mem) (v.executeOwner o action arg) := by
    rintro v rfl hv hhandler o action arg
    have hends := executeServed_ends hv o action arg
    exact hends.mono fun u hu => ⟨hu.1, Memory.Sheds.serves hu.2.2 hv hhandler⟩
  refine .later ⟨.opened (.error 0), _, by simp [serving, ServeHooks],
    (step_accept hlistener hstack).mpr ⟨_, rfl, rfl, rfl⟩⟩ fun i t hok ht => ?_
  obtain ⟨result, rfl, hcan, rfl⟩ := (step_accept hlistener hstack).mp ht
  unfold World.accept
  rw [access_some (w := { w with stack := rest }) hp, if_neg (not_lt.mpr hopen)]
  cases result with
  | error errno => exact failed { w with errno := errno, stack := rest } rfl hm rfl _ _ _
  | ok fd =>
    have hopens := canOpen_opens rfl hcan
    have hfd : ¬ fd ≤ 0 := fun hle => hok (by rw [show fd = 0 by have := hopens.2.1; omega])
    simp only [if_neg hfd]
    unfold makeSocket Memory.insertSocket
    cases htaken : (w.mem.sockets (.clients server)).contains fd with
    | true =>
      have hin : ((w.mem.openFd fd).sockets (.clients server)).contains fd = true := htaken
      simp only [hin, if_true]
      exact failed { w with
        mem := w.mem.openFd fd
        log := .obtained (.clients server) fd none :: w.log
        stack := rest } rfl (hm.leaked fd) rfl _ _ _
    | false =>
      have hin : ((w.mem.openFd fd).sockets (.clients server)).contains fd = false := htaken
      simp only [hin, if_false, Bool.false_eq_true]
      have hfitted := hm.accepted hopens.2.1 hopens.2.2 htaken
      have hends := executeServed_ends (w := { w with
        mem := w.mem.accepted server fd
        log := .obtained (.clients server) fd (some (w.mem.newPtr (.clients server) fd)) :: w.log
        stack := rest }) hfitted (.server server) .accept
          (.connection (w.mem.newPtr (.clients server) fd))
      exact hends.mono fun u hu => ⟨hu.1, Memory.Sheds.accepted hu.2.2 hfitted⟩

theorem readable_ends (hm : w.mem.Fitted) (hp : w.mem.deref p = some c) (hopen : 0 ≤ c.sock) :
    serving.Ends w.stack (fun t => w.mem.Serves t.mem) (w.executeSocket p .readable .none) := by
  have hlist := congrFun (hm.wired p c hp) .readable
  -- below the call, what is left of the list
  let above : List Frame := .execute ⟨.socket p .readable, 1, 1, .none⟩ :: w.stack
  have receives : c.actions .readable = [⟨.recv, ActionFlag.default⟩] →
      serving.Ends w.stack (fun t => w.mem.Serves t.mem) (w.executeSocket p .readable .none) := by
    intro hlist
    refine Discipline.single_ends (R := fun s => w.mem.Serves s.mem) (Nat.zero_le _) hp hlist
      (Discipline.calls_ends (.recv p) (fun i t => ?_) ?_)
    · cases i <;> simp [invoke, eq_comm (b := t)]
    · have hends := recv_ends (w := { w with stack := .call (.recv p) :: above }) hm hp rfl
      exact hends.mono fun u hu => ⟨hu.1, Memory.Sheds.serves hu.2.2 hm rfl⟩
  cases hk : p.container with
  | listeners server =>
    refine Discipline.single_ends (R := fun s => w.mem.Serves s.mem) (Nat.zero_le _) hp
      (hlist.trans (by rw [hk]; rfl)) (Discipline.calls_ends (.accept p) (fun i t => ?_) ?_)
    · cases i <;> simp [invoke, eq_comm (b := t)]
    · exact accept_ends (w := { w with stack := .call (.accept p) :: above }) hm hp hopen hk rfl
  | clients server => exact receives (hlist.trans (by rw [hk]; rfl))
  | connections client => exact receives (hlist.trans (by rw [hk]; rfl))

theorem writeable_ends (hm : w.mem.Fitted) (hp : w.mem.deref p = some c) :
    serving.Ends w.stack (fun t => w.mem.Serves t.mem) (w.executeSocket p .writeable .none) := by
  have hlist := congrFun (hm.wired p c hp) .writeable
  have nothing : c.actions .writeable = [] →
      serving.Ends w.stack (fun t => w.mem.Serves t.mem) (w.executeSocket p .writeable .none) := by
    intro hlist
    rw [executeSocket_some hp, hlist]
    exact Discipline.end_ends rfl (Nat.zero_le _) le_rfl ((Memory.Sheds.refl _).serves hm rfl)
  cases hk : p.container with
  | clients server =>
    refine Discipline.single_ends (R := fun s => w.mem.Serves s.mem) (Nat.zero_le _) hp
      (hlist.trans (by rw [hk]; rfl)) (Discipline.calls_ends (.sendFlush p) (fun i t => ?_) ?_)
    · cases i <;> simp [invoke, eq_comm (b := t)]
    · have hends := sendFlushServed_ends (w := { w with
        stack := .call (.sendFlush p) :: .execute ⟨.socket p .writeable, 1, 1, .none⟩ :: w.stack })
        hm hp rfl
      exact hends.mono fun u hu => ⟨hu.1, Memory.Sheds.serves hu.2.2 hm rfl⟩
  | listeners server => exact nothing (hlist.trans (by rw [hk]; rfl))
  | connections client => exact nothing (hlist.trans (by rw [hk]; rfl))

/-! ### The loop -/

section Loop

variable {l next : PollLoop} {R : World → Prop}

theorem invalid_eq {h : Handler SockPtr} {ref : UShort} (hsame : ¬ h.refHasChanged ref = true) :
    h.invalid = ref := by
  rw [Bool.not_eq_true, Handler.refHasChanged, bne_eq_false_iff_eq] at hsame
  exact hsame.symm

theorem Discipline.polling_turn {D : Discipline} (hstack : w.stack = .polling l :: rest)
    (hrest : D.base ≤ rest.length) (hnext : D.Ends rest R ({ w with stack := rest }.pollNext l)) :
    D.Ends rest R w := by
  have hstep : ∀ i, w.step i = some ({ w with stack := rest }.pollNext l) := fun i => by
    cases i <;> simp [step, hstack]
  refine .later ⟨.go, _, ok_of_stack hstack hrest trivial, hstep _⟩ fun i t _ ht => ?_
  obtain rfl := Option.some.inj ((hstep i).symm.trans ht)
  exact hnext

theorem leave_ends (hstack : w.stack = .polling l :: rest)
    (hturn : pollStep w.mem.handler l = .leave)
    (hR : R ({ w with stack := rest }.setReturned true)) :
    serving.Ends rest R w := by
  refine Discipline.polling_turn hstack (Nat.zero_le _) ?_
  rw [pollNext, hturn]
  exact .now ⟨rfl, hR⟩

theorem goOn_ends (hstack : w.stack = .polling l :: rest)
    (hturn : pollStep w.mem.handler l = .goOn next)
    (hnext : serving.Ends rest R { w with stack := .polling next :: rest }) :
    serving.Ends rest R w := by
  refine Discipline.polling_turn hstack (Nat.zero_le _) ?_
  rw [pollNext, hturn]
  exact hnext

/-- The loop goes on with the next entry only where the counter tells of no change. -/
theorem written_ends (hphase : l.phase = .written) (hstack : w.stack = .polling l :: rest)
    (hR : R ({ w with stack := rest }.setReturned true))
    (hnext : w.mem.handler.invalid = l.handlerRef → ∀ next : PollLoop, next.it = l.it + 1 →
      next.phase = .entry → serving.Ends rest R { w with stack := .polling next :: rest }) :
    serving.Ends rest R w := by
  by_cases hleave : (l.nChanges - 1 = 0 || w.mem.handler.refHasChanged l.handlerRef) = true
  · exact leave_ends hstack (by simp only [pollStep, hphase, hleave, if_true]) hR
  · have hturn : pollStep w.mem.handler l =
        .goOn { l with it := l.it + 1, nChanges := l.nChanges - 1, phase := .entry } := by
      simp only [pollStep, hphase, hleave, if_false, Bool.false_eq_true]
    have hsame : w.mem.handler.invalid = l.handlerRef :=
      invalid_eq fun hchanged => hleave (by rw [hchanged, Bool.or_true])
    exact goOn_ends hstack hturn (hnext hsame _ rfl rfl)

theorem read_ends (hphase : l.phase = .read) (hm : w.mem.Fitted)
    (hit : w.mem.handler.invalid = l.handlerRef →
      l.it < w.mem.handler.count ∧ w.mem.handler.count + 2 < 65536)
    (hstack : w.stack = .polling l :: rest) (hR : ∀ t : World, t.mem.Fitted → R t)
    (hnext : w.mem.handler.invalid = l.handlerRef → ∀ t : World, t.mem.Fitted →
      t.mem.handler.count = w.mem.handler.count → ∀ next : PollLoop, next.it = l.it + 1 →
      next.phase = .entry → t.stack = .polling next :: rest → serving.Ends rest R t) :
    serving.Ends rest R w := by
  by_cases hchanged : w.mem.handler.refHasChanged l.handlerRef = true
  · exact leave_ends hstack (by simp only [pollStep, hphase, hchanged, if_true]) (hR _ hm)
  · have hsame : w.mem.handler.invalid = l.handlerRef := invalid_eq hchanged
    obtain ⟨hlt, hcount⟩ := hit hsame
    obtain ⟨s, p, c, hs, hp, hc, -⟩ := hm.at_position hlt
    let next : PollLoop := { l with phase := .written }
    -- after `on_writeable`, if it is called
    have written : ∀ t : World, t.stack = .polling next :: rest → w.mem.Serves t.mem →
        serving.Ends rest R t := fun t ht hserves =>
      written_ends (l := next) rfl ht (hR _ hserves.fitted) fun hinvalid next' hit' hphase' =>
        hnext hsame { t with stack := .polling next' :: rest } hserves.fitted
          (hserves.count_eq hcount (hinvalid.trans hsame.symm)) next' hit' hphase' rfl
    by_cases hout : hasBit s.revents POLLOUT = true
    · have hturn : pollStep w.mem.handler l = .writeable p next := by
        simp only [pollStep, hphase, hchanged, hs, hp, hout, if_true, if_false, Bool.false_eq_true,
          next]
      refine Discipline.polling_turn hstack (Nat.zero_le _) ?_
      rw [pollNext, hturn]
      have hends := writeable_ends (w := { w with stack := .polling next :: rest }) hm hc
      exact hends.bind fun t ht => written t ht.1 ht.2
    · have hturn : pollStep w.mem.handler l = .goOn next := by
        simp only [pollStep, hphase, hchanged, hs, hout, if_false, Bool.false_eq_true, next]
      exact goOn_ends hstack hturn (written _ rfl ((Memory.Sheds.refl _).serves hm rfl))

/-- The loop of `poll_impl` ends: by induction on the entries that are left, for it goes on only where
none has come or gone. -/
theorem entry_ends (hphase : l.phase = .entry) (hm : w.mem.Fitted)
    (hcount : w.mem.handler.count + 2 < 65536) (hit : l.it ≤ w.mem.handler.count)
    (hstack : w.stack = .polling l :: rest) (hR : ∀ t : World, t.mem.Fitted → R t) :
    serving.Ends rest R w := by
  induction hn : w.mem.handler.count - l.it generalizing w l with
  | zero =>
    have hend : l.it = w.mem.handler.sockets.length :=
      Nat.le_antisymm hit (Nat.sub_eq_zero_iff_le.mp hn)
    exact leave_ends hstack (by simp only [pollStep, hphase, if_pos hend]) (hR _ hm)
  | succ n ih =>
    have hlt : l.it < w.mem.handler.count := by omega
    have hne : l.it ≠ w.mem.handler.sockets.length := Nat.ne_of_lt hlt
    obtain ⟨s, p, c, hs, hp, hc, hopen⟩ := hm.at_position hlt
    -- with the next entry
    have again : ∀ t : World, t.mem.Fitted → t.mem.handler.count = w.mem.handler.count →
        ∀ next : PollLoop, next.it = l.it + 1 → next.phase = .entry →
        t.stack = .polling next :: rest → serving.Ends rest R t := by
      intro t ht hsame next hit' hphase' htstack
      exact ih hphase' ht (hsame ▸ hcount) (by omega) htstack (by omega)
    let next : PollLoop := { l with handlerRef := w.mem.handler.getRef, phase := .read }
    -- after `on_readable`, if it is called
    have read : ∀ t : World, t.stack = .polling next :: rest → w.mem.Serves t.mem →
        serving.Ends rest R t := by
      intro t ht hserves
      have hsame : t.mem.handler.invalid = next.handlerRef →
          t.mem.handler.count = w.mem.handler.count := hserves.count_eq hcount
      refine read_ends (l := next) rfl hserves.fitted (fun hinvalid => ?_) ht hR ?_
      · rw [hsame hinvalid]
        exact ⟨hlt, hcount⟩
      · exact fun hinvalid u hu hcount' => again u hu (hcount'.trans (hsame hinvalid))
    by_cases hzero : s.revents = 0
    · have hturn : pollStep w.mem.handler l =
          .goOn { l with it := l.it + 1, handlerRef := w.mem.handler.getRef } := by
        simp only [pollStep, hphase, if_neg hne, hs, if_pos hzero]
      refine goOn_ends hstack hturn (again _ hm rfl _ ?_ ?_ rfl)
      · rfl
      · exact hphase
    · by_cases hin : hasBit s.revents POLLIN = true
      · have hturn : pollStep w.mem.handler l = .readable p next := by
          simp only [pollStep, hphase, if_neg hne, hs, if_neg hzero, hin, if_true, hp, next]
        refine Discipline.polling_turn hstack (Nat.zero_le _) ?_
        rw [pollNext, hturn]
        have hends := readable_ends (w := { w with stack := .polling next :: rest }) hm hc hopen
        exact hends.bind fun t ht => read t ht.1 ht.2
      · have hturn : pollStep w.mem.handler l = .goOn next := by
          simp only [pollStep, hphase, if_neg hne, hs, if_neg hzero, hin, if_false,
            Bool.false_eq_true, next]
        exact goOn_ends hstack hturn (read _ rfl ((Memory.Sheds.refl _).serves hm rfl))

/-- `poll` returns: at once, or when its loop ends. -/
theorem poll_ends {R : World → Prop} (hm : w.mem.Fitted)
    (hcount : w.mem.handler.count + 2 < 65536) (hstack : w.stack = .call .poll :: rest)
    (hR : ∀ t : World, t.mem.Fitted → R t) : serving.Ends rest R w := by
  have hex : ∃ t, w.step (.polled (-1) []) = some t := by
    rw [step_polled hstack]
    split
    · exact ⟨_, rfl⟩
    · exact ⟨_, if_pos rfl⟩
  obtain ⟨t, ht⟩ := hex
  refine .later ⟨.polled (-1) [], t, trivial, ht⟩ fun i t _ ht => ?_
  cases i with
  | polled n revents =>
    rw [step_polled hstack] at ht
    split at ht
    · obtain rfl := Option.some.inj ht
      exact .now ⟨rfl, hR _ hm⟩
    · obtain ⟨hcan, ht⟩ := Option.ite_none_right_eq_some.mp ht
      obtain rfl := Option.some.inj ht
      by_cases hneg : n < 0
      · simp only [hneg, if_true]
        exact entry_ends rfl hm hcount (Nat.zero_le _) rfl hR
      · have hlen : revents.length = w.mem.handler.sockets.length := by
          have hne : n ≠ -1 := by omega
          simp only [canPoll, beq_iff_eq, hne, Bool.or_eq_true, false_or, Bool.and_eq_true] at hcan
          exact hcan.1
        have hfds := HandlerImpl.report_fds w.mem.handler.toHandlerImpl hlen
        have hsame : (w.mem.handler.report revents).count = w.mem.handler.count := by
          rw [← HandlerImpl.fds_length, ← HandlerImpl.fds_length w.mem.handler.toHandlerImpl]
          exact congrArg List.length hfds
        have hfitted : { w.mem with handler := w.mem.handler.report revents }.Fitted :=
          ⟨hm.toSound.retuned (fun ha => HandlerImpl.report_aligned ha hlen) hfds
            (HandlerImpl.report_registrations _ hlen), hm.wired⟩
        simp only [hneg, if_false]
        exact entry_ends rfl hfitted (hsame ▸ hcount) (Nat.zero_le _) rfl hR
  | _ => exact absurd ((step_call hstack).symm.trans ht) (by simp [perform])

end Loop

section Runs

variable {owners : Owner → OwnerAction → Action Unit} {invalid : UShort}

theorem ownerHooks_of_serveHooks {i : Input} (h : w.ServeHooks i) : OwnerHooks w i := by
  rintro p action flags rfl
  exact absurd h.1 (by simp [Call.serves])

/-- In every run whose hooks are registered on servers and clients: when the main program calls
`poll`, it returns, if the hooks only send, and close what is open.  All sockets in the containers
are open and registered then, so those that were closed meanwhile have gone.  No connection is accepted
on descriptor 0, where `accept` aborts, and the sockets are too few for the counter to come round. -/
theorem poll_returns (h : Machine.Reach step OwnerHooks (start owners invalid) w)
    (hidle : w.stack = []) (hcount : w.mem.handler.count + 2 < 65536) :
    Machine.Inevitable step ServeHooks (fun t => t.stack = [] ∧
      ∀ p c, t.mem.deref p = some c → 0 ≤ c.sock ∧ (p.key, p) ∈ t.mem.handler.registrations)
      { w with stack := [.call .poll] } := by
  obtain ⟨ho, he⟩ := erasing_of_reach h
  have hw : w.mem.Fitted :=
    ⟨ho.sound.mem, fun p c hp => (equipped_of_reach h).of_idle he hidle hp⟩
  have hpoll : w.step (.call .poll) = some { w with stack := [.call .poll] } := by
    simp [step, hidle, callable, push]
  have hends := poll_ends (w := { w with stack := [.call .poll] }) (R := fun _ => True) hw hcount rfl
    fun _ _ => trivial
  refine (hends.and_of_first fun t hreach ht => ?_).mono fun t ht => ⟨ht.1.1, ht.2⟩
  have hfrom := (Machine.Reach.tail h (by simp [OwnerHooks]) hpoll).trans
    (hreach.mono fun u i hi => ownerHooks_of_serveHooks hi.1)
  obtain ⟨ho', he'⟩ := erasing_of_reach hfrom
  exact fun p c hp =>
    have hopen := he'.open_of_idle ht.1 hp
    ⟨hopen, ho'.sound.mem.element p c hp hopen⟩

end Runs

/-- The server of `acceptRun` has accepted its client. -/
def idleRun : List Input := acceptRun ++ [.go, .go, .go]

theorem poll_returns_accepted : ∃ w,
    Machine.run step (start (fun _ _ => []) 0) idleRun = some w ∧
      Machine.Inevitable step ServeHooks (fun t => t.stack = [] ∧
        ∀ p c, t.mem.deref p = some c → 0 ≤ c.sock ∧ (p.key, p) ∈ t.mem.handler.registrations)
        { w with stack := [.call .poll] } := by
  have hsome : ((Machine.run step (start (fun _ _ => []) 0) idleRun).filter fun w =>
      w.stack.isEmpty && w.mem.handler.count == 2).isSome := by decide
  obtain ⟨w, hw⟩ := Option.isSome_iff_exists.mp hsome
  obtain ⟨hw, hidle⟩ := Option.filter_eq_some_iff.mp hw
  simp only [Bool.and_eq_true, List.isEmpty_iff, beq_iff_eq] at hidle
  have hok : ∀ u i, registersNothing u i = true → OwnerHooks u i := by
    rintro u i hi p action flags rfl
    exact absurd hi (by simp [registersNothing])
  exact ⟨w, hw, poll_returns (.of_checked hok (by decide) hw) hidle.1 (by omega)⟩

end World

end Unisock.Tcp
