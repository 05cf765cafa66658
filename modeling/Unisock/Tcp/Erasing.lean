import Unisock.Events.Order
import Unisock.Tcp.CloseLoop

/-! `erase` at the end of the `CLOSED` list: with which registrations behind the one that
`_insert_socket` makes it is called, and that an element is erased once if it is. -/

namespace Unisock.Tcp

open Unisock.Events

def Event.shuts (p : SockPtr) : Event → Bool
  | .shut q _ => q == p
  | _ => false

def Event.erases (p : SockPtr) : Event → Bool
  | .erased q => q == p
  | _ => false

/-! ### Which lists call `erase` -/

section Lists

variable {cb : ActionCallback Callback} {pre : Action Callback}

theorem eq_erase_of_cuts_eq_false (hcut : cuts cb = false)
    (hskip : cb.has ActionFlag.skip = false) (hstop : cb.has ActionFlag.stopAfter = true) :
    cb.exec = .erase := by
  simpa [cuts, hskip, hstop] using hcut

/-- In front of `erase` are the callbacks without `SKIP`, if none of them cuts the list. -/
theorem runs_eraser (hcut : ∀ cb ∈ pre, cuts cb = false) (hlate : ∀ cb ∈ pre, cb.exec.late = true) :
    Action.runs (pre ++ [eraser]) =
      (pre.filter fun cb => !cb.has ActionFlag.skip).map ActionCallback.exec ++ [.erase] := by
  induction pre with
  | nil => decide
  | cons cb pre ih =>
    have hrest := ih (fun cb hcb => hcut cb (List.mem_cons_of_mem _ hcb))
      fun cb hcb => hlate cb (List.mem_cons_of_mem _ hcb)
    rw [List.cons_append]
    cases hskip : cb.has ActionFlag.skip with
    | true => simpa [Action.runs_cons_of_skip hskip, hskip] using hrest
    | false =>
      have hgoes : cb.has ActionFlag.stopAfter = false := by
        rw [Bool.eq_false_iff]
        intro hstop
        have hlast := eq_erase_of_cuts_eq_false (hcut cb List.mem_cons_self) hskip hstop
        have := hlate cb List.mem_cons_self
        rw [hlast] at this
        exact absurd this (by decide)
      simpa [Action.runs_cons_of_call hskip hgoes, hskip] using hrest

/-- A callback that cuts the list is the last to be called, or one in front of it is. -/
theorem erase_not_run (hmem : ∃ cb ∈ pre, cuts cb = true) (hlate : ∀ cb ∈ pre, cb.exec.late = true) :
    .erase ∉ Action.runs (pre ++ [eraser]) := by
  induction pre with
  | nil => simp at hmem
  | cons cb pre ih =>
    have hne : Callback.erase ≠ cb.exec := fun heq => by
      have := hlate cb List.mem_cons_self
      rw [← heq] at this
      exact absurd this (by decide)
    have hrest : (∃ cb ∈ pre, cuts cb = true) → .erase ∉ Action.runs (pre ++ [eraser]) := fun h =>
      ih h fun cb hcb => hlate cb (List.mem_cons_of_mem _ hcb)
    rw [List.cons_append]
    cases hskip : cb.has ActionFlag.skip with
    | true =>
      rw [Action.runs_cons_of_skip hskip]
      refine hrest ?_
      simpa [cuts, hskip] using hmem
    | false =>
      cases hstop : cb.has ActionFlag.stopAfter with
      | true => simpa [Action.runs_cons_of_stop hskip hstop] using hne
      | false =>
        rw [Action.runs_cons_of_call hskip hstop, List.mem_cons, not_or]
        refine ⟨hne, hrest ?_⟩
        simpa [cuts, hskip, hstop] using hmem

/-- The later registrations all come before `erase`. -/
theorem register_eraser (calls : List (Callback × UShort)) :
    Action.register [eraser] calls = (Action.front calls ++ Action.back calls) ++ [eraser] := by
  have hsplit : Action.register ([] ++ [eraser]) calls =
      ([] ++ Action.front calls) ++ (Action.back calls ++ [eraser]) :=
    Action.register_split (by simp) (by simp [eraser, ActionCallback.isNormal, ActionFlag.queueEnd,
      ActionFlag.stopAfter]) calls
  simpa using hsplit

theorem mem_front_back {calls : List (Callback × UShort)} :
    cb ∈ Action.front calls ++ Action.back calls ↔ cb ∈ Action.made calls := by
  refine ⟨fun h => ?_, fun h => List.mem_append.mpr (Action.mem_front_or_back h)⟩
  rcases List.mem_append.mp h with h | h
  · exact (List.mem_filter.mp h).1
  · exact (List.mem_filter.mp (List.mem_reverse.mp h)).1

end Lists

namespace World

/-- `::close` calls on `p` so far, and one more that is to come while it is open. -/
def shutCount (w : World) (p : SockPtr) : Nat :=
  w.log.countP (Event.shuts p) + ((w.mem.deref p).elim 0 fun c => if 0 ≤ c.sock then 1 else 0)

/-- Removals of `p` so far, and one more that is to come while it is in its container. -/
def eraseCount (w : World) (p : SockPtr) : Nat :=
  w.log.countP (Event.erases p) + ((w.mem.deref p).elim 0 fun _ => 1)

/-- The counts of `p` are the same in both states. -/
structure Balanced (w w' : World) (p : SockPtr) : Prop where
  shut : w'.shutCount p = w.shutCount p
  erase : w'.eraseCount p = w.eraseCount p

variable {w w' : World} {i : Input} {p : SockPtr} {base rest : List Frame}

/-! ### Every element is closed once and erased once -/

theorem Balanced.trans {t : World} (h : w.Balanced t p) (h' : t.Balanced w' p) : w.Balanced w' p :=
  ⟨h'.shut.trans h.shut, h'.erase.trans h.erase⟩

theorem shutCount_eq (w : World) (p : SockPtr) :
    w.shutCount p = w.log.countP (Event.shuts p) +
      ((w.mem.deref p).map Connection.sock).elim 0 fun sock => if 0 ≤ sock then 1 else 0 := by
  rw [shutCount]
  cases w.mem.deref p <;> rfl

theorem eraseCount_eq (w : World) (p : SockPtr) :
    w.eraseCount p = w.log.countP (Event.erases p) +
      ((w.mem.deref p).map Connection.sock).elim 0 fun _ => 1 := by
  rw [eraseCount]
  cases w.mem.deref p <;> rfl

/-- Events that close and erase nothing, where `p` stays as it is. -/
theorem Balanced.of_sock (hsock : (w'.mem.deref p).map Connection.sock =
    (w.mem.deref p).map Connection.sock)
    (hshut : w'.log.countP (Event.shuts p) = w.log.countP (Event.shuts p))
    (herase : w'.log.countP (Event.erases p) = w.log.countP (Event.erases p)) :
    w.Balanced w' p where
  shut := by rw [shutCount_eq, shutCount_eq, hshut, hsock]
  erase := by rw [eraseCount_eq, eraseCount_eq, herase, hsock]

theorem Balanced.noted {e : Event} (hsock : (w'.mem.deref p).map Connection.sock =
    (w.mem.deref p).map Connection.sock) (hlog : w'.log = e :: w.log)
    (hshut : e.shuts p = false) (herase : e.erases p = false) : w.Balanced w' p := by
  refine .of_sock hsock ?_ ?_
  · rw [hlog, List.countP_cons_of_neg (by simp [hshut])]
  · rw [hlog, List.countP_cons_of_neg (by simp [herase])]

theorem sock_modify {q : SockPtr} {c : Connection} {m : Memory} {f : Connection → Connection}
    (hq : m.deref q = some c) (hnode : (f c).node = c.node) (hsock : (f c).sock = c.sock) :
    ((m.modify q f).deref p).map Connection.sock = (m.deref p).map Connection.sock := by
  rw [Memory.deref_modify hq hnode]
  split
  · next hpq => rw [hpq, hq, Option.map_some, Option.map_some, hsock]
  · rfl

theorem sock_added {container : Container} {fd : Int} {f : Connection → Connection}
    (hfree : (w.mem.sockets container).contains fd = false) (hnode : ∀ c, (f c).node = c.node)
    (hp : p.node < w.mem.nextNode) :
    ((((w.mem.openFd fd).addElement container fd).modify (w.mem.newPtr container fd) f).deref p).map
      Connection.sock = (w.mem.deref p).map Connection.sock := by
  rw [Memory.deref_added hfree hnode, if_neg]
  rintro rfl
  exact lt_irrefl w.mem.nextNode hp

theorem Sound.closed_of_erase (hs : w.Sound) {e : Execution} {cb : ActionCallback Callback}
    {list : SocketAction} {c : Connection} (hstack : w.stack = .execute e :: rest)
    (hlist : e.list = .socket p list) (hcb : w.current e = some cb) (hexec : cb.exec = .erase)
    (hp : w.mem.deref p = some c) : c.sock < 0 := by
  obtain ⟨d, hd, hget, -⟩ := current_mem hlist hcb
  obtain ⟨rfl, -⟩ := hs.mem.erases p d list cb hd (List.mem_of_getElem? hget) hexec
  exact (hs.closing e p (hstack ▸ List.mem_cons_self) hlist).2 c hp

theorem Move.balanced (hs : w.Sound) (h : Move w i w') (hnode : p.node < w.mem.nextNode) :
    w.Balanced w' p := by
  cases h with
  | notify _ _ _ _ _ => exact .noted rfl rfl rfl rfl
  | receive _ _ _ _ _ => exact .noted rfl rfl rfl rfl
  | @erase e cb q list rest hstack hlist hcb _ hexec =>
    obtain ⟨c, hc, -⟩ := current_mem hlist hcb
    by_cases hpq : p = q
    · subst hpq
      have hgone : (w.mem.eraseSocket p.container p.key).deref p = none := by
        rw [Memory.deref_eraseSocket hc, if_pos rfl]
      have hsock : ¬ 0 ≤ c.sock := not_le.mpr (hs.closed_of_erase hstack hlist hcb hexec hc)
      constructor
      · simp [shutCount, note, hgone, hc, hsock, Event.shuts]
      · simp [eraseCount, note, hgone, hc, Event.erases]
    · refine .noted ?_ rfl rfl (by simpa [Event.erases] using Ne.symm hpq)
      exact congrArg _ ((Memory.deref_eraseSocket hc p).trans (if_neg hpq))
  | @closed f q c new rest errno hstack _ hq hsock _ =>
    have hderef := Memory.deref_closeSocket hq c.sock p
    by_cases hpq : p = q
    · subst hpq
      rw [if_pos rfl] at hderef
      constructor
      · simp [shutCount, hderef, hq, hsock, Event.shuts]
      · simp [eraseCount, hderef, hq, Event.erases]
    · rw [if_neg hpq] at hderef
      have hqp : (q == p) = false := by simpa using Ne.symm hpq
      constructor
      · simp [shutCount, hderef, Event.shuts, hqp]
      · simp [eraseCount, hderef, Event.erases]
  | failed _ _ _ _ => exact .noted rfl rfl rfl rfl
  | made _ _ _ _ hfree => exact .noted (sock_added hfree (fun _ => rfl) hnode) rfl rfl rfl
  | @accepted f server fd rest _ _ _ hfree =>
    have hmade := sock_added (f := Connection.acceptWiring) hfree (fun _ => rfl) hnode
    exact .of_sock hmade rfl rfl
  | leaked _ _ _ _ _ hw' =>
    rcases hw' with ⟨k, rfl⟩ | ⟨o, arg, -, rfl⟩ <;> exact .of_sock rfl rfl rfl
  | finished _ hf hp =>
    rcases hf with ⟨-, rfl, -⟩ | ⟨-, rfl, -⟩ <;>
      exact .noted (sock_modify hp rfl rfl) rfl rfl rfl
  | @wrote f q c buffer handler bytes rest _ _ hq _ =>
    exact .noted (sock_modify (f := fun _ => { c with sendBuffer := buffer }) hq rfl rfl) rfl rfl rfl
  | hooked _ hp => exact .of_sock (sock_modify hp rfl rfl) rfl rfl
  | _ => exact .of_sock rfl rfl rfl

/-! ### The execution that gets to `erase` -/

/-- The execution of the `CLOSED` list goes on, and nothing that is ahead of it cuts it; or the list
has grown meanwhile. -/
def Reaches (c : Connection) (e : Execution) : Prop :=
  e.pos < e.stop ∧ e.stop ≤ (c.actions .closed).length ∧
    (e.stop = (c.actions .closed).length → ∀ cb ∈ (c.actions .closed).drop e.pos, cuts cb = false)

/-- Above `base`, the `CLOSED` list of the closed element `p` is executed. -/
def Erasing (p : SockPtr) (base : List Frame) (w : World) : Prop :=
  ∃ above e c, w.stack = above ++ .execute e :: base ∧ e.list = .socket p .closed ∧
    w.mem.deref p = some c ∧ c.sock < 0 ∧ Reaches c e ∧
    ∀ e', .execute e' ∈ above → e'.list ≠ .socket p .closed

/-- A list that has grown since the execution began. -/
theorem resume_grown {e : Execution} {executors : Action Callback} {w : World}
    (hpos : e.pos < e.stop) (hl : w.callbacks e.list = some executors)
    (hlen : executors.length ≠ e.stop) (i : Input) :
    w.resume e i = some (w.push (.crash .invalidated)) := by
  rw [resume, if_neg (by omega), hl]
  exact if_pos hlen

/-- While something else is executed, the `CLOSED` list of `p` waits. -/
theorem Erasing.below {f : Frame} {above : List Frame} {e : Execution} {c : Connection}
    (hs : w.Sound) (h : Move w i w') (hstack : w.stack = f :: above ++ .execute e :: base)
    (hlist : e.list = .socket p .closed) (hp : w.mem.deref p = some c) (hsock : c.sock < 0)
    (hreaches : Reaches c e)
    (hother : ∀ e', .execute e' ∈ f :: above → e'.list ≠ .socket p .closed) :
    Erasing p base w' := by
  obtain ⟨new, hstack', hnew⟩ := h.split
  rw [hstack, List.cons_append, List.tail_cons, ← List.append_assoc] at hstack'
  have htop : ∀ e₀ rest, w.stack = .execute e₀ :: rest → e₀.list ≠ .socket p .closed := by
    intro e₀ rest he₀
    rw [hstack, List.cons_append] at he₀
    exact hother e₀ ((List.cons.inj he₀).1 ▸ List.mem_cons_self)
  have halive : (w'.mem.deref p).isSome := by
    rcases h.alive (Option.isSome_of_eq_some hp) with halive | ⟨e₀, cb, list, rest, he₀, hlist₀,
      hcb, hexec, -⟩
    · exact halive
    · obtain ⟨d, hd, hget, -⟩ := current_mem hlist₀ hcb
      obtain ⟨rfl, -⟩ := hs.mem.erases p d list cb hd (List.mem_of_getElem? hget) hexec
      exact absurd hlist₀ (htop e₀ rest he₀)
  obtain ⟨c', hc'⟩ := Option.isSome_iff_exists.mp halive
  obtain ⟨d, hd, hsock', hext⟩ := h.element hs (hs.mem.node_lt p c hp) hc'
  obtain rfl : d = c := Option.some.inj (hd.symm.trans hp)
  refine ⟨new ++ above, e, c', hstack', hlist, hc', by omega, ?_, fun e' he' => ?_⟩
  · obtain ⟨hpos, hle, hcut⟩ := hreaches
    rcases hext with heq | ⟨hlt, -⟩
    · rw [Reaches, heq]
      exact ⟨hpos, hle, hcut⟩
    · exact ⟨hpos, by omega, fun heq => by omega⟩
  · rcases List.mem_append.mp he' with he' | he'
    · cases hnew e' he' with
      | @next e₀ cb rest he₀ heq _ _ =>
        rw [heq]
        exact htop e₀ rest he₀
      | owner howner _ _ _ => simp [howner]
      | socket hsocket _ _ hq _ hclosed =>
        intro heq
        obtain ⟨rfl, rfl⟩ := ActionList.socket.inj (hsocket.symm.trans heq)
        obtain rfl := Option.some.inj (hq.symm.trans hp)
        exact absurd (hclosed rfl).1 (by omega)
    · exact hother e' (List.mem_cons_of_mem _ he')

/-- The `CLOSED` list of `p` takes its next callback: it goes on, has grown, or ends with `erase`. -/
theorem Erasing.turn {e : Execution} {c : Connection} (hm : w.mem.Steady)
    (hstep : w.step i = some w') (hstack : w.stack = .execute e :: base)
    (hlist : e.list = .socket p .closed) (hp : w.mem.deref p = some c) (hsock : c.sock < 0)
    (hreaches : Reaches c e) :
    Erasing p base w' ∨ w'.stack = .crash .invalidated :: base ∨
      (w'.stack = base ∧ w'.mem.deref p = none) := by
  obtain ⟨hpos, hle, hcut⟩ := hreaches
  obtain ⟨pre, hactions, hlate⟩ := hm.erasesLast p c hp
  have hl : { w with stack := base }.callbacks e.list = some (c.actions .closed) := by
    rw [hlist, callbacks, hp]
    rfl
  rw [step_execute hstack] at hstep
  by_cases hlen : (c.actions .closed).length = e.stop
  · have hcut := hcut hlen.symm
    have hlength : e.stop = pre.length + 1 := by rw [← hlen, hactions]; simp
    by_cases hlast : e.pos = pre.length
    · have hcb : (c.actions .closed)[e.pos]? = some eraser := by
        rw [hactions, hlast]
        simp
      rw [resume_turn hl hlen hcb, if_neg (by decide)] at hstep
      obtain ⟨rfl, rfl⟩ := (invoke_erase hlist).mp hstep
      refine .inr (.inr ⟨rfl, ?_⟩)
      exact (Memory.deref_eraseSocket hp p).trans (if_pos rfl)
    · have hlt : e.pos < pre.length := by omega
      have hcb : (c.actions .closed)[e.pos]? = some pre[e.pos] := by
        rw [hactions, List.getElem?_append_left hlt, List.getElem?_eq_getElem hlt]
      have hexec := hlate _ (List.getElem_mem hlt)
      have hdrop : (c.actions .closed).drop e.pos =
          pre[e.pos] :: (c.actions .closed).drop (e.pos + 1) := by
        obtain ⟨hlt', hget⟩ := List.getElem?_eq_some_iff.mp hcb
        rw [List.drop_eq_getElem_cons hlt', hget]
      generalize pre[e.pos] = cb at hcb hexec hdrop
      rw [hdrop] at hcut
      have hnext : Reaches c e.next :=
        ⟨show e.pos + 1 < e.stop by omega, hle, fun _ cb hcb => hcut cb (List.mem_cons_of_mem _ hcb)⟩
      rw [resume_turn hl hlen hcb] at hstep
      split at hstep
      · obtain rfl := Option.some.inj hstep
        exact .inl ⟨[], e.next, c, rfl, hlist, hp, hsock, hnext, by simp⟩
      · next hskip =>
        have hskip : cb.has ActionFlag.skip = false := by simpa using hskip
        have hgoes : cb.has ActionFlag.stopAfter = false := by
          rw [Bool.eq_false_iff]
          intro hstop
          rw [eq_erase_of_cuts_eq_false (hcut cb List.mem_cons_self) hskip hstop] at hexec
          exact absurd hexec (by decide)
        have hafter : e.after cb = [.execute e.next] := by simp [Execution.after, hgoes]
        rw [hafter] at hstep
        generalize cb.exec = exec at hexec hstep
        cases exec with
        | user =>
          obtain ⟨calls, rfl, rfl⟩ := invoke_user.mp hstep
          exact .inl ⟨[_], e.next, c, rfl, hlist, hp, hsock, hnext, by simp⟩
        | notify action =>
          obtain ⟨rfl, rfl⟩ := (invoke_notify hlist).mp hstep
          refine .inl ⟨[_], e.next, c, rfl, hlist, hp, hsock, hnext, fun e' he' => ?_⟩
          obtain rfl := Frame.execute.inj (List.mem_singleton.mp he')
          simp
        | erase | accept | recv | sendFlush | receive => exact absurd hexec (by decide)
  · rw [resume_grown hpos hl hlen] at hstep
    obtain rfl := Option.some.inj hstep
    exact .inr (.inl rfl)

theorem Erasing.step (hs : w.Sound) (hm : w.mem.Steady) (h : Erasing p base w)
    (hstep : w.step i = some w') : Erasing p base w' ∨ w'.stack = .crash .invalidated :: base ∨
      (w'.stack = base ∧ w'.mem.deref p = none) := by
  obtain ⟨above, e, c, hstack, hlist, hp, hsock, hreaches, hother⟩ := h
  cases above with
  | nil => exact Erasing.turn hm hstep hstack hlist hp hsock hreaches
  | cons f above =>
    exact .inl (.below hs (step_move hstep) hstack hlist hp hsock hreaches hother)

theorem Erasing.close {c : Connection} {i : Input} (hp : w.mem.deref p = some c)
    (hopen : 0 ≤ c.sock) (herases : c.ErasesLast) (hcut : ¬ c.Cut)
    (hstack : w.stack = .call (.close p) :: base) (hstep : w.step i = some w') :
    Erasing p base w' := by
  obtain ⟨errno, rfl, rfl⟩ := (step_close hstack).mp hstep
  rw [close_open (w := { w with stack := base }) hp hopen]
  have hlen : 0 < (c.actions .closed).length := by
    obtain ⟨pre, hactions, -⟩ := herases
    simp [hactions]
  refine ⟨[], _, { c with sock := -1 }, rfl, rfl, ?_, by simp, ⟨hlen, le_rfl, fun _ cb hcb => ?_⟩,
    by simp⟩
  · exact (Memory.deref_closeSocket hp c.sock p).trans (if_pos rfl)
  · rw [Bool.eq_false_iff]
    exact fun hcuts => hcut ⟨cb, List.mem_of_mem_drop hcb, hcuts⟩

/-! ### Elements that are not erased -/

/-- Once an element with a cut list is closed, or is going to be, it stays in its container. -/
theorem stays_of_reach {ok : World → Input → Prop} (hs : w.Sound) (hm : w.mem.Steady)
    (hstays : w.Stays p) (hspared : ∀ e, .execute e ∈ w.stack → w.Spared p e)
    (h : Machine.Reach step ok w w') : (w'.mem.deref p).isSome := by
  have hinv : w'.Sound ∧ w'.mem.Steady ∧ w'.Stays p ∧
      ∀ e, .execute e ∈ w'.stack → w'.Spared p e := by
    apply h.invariant ⟨hs, hm, hstays, hspared⟩
    rintro u i v ⟨hs, hm, hstays, hspared⟩ - hstep
    have hmove := step_move hstep
    have htop : ∀ e rest, u.stack = .execute e :: rest → u.Spared p e := fun e rest hstack =>
      hspared e (hstack ▸ List.mem_cons_self)
    refine ⟨hmove.sound hs, steady_step hs hm hstep, hmove.stays hs hm hstays htop, fun e he => ?_⟩
    rcases hmove.origin he with hold | hbegins
    · exact hmove.spared hs hstays (hspared e hold)
    · exact hbegins.spared hs hmove hstays htop
  obtain ⟨c, hc, -⟩ := hinv.2.2.1
  exact Option.isSome_of_eq_some hc

theorem Sound.spared_of_open {c : Connection} (hs : w.Sound) (hp : w.mem.deref p = some c)
    (hopen : 0 ≤ c.sock) (e : Execution) (he : .execute e ∈ w.stack) : w.Spared p e := by
  intro d hlist hd
  have hclosed := (hs.closing e p he hlist).2 c hp
  omega

/-! ### `close` on an element with later registrations -/

/-- What `_insert_socket` and later calls of `on` leave. -/
theorem registered_of_reach {owners : Owner → OwnerAction → Action Unit} {invalid : UShort}
    {ok : World → Input → Prop} (h : Machine.Reach step ok (start owners invalid) w)
    {c : Connection} (hp : w.mem.deref p = some c) :
    ∃ calls, c.actions .closed = Action.register [eraser] calls := by
  have hinv : w.Sound ∧ ∀ p c, w.mem.deref p = some c →
      ∃ calls, c.actions .closed = Action.register [eraser] calls := by
    apply h.invariant
    · exact ⟨start_sound owners invalid, fun p c hp => by
        simp [start, Memory.empty, Memory.deref] at hp⟩
    · rintro u i v ⟨hs, hu⟩ - hstep
      have hmove := step_move hstep
      refine ⟨hmove.sound hs, fun q d hq => ?_⟩
      rcases hmove.changes hs with hchanges | ⟨-, fd, hfd⟩
      · refine hchanges.closedList (P := fun l => ∃ calls, l = Action.register [eraser] calls)
          ⟨[], rfl⟩ ?_ hu q d hq
        rintro _ exec flags - ⟨calls, rfl⟩
        exact ⟨calls ++ [(exec, flags)], by simp [Action.register]⟩
      · rw [hfd] at hq
        exact hu q d hq
  exact hinv.2 p c hp

/-- The list calls `erase` once, behind all other callbacks that it calls. -/
def RunsErase (executors : Action Callback) : Prop :=
  ∃ others, executors.runs = others ++ [.erase] ∧ .erase ∉ others

/-- From `w` to `t`, `p` has been erased once, and is in its container no more. -/
def ErasedOnce (w : World) (p : SockPtr) (t : World) : Prop :=
  t.mem.deref p = none ∧
    t.log.countP (Event.erases p) = w.log.countP (Event.erases p) + 1

/-- When the call with `rest` below it returns, `p` has been erased once, whatever the hooks do; and
it returns, if hooks do not keep the loops over containers going. -/
def EndsErased (w : World) (p : SockPtr) (rest : List Frame) : Prop :=
  (∀ t, Machine.Reach step (fun u _ => u.stack ≠ rest) w t → t.stack = rest → w.ErasedOnce p t) ∧
    Machine.Inevitable step CloseHooks (fun t => t.stack = rest ∧ w.ErasedOnce p t) w

section Registrations

variable {c : Connection} {calls : List (Callback × UShort)}

/-- The list is cut by a registration with `STOP_AFTER` and without `SKIP`. -/
theorem cut_register (herases : c.ErasesLast)
    (hlist : c.actions .closed = Action.register [eraser] calls) :
    (∀ cb ∈ Action.front calls ++ Action.back calls, cb.exec.late = true) ∧
    (¬ c.Cut ↔ ∀ cb ∈ Action.made calls, cb.has ActionFlag.skip = true ∨
      cb.has ActionFlag.stopAfter = false) := by
  obtain ⟨pre, hactions, hlate⟩ := herases
  rw [register_eraser] at hlist
  obtain ⟨rfl, -⟩ := List.append_inj' (hactions.symm.trans hlist) rfl
  refine ⟨hlate, ?_⟩
  have hne : ∀ cb ∈ Action.made calls, cb.exec ≠ .erase := fun cb hcb heq => by
    have := hlate cb (mem_front_back.mpr hcb)
    rw [heq] at this
    exact absurd this (by decide)
  constructor
  · intro hcut cb hcb
    by_contra hbad
    push Not at hbad
    refine hcut ⟨cb, ?_, by simp [cuts, hne cb hcb, hbad.1, hbad.2]⟩
    rw [hactions]
    exact List.mem_append_left _ (mem_front_back.mpr hcb)
  · rintro hcalls ⟨cb, hcb, hcuts⟩
    rw [hactions, List.mem_append, mem_front_back] at hcb
    rcases hcb with hcb | hcb
    · simp only [cuts, Bool.and_eq_true, Bool.not_eq_true'] at hcuts
      rcases hcalls cb hcb with hskip | hgoes
      · exact absurd (hcuts.1.2.symm.trans hskip) (by decide)
      · exact absurd (hcuts.2.symm.trans hgoes) (by decide)
    · rw [List.mem_singleton.mp hcb] at hcuts
      exact absurd hcuts (by decide)

theorem runsErase_iff (herases : c.ErasesLast) : RunsErase (c.actions .closed) ↔ ¬ c.Cut := by
  obtain ⟨pre, hactions, hlate⟩ := herases
  constructor
  · rintro ⟨others, hruns, -⟩ ⟨cb, hcb, hcuts⟩
    rw [hactions, List.mem_append] at hcb
    rcases hcb with hcb | hcb
    · refine erase_not_run ⟨cb, hcb, hcuts⟩ hlate ?_
      rw [← hactions, hruns]
      simp
    · rw [List.mem_singleton.mp hcb] at hcuts
      exact absurd hcuts (by decide)
  · intro hcut
    have hpre : ∀ cb ∈ pre, cuts cb = false := fun cb hcb => by
      rw [Bool.eq_false_iff]
      exact fun hcuts => hcut ⟨cb, by rw [hactions]; exact List.mem_append_left _ hcb, hcuts⟩
    refine ⟨_, by rw [hactions]; exact runs_eraser hpre hlate, fun hmem => ?_⟩
    obtain ⟨cb, hcb, hexec⟩ := List.mem_map.mp hmem
    have := hlate cb (List.mem_filter.mp hcb).1
    rw [hexec] at this
    exact absurd this (by decide)

/-- In every run, `close` on an open element whose list is not cut erases it before it returns. -/
theorem erased_of_return (hs : w.Sound) (hm : w.mem.Steady)
    (hstack : w.stack = .call (.close p) :: rest) (hp : w.mem.deref p = some c)
    (hopen : 0 ≤ c.sock) (hcut : ¬ c.Cut) {t : World}
    (h : Machine.Reach step (fun u _ => u.stack ≠ rest) w t) (ht : t.stack = rest) :
    w.ErasedOnce p t := by
  have hnode : p.node < w.mem.nextNode := hs.mem.node_lt p c hp
  have hinv : t.Sound ∧ t.mem.Steady ∧ (p.node < t.mem.nextNode ∧ w.Balanced t p) ∧
      (t = w ∨ Erasing p rest t ∨ t.stack = .crash .invalidated :: rest ∨
        (t.stack = rest ∧ t.mem.deref p = none)) := by
    apply h.invariant ⟨hs, hm, ⟨hnode, rfl, rfl⟩, .inl rfl⟩
    rintro u i v ⟨hs', hm', ⟨hnode', hbalanced⟩, hphase⟩ hrest hstep
    have hmove := step_move hstep
    refine ⟨hmove.sound hs', steady_step hs' hm' hstep,
      ⟨hnode'.trans_le (hmove.ages hs').nextNode_le, hbalanced.trans (hmove.balanced hs' hnode')⟩,
      .inr ?_⟩
    rcases hphase with rfl | herasing | hcrash | ⟨hreturn, -⟩
    · exact .inl (.close hp hopen (hm.erasesLast p c hp) hcut hstack hstep)
    · exact herasing.step hs' hm' hstep
    · simp [World.step, hcrash] at hstep
    · exact absurd hreturn hrest
  obtain ⟨-, -, ⟨-, hbalanced⟩, hphase⟩ := hinv
  have hgone : t.mem.deref p = none := by
    rcases hphase with rfl | ⟨above, e, d, hstack', -⟩ | hcrash | ⟨-, hgone⟩
    · exact absurd (hstack.symm.trans ht) (by simp)
    · have hlength := congrArg List.length (hstack'.symm.trans ht)
      simp only [List.length_append, List.length_cons] at hlength
      omega
    · exact absurd (hcrash.symm.trans ht) (by simp)
    · exact hgone
  refine ⟨hgone, ?_⟩
  have herase := hbalanced.erase
  simpa [eraseCount, hgone, hp] using herase

/-- `close` on an open element, after any registrations on its `CLOSED` list: `erase` is the last
callback that runs, and the element is erased once, exactly if no registration has `STOP_AFTER` and
not `SKIP`.  That `close` returns is said of hooks that register nothing and whose sends do not fail. -/
theorem erase_last_iff {owners : Owner → OwnerAction → Action Unit} {invalid : UShort}
    (h : Machine.Reach step Any (start owners invalid) w)
    (hstack : w.stack = .call (.close p) :: rest) (hp : w.mem.deref p = some c)
    (hopen : 0 ≤ c.sock) (hlist : c.actions .closed = Action.register [eraser] calls) :
    (RunsErase (c.actions .closed) ↔ ∀ cb ∈ Action.made calls,
      cb.has ActionFlag.skip = true ∨ cb.has ActionFlag.stopAfter = false) ∧
    (w.EndsErased p rest ↔ ∀ cb ∈ Action.made calls,
      cb.has ActionFlag.skip = true ∨ cb.has ActionFlag.stopAfter = false) := by
  have hs := sound_of_reach h
  have hm := steady_of_reach h
  obtain ⟨-, hcalls⟩ := cut_register (hm.erasesLast p c hp) hlist
  refine ⟨(runsErase_iff (hm.erasesLast p c hp)).trans hcalls, Iff.trans ?_ hcalls⟩
  constructor
  · rintro ⟨-, hends⟩ hcut
    obtain ⟨t, hreach, -, hgone, -⟩ := hends.exists_reach
    have halive := stays_of_reach hs hm ⟨c, hp, .inr hcut⟩ (hs.spared_of_open hp hopen) hreach
    rw [hgone] at halive
    exact absurd halive (by decide)
  · intro hcut
    have hreturn := fun t => erased_of_return hs hm hstack hp hopen hcut (t := t)
    refine ⟨hreturn, Machine.Inevitable.and_of_first ?_ fun t ht =>
      hreturn t (ht.mono fun _ _ h => h.2)⟩
    have hcloses : w.CloseHooks (.call (.close p)) :=
      ⟨trivial, fun _ h => by cases h; simp [Call.closes]⟩
    have hends := call_ends (fun m _ => hooks_end m) hm (by simp [callable, hp]) hcloses hstack
    exact hends.mono fun t ht => ht.1

end Registrations

/-- A client connects on descriptor 3, registers a hook with these flags on `CLOSED` of the
connection, and closes it. -/
def hookedClose (flags : UShort) : List Input :=
  [.call (.connect 0), .opened (.ok 3), .setUp none, .go, .go, .call (.on connected3 .closed flags), .go,
    .call (.close connected3)]

theorem hookedClose_state (flags : UShort)
    (h : (Machine.run step (start (fun _ _ => []) 0) (hookedClose flags)).map (fun w =>
      (w.stack, (w.mem.deref connected3).map fun c => (c.sock, c.actions .closed))) =
        some ([.call (.close connected3)], some (3, Action.register [eraser]
          [(.notify .closed, ActionFlag.default), (.user, flags)]))) :
    ∃ w c, Machine.Reach step Any (start (fun _ _ => []) 0) w ∧
      w.stack = [.call (.close connected3)] ∧ w.mem.deref connected3 = some c ∧ c.sock = 3 ∧
      c.actions .closed = Action.register [eraser]
        [(.notify .closed, ActionFlag.default), (.user, flags)] := by
  obtain ⟨w, hw, hend⟩ := Option.map_eq_some_iff.mp h
  obtain ⟨hstack, helem⟩ := Prod.mk.inj hend
  obtain ⟨c, hc, hfields⟩ := Option.map_eq_some_iff.mp helem
  obtain ⟨hsock, hlist⟩ := Prod.mk.inj hfields
  exact ⟨w, c, .of_run (fun _ _ => trivial) hw, hstack, hc, hsock, hlist⟩

/-- With `QUEUE_END`, the hook still comes before `erase`. -/
theorem erase_last_iff_queued : ∃ (w : World) (c : Connection), w.mem.deref connected3 = some c ∧
    (RunsErase (c.actions .closed) ↔ ∀ cb ∈ Action.made
      [(Callback.notify .closed, ActionFlag.default), (.user, ActionFlag.queueEnd)],
      cb.has ActionFlag.skip = true ∨ cb.has ActionFlag.stopAfter = false) ∧
    (w.EndsErased connected3 [] ↔ ∀ cb ∈ Action.made
      [(Callback.notify .closed, ActionFlag.default), (.user, ActionFlag.queueEnd)],
      cb.has ActionFlag.skip = true ∨ cb.has ActionFlag.stopAfter = false) := by
  obtain ⟨w, c, hreach, hstack, hc, hsock, hlist⟩ :=
    hookedClose_state ActionFlag.queueEnd (by decide)
  exact ⟨w, c, hc, erase_last_iff hreach hstack hc (by omega) hlist⟩

/-- With `STOP_AFTER`, the closed connection stays in its container. -/
theorem stop_after_keeps : ¬ ∀ (owners : Owner → OwnerAction → Action Unit) (invalid : UShort)
    (w : World) (p : SockPtr) (c : Connection) (rest : List Frame)
    (calls : List (Callback × UShort)), Machine.Reach step Any (start owners invalid) w →
    w.stack = .call (.close p) :: rest → w.mem.deref p = some c → 0 ≤ c.sock →
    c.actions .closed = Action.register [eraser] calls →
    RunsErase (c.actions .closed) ∧ w.EndsErased p rest := by
  intro hall
  obtain ⟨w, c, hreach, hstack, hc, hsock, hlist⟩ :=
    hookedClose_state ActionFlag.stopAfter (by decide)
  obtain ⟨-, -, hends⟩ := hall _ 0 w connected3 c [] _ hreach hstack hc (by omega) hlist
  obtain ⟨t, ht, -, hgone, -⟩ := hends.exists_reach
  have hs := sound_of_reach hreach
  have hcut : c.Cut := by
    refine ⟨⟨.user, ActionFlag.stopAfter⟩, ?_, by decide⟩
    rw [hlist]
    decide
  have halive := stays_of_reach hs (steady_of_reach hreach) ⟨c, hc, .inr hcut⟩
    (hs.spared_of_open hc (by omega)) ht
  rw [hgone] at halive
  exact absurd halive (by decide)

end World

end Unisock.Tcp
