import Unisock.Tcp.Alive
import Unisock.Tcp.Closing

/-! When the loop of `socket_container::close` ends: an element that is already closed, or whose
`CLOSED` list is cut, keeps the loop going forever. -/

namespace Unisock.Tcp

open Unisock.Events

namespace Memory

variable {m m' : Memory} {p : SockPtr} {c' : Connection}

/-- A list that is the same, or longer by later registrations. -/
def Extends (l l' : Action Callback) : Prop :=
  l' = l ∨ (l.length < l'.length ∧ ∀ cb ∈ l, cb ∈ l')

theorem Extends.trans {l l' l'' : Action Callback} (h : Extends l l') (h' : Extends l' l'') :
    Extends l l'' := by
  rcases h with rfl | ⟨hlt, hmem⟩
  · exact h'
  · rcases h' with rfl | ⟨hlt', hmem'⟩
    · exact .inr ⟨hlt, hmem⟩
    · exact .inr ⟨hlt.trans hlt', fun cb hcb => hmem' cb (hmem cb hcb)⟩

theorem Registers.extends {c c' : Connection} (h : Registers c c') :
    Extends (c.actions .closed) (c'.actions .closed) := by
  rcases h with heq | ⟨exec, flags, -, heq⟩
  · exact .inl heq
  · rw [heq]
    refine .inr ⟨?_, fun cb hcb => Action.mem_addCallback.mpr (.inr hcb)⟩
    rw [Action.length_addCallback]
    omega

theorem Change.extends (h : Change m m') (hnode : p.node < m.nextNode)
    (hc' : m'.deref p = some c') :
    ∃ c, m.deref p = some c ∧ Extends (c.actions .closed) (c'.actions .closed) := by
  cases h with
  | @wired q c f hq hf _ _ hclosed =>
    rw [deref_modify hq hf] at hc'
    split at hc'
    · next hpq =>
      obtain rfl := Option.some.inj hc'
      exact ⟨c, hpq ▸ hq, hclosed.extends⟩
    · exact ⟨c', hc', .inl rfl⟩
  | retuned _ _ _ => exact ⟨c', hc', .inl rfl⟩
  | @added container fd _ _ hfree =>
    rw [deref_addElement (m := m.openFd fd) hfree] at hc'
    split at hc'
    · next hnew =>
      rw [hnew] at hnode
      exact absurd hnode (lt_irrefl m.nextNode)
    · exact ⟨c', hc', .inl rfl⟩
  | @closed q c hq _ =>
    rw [deref_closeSocket hq] at hc'
    split at hc'
    · next hpq =>
      obtain rfl := Option.some.inj hc'
      exact ⟨c, hpq ▸ hq, .inl rfl⟩
    · exact ⟨c', hc', .inl rfl⟩
  | erased hq _ =>
    rw [deref_eraseSocket hq] at hc'
    exact ⟨c', (Option.ite_none_left_eq_some.mp hc').2, .inl rfl⟩

theorem Changes.extends (h : Changes m m') (hnode : p.node < m.nextNode)
    (hc' : m'.deref p = some c') :
    ∃ c, m.deref p = some c ∧ Extends (c.actions .closed) (c'.actions .closed) := by
  induction h generalizing c' with
  | refl => exact ⟨c', hc', .inl rfl⟩
  | tail hinit hlast ih =>
    obtain ⟨c, hc, hext⟩ := hlast.extends
      (hnode.trans_le (Changes.ages hinit).nextNode_le) hc'
    obtain ⟨c₀, hc₀, hext₀⟩ := ih hc
    exact ⟨c₀, hc₀, hext₀.trans hext⟩

theorem begin?_eq_none {container : Container} (h : m.begin? container = none) (p : SockPtr)
    (hp : p.container = container) : m.deref p = none := by
  have hnil : (m.sockets container).toList = [] := List.head?_eq_none_iff.mp h
  rw [Option.eq_none_iff_forall_ne_some]
  intro c hc
  have hmem := Std.ExtTreeMap.mem_toList_iff_getElem?_eq_some.mpr (deref_eq_some.mp hc).1
  rw [hp, hnil] at hmem
  exact absurd hmem (by simp)

end Memory

/-- The loop over the container of `z`, or the call that will start it. -/
def Frame.loops (z : SockPtr) (f : Frame) : Prop :=
  f = .closing z.container ∨ ∃ call, f = .call call ∧ z.container ∈ call.closes

namespace World

/-- No loop can get rid of the element `z`. -/
def Stays (w : World) (z : SockPtr) : Prop :=
  ∃ c, w.mem.deref z = some c ∧ (c.sock < 0 ∨ c.Cut)

/-- The execution does not get to `erase`, if it is one of the `CLOSED` list of `z`. -/
def Spared (w : World) (z : SockPtr) (e : Execution) : Prop :=
  ∀ c, e.list = .socket z .closed → w.mem.deref z = some c →
    e.stop ≤ (c.actions .closed).length ∧
      (e.stop = (c.actions .closed).length → ∃ cb ∈ (c.actions .closed).drop e.pos, cuts cb = true)

/-- The loop over the container of `z` is on the stack, above `base`, and `z` stays. -/
def Stuck (base : List Frame) (z : SockPtr) (w : World) : Prop :=
  w.Stays z ∧ ∃ above f below, w.stack = above ++ f :: below ∧ base <:+ below ∧ f.loops z ∧
    ∀ e, .execute e ∈ above → w.Spared z e

variable {w w' : World} {i : Input} {z : SockPtr} {e : Execution} {base rest : List Frame}

/-- What a step does to an element that is there before and after it. -/
theorem Move.element (hs : w.Sound) (h : Move w i w') {c' : Connection}
    (hnode : z.node < w.mem.nextNode) (hc' : w'.mem.deref z = some c') :
    ∃ c, w.mem.deref z = some c ∧ (c'.sock = c.sock ∨ c'.sock < 0) ∧
      Memory.Extends (c.actions .closed) (c'.actions .closed) := by
  obtain ⟨c, hc, hsock⟩ := (h.ages hs).deref z c' hnode hc'
  refine ⟨c, hc, hsock, ?_⟩
  rcases h.changes hs with hchanges | ⟨-, fd, hfd⟩
  · obtain ⟨d, hd, hext⟩ := hchanges.extends hnode hc'
    obtain rfl : d = c := Option.some.inj (hd.symm.trans hc)
    exact hext
  · rw [hfd, Memory.deref_openFd] at hc'
    obtain rfl := Option.some.inj (hc.symm.trans hc')
    exact .inl rfl

theorem Spared.not_erase (hm : w.mem.Steady) (hspared : w.Spared z e) {list : SocketAction}
    {cb : ActionCallback Callback} (hlist : e.list = .socket z list)
    (hcb : w.current e = some cb) : cb.exec ≠ .erase := by
  intro hexec
  obtain ⟨c, hc, hget, hlen⟩ := current_mem hlist hcb
  obtain ⟨rfl, -⟩ := hm.erases z c list cb hc (List.mem_of_getElem? hget) hexec
  obtain ⟨-, hcut⟩ := hspared c hlist hc
  obtain ⟨cb', hmem, hcuts⟩ := hcut hlen.symm
  obtain ⟨pre, hactions, hlate⟩ := hm.erasesLast z c hc
  rw [hactions] at hget hmem
  -- only the last callback is `erase`, and it cuts nothing
  have hpos : pre.length ≤ e.pos := by
    by_contra hlt
    rw [List.getElem?_append_left (by omega)] at hget
    have := hlate cb (List.mem_of_getElem? hget)
    rw [hexec] at this
    exact absurd this (by decide)
  have hdrop : (pre ++ [eraser]).drop e.pos <:+ [eraser] := by
    rw [List.drop_append, List.drop_eq_nil_of_le hpos, List.nil_append]
    exact List.drop_suffix _ _
  have heq := List.mem_singleton.mp (hdrop.subset hmem)
  rw [heq] at hcuts
  exact absurd hcuts (by decide)

theorem Move.stays (hs : w.Sound) (hm : w.mem.Steady) (h : Move w i w') (hstays : w.Stays z)
    (htop : ∀ e rest, w.stack = .execute e :: rest → w.Spared z e) : w'.Stays z := by
  obtain ⟨c, hc, hbad⟩ := hstays
  rcases h.alive (Option.isSome_of_eq_some hc) with halive | ⟨e, cb, list, rest, hstack, hlist, hcb,
    hexec, -⟩
  · obtain ⟨c', hc'⟩ := Option.isSome_iff_exists.mp halive
    obtain ⟨d, hd, hsock, hext⟩ := h.element hs (hs.mem.node_lt z c hc) hc'
    obtain rfl : d = c := Option.some.inj (hd.symm.trans hc)
    refine ⟨c', hc', ?_⟩
    rcases hbad with hneg | ⟨cb, hmem, hcuts⟩
    · left
      omega
    · right
      rcases hext with heq | ⟨-, hsub⟩
      · exact ⟨cb, heq ▸ hmem, hcuts⟩
      · exact ⟨cb, hsub cb hmem, hcuts⟩
  · exact absurd hexec ((htop e rest hstack).not_erase hm hlist hcb)

theorem Move.spared (hs : w.Sound) (h : Move w i w') (hstays : w.Stays z)
    (hspared : w.Spared z e) : w'.Spared z e := by
  intro c' hlist hc'
  obtain ⟨d, hd, -⟩ := hstays
  obtain ⟨c, hc, -, hext⟩ := h.element hs (hs.mem.node_lt z d hd) hc'
  obtain ⟨hle, hcut⟩ := hspared c hlist hc
  rcases hext with heq | ⟨hlt, -⟩
  · rw [heq]
    exact ⟨hle, hcut⟩
  · exact ⟨by omega, fun h => by omega⟩

/-- A callback that is passed does not cut, so the one that does is still ahead. -/
theorem Spared.next (hspared : w.Spared z e) {cb : ActionCallback Callback}
    (hcb : w.current e = some cb)
    (hpass : cb.has ActionFlag.skip = true ∨ cb.has ActionFlag.stopAfter = false) :
    w.Spared z e.next := by
  intro c hlist hc
  have hlist' : e.list = .socket z .closed := hlist
  obtain ⟨hle, hcut⟩ := hspared c hlist' hc
  refine ⟨hle, fun hstop => ?_⟩
  obtain ⟨cb', hmem, hcuts⟩ := hcut hstop
  obtain ⟨d, hd, hget, -⟩ := current_mem hlist' hcb
  obtain rfl : d = c := Option.some.inj (hd.symm.trans hc)
  obtain ⟨hlt, hget⟩ := List.getElem?_eq_some_iff.mp hget
  rw [List.drop_eq_getElem_cons hlt, List.mem_cons, hget] at hmem
  rcases hmem with rfl | hmem
  · simp only [cuts, Bool.and_eq_true, Bool.not_eq_true'] at hcuts
    rcases hpass with hskip | hstop
    · exact absurd (hcuts.1.2.symm.trans hskip) (by decide)
    · exact absurd (hcuts.2.symm.trans hstop) (by decide)
  · exact ⟨cb', hmem, hcuts⟩

theorem Begins.spared (hs : w.Sound) (hstep : Move w i w') (h : Begins w w' e)
    (hstays : w.Stays z) (htop : ∀ e rest, w.stack = .execute e :: rest → w.Spared z e) :
    w'.Spared z e := by
  cases h with
  | next hstack he hcb hpass =>
    exact he ▸ hstep.spared hs hstays ((htop _ _ hstack).next hcb hpass)
  | owner hlist _ _ _ =>
    intro c' hsocket
    exact absurd (hlist.symm.trans hsocket) (by simp)
  | @socket p c action hlist hpos hstop hp _ hclosed =>
    intro c' hsocket hc'
    obtain ⟨rfl, rfl⟩ := ActionList.socket.inj (hlist.symm.trans hsocket)
    obtain ⟨hopen, hmem⟩ := hclosed rfl
    rw [hmem, Memory.deref_closeSocket hp, if_pos rfl] at hc'
    obtain rfl := Option.some.inj hc'
    obtain ⟨d, hd, hbad⟩ := hstays
    obtain rfl : d = c := Option.some.inj (hd.symm.trans hp)
    obtain ⟨cb, hcb, hcuts⟩ := hbad.resolve_left (by omega)
    refine ⟨hstop.le, fun _ => ⟨cb, ?_, hcuts⟩⟩
    rw [hpos]
    exact hcb

/-- The loop goes on: no step gets rid of `z`, and the loop does not end before. -/
theorem stuck_step (hs : w.Sound) (hm : w.mem.Steady) (hstuck : Stuck base z w)
    (h : w.step i = some w') : Stuck base z w' := by
  have hmove := step_move h
  obtain ⟨hstays, above, f, below, hstack, hbase, hloops, hspared⟩ := hstuck
  obtain ⟨new, hstack', hnew⟩ := hmove.split
  have htop : ∀ e rest, w.stack = .execute e :: rest → w.Spared z e := by
    intro e rest he
    rw [hstack] at he
    cases above with
    | nil =>
      obtain ⟨rfl, -⟩ := List.cons.inj he
      rcases hloops with hf | ⟨call, hf, -⟩ <;> exact absurd hf (by simp)
    | cons g above =>
      obtain ⟨rfl, -⟩ := List.cons.inj he
      exact hspared e List.mem_cons_self
  have hstays' : w'.Stays z := hmove.stays hs hm hstays htop
  have hbegins : ∀ e, .execute e ∈ new → w'.Spared z e := fun e he =>
    (hnew e he).spared hs hmove hstays htop
  cases above with
  | cons g above =>
    rw [hstack] at hstack'
    refine ⟨hstays', new ++ above, f, below, by simpa using hstack', hbase, hloops, ?_⟩
    intro e he
    rcases List.mem_append.mp he with he | he
    · exact hbegins e he
    · exact hmove.spared hs hstays (hspared e (List.mem_cons_of_mem _ he))
  | nil =>
    rw [hstack, List.nil_append, List.tail_cons] at hstack'
    rcases hloops with rfl | ⟨call, rfl, hmem⟩
    · rw [List.nil_append] at hstack
      obtain ⟨errno, rfl, heq⟩ := (step_closing hstack).mp h
      obtain ⟨c, hc, -⟩ := hstays
      cases hbegin : w.mem.begin? z.container with
      | none => exact absurd (Memory.begin?_eq_none hbegin z rfl) (by simp [hc])
      | some entry =>
        obtain ⟨key, d⟩ := entry
        have hd : w.mem.deref (.pointer z.container key d) = some d :=
          Memory.deref_pointer (Memory.begin?_eq_some hbegin)
        have hw' : w' = { w with stack := .closing z.container :: below }.close
            (.pointer z.container key d) errno := by
          rw [heq, closeNext, hbegin]
          rfl
        by_cases hsock : 0 ≤ d.sock
        · rw [close_open (w := { w with stack := .closing z.container :: below }) hd hsock] at hw'
          have hpush := congrArg World.stack hw'
          refine ⟨hstays', [_], _, below, hpush, hbase, .inl rfl, fun e he => hbegins e ?_⟩
          -- what the step has put on the stack is the execution and the loop below it
          have hnew' : new ++ below = [_, .closing z.container] ++ below :=
            hstack'.symm.trans hpush
          rw [List.append_cancel_right hnew']
          exact List.mem_cons.mpr (.inl (List.mem_singleton.mp he))
        · rw [close_closed (w := { w with stack := .closing z.container :: below }) hd
            (by omega)] at hw'
          exact ⟨hstays', [], _, below, congrArg World.stack hw', hbase, .inl rfl, by simp⟩
    · have hne : call.closes ≠ [] := List.ne_nil_of_mem hmem
      obtain rfl := Option.some.inj ((step_closes hne hstack i).symm.trans h)
      obtain ⟨before, after, hsplit⟩ := List.append_of_mem hmem
      refine ⟨hstays', before.map .closing, .closing z.container, after.map .closing ++ below,
        ?_, hbase.trans (List.suffix_append _ _), .inl rfl, fun e he => absurd he (by simp)⟩
      simp [hsplit]

/-- Once `z` keeps a loop going, no run comes back to the stack below the loop. -/
theorem not_returns {owners : Owner → OwnerAction → Action Unit} {invalid : UShort}
    (h : Machine.Reach step Any (start owners invalid) w) {call : Call} {container : Container}
    (hstack : w.stack = .call call :: base) (hmem : container ∈ call.closes)
    (hk : ¬ w.mem.Closable container) {ok : World → Input → Prop}
    (h' : Machine.Reach step ok w w') : w'.stack ≠ base := by
  have hbad : ∃ z : SockPtr, z.container = container ∧ w.Stays z := by
    unfold Memory.Closable at hk
    push Not at hk
    obtain ⟨z, c, hcontainer, hc, hbad⟩ := hk
    refine ⟨z, hcontainer, c, hc, ?_⟩
    by_cases hsock : 0 ≤ c.sock
    · exact .inr (hbad hsock)
    · exact .inl (by omega)
  obtain ⟨z, rfl, hstays⟩ := hbad
  have hinv : w'.Sound ∧ w'.mem.Steady ∧ Stuck base z w' := by
    apply h'.invariant
    · refine ⟨sound_of_reach h, steady_of_reach h, hstays, [], _, base, hstack, List.suffix_rfl,
        .inr ⟨call, rfl, hmem⟩, by simp⟩
    · rintro u i v ⟨hs, hm, hstuck⟩ - hstep
      exact ⟨(step_move hstep).sound hs, steady_step hs hm hstep, stuck_step hs hm hstuck hstep⟩
  obtain ⟨-, -, -, above, f, below, hstack', hbase, -⟩ := hinv
  intro heq
  have hlength := congrArg List.length (hstack'.symm.trans heq)
  have := hbase.length_le
  simp only [List.length_append, List.length_cons] at hlength
  omega

/-- In runs whose hooks close, and close no container that has an element which stays, a call that
closes containers returns if and only if none of them has such an element.  The hooks may also send on
open connections, without an error; they open, receive, poll and register nothing. -/
theorem close_returns_iff {owners : Owner → OwnerAction → Action Unit} {invalid : UShort}
    (h : Machine.Reach step Any (start owners invalid) w) {call : Call}
    (hstack : w.stack = .call call :: base) (hcall : call.closes ≠ []) :
    Machine.Inevitable step CloseHooks (fun t => t.stack = base) w ↔
      ∀ container ∈ call.closes, w.mem.Closable container := by
  constructor
  · intro hends container hmem
    by_contra hk
    obtain ⟨t, hreach, ht⟩ := hends.exists_reach
    exact not_returns h hstack hmem hk hreach ht
  · intro hk
    have hends := closes_ends (fun m _ => hooks_end m) (steady_of_reach h) hcall hk hstack
    exact hends.mono fun t ht => ht.1

/-- The server of `acceptRun` is closed by the main program. -/
def closeServer : List Input := acceptRun ++ [.go, .go, .go, .call (.closeOwner (.server 0))]

theorem close_returns_iff_server : ∃ w, Machine.run step (start twoReceive 0) closeServer = some w ∧
    (Machine.Inevitable step CloseHooks (fun t => t.stack = []) w ↔
      ∀ container ∈ [.clients 0, .listeners 0], w.mem.Closable container) := by
  have hend : (Machine.run step (start twoReceive 0) closeServer).map (fun w => w.stack) =
      some [.call (.closeOwner (.server 0))] := by decide
  obtain ⟨w, hw, hstack⟩ := Option.map_eq_some_iff.mp hend
  exact ⟨w, hw, close_returns_iff (.of_run (fun _ _ => trivial) hw) hstack (by decide)⟩

def closedHook : Owner → OwnerAction → Action Unit
  | .client 0, .closed => [⟨(), ActionFlag.default⟩]
  | _, _ => []

/-- The client connects on descriptor 3, and is closed; its `CLOSED` hook closes it again. -/
def closeInClosed : List Input :=
  [.call (.connect 0), .opened (.ok 3), .setUp none, .go, .go, .call (.closeOwner (.client 0)), .go,
    .closed 0, .go, .enter 1, .call (.closeOwner (.client 0))]

def connected3 : SockPtr := { container := .connections 0, key := 3, node := 0 }

/-- `close` from a `CLOSED` hook of the client never returns. -/
theorem close_spins : ¬ ∀ (owners : Owner → OwnerAction → Action Unit) (invalid : UShort)
    (w : World) (call : Call) (base : List Frame), Machine.Reach step Any (start owners invalid) w →
    w.stack = .call call :: base → call.closes ≠ [] →
    Machine.Inevitable step Calm (fun t => t.stack = base) w := by
  intro hall
  have hend : (Machine.run step (start closedHook 0) closeInClosed).map
      (fun w => (w.stack.head?, (w.mem.deref connected3).map Connection.sock)) =
        some (some (.call (.closeOwner (.client 0))), some (-1)) := by decide
  obtain ⟨w, hw, hend⟩ := Option.map_eq_some_iff.mp hend
  obtain ⟨htop, helem⟩ := Prod.mk.inj hend
  obtain ⟨base, hstack⟩ := List.head?_eq_some_iff.mp htop
  obtain ⟨c, hc, hsock⟩ := Option.map_eq_some_iff.mp helem
  have hreach : Machine.Reach step Any (start closedHook 0) w := .of_run (fun _ _ => trivial) hw
  have hk : ¬ w.mem.Closable (.connections 0) := by
    intro hk
    have := (hk connected3 c rfl hc).1
    omega
  have hends := hall closedHook 0 w (.closeOwner (.client 0)) base hreach hstack (by decide)
  obtain ⟨t, ht, hreturn⟩ := hends.exists_reach
  exact not_returns hreach hstack (by decide) hk ht hreturn

end World

end Unisock.Tcp
