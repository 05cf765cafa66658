import Unisock.Tcp.Step

/-! The executions on the stack: where each of them comes from, and what it still has to call. -/

namespace Unisock.Tcp

open Unisock.Events

theorem Frame.plain_ne_execute {new : List Frame} {e : Execution} (hnew : ∀ f ∈ new, f.plain) :
    .execute e ∉ new := fun he => absurd (hnew _ he) (by simp [Frame.plain])

theorem mem_after {cb : ActionCallback Callback} {e e' : Execution}
    (he : .execute e' ∈ e.after cb) : e' = e.next ∧ cb.has ActionFlag.stopAfter = false := by
  unfold Execution.after at he
  split at he
  · exact absurd he (by simp)
  · next hstop => exact ⟨Frame.execute.inj (List.mem_singleton.mp he), by simpa using hstop⟩

namespace World

/-- How an execution gets onto the stack: it was at the top and has passed a callback, or it has just
begun. -/
inductive Begins (w w' : World) (e : Execution) : Prop
  | next {e₀ : Execution} {cb : ActionCallback Callback} {rest : List Frame}
      (hstack : w.stack = .execute e₀ :: rest) (he : e = e₀.next) (hcb : w.current e₀ = some cb)
      (hpass : cb.has ActionFlag.skip = true ∨ cb.has ActionFlag.stopAfter = false)
  | owner {o : Owner} {action : OwnerAction} (hlist : e.list = .owner o action) (hpos : e.pos = 0)
      (hstop : e.stop = (w'.owners o action).length)
      (harg : ∀ p, e.arg.socket? = some p → (w'.mem.deref p).isSome)
  | socket {p : SockPtr} {c : Connection} {action : SocketAction}
      (hlist : e.list = .socket p action) (hpos : e.pos = 0)
      (hstop : e.stop = (c.actions action).length) (hp : w.mem.deref p = some c)
      (hp' : (w'.mem.deref p).isSome)
      (hclosed : action = .closed → 0 ≤ c.sock ∧ w'.mem = w.mem.closeSocket p c.sock)

section Origins

variable {w w' : World} {i : Input} {f : Frame} {rest : List Frame} {e : Execution}

/-- The callback that an execution takes is at its position in its list. -/
theorem current_callbacks {cb : ActionCallback Callback} (hcb : w.current e = some cb) :
    ∃ l, w.callbacks e.list = some l ∧ l.length = e.stop ∧ l[e.pos]? = some cb := by
  unfold current at hcb
  split at hcb
  · obtain ⟨l, hl, hget⟩ := Option.bind_eq_some_iff.mp hcb
    obtain ⟨hl, hlen⟩ := Option.filter_eq_some_iff.mp hl
    exact ⟨l, hl, by simpa using hlen, hget⟩
  · exact absurd hcb (by simp)

theorem current_mem {cb : ActionCallback Callback} {p : SockPtr} {action : SocketAction}
    (hlist : e.list = .socket p action) (hcb : w.current e = some cb) :
    ∃ c, w.mem.deref p = some c ∧ (c.actions action)[e.pos]? = some cb ∧
      (c.actions action).length = e.stop := by
  obtain ⟨l, hl, hlen, hget⟩ := current_callbacks hcb
  simp only [callbacks, hlist, Option.map_eq_some_iff] at hl
  obtain ⟨c, hc, rfl⟩ := hl
  exact ⟨c, hc, hget, hlen⟩

theorem Begins.of_after {e₀ : Execution} {cb : ActionCallback Callback}
    (hstack : w.stack = .execute e₀ :: rest) (hcb : w.current e₀ = some cb)
    (he : .execute e ∈ e₀.after cb) : Begins w w' e := by
  obtain ⟨rfl, hstop⟩ := mem_after he
  exact .next hstack rfl hcb (.inr hstop)

theorem Begins.of_executeOwner {below : World} {o : Owner} {action : OwnerAction} {arg : Arg}
    {new : List Frame} (hw' : w' = below.executeOwner o action arg)
    (harg : ∀ p, arg.socket? = some p → (w'.mem.deref p).isSome)
    (hnew : .execute e ∈ new → Begins w w' e)
    (he : .execute e ∈ .execute ⟨.owner o action, 0, (below.owners o action).length, arg⟩ :: new) :
    Begins w w' e := by
  subst hw'
  rcases List.mem_cons.mp he with heq | he
  · obtain rfl := Frame.execute.inj heq
    exact .owner rfl rfl rfl harg
  · exact hnew he

theorem socket?_connection {m : Memory} {q : SockPtr} (hq : (m.deref q).isSome) (p : SockPtr)
    (hp : (Arg.connection q).socket? = some p) : (m.deref p).isSome :=
  Option.some.inj hp ▸ hq

/-- A step puts new frames in the place of the topmost one. -/
theorem Move.split (h : Move w i w') :
    ∃ new, w'.stack = new ++ w.stack.tail ∧ ∀ e, .execute e ∈ new → Begins w w' e := by
  cases h with
  | @called c old new rest _ _ hstack hold hnew =>
    refine ⟨.call c :: new, ?_, fun e he => ?_⟩
    · rcases hold with ⟨rfl, rfl⟩ | ⟨arg, n, rfl⟩ <;> simp [hstack]
    · exact absurd ((List.mem_cons.mp he).resolve_left (by simp)) (Frame.plain_ne_execute hnew)
  | @quiet f new rest errno _ owners hstack _ _ hnew =>
    exact ⟨new, by simp [hstack], fun e he => absurd he (Frame.plain_ne_execute hnew)⟩
  | @skipped e₀ cb rest hstack hcb hskip =>
    refine ⟨[.execute e₀.next], by simp [hstack], fun e he => ?_⟩
    exact .next hstack (Frame.execute.inj (List.mem_singleton.mp he)) hcb (.inl hskip)
  | @entered e₀ cb f rest hstack hcb _ _ hf =>
    refine ⟨f :: e₀.after cb, by simp [hstack], fun e he => ?_⟩
    rcases List.mem_cons.mp he with rfl | he
    · exact absurd hf (by simp [Frame.plain])
    · exact .of_after hstack hcb he
  | notify hstack hlist hcb _ _ =>
    obtain ⟨c, hp, -⟩ := current_mem hlist hcb
    exact ⟨_ :: Execution.after _ _, by rw [hstack]; rfl, fun e he => .of_executeOwner rfl
      (socket?_connection (Option.isSome_of_eq_some hp)) (fun he => .of_after hstack hcb he) he⟩
  | receive hstack hlist hcb _ _ =>
    obtain ⟨c, hp, -⟩ := current_mem hlist hcb
    exact ⟨_ :: Execution.after _ _, by rw [hstack]; rfl, fun e he => .of_executeOwner rfl
      (socket?_connection (Option.isSome_of_eq_some hp)) (fun he => .of_after hstack hcb he) he⟩
  | erase hstack _ hcb _ _ =>
    exact ⟨Execution.after _ _, by rw [hstack]; rfl, fun e he => .of_after hstack hcb he⟩
  | @acted f p c action arg new rest errno hstack _ hp hnot _ hnew =>
    refine ⟨_ :: new, by rw [hstack]; rfl, fun e he => ?_⟩
    rcases List.mem_cons.mp he with heq | he
    · obtain rfl := Frame.execute.inj heq
      exact .socket rfl rfl rfl hp (Option.isSome_of_eq_some hp) fun h => absurd h hnot
    · exact absurd he (Frame.plain_ne_execute hnew)
  | @closed f p c new rest errno hstack _ hp hsock hnew =>
    refine ⟨_ :: new, by rw [hstack]; rfl, fun e he => ?_⟩
    rcases List.mem_cons.mp he with heq | he
    · obtain rfl := Frame.execute.inj heq
      have hp' : ((w.mem.closeSocket p c.sock).deref p).isSome := by
        rw [Memory.deref_closeSocket hp, if_pos rfl]
        rfl
      exact .socket rfl rfl rfl hp hp' fun _ => ⟨hsock, rfl⟩
    · exact absurd he (Frame.plain_ne_execute hnew)
  | @failed f o fn new rest errno hstack _ hnew =>
    exact ⟨_ :: new, by rw [hstack]; rfl, fun e he => .of_executeOwner rfl (by simp [Arg.socket?])
      (fun he => absurd he (Frame.plain_ne_execute hnew)) he⟩
  | made hstack _ hsetUp _ _ =>
    refine ⟨[_], by rw [hstack]; rfl, fun e he => absurd (List.mem_singleton.mp he) ?_⟩
    rcases hsetUp with ⟨-, rfl⟩ | ⟨-, rfl⟩ <;> simp
  | accepted hstack _ _ hfree =>
    have hnew := (Memory.deref_added (f := Connection.acceptWiring) hfree (fun _ => rfl) _).trans
      (if_pos rfl)
    exact ⟨[_], by rw [hstack]; rfl, fun e he => .of_executeOwner rfl
      (socket?_connection (Option.isSome_of_eq_some hnew)) (fun he => absurd he (by simp)) he⟩
  | leaked hstack _ _ _ hnew hw' =>
    rcases hw' with ⟨k, rfl⟩ | ⟨o, arg, harg, rfl⟩
    · refine ⟨.crash k :: _, by rw [hstack]; rfl, fun e he => ?_⟩
      exact absurd ((List.mem_cons.mp he).resolve_left (by simp)) (Frame.plain_ne_execute hnew)
    · exact ⟨_ :: _, by rw [hstack]; rfl, fun e he => .of_executeOwner rfl (by simp [harg])
        (fun he => absurd he (Frame.plain_ne_execute hnew)) he⟩
  | @finished f p c wiring action rest hstack hf hp =>
    have hnode : (wiring c).node = c.node := by
      rcases hf with ⟨-, rfl, -⟩ | ⟨-, rfl, -⟩ <;> rfl
    have hp' : ((w.mem.modify p wiring).deref p).isSome := by
      rw [Memory.deref_modify hp hnode, if_pos rfl]
      rfl
    exact ⟨[_, .returning true], by rw [hstack]; rfl, fun e he => .of_executeOwner rfl
      (socket?_connection hp') (fun he => absurd he (by simp)) he⟩
  | wrote hstack _ _ _ => exact ⟨[], by rw [hstack]; rfl, fun e he => absurd he (by simp)⟩
  | hooked hstack _ => exact ⟨[], by rw [hstack]; rfl, fun e he => absurd he (by simp)⟩
  | reported hstack _ _ =>
    exact ⟨[.polling _], by rw [hstack]; rfl, fun e he => absurd he (by simp)⟩

/-- An execution on the stack was there before, or has got there by the step. -/
theorem Move.origin (h : Move w i w') (he : .execute e ∈ w'.stack) :
    .execute e ∈ w.stack ∨ Begins w w' e := by
  obtain ⟨new, hstack, hnew⟩ := h.split
  rw [hstack] at he
  rcases List.mem_append.mp he with he | he
  · exact .inr (hnew e he)
  · exact .inl (List.mem_of_mem_tail he)

end Origins

end World

end Unisock.Tcp
