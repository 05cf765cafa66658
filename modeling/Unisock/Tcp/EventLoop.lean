import Unisock.Tcp.Effects
import Unisock.Tcp.Lifecycle

/-! The loop `while (events::poll(handler));` of a program: it ends exactly when no server and no
client has a socket left. -/

namespace Unisock.Tcp.World

open Unisock.Events

/-- Every closed element that is still there is about to be erased, by an execution of its `CLOSED`
list. -/
def ClosedErased (w : World) : Prop :=
  ∀ p c, w.mem.deref p = some c → c.sock < 0 →
    ∃ e, .execute e ∈ w.stack ∧ e.list = .socket p .closed ∧ e.pos ≤ 1 ∧ e.stop = 2

variable {w w' : World} {i : Input} {p : SockPtr} {rest : List Frame}

/-- The callbacks of a `CLOSED` list, by their positions. -/
theorem Orderly.closed_callback (ho : w.Orderly) {c : Connection} (hp : w.mem.deref p = some c)
    {e : Execution} (hlist : e.list = .socket p .closed) (hpos : e.pos ≤ 1) (hstop : e.stop = 2) :
    w.current e = some (if e.pos = 0 then ⟨.notify p.container.endAction, ActionFlag.default⟩
      else eraser) := by
  have hclosed := ((ho.stage p).shape (look_some hp)).closed
  have hlt : e.pos < e.stop := by omega
  have hcallbacks : w.callbacks e.list =
      some [⟨.notify p.container.endAction, ActionFlag.default⟩, eraser] := by
    simp only [callbacks, hlist, hp, Option.map_some, hclosed]
    rfl
  rw [current, if_pos hlt, hcallbacks, hstop]
  rcases Nat.le_one_iff_eq_zero_or_eq_one.mp hpos with h0 | h1
  · rw [h0]
    rfl
  · rw [h1]
    rfl

/-- An execution that is about to erase `p` goes on until it does. -/
theorem Orderly.closing_stays (ho : w.Orderly) (h : Move w i w') {c : Connection}
    (hp : w.mem.deref p = some c) (hp' : (w'.mem.deref p).isSome) {e : Execution}
    (he : .execute e ∈ w.stack) (hlist : e.list = .socket p .closed) (hpos : e.pos ≤ 1)
    (hstop : e.stop = 2) :
    ∃ e, .execute e ∈ w'.stack ∧ e.list = .socket p .closed ∧ e.pos ≤ 1 ∧ e.stop = 2 := by
  obtain ⟨new, hstack', -⟩ := h.split
  cases hstack : w.stack with
  | nil => exact absurd he (by simp [hstack])
  | cons f rest =>
    rw [hstack] at he hstack'
    rcases List.mem_cons.mp he with rfl | he
    · have hcur := ho.closed_callback hp hlist hpos hstop
      have top : ∀ {f : Frame} {r : List Frame}, w.stack = f :: r → f = .execute e ∧ r = rest :=
        fun hs => ⟨(List.cons.inj (hstack.symm.trans hs)).1.symm,
          (List.cons.inj (hstack.symm.trans hs)).2.symm⟩
      have turn : ∀ {e₀ : Execution} {cb : ActionCallback Callback} {r : List Frame},
          w.stack = .execute e₀ :: r → w.current e₀ = some cb →
          (e.pos = 0 ∧ e₀ = e ∧ cb = ⟨.notify p.container.endAction, ActionFlag.default⟩) ∨
            e₀ = e ∧ cb = eraser := by
        intro e₀ cb r hs hcb
        obtain rfl := Frame.execute.inj (top hs).1
        obtain rfl := Option.some.inj (hcur.symm.trans hcb)
        by_cases hzero : e₀.pos = 0
        · exact .inl ⟨hzero, rfl, if_pos hzero⟩
        · exact .inr ⟨rfl, if_neg hzero⟩
      cases h with
      | @notify e₀ cb q list action r hs hlist' hcb _ hexec =>
        rcases turn hs hcb with ⟨hzero, rfl, rfl⟩ | ⟨-, rfl⟩
        · refine ⟨e₀.next, ?_, hlist, by simp [Execution.next, hzero], hstop⟩
          have hafter : e₀.after ⟨.notify p.container.endAction, ActionFlag.default⟩ =
              [.execute e₀.next] := if_neg (by simp [ActionCallback.has, ActionFlag.default,
                ActionFlag.stopAfter])
          refine List.mem_cons_of_mem _ (List.mem_append_left _ ?_)
          rw [hafter]
          exact List.mem_singleton_self _
        · exact absurd hexec (by simp [eraser])
      | erase hs hlist' hcb _ _ =>
        obtain ⟨c', hc', -⟩ := current_mem hlist' hcb
        obtain rfl := Frame.execute.inj (top hs).1
        obtain ⟨rfl, -⟩ := ActionList.socket.inj (hlist.symm.trans hlist')
        have hgone := Memory.deref_eraseSocket hc' p
        rw [if_pos rfl] at hgone
        exact absurd hp' (by simp [note, hgone])
      | skipped hs hcb hskip =>
        rcases turn hs hcb with ⟨-, -, rfl⟩ | ⟨-, rfl⟩
        · exact absurd hskip (by simp [ActionCallback.has, ActionFlag.default, ActionFlag.skip])
        · exact absurd hskip (by decide)
      | entered hs hcb _ hexec _ =>
        rcases turn hs hcb with ⟨-, -, rfl⟩ | ⟨-, rfl⟩ <;>
          exact absurd hexec (by simp [Callback.neutral, eraser])
      | receive hs _ hcb _ hexec =>
        rcases turn hs hcb with ⟨-, -, rfl⟩ | ⟨-, rfl⟩ <;> exact absurd hexec (by simp [eraser])
      | called _ _ hs hold _ =>
        rcases hold with ⟨rfl, rfl⟩ | ⟨arg, n, rfl⟩
        · exact absurd (hstack.symm.trans hs) (by simp)
        · exact absurd (top hs).1 (by simp)
      | quiet _ _ _ hs hf _ _ => exact absurd (hcur.symm.trans (hf e (top hs).1)) (by simp)
      | acted _ hs hf _ _ _ _ => exact absurd (top hs).1 (hf e)
      | closed _ hs hf _ _ _ => exact absurd (top hs).1 (hf e)
      | failed _ hs hf _ => exact absurd (top hs).1 (hf e)
      | made hs htarget _ _ _ => exact absurd (top hs).1 (Frame.target_execute htarget e)
      | accepted hs htarget _ _ => exact absurd (top hs).1 (Frame.target_execute htarget e)
      | leaked hs htarget _ _ _ _ => exact absurd (top hs).1 (Frame.target_execute htarget e)
      | finished hs hf _ =>
        rcases hf with ⟨rfl, -⟩ | ⟨rfl, -⟩ <;> exact absurd (top hs).1 (by simp)
      | wrote hs hf _ _ => exact absurd (top hs).1 (hf e)
      | hooked hs _ => exact absurd (top hs).1 (by simp)
      | reported hs hf _ => exact absurd (top hs).1 (hf e)
    · exact ⟨e, hstack' ▸ List.mem_append_right new he, hlist, hpos, hstop⟩

/-- Every move but a registration on a connection keeps the invariant. -/
theorem Move.erasing (ho : w.Orderly) (h : Move w i w') (hw : w.ClosedErased) : w'.ClosedErased := by
  intro p c' hc' hneg
  have stays : ∀ {c : Connection}, w.mem.deref p = some c → c.sock < 0 →
      ∃ e, .execute e ∈ w'.stack ∧ e.list = .socket p .closed ∧ e.pos ≤ 1 ∧ e.stop = 2 := by
    intro c hc hsock
    obtain ⟨e, he, hlist, hpos, hstop⟩ := hw p c hc hsock
    exact ho.closing_stays h hc (Option.isSome_of_eq_some hc') he hlist hpos hstop
  rcases h.touch with hsame | ⟨q, d, htouch, hderef⟩
  · exact stays (hsame p ▸ hc') hneg
  · rw [hderef p] at hc'
    split at hc'
    · next hpq =>
      subst hpq
      cases htouch with
      | erased => exact absurd hc' (by simp)
      | @closed c hq _ htop =>
        refine ⟨_, List.mem_of_head? htop, rfl, Nat.zero_le _, ?_⟩
        rw [((ho.stage p).shape (look_some hq)).closed]
        rfl
      | inserted _ hfd hwiring =>
        obtain rfl := Option.some.inj hc'
        rcases hwiring with rfl | rfl <;> exact absurd hneg (not_lt.mpr hfd)
      | wired hq _ hwiring =>
        obtain rfl := Option.some.inj hc'
        rcases hwiring with ⟨-, rfl⟩ | ⟨-, rfl⟩ <;> exact stays hq hneg
      | sent hq _ =>
        obtain rfl := Option.some.inj hc'
        exact stays hq hneg
      | hooked _ hstack => exact (ho.ready hstack).elim
    · exact stays hc' hneg

/-! ### What `poll` returns -/

/-- `poll` is in its loop, below everything that it calls, or has returned `true` from it. -/
def PollGoesOn (w : World) : Prop :=
  (∃ above f, w.stack = above ++ [f] ∧ ((∃ l, f = .polling l) ∨ ∃ k, f = .crash k)) ∨
    (w.stack = [] ∧ w.returned = some true)

theorem pollNext_goesOn (hidle : w.stack = []) (l : PollLoop) : (w.pollNext l).PollGoesOn := by
  have called : ∀ next p action, ((w.push (.polling next)).executeSocket p action .none).PollGoesOn :=
    fun next p action => by
      unfold executeSocket access
      split
      · exact .inl ⟨[.crash .dangling], _, congrArg (_ :: _ :: ·) hidle, .inl ⟨next, rfl⟩⟩
      · exact .inl ⟨[.execute _], _, congrArg (_ :: _ :: ·) hidle, .inl ⟨next, rfl⟩⟩
  unfold pollNext
  split
  · exact .inr ⟨hidle, rfl⟩
  · exact .inl ⟨[], _, congrArg (_ :: ·) hidle, .inr ⟨_, rfl⟩⟩
  · exact .inl ⟨[], _, congrArg (_ :: ·) hidle, .inl ⟨_, rfl⟩⟩
  · exact called _ _ _
  · exact called _ _ _

theorem PollGoesOn.step (h : w.PollGoesOn) (hne : w.stack ≠ []) (hstep : w.step i = some w') :
    w'.PollGoesOn := by
  obtain ⟨above, f, hstack, hf⟩ | ⟨hidle, -⟩ := h
  swap
  · exact absurd hidle hne
  cases above with
  | nil =>
    rw [List.nil_append] at hstack
    rcases hf with ⟨l, rfl⟩ | ⟨k, rfl⟩
    · simp only [World.step, hstack, Option.some.injEq] at hstep
      exact hstep ▸ pollNext_goesOn rfl l
    · simp [World.step, hstack] at hstep
  | cons g above =>
    obtain ⟨new, hnew, -⟩ := (step_move hstep).split
    rw [hstack, List.cons_append, List.tail_cons, ← List.append_assoc] at hnew
    exact .inl ⟨new ++ above, f, hnew, hf⟩

section Runs

variable {owners : Owner → OwnerAction → Action Unit} {invalid : UShort}

theorem erasing_of_reach (h : Machine.Reach step OwnerHooks (start owners invalid) w) :
    w.Orderly ∧ w.ClosedErased := by
  refine h.invariant (P := fun w => w.Orderly ∧ w.ClosedErased)
    ⟨start_orderly owners invalid, fun p c hp => ?_⟩ ?_
  · simp [start, Memory.empty, Memory.deref] at hp
  · rintro u i v ⟨ho, he⟩ hok hstep
    exact ⟨(step_move hstep).orderly ho hok, (step_move hstep).erasing ho he⟩

/-- While nothing is being executed, all sockets in the containers are open. -/
theorem ClosedErased.open_of_idle (h : w.ClosedErased) (hidle : w.stack = []) {c : Connection}
    (hp : w.mem.deref p = some c) : 0 ≤ c.sock := by
  by_contra hneg
  obtain ⟨e, he, -⟩ := h p c hp (by omega)
  exact absurd he (by simp [hidle])

end Runs

end Unisock.Tcp.World
