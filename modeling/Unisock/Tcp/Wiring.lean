import Unisock.Tcp.EventLoop

/-! What is registered on connections, where user code registers its hooks on servers and clients only:
the callbacks of their container, or, while `listen` or `connect` is at work, those of a new element. -/

namespace Unisock.Tcp

open Unisock.Events

/-- The callbacks on which `listen` and `connect` start. -/
def setUpActions : SocketAction → Action Callback := (Connection.inserted 0 0).setUpWiring.actions

/-- The callbacks that `listen`, `accept` and `connect` leave. -/
def Container.wiring : Container → SocketAction → Action Callback
  | .listeners _ => (Connection.inserted 0 0).setUpWiring.listenWiring.actions
  | .clients _ => (Connection.inserted 0 0).acceptWiring.actions
  | .connections _ => (Connection.inserted 0 0).setUpWiring.connectWiring.actions

namespace World

/-- `listen` or `connect` is at the element `p`, or is about to close it. -/
def SettingUp (w : World) (p : SockPtr) : Prop :=
  .listening p ∈ w.stack ∨ .connecting p ∈ w.stack ∨ .call (.close p) ∈ w.stack

/-- Elements have the callbacks of their container, and new ones have no others yet. -/
structure Equipped (w : World) : Prop where
  fresh : ∀ p, (w.stack.head? = some (.listening p) ∨ w.stack.head? = some (.connecting p)) →
    ∀ c, w.mem.deref p = some c → c.actions = setUpActions
  wired : ∀ p c, w.mem.deref p = some c → c.actions = p.container.wiring ∨
    (c.actions = setUpActions ∧ (c.sock < 0 ∨ w.SettingUp p))

variable {w w' : World} {i : Input} {p : SockPtr} {c : Connection} {rest : List Frame}

/-- What `listen` or `connect` leaves in the place of its frame: the callbacks of the container, or a
call that closes the element. -/
theorem listenRest_effect {failure : Option (SetUpStep × Int)} (hp : w.mem.deref p = some c)
    (h : w.listenRest p failure = some w') :
    w'.mem = w.mem.modify p Connection.listenWiring ∨ .call (.close p) ∈ w'.stack := by
  unfold listenRest at h
  split at h
  · obtain rfl := Option.some.inj h
    rw [access_some hp]
    exact .inl rfl
  · obtain rfl := Option.some.inj h
    exact .inr (by simp [giveUp, error, executeOwner, note, push])
  · obtain rfl := Option.some.inj h
    rw [executeSocket_some (by exact hp)]
    exact .inr (by simp [push])
  · obtain rfl := Option.some.inj h
    exact .inr (by simp [giveUp, error, executeOwner, note, push])
  · exact absurd h (by simp)

theorem connectRest_effect {failure : Option (SetUpStep × Int)} (hp : w.mem.deref p = some c)
    (h : w.connectRest p failure = some w') :
    w'.mem = w.mem.modify p Connection.connectWiring ∨ .call (.close p) ∈ w'.stack := by
  unfold connectRest at h
  split at h
  · obtain rfl := Option.some.inj h
    rw [access_some hp]
    exact .inl rfl
  · obtain rfl := Option.some.inj h
    exact .inr (by simp [giveUp, error, executeOwner, note, push])
  · obtain rfl := Option.some.inj h
    exact .inr (by simp [push])
  · exact absurd h (by simp)
  · exact absurd h (by simp)

theorem step_listening (hstack : w.stack = .listening p :: rest) (h : w.step i = some w') :
    ∃ failure, { w with stack := rest }.listenRest p failure = some w' := by
  cases i <;> simp_all [World.step]
  exact ⟨_, h⟩

theorem step_connecting (hstack : w.stack = .connecting p :: rest) (h : w.step i = some w') :
    ∃ failure, { w with stack := rest }.connectRest p failure = some w' := by
  cases i <;> simp_all [World.step]
  exact ⟨_, h⟩

/-- `listen` and `connect` stay at an element until they close it or are done. -/
theorem SettingUp.step (hstep : w.step i = some w') (hp : w.mem.deref p = some c)
    (h : w.SettingUp p) : w'.SettingUp p ∨ (∀ c', w'.mem.deref p = some c' → c'.sock < 0) ∨
      (w.stack.head? = some (.listening p) ∧ w'.mem = w.mem.modify p Connection.listenWiring) ∨
      (w.stack.head? = some (.connecting p) ∧
        w'.mem = w.mem.modify p Connection.connectWiring) := by
  obtain ⟨new, hnew, -⟩ := (step_move hstep).split
  cases hstack : w.stack with
  | nil => simp [SettingUp, hstack] at h
  | cons f rest =>
    rw [hstack, List.tail_cons] at hnew
    have stays : ∀ {g}, g ∈ rest → g ∈ w'.stack := fun hg => hnew ▸ List.mem_append_right new hg
    simp only [SettingUp, hstack, List.mem_cons] at h
    rcases h with (rfl | hl) | (rfl | hl) | (rfl | hl)
    · obtain ⟨failure, hrest⟩ := step_listening hstack hstep
      rcases listenRest_effect (w := { w with stack := rest }) hp hrest with hmem | hclose
      · exact .inr (.inr (.inl ⟨rfl, hmem⟩))
      · exact .inl (.inr (.inr hclose))
    · exact .inl (.inl (stays hl))
    · obtain ⟨failure, hrest⟩ := step_connecting hstack hstep
      rcases connectRest_effect (w := { w with stack := rest }) hp hrest with hmem | hclose
      · exact .inr (.inr (.inr ⟨rfl, hmem⟩))
      · exact .inl (.inr (.inr hclose))
    · exact .inl (.inr (.inl (stays hl)))
    · obtain ⟨errno, -, rfl⟩ := (step_close hstack).mp hstep
      refine .inr (.inl fun c' hc' => ?_)
      by_cases hsock : c.sock < 0
      · rw [close_closed (w := { w with stack := rest }) hp hsock] at hc'
        obtain rfl := Option.some.inj (hp.symm.trans hc')
        exact hsock
      · rw [close_open (w := { w with stack := rest }) hp (by omega)] at hc'
        simp only [Memory.deref_closeSocket hp, if_true] at hc'
        obtain rfl := Option.some.inj hc'
        exact Int.negSucc_lt_zero 0
    · exact .inl (.inr (.inr (stays hl)))

/-- Only `make_socket` makes `listen` or `connect` go on. -/
theorem Move.fresh (ho : w.Orderly) (h : Move w i w')
    (htop : w'.stack.head? = some (.listening p) ∨ w'.stack.head? = some (.connecting p)) :
    ∀ c, w'.mem.deref p = some c → c.actions = setUpActions := by
  have tail : ∀ {f rest}, w.stack = f :: rest →
      ¬ (rest.head? = some (.listening p) ∨ rest.head? = some (.connecting p)) := by
    rintro f rest hstack (hr | hr)
    · exact ho.tail _ (by rw [hstack]; exact List.mem_of_head? hr)
    · exact ho.tail _ (by rw [hstack]; exact List.mem_of_head? hr)
  have plain : ∀ {f rest new}, w.stack = f :: rest → (∀ g ∈ new, g.plain = true) →
      ¬ ((new ++ rest).head? = some (.listening p) ∨
        (new ++ rest).head? = some (.connecting p)) := by
    intro f rest new hstack hnew
    cases new with
    | nil => exact tail hstack
    | cons g new =>
      have hg := hnew g List.mem_cons_self
      rintro (hr | hr) <;> obtain rfl := Option.some.inj hr <;> exact absurd hg (by simp [Frame.plain])
  cases h with
  | called _ _ hstack hold hnew => exact absurd htop (by simp)
  | quiet _ _ _ hstack _ _ hnew => exact absurd htop (plain hstack hnew)
  | skipped hstack => exact absurd htop (by simp)
  | entered hstack _ _ _ hf =>
    rcases htop with hr | hr <;> obtain rfl := Option.some.inj hr <;>
      exact absurd hf (by simp [Frame.plain])
  | notify | receive => exact absurd htop (by simp [executeOwner, push])
  | @erase e cb q list rest hstack =>
    have hafter : ∀ g ∈ e.after cb, ∃ e', g = .execute e' := by
      intro g hg
      unfold Execution.after at hg
      split at hg
      · exact absurd hg (by simp)
      · exact ⟨_, List.mem_singleton.mp hg⟩
    refine absurd htop ?_
    cases hcb : e.after cb with
    | nil => exact tail hstack
    | cons g gs =>
      obtain ⟨e', rfl⟩ := hafter g (by simp [hcb])
      simp [note]
  | acted | closed => exact absurd htop (by simp)
  | failed => exact absurd htop (by simp [error, executeOwner, push])
  | @made f container fd setUp rest hstack _ hsetUp _ hfree =>
    have hp : p = w.mem.newPtr container fd := by
      rcases hsetUp with ⟨-, rfl⟩ | ⟨-, rfl⟩ <;> rcases htop with hr | hr <;>
        simp only [List.head?_cons, Option.some.injEq, Frame.listening.injEq, Frame.connecting.injEq,
          reduceCtorEq] at hr <;> exact hr.symm
    intro c hc
    have hnew := (Memory.deref_added (f := Connection.setUpWiring) hfree (fun _ => rfl) p).trans
      (if_pos hp)
    obtain rfl := Option.some.inj (hnew.symm.trans hc)
    rfl
  | accepted => exact absurd htop (by simp [executeOwner, push])
  | leaked hstack _ _ _ hnew hw' =>
    rcases hw' with ⟨k, rfl⟩ | ⟨o, arg, -, rfl⟩
    · exact absurd htop (by simp [push])
    · exact absurd htop (by simp [executeOwner, push])
  | finished => exact absurd htop (by simp [executeOwner, push])
  | wrote hstack | hooked hstack => exact absurd htop (tail hstack)
  | reported => exact absurd htop (by simp)

/-- The callbacks with which `listen` and `connect` end. -/
theorem Equipped.finished (ho : w.Orderly) (hw : w.Equipped) (hp : w.mem.deref p = some c)
    {wiring : Connection → Connection}
    (hwiring : (w.stack.head? = some (.listening p) ∧ wiring = Connection.listenWiring) ∨
      (w.stack.head? = some (.connecting p) ∧ wiring = Connection.connectWiring)) :
    (wiring c).actions = p.container.wiring := by
  have hsetUp : c.actions = setUpActions :=
    hw.fresh p (hwiring.imp And.left And.left) c hp
  rcases hwiring with ⟨htop, rfl⟩ | ⟨htop, rfl⟩
  · obtain ⟨⟨s, hs⟩, -⟩ := ho.head _ htop
    simp only [Connection.listenWiring, Connection.on, hsetUp, hs]
    rfl
  · obtain ⟨⟨s, hs⟩, -⟩ := ho.head _ htop
    simp only [Connection.connectWiring, Connection.on, hsetUp, hs]
    rfl

theorem Equipped.step (ho : w.Orderly) (hw : w.Equipped) (hstep : w.step i = some w') : w'.Equipped := by
  have hmove := step_move hstep
  refine ⟨fun p htop => hmove.fresh ho htop, fun p c' hc' => ?_⟩
  -- an element that keeps its callbacks
  have kept : ∀ c, w.mem.deref p = some c → c'.actions = c.actions → (c.sock < 0 → c'.sock < 0) →
      c'.actions = p.container.wiring ∨
        (c'.actions = setUpActions ∧ (c'.sock < 0 ∨ w'.SettingUp p)) := by
    intro c hc hactions hsock
    have finished : ∀ {wiring : Connection → Connection} (hnode : (wiring c).node = c.node),
        ((w.stack.head? = some (.listening p) ∧ wiring = Connection.listenWiring) ∨
          (w.stack.head? = some (.connecting p) ∧ wiring = Connection.connectWiring)) →
        w'.mem = w.mem.modify p wiring → c'.actions = p.container.wiring := by
      intro wiring hnode hwiring hmem
      rw [hmem, Memory.deref_modify hc hnode, if_pos rfl] at hc'
      obtain rfl := Option.some.inj hc'
      exact hw.finished ho hc hwiring
    rcases hw.wired p c hc with hwired | ⟨hsetUp, hneg | hat⟩
    · exact .inl (hactions.trans hwired)
    · exact .inr ⟨hactions.trans hsetUp, .inl (hsock hneg)⟩
    · rcases hat.step hstep hc with hat | hneg | ⟨htop, hmem⟩ | ⟨htop, hmem⟩
      · exact .inr ⟨hactions.trans hsetUp, .inr hat⟩
      · exact .inr ⟨hactions.trans hsetUp, .inl (hneg c' hc')⟩
      · exact .inl (finished rfl (.inl ⟨htop, rfl⟩) hmem)
      · exact .inl (finished rfl (.inr ⟨htop, rfl⟩) hmem)
  rcases hmove.touch with hsame | ⟨q, d, htouch, hderef⟩
  · exact kept c' (hsame p ▸ hc') rfl id
  · rw [hderef p] at hc'
    split at hc'
    · next hpq =>
      subst hpq
      cases htouch with
      | erased => exact absurd hc' (by simp)
      | closed hq =>
        obtain rfl := Option.some.inj hc'
        exact kept _ hq rfl fun _ => Int.negSucc_lt_zero 0
      | inserted _ _ _ htop =>
        obtain rfl := Option.some.inj hc'
        rcases htop with ⟨rfl, htop⟩ | ⟨rfl, s, hs⟩
        · refine .inr ⟨rfl, .inr ?_⟩
          exact htop.imp List.mem_of_head? fun h => .inl (List.mem_of_head? h)
        · exact .inl (by rw [hs]; rfl)
      | wired hq hstack hwiring =>
        obtain rfl := Option.some.inj hc'
        refine .inl (hw.finished ho hq (hwiring.imp (fun h => ⟨?_, h.2⟩) fun h => ⟨?_, h.2⟩)) <;>
          rw [hstack, h.1] <;> rfl
      | sent hq _ =>
        obtain rfl := Option.some.inj hc'
        exact kept _ hq rfl id
      | hooked _ hstack => exact (ho.ready hstack).elim
    · exact kept c' hc' rfl id

section Runs

variable {owners : Owner → OwnerAction → Action Unit} {invalid : UShort}

theorem equipped_of_reach (h : Machine.Reach step OwnerHooks (start owners invalid) w) : w.Equipped := by
  have hstart : (start owners invalid).Equipped :=
    ⟨by simp [start], fun p c hp => absurd hp (by simp [start, Memory.empty, Memory.deref])⟩
  have hinv : w.Orderly ∧ w.Equipped := by
    refine h.invariant (P := fun w => w.Orderly ∧ w.Equipped)
      ⟨start_orderly owners invalid, hstart⟩ ?_
    rintro u i v ⟨ho, hw⟩ hok hstep
    exact ⟨(step_move hstep).orderly ho hok, hw.step ho hstep⟩
  exact hinv.2

/-- While nothing is being executed, all elements have the callbacks of their container. -/
theorem Equipped.of_idle (hw : w.Equipped) (hclosed : w.ClosedErased) (hidle : w.stack = [])
    (hp : w.mem.deref p = some c) : c.actions = p.container.wiring := by
  rcases hw.wired p c hp with hwired | ⟨-, hneg | hat⟩
  · exact hwired
  · exact absurd hneg (Int.not_lt.mpr (hclosed.open_of_idle hidle hp))
  · simp [SettingUp, hidle] at hat

end Runs

end World

end Unisock.Tcp
