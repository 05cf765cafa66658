import Unisock.Tcp.Registry

/-! Which connections the hooks are called for: no hook runs for an erased connection in any run in
which no connection is erased while an execution below still has a callback to call for it. -/

namespace Unisock.Tcp

open Unisock.Events

namespace World

/-- The execution still has a callback to call from a list of `p`, or with `p` as its argument. -/
def Needs (w : World) (e : Execution) (p : SockPtr) : Prop :=
  e.pos < e.stop ∧
    match e.list with
    | .socket q _ => q = p
    | .owner o action =>
      e.arg.socket? = some p ∧ (w.owners o action).length = e.stop ∧
        ∃ cb ∈ (w.owners o action).drop e.pos, cb.has ActionFlag.skip = false

/-- If the next step goes on with a list of a connection, or calls a hook with a connection, that
connection is still an element of its container. -/
def HookAlive (w : World) : Prop :=
  ∀ e rest, w.stack = .execute e :: rest → e.pos < e.stop →
    match e.list with
    | .socket p _ => (w.mem.deref p).isSome
    | .owner _ _ => ∀ cb p, w.current e = some cb → cb.has ActionFlag.skip = false →
        e.arg.socket? = some p → (w.mem.deref p).isSome

/-- If the step erases a connection, no execution below still has a callback to call for it. -/
def Spares (w : World) (_ : Input) : Prop :=
  ∀ e cb p list rest, w.stack = .execute e :: rest → e.list = .socket p list →
    w.current e = some cb → cb.exec = .erase → ∀ e', .execute e' ∈ rest → ¬ w.Needs e' p

/-- The next step registers a callback on the list. -/
def RegistersOn (w : World) (list : ActionList) : Prop :=
  match w.stack with
  | .call (.on p action _) :: _ => list = .socket p action
  | .call (.onOwner o action _) :: _ => list = .owner o action
  | _ => False

/-- Every connection that an execution on the stack still needs is in its container. -/
structure Live (w : World) : Prop where
  stop_le : ∀ e o action, .execute e ∈ w.stack → e.list = .owner o action →
    e.stop ≤ (w.owners o action).length
  alive : ∀ e p, .execute e ∈ w.stack → w.Needs e p → (w.mem.deref p).isSome

variable {w w' : World} {i : Input}

theorem current_owner {e : Execution} {cb : ActionCallback Callback} {o : Owner}
    {action : OwnerAction} (hlist : e.list = .owner o action) (hcb : w.current e = some cb) :
    (w.owners o action).length = e.stop ∧
      ∃ cb' ∈ (w.owners o action).drop e.pos, cb'.flags = cb.flags := by
  obtain ⟨l, hl, hlen, hget⟩ := current_callbacks hcb
  simp only [callbacks, hlist, Option.some.injEq] at hl
  subst hl
  rw [List.getElem?_map, Option.map_eq_some_iff] at hget
  obtain ⟨cb', hcb', rfl⟩ := hget
  refine ⟨by simpa using hlen, cb', ?_, rfl⟩
  exact List.mem_of_getElem? (i := 0) (by rw [List.getElem?_drop]; simpa using hcb')

theorem Live.hookAlive (h : w.Live) : w.HookAlive := by
  intro e rest hstack hlt
  have hin : .execute e ∈ w.stack := hstack ▸ List.mem_cons_self
  cases hlist : e.list with
  | socket p action => exact h.alive e p hin ⟨hlt, by rw [hlist]⟩
  | owner o action =>
    intro cb p hcb hskip harg
    obtain ⟨hlen, cb', hmem, hflags⟩ := current_owner hlist hcb
    have hskip' : cb'.has ActionFlag.skip = false := by
      rw [← hskip, ActionCallback.has, ActionCallback.has, hflags]
    exact h.alive e p hin ⟨hlt, by rw [hlist]; exact ⟨harg, hlen, cb', hmem, hskip'⟩⟩

/-- A list of an owner stays as it is, or grows in a registration on it. -/
theorem Move.owners (h : Move w i w') (o : Owner) (action : OwnerAction) :
    w'.owners o action = w.owners o action ∨
      ((w.owners o action).length < (w'.owners o action).length ∧
        w.RegistersOn (.owner o action)) := by
  cases h with
  | quiet _ _ _ hstack _ howners _ =>
    rcases howners o action with hsame | ⟨hlt, flags, rfl⟩
    · exact .inl hsame
    · exact .inr ⟨hlt, by simp only [RegistersOn, hstack]⟩
  | leaked _ _ _ _ _ hw' =>
    rcases hw' with ⟨k, rfl⟩ | ⟨o, arg, -, rfl⟩ <;> exact .inl rfl
  | _ => exact .inl rfl

theorem Move.length_owners (h : Move w i w') (o : Owner) (action : OwnerAction) :
    (w.owners o action).length ≤ (w'.owners o action).length := by
  rcases h.owners o action with heq | ⟨hlt, -⟩
  · rw [heq]
  · exact hlt.le

/-- A connection goes away by its `erase` callback only. -/
theorem Move.alive {p : SockPtr} (h : Move w i w') (hp : (w.mem.deref p).isSome) :
    (w'.mem.deref p).isSome ∨ ∃ e cb list rest, w.stack = .execute e :: rest ∧
      e.list = .socket p list ∧ w.current e = some cb ∧ cb.exec = .erase ∧
      w'.stack = e.after cb ++ rest := by
  cases h with
  | @erase e cb q list rest hstack hlist hcb _ hexec =>
    obtain ⟨c, hc, -⟩ := current_mem hlist hcb
    by_cases hpq : p = q
    · subst hpq
      exact .inr ⟨e, cb, list, rest, hstack, hlist, hcb, hexec, rfl⟩
    · left
      have hderef : (w.mem.eraseSocket q.container q.key).deref p = w.mem.deref p := by
        rw [Memory.deref_eraseSocket hc, if_neg hpq]
      exact (congrArg Option.isSome hderef).trans hp
  | closed _ _ _ hq _ _ => exact .inl (Memory.isSome_modify hq rfl hp)
  | made _ _ _ _ hfree => exact .inl (Memory.isSome_added hfree (fun _ => rfl) (.inr hp))
  | accepted _ _ _ hfree => exact .inl (Memory.isSome_added hfree (fun _ => rfl) (.inr hp))
  | leaked _ _ _ _ _ hw' =>
    rcases hw' with ⟨k, rfl⟩ | ⟨o, arg, -, rfl⟩ <;> exact .inl hp
  | finished _ hf hq =>
    rcases hf with ⟨-, rfl, -⟩ | ⟨-, rfl, -⟩ <;> exact .inl (Memory.isSome_modify hq rfl hp)
  | wrote _ _ hq _ => exact .inl (Memory.isSome_modify hq rfl hp)
  | hooked _ hq => exact .inl (Memory.isSome_modify hq rfl hp)
  | _ => exact .inl hp

theorem needs_of_needs {e : Execution} {p : SockPtr} (h : Move w i w')
    (hstop : ∀ o action, e.list = .owner o action → e.stop ≤ (w.owners o action).length)
    (hneeds : w'.Needs e p) : w.Needs e p := by
  obtain ⟨hlt, hrest⟩ := hneeds
  refine ⟨hlt, ?_⟩
  cases hlist : e.list with
  | socket q action => simpa [hlist] using hrest
  | owner o action =>
    simp only [hlist] at hrest ⊢
    obtain ⟨harg, hlen, hcb⟩ := hrest
    rcases h.owners o action with heq | ⟨hgrown, -⟩
    · rw [heq] at hlen hcb
      exact ⟨harg, hlen, hcb⟩
    · have := hstop o action hlist
      omega

theorem needs_of_next {e : Execution} {p : SockPtr} (h : w.Needs e.next p) : w.Needs e p := by
  obtain ⟨hlt, hrest⟩ := h
  have hlt : e.pos + 1 < e.stop := hlt
  refine ⟨by omega, ?_⟩
  cases hlist : e.list with
  | socket q action =>
    have hnext : e.next.list = .socket q action := hlist
    simpa [hnext] using hrest
  | owner o action =>
    have hnext : e.next.list = .owner o action := hlist
    simp only [hnext] at hrest
    obtain ⟨harg, hlen, cb, hmem, hskip⟩ := hrest
    refine ⟨harg, hlen, cb, ?_, hskip⟩
    have hsub : (w.owners o action).drop (e.pos + 1) = ((w.owners o action).drop e.pos).drop 1 := by
      rw [List.drop_drop]
    exact List.mem_of_mem_drop (hsub ▸ hmem)

theorem Move.live (hs : w.Sound) (hl : w.Live) (hspares : w.Spares i) (h : Move w i w') :
    w'.Live where
  stop_le e o action he hlist := by
    rcases h.origin he with hold | hbegins
    · exact (hl.stop_le e o action hold hlist).trans (h.length_owners o action)
    cases hbegins with
    | @next e₀ cb rest hstack hnext _ _ =>
      subst hnext
      have hin : .execute e₀ ∈ w.stack := hstack ▸ List.mem_cons_self
      exact (hl.stop_le e₀ o action hin hlist).trans (h.length_owners o action)
    | owner howner _ hstop _ =>
      obtain ⟨rfl, rfl⟩ := ActionList.owner.inj (howner.symm.trans hlist)
      exact hstop.le
    | socket hsocket _ _ _ _ _ => exact absurd (hsocket.symm.trans hlist) (by simp)
  alive e p he hneeds := by
    -- an execution that went on needed `p` before the step, so the step must not erase it
    have kept : w.Needs e p → (w.mem.deref p).isSome → (w'.mem.deref p).isSome := by
      intro hneedsw hp
      rcases h.alive hp with halive | ⟨e₀, cb, list, rest, hstack, hlist, hcb, hexec, hstack'⟩
      · exact halive
      · obtain ⟨c, hc, hget, -⟩ := current_mem hlist hcb
        obtain ⟨-, hstop⟩ := hs.mem.erases p c list cb hc (List.mem_of_getElem? hget) hexec
        rw [hstack', Execution.after, if_pos hstop, List.nil_append] at he
        exact absurd hneedsw (hspares e₀ cb p list rest hstack hlist hcb hexec e he)
    rcases h.origin he with hold | hbegins
    · have hneedsw := needs_of_needs h (fun o action => hl.stop_le e o action hold) hneeds
      exact kept hneedsw (hl.alive e p hold hneedsw)
    cases hbegins with
    | @next e₀ cb rest hstack hnext _ _ =>
      subst hnext
      have hin : .execute e₀ ∈ w.stack := hstack ▸ List.mem_cons_self
      have hneedsw := needs_of_needs (e := e₀.next) h
        (fun o action => hl.stop_le e₀ o action hin) hneeds
      exact kept hneedsw (hl.alive e₀ p hin (needs_of_next hneedsw))
    | owner hlist _ _ harg =>
      have hrest := hneeds.2
      simp only [hlist] at hrest
      exact harg p hrest.1
    | socket hlist _ _ _ hp' _ =>
      have hrest := hneeds.2
      simp only [hlist] at hrest
      exact hrest ▸ hp'

theorem start_live (owners : Owner → OwnerAction → Action Unit) (invalid : UShort) :
    (start owners invalid).Live where
  stop_le e o action he := absurd he (by simp [start])
  alive e p he := absurd he (by simp [start])

/-- In every run whose steps erase no connection that an execution below still needs, every hook
starts while its connection is in its container. -/
theorem hook_alive {owners : Owner → OwnerAction → Action Unit} {invalid : UShort}
    (h : Machine.Reach step Spares (start owners invalid) w) : w.HookAlive := by
  have hinv : w.Sound ∧ w.Live := by
    apply h.invariant ⟨start_sound owners invalid, start_live owners invalid⟩
    intro u i v hu hspares hstep
    have hmove := step_move hstep
    exact ⟨hmove.sound hu.1, hmove.live hu.1 hu.2 hspares⟩
  exact hinv.2.hookAlive

def twoReceive : Owner → OwnerAction → Action Unit
  | .server 0, .receive => [⟨(), ActionFlag.default⟩, ⟨(), ActionFlag.default⟩]
  | _, _ => []

/-- Where the step erases a connection, no execution below has a callback left to call. -/
def erasesLast (w : World) (_ : Input) : Bool :=
  match w.stack with
  | .execute e :: rest => ((w.current e).all fun cb => cb.exec != .erase) ||
      rest.all fun f => match f with
        | .execute e' => e'.stop ≤ e'.pos
        | _ => true
  | _ => true

theorem spares_of_erasesLast (u : World) (i : Input) (h : u.erasesLast i = true) : u.Spares i := by
  intro e cb p list rest hstack _ hcb hexec e' he' hneeds
  simp only [erasesLast, hstack, hcb, Option.all_some, hexec, bne_self_eq_false, Bool.false_or,
    List.all_eq_true] at h
  have hend : e'.stop ≤ e'.pos := by simpa using h _ he'
  exact absurd hneeds.1 (Nat.not_lt.mpr hend)

/-- The connection gets a message, and the last `RECEIVE` hook closes it; the next one, on descriptor
5, gets a message, too. -/
def closeInLast : List Input :=
  acceptRun ++ [.go, .go, .go, .call .poll, .polled 1 [0, POLLIN], .go, .go, .go,
    .received (.ok [7]), .go, .enter 0, .ret 0, .enter 1, .call (.close accepted4), .closed 0, .go, .go,
    .go, .ret 0, .go, .go, .go, .go, .call .poll, .polled 1 [POLLIN], .go, .go, .opened (.ok 5), .go, .go,
    .go, .call .poll, .polled 1 [0, POLLIN], .go, .go, .go, .received (.ok [8]), .go]

/-- The execution of the two hooks for the next connection. -/
def nextReceive : Execution where
  list := .owner (.server 0) .receive
  pos := 0
  stop := 2
  arg := .message { container := .clients 0, key := 5, node := 2 } [8]

theorem hook_alive_accept : ∃ w rest,
    Machine.run step (start twoReceive 0) closeInLast = some w ∧
      Event.erased accepted4 ∈ w.log ∧ w.stack = .execute nextReceive :: rest ∧ w.HookAlive := by
  have hend : (Machine.run step (start twoReceive 0) closeInLast).map
      (fun w => (w.stack.head?, decide (Event.erased accepted4 ∈ w.log))) =
        some (some (.execute nextReceive), true) := by decide
  obtain ⟨w, hw, hend⟩ := Option.map_eq_some_iff.mp hend
  obtain ⟨htop, herased⟩ := Prod.mk.inj hend
  obtain ⟨rest, hstack⟩ := List.head?_eq_some_iff.mp htop
  exact ⟨w, rest, hw, of_decide_eq_true herased, hstack,
    hook_alive (.of_checked spares_of_erasesLast (by decide) hw)⟩

/-- The connection gets a message, and the first `RECEIVE` hook closes it. -/
def closeInReceive : List Input :=
  acceptRun ++ [.go, .go, .go, .call .poll, .polled 1 [0, POLLIN], .go, .go, .go,
    .received (.ok [7]), .go, .enter 1, .call (.close accepted4), .closed 0, .go, .go, .go, .ret 0]

/-- The execution of the two hooks, after the first of them. -/
def secondReceive : Execution where
  list := .owner (.server 0) .receive
  pos := 1
  stop := 2
  arg := .message accepted4 [7]

/-- The second `RECEIVE` hook is called with the connection that the first one closed. -/
theorem receive_after_erase : ¬ ∀ (owners : Owner → OwnerAction → Action Unit) (invalid : UShort)
    (w : World), Machine.Reach step Any (start owners invalid) w → w.HookAlive := by
  intro hall
  have hend : (Machine.run step (start twoReceive 0) closeInReceive).map
      (fun w => (w.stack.head?, w.current secondReceive, (w.mem.deref accepted4).isSome)) =
        some (some (.execute secondReceive), some ⟨.user, ActionFlag.default⟩, false) := by decide
  obtain ⟨w, hw, hend⟩ := Option.map_eq_some_iff.mp hend
  simp only [Prod.mk.injEq] at hend
  obtain ⟨htop, hcb, hdead⟩ := hend
  obtain ⟨rest, hstack⟩ := List.head?_eq_some_iff.mp htop
  have halive := hall twoReceive 0 w (.of_run (fun _ _ => trivial) hw) secondReceive rest hstack
    (by decide) _ accepted4 hcb (by decide) rfl
  rw [hdead] at halive
  exact absurd halive (by decide)

end World

end Unisock.Tcp
