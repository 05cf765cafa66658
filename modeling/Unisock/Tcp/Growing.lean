import Unisock.Tcp.Effects
import Unisock.Tcp.Subjects

/-! Registrations while a list is executed: lists only grow, an execution goes on while its list is as
long as when it began, and crashes once it has grown. -/

namespace Unisock.Tcp

open Unisock.Events

/-- The element that the list is one of. -/
def ActionList.element : ActionList → Option SockPtr
  | .socket p _ => some p
  | .owner _ _ => none

theorem Frame.subject_execute (e : Execution) : (Frame.execute e).subject = e.list.element := by
  cases hlist : e.list <;> simp only [Frame.subject, ActionList.element, hlist]

namespace World

/-- The list of the execution is as long as when it began, if it still has a callback to call. -/
def Whole (w : World) (e : Execution) : Prop :=
  e.pos < e.stop → ∃ l, w.callbacks e.list = some l ∧ l.length = e.stop

/-- The list has grown, or its element is gone, while the execution still has a callback to call. -/
def Outgrown (w : World) (e : Execution) : Prop :=
  e.pos < e.stop ∧ ∀ l, w.callbacks e.list = some l → e.stop < l.length

variable {w w' t : World} {i : Input} {p : SockPtr} {e : Execution} {list : ActionList}
  {rest : List Frame}

/-! ### What a step adds to a list -/

theorem length_le_on (c : Connection) (action : SocketAction) (exec : Callback) (flags : UShort)
    (a : SocketAction) :
    (c.actions a).length ≤ ((c.on action exec flags).actions a).length := by
  rw [Connection.on_actions]
  split
  · rw [Action.length_addCallback]
    omega
  · exact le_rfl

/-- The lists of an element that was there before.  Only user code adds to a `CLOSED` list then. -/
theorem Move.lists_grow (h : Move w i w') (hnode : p.node < w.mem.nextNode) {c' : Connection}
    (hp' : w'.mem.deref p = some c') : ∃ c, w.mem.deref p = some c ∧
      (∀ action, (c.actions action).length ≤ (c'.actions action).length) ∧
      (¬ w.RegistersOn (.socket p .closed) → c'.actions .closed = c.actions .closed) := by
  rcases h.touch with hsame | ⟨q, d, htouch, hderef⟩
  · exact ⟨c', hsame p ▸ hp', fun _ => le_rfl, fun _ => rfl⟩
  rw [hderef] at hp'
  split at hp'
  · next hpq =>
    subst hpq
    cases htouch with
    | erased => exact absurd hp' (by simp)
    | closed hp _ _ | sent hp _ =>
      obtain rfl := Option.some.inj hp'
      exact ⟨_, hp, fun _ => le_rfl, fun _ => rfl⟩
    | inserted hnew _ _ _ => omega
    | @wired c _ _ _ hp _ hwiring =>
      obtain rfl := Option.some.inj hp'
      refine ⟨c, hp, fun action => ?_, fun _ => ?_⟩
      · rcases hwiring with ⟨-, rfl⟩ | ⟨-, rfl⟩
        · exact length_le_on ..
        · exact (length_le_on ..).trans (length_le_on ..)
      · rcases hwiring with ⟨-, rfl⟩ | ⟨-, rfl⟩ <;> rfl
    | @hooked c action flags _ hp hstack =>
      obtain rfl := Option.some.inj hp'
      refine ⟨c, hp, fun _ => length_le_on .., fun hnot => ?_⟩
      rw [Connection.on_actions, if_neg]
      rintro rfl
      exact hnot (by simp only [RegistersOn, hstack])
  · exact ⟨c', hp', fun _ => le_rfl, fun _ => rfl⟩

theorem Move.callbacks_grow (h : Move w i w')
    (hnode : ∀ p, list.element = some p → p.node < w.mem.nextNode) {l' : Action Callback}
    (hl' : w'.callbacks list = some l') : ∃ l, w.callbacks list = some l ∧ l.length ≤ l'.length := by
  cases list with
  | owner o action =>
    obtain rfl := Option.some.inj hl'
    refine ⟨_, rfl, ?_⟩
    simp only [List.length_map]
    exact h.length_owners o action
  | socket p action =>
    obtain ⟨c', hp', rfl⟩ := Option.map_eq_some_iff.mp hl'
    obtain ⟨c, hp, hgrow, -⟩ := h.lists_grow (hnode p rfl) hp'
    exact ⟨c.actions action, Option.map_eq_some_iff.mpr ⟨c, hp, rfl⟩, hgrow action⟩

/-- Lists of owners, and `CLOSED` lists, change in registrations of user code only. -/
theorem Move.callbacks_keep (h : Move w i w') (hnot : ¬ w.RegistersOn list)
    (hlist : ∀ p action, list = .socket p action →
      action = .closed ∧ p.node < w.mem.nextNode ∧ (w'.mem.deref p).isSome) :
    w'.callbacks list = w.callbacks list := by
  cases list with
  | owner o action =>
    have hsame := (h.owners o action).resolve_right fun hadds => hnot hadds.2
    simp only [callbacks, hsame]
  | socket p action =>
    obtain ⟨rfl, hnode, halive⟩ := hlist p action rfl
    obtain ⟨c', hp'⟩ := Option.isSome_iff_exists.mp halive
    obtain ⟨c, hp, -, hsame⟩ := h.lists_grow hnode hp'
    simp only [callbacks, hp, hp', Option.map_some, hsame hnot]

/-! ### Executions over lists that have grown -/

/-- The end of an execution is within its list. -/
theorem within_of_reach {owners : Owner → OwnerAction → Action Unit} {invalid : UShort}
    {ok : World → Input → Prop} (h : Machine.Reach step ok (start owners invalid) w)
    (he : .execute e ∈ w.stack) {l : Action Callback} (hl : w.callbacks e.list = some l) :
    e.stop ≤ l.length := by
  induction h generalizing e l with
  | refl => exact absurd he (List.not_mem_nil)
  | @tail u v i hreach _ hstep ih =>
    have hmove := step_move hstep
    have hnode : ∀ {e : Execution}, .execute e ∈ u.stack → ∀ p, e.list.element = some p →
        p.node < u.mem.nextNode := fun {e} he p hp =>
      mentioned_of_reach hreach ⟨_, he, (Frame.subject_execute e).trans hp⟩
    rcases hmove.origin he with hold | hbegins
    · obtain ⟨l₀, hl₀, hle⟩ := hmove.callbacks_grow (hnode hold) hl
      exact (ih hold hl₀).trans hle
    cases hbegins with
    | @next e₀ cb rest hstack hnext _ _ =>
      subst hnext
      have hin : .execute e₀ ∈ u.stack := hstack ▸ List.mem_cons_self
      obtain ⟨l₀, hl₀, hle⟩ := hmove.callbacks_grow (hnode hin) hl
      exact (ih hin hl₀).trans hle
    | owner hlist _ hstop _ =>
      simp only [callbacks, hlist, Option.some.injEq] at hl
      subst hl
      rw [List.length_map, hstop]
    | @socket q c action hlist _ hstop hp _ _ =>
      have hq := (sound_of_reach hreach).mem.node_lt q c hp
      rw [hlist] at hl
      have hnew : ∀ z, (ActionList.socket q action).element = some z → z.node < u.mem.nextNode :=
        fun z hz => Option.some.inj hz ▸ hq
      obtain ⟨l₀, hl₀, hle⟩ := hmove.callbacks_grow hnew hl
      simp only [callbacks, hp, Option.map_some, Option.some.injEq] at hl₀
      rw [hstop, hl₀]
      exact hle

theorem Outgrown.step (h : w.Outgrown e) (hmove : Move w i w')
    (hnode : ∀ p, e.list.element = some p → p.node < w.mem.nextNode) : w'.Outgrown e := by
  refine ⟨h.1, fun l' hl' => ?_⟩
  obtain ⟨l, hl, hle⟩ := hmove.callbacks_grow hnode hl'
  exact (h.2 l hl).trans_le hle

/-- Such an execution crashes when its turn comes. -/
theorem Outgrown.crashes (h : w.Outgrown e) (hstack : w.stack = .execute e :: rest)
    (hstep : w.step i = some t) : ∃ k, t.stack = .crash k :: rest := by
  rw [step_execute hstack] at hstep
  have hcallbacks : { w with stack := rest }.callbacks e.list = w.callbacks e.list := by
    cases hlist : e.list <;> simp only [callbacks]
  rw [resume, if_neg (not_le.mpr h.1), hcallbacks] at hstep
  cases hl : w.callbacks e.list with
  | none =>
    rw [hl] at hstep
    exact ⟨_, congrArg World.stack (Option.some.inj hstep).symm⟩
  | some l =>
    have hne : l.length ≠ e.stop := (h.2 l hl).ne'
    simp only [hl, if_pos hne, Option.some.injEq] at hstep
    exact ⟨_, congrArg World.stack hstep.symm⟩

/-- A registration on the list of an execution that has a callback to call. -/
theorem RegistersOn.outgrows (h : w.RegistersOn e.list) (hpos : e.pos < e.stop)
    (hwithin : ∀ l, w.callbacks e.list = some l → e.stop ≤ l.length)
    (hstep : w.step i = some t) :
    ∃ c, w.stack = .call c :: w.stack.tail ∧
      ((∃ k, t.stack = .crash k :: w.stack.tail) ∨ (t.stack = w.stack.tail ∧ t.Outgrown e)) := by
  unfold RegistersOn at h
  split at h
  · next p action flags rest hstack =>
    refine ⟨_, by rw [hstack]; rfl, ?_⟩
    rw [step_call hstack] at hstep
    obtain rfl := Option.some.inj hstep
    rw [hstack, List.tail_cons]
    cases hp : w.mem.deref p with
    | none =>
      rw [on, access_none (w := { w with stack := rest }) hp]
      exact .inl ⟨_, rfl⟩
    | some c =>
      rw [on, access_some (w := { w with stack := rest }) hp]
      refine .inr ⟨rfl, hpos, fun l' hl' => ?_⟩
      have hp' : (w.mem.modify p fun c => c.on action .user flags).deref p =
          some (c.on action .user flags) :=
        (Memory.deref_modify (f := fun c => c.on action .user flags) hp rfl p).trans (if_pos rfl)
      simp only [callbacks, h, hp', Option.map_some, Option.some.injEq] at hl'
      have hle := hwithin (c.actions action) (by simp only [callbacks, h, hp, Option.map_some])
      rw [← hl', Connection.on_actions, if_pos rfl, Action.length_addCallback]
      omega
  · next o action flags rest hstack =>
    refine ⟨_, by rw [hstack]; rfl, ?_⟩
    rw [step_call hstack] at hstep
    obtain rfl := Option.some.inj hstep
    rw [hstack, List.tail_cons]
    refine .inr ⟨rfl, hpos, fun l' hl' => ?_⟩
    simp only [onOwner, callbacks, h, Function.update_self, Option.some.injEq] at hl'
    have hle := hwithin ((w.owners o action).map fun cb => ⟨.user, cb.flags⟩)
      (by simp only [callbacks, h])
    rw [List.length_map] at hle
    rw [← hl', List.length_map, Action.length_addCallback]
    omega
  · exact h.elim

/-! ### Executions over lists that have not -/

theorem Whole.next (h : w.Whole e) : w.Whole e.next := fun hpos =>
  h ((Nat.lt_succ_self _).trans hpos)

theorem Whole.keep (h : w.Whole e) (hkeep : e.pos < e.stop → w'.callbacks e.list = w.callbacks e.list) :
    w'.Whole e := fun hpos => by
  rw [hkeep hpos]
  exact h hpos

end World

end Unisock.Tcp
