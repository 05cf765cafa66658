import Unisock.Lib.Machine
import Unisock.Tcp.Step

/-! Hooks that keep to a discipline: what they may do, and how the state may have changed when they
have returned.  A list of hooks returns if each call that a hook makes does. -/

namespace Unisock.Tcp

open Unisock.Events

/-- The inputs by which the program goes on, whatever hooks do. -/
def Input.Internal : Input → Prop
  | .go | .enter _ | .ret _ | .closed _ => True
  | _ => False

namespace World

/-- All of the state but `errno` and the stack. -/
structure Stored where
  mem : Memory
  owners : Owner → OwnerAction → Action Unit
  log : List Event

def stored (w : World) : Stored := ⟨w.mem, w.owners, w.log⟩

/-- While the stack is higher than `base`: which inputs are admitted, and how the calls that hooks make
may change the state with them. -/
structure Discipline where
  base : Nat
  ok : World → Input → Prop
  effect : Stored → Stored → Prop
  internal : ∀ w i, base < w.stack.length → i.Internal → ok w i
  refl : ∀ s, effect s s
  trans : ∀ {s t u}, effect s t → effect t u → effect s u
  owners : ∀ {s t}, effect s t → t.owners = s.owners

/-- Every run whose inputs `ok` admits comes back to the stack `rest`, and `R` holds when it first
does. -/
abbrev Returns (ok : World → Input → Prop) (rest : List Frame) (R : World → Prop) : World → Prop :=
  Machine.Inevitable step (fun u i => u.stack ≠ rest ∧ ok u i) fun t => t.stack = rest ∧ R t

namespace Discipline

variable (D : Discipline)

/-- Every run comes back to the stack `rest`, with `R`. -/
abbrev Ends (rest : List Frame) (R : World → Prop) : World → Prop :=
  Machine.Inevitable step D.ok fun t => t.stack = rest ∧ R t

def Leaves (w t : World) : Prop := D.effect w.stored t.stored

/-- From `w` on, hooks return. -/
def HooksEnd (w : World) : Prop :=
  ∀ t arg calls rest, D.base ≤ rest.length → D.Leaves w t → t.stack = .hook arg calls :: rest →
    D.Ends rest (D.Leaves t) t

/-- The body of a callback of `e` can be entered, and returns. -/
def BodyEnds (w : World) (e : Execution) (exec : Callback) (R : World → Prop) : Prop :=
  (∃ i t, i.Internal ∧ w.invoke e exec i = some t) ∧
    ∀ i t, w.invoke e exec i = some t → D.Ends w.stack R t

variable {D} {w t : World} {i : Input} {e : Execution} {rest rest' : List Frame}

theorem HooksEnd.leaves (h : D.HooksEnd w) (ht : D.Leaves w t) : D.HooksEnd t :=
  fun u arg calls rest hrest hu => h u arg calls rest hrest (D.trans ht hu)

theorem ok_of_stack {f : Frame} (hstack : w.stack = f :: rest) (hrest : D.base ≤ rest.length)
    (hi : i.Internal) : D.ok w i := by
  refine D.internal w i ?_ hi
  rw [hstack, List.length_cons]
  omega

/-- A sequence of two parts that end. -/
theorem Ends.seq (h : D.Ends rest (D.Leaves w) w)
    (hnext : ∀ t, t.stack = rest → D.Leaves w t → D.Ends rest' (D.Leaves t) t) :
    D.Ends rest' (D.Leaves w) w :=
  h.bind fun t ht =>
    (hnext t ht.1 ht.2).mono fun _ ht' => ⟨ht'.1, D.trans ht.2 ht'.2⟩

/-! ### Executions -/

/-- One turn of an execution: the callback is skipped, or called with what is left of the execution
below it. -/
theorem turn_ends {executors : Action Callback} {cb : ActionCallback Callback}
    {R : World → Prop} (hstack : w.stack = .execute e :: rest) (hrest : D.base ≤ rest.length)
    (hl : w.callbacks e.list = some executors) (hlen : executors.length = e.stop)
    (hcb : executors[e.pos]? = some cb)
    (hskip : cb.has ActionFlag.skip = true →
      D.Ends rest R { w with stack := .execute e.next :: rest })
    (hcall : cb.has ActionFlag.skip = false →
      (∃ i t, i.Internal ∧ { w with stack := e.after cb ++ rest }.invoke e cb.exec i = some t) ∧
      ∀ i t, { w with stack := e.after cb ++ rest }.invoke e cb.exec i = some t →
        D.Ends rest R t) :
    D.Ends rest R w := by
  have hcallbacks : { w with stack := rest }.callbacks e.list = some executors := by
    cases hlist : e.list <;> simpa [callbacks, hlist] using hl
  have hturn := fun i => (step_execute (i := i) hstack).trans (resume_turn hcallbacks hlen hcb)
  cases hcase : cb.has ActionFlag.skip with
  | true =>
    simp only [hcase, if_true] at hturn
    refine .later ⟨.go, _, ok_of_stack hstack hrest trivial, hturn _⟩ fun i t _ ht => ?_
    obtain rfl := Option.some.inj ((hturn i).symm.trans ht)
    exact hskip hcase
  | false =>
    simp only [hcase, Bool.false_eq_true, if_false] at hturn
    obtain ⟨⟨i, t, hi, ht⟩, hall⟩ := hcall hcase
    refine .later ⟨i, t, ok_of_stack hstack hrest hi, (hturn i).trans ht⟩ fun i t _ ht => ?_
    exact hall i t ((hturn i).symm.trans ht)

theorem end_ends {R : World → Prop} (hstack : w.stack = .execute e :: rest)
    (hrest : D.base ≤ rest.length) (hend : e.stop ≤ e.pos) (hR : R { w with stack := rest }) :
    D.Ends rest R w := by
  have hstep : ∀ i, w.step i = some { w with stack := rest } := fun i => by
    rw [step_execute hstack, resume_end hend]
  refine .later ⟨.go, _, ok_of_stack hstack hrest trivial, hstep _⟩ fun i t _ ht => ?_
  obtain rfl := Option.some.inj ((hstep i).symm.trans ht)
  exact .now ⟨rfl, hR⟩

/-- An execution ends, if the bodies of its callbacks do and leave its list as it is. -/
theorem list_ends {l : Action Callback} (hstack : w.stack = .execute e :: rest)
    (hrest : D.base ≤ rest.length) (hstop : e.stop = l.length)
    (hl : ∀ t, D.Leaves w t → t.callbacks e.list = some l)
    (hbody : ∀ cb ∈ l, ∀ t : World, D.base ≤ t.stack.length → D.Leaves w t →
      ∀ e', e'.list = e.list → e'.arg = e.arg → D.BodyEnds t e' cb.exec (D.Leaves t)) :
    D.Ends rest (D.Leaves w) w := by
  induction hk : e.stop - e.pos generalizing w e with
  | zero => exact end_ends hstack hrest (by omega) (D.refl _)
  | succ k ih =>
    have hpos : e.pos < l.length := by omega
    -- what follows the callback, once it has returned
    have hnext : ∀ t : World, t.stack = .execute e.next :: rest → D.Leaves w t →
        D.Ends rest (D.Leaves w) t := by
      intro t htstack ht
      have hends := ih htstack hstop (fun u hu => hl u (D.trans ht hu))
        (fun cb hcb u hbase hu => hbody cb hcb u hbase (D.trans ht hu))
        (by show e.stop - (e.pos + 1) = k; omega)
      exact hends.mono fun u hu => ⟨hu.1, D.trans ht hu.2⟩
    have hcb : l[e.pos]? = some l[e.pos] := List.getElem?_eq_getElem hpos
    have hmem : l[e.pos] ∈ l := List.getElem_mem hpos
    generalize l[e.pos] = cb at hcb hmem
    refine turn_ends hstack hrest (hl w (D.refl _)) hstop.symm hcb ?_ ?_
    · intro _
      exact hnext _ rfl (D.refl _)
    · intro _
      have hbase : D.base ≤ (e.after cb ++ rest).length := by
        rw [List.length_append]
        omega
      obtain ⟨henter, hall⟩ :=
        hbody cb hmem { w with stack := e.after cb ++ rest } hbase (D.refl _) e rfl rfl
      refine ⟨henter, fun i t ht => (hall i t ht).bind ?_⟩
      rintro u ⟨hu, hleaves⟩
      cases hstop' : cb.has ActionFlag.stopAfter with
      | true => exact .now ⟨by simpa [Execution.after, hstop'] using hu, hleaves⟩
      | false => exact hnext u (by simpa [Execution.after, hstop'] using hu) hleaves

/-- A hook that an execution calls ends, with what is left of the execution on the stack. -/
theorem user_ends (hbase : D.base ≤ w.stack.length) (hhooks : D.HooksEnd w) (e : Execution) :
    D.BodyEnds w e .user (D.Leaves w) := by
  refine ⟨⟨.enter 0, _, trivial, invoke_user.mpr ⟨0, rfl, rfl⟩⟩, fun i t h => ?_⟩
  obtain ⟨calls, rfl, rfl⟩ := invoke_user.mp h
  exact hhooks (w.push (.hook (w.passed e.arg) calls)) _ calls w.stack hbase (D.refl _) rfl

theorem owner_ends (hhooks : D.HooksEnd w) {o : Owner} {action : OwnerAction}
    (hstack : w.stack = .execute e :: rest) (hrest : D.base ≤ rest.length)
    (hlist : e.list = .owner o action) (hstop : e.stop = (w.owners o action).length) :
    D.Ends rest (D.Leaves w) w := by
  refine list_ends (l := (w.owners o action).map fun cb => ⟨.user, cb.flags⟩) hstack hrest
    (by rw [List.length_map, hstop]) (fun t ht => ?_) fun cb hcb t hbase ht e' _ _ => ?_
  · have howners : t.owners = w.owners := D.owners ht
    rw [hlist, callbacks, howners]
  · obtain ⟨cb', -, rfl⟩ := List.mem_map.mp hcb
    exact user_ends hbase (hhooks.leaves ht) e'

theorem executeOwner_ends {o : Owner} {action : OwnerAction} {arg : Arg}
    (hbase : D.base ≤ w.stack.length) (hhooks : D.HooksEnd (w.note (.started o action arg))) :
    D.Ends w.stack (D.Leaves (w.note (.started o action arg))) (w.executeOwner o action arg) :=
  owner_ends (w := w.executeOwner o action arg) hhooks rfl hbase rfl rfl

theorem raise_ends {o : Owner} {fn : String} (hstack : w.stack = .raise o fn :: rest)
    (hrest : D.base ≤ rest.length)
    (hhooks : D.HooksEnd (w.note (.started o .error (.errno fn)))) :
    D.Ends rest (D.Leaves (w.note (.started o .error (.errno fn)))) w := by
  refine .later ⟨.go, _, ok_of_stack hstack hrest trivial, step_raise hstack⟩ fun i t _ ht => ?_
  obtain rfl := Option.some.inj ((step_raise hstack).symm.trans ht)
  exact executeOwner_ends (w := { w with stack := rest }) hrest hhooks

theorem returning_ends {result : Bool} {R : World → Prop}
    (hstack : w.stack = .returning result :: rest) (hrest : D.base ≤ rest.length)
    (hR : R ({ w with stack := rest }.setReturned result)) : D.Ends rest R w := by
  refine .later ⟨.go, _, ok_of_stack hstack hrest trivial, step_returning hstack⟩ fun i t _ ht => ?_
  obtain rfl := Option.some.inj ((step_returning hstack).symm.trans ht)
  exact .now ⟨rfl, hR⟩

theorem notify_ends {p : SockPtr} {list : SocketAction} {action : OwnerAction}
    (hbase : D.base ≤ w.stack.length) (hlist : e.list = .socket p list) (hhooks : D.HooksEnd
      (w.note (.started p.container.owner action (.connection p)))) :
    D.BodyEnds w e (.notify action)
      (D.Leaves (w.note (.started p.container.owner action (.connection p)))) := by
  refine ⟨⟨.go, _, trivial, (invoke_notify hlist).mpr ⟨rfl, rfl⟩⟩, fun i t ht => ?_⟩
  obtain ⟨rfl, rfl⟩ := (invoke_notify hlist).mp ht
  exact executeOwner_ends hbase hhooks

theorem erase_ends {executors : Action Callback} {p : SockPtr} {list : SocketAction}
    {R : World → Prop} (hstack : w.stack = .execute e :: rest) (hrest : D.base ≤ rest.length)
    (hlist : e.list = .socket p list) (hl : w.callbacks e.list = some executors)
    (hlen : executors.length = e.stop) (hcb : executors[e.pos]? = some eraser)
    (hR : R ({ w with mem := w.mem.eraseSocket p.container p.key, stack := rest }.note (.erased p))) :
    D.Ends rest R w := by
  refine turn_ends hstack hrest hl hlen hcb (fun h => absurd h (by decide)) fun _ => ?_
  refine ⟨⟨.go, _, trivial, (invoke_erase hlist).mpr ⟨rfl, rfl⟩⟩, fun i t ht => ?_⟩
  obtain ⟨rfl, rfl⟩ := (invoke_erase hlist).mp ht
  exact .now ⟨rfl, hR⟩

/-! ### Calls -/

section Calls

variable {p : SockPtr} {R : World → Prop}

theorem close_call (hstack : w.stack = .call (.close p) :: rest) (hrest : D.base ≤ rest.length)
    (hall : ∀ errno, D.Ends rest R ({ w with stack := rest }.close p errno)) : D.Ends rest R w := by
  refine .later ⟨.closed 0, _, ok_of_stack hstack hrest trivial,
    (step_close hstack).mpr ⟨0, rfl, rfl⟩⟩ fun i t _ ht => ?_
  obtain ⟨errno, rfl, rfl⟩ := (step_close hstack).mp ht
  exact hall errno

theorem send_call {message : Bytes} (hstack : w.stack = .call (.send p message) :: rest)
    (hex : ∃ result errno, D.ok w (.sent result errno) ∧
      w.canSend p message.length result = true)
    (hall : ∀ result errno, D.ok w (.sent result errno) →
      D.Ends rest R ({ w with stack := rest }.send p message result errno)) : D.Ends rest R w := by
  obtain ⟨result, errno, hok, hcan⟩ := hex
  refine .later ⟨.sent result errno, _, hok,
    (step_send hstack).mpr ⟨result, errno, rfl, hcan, rfl⟩⟩ fun i t hok ht => ?_
  obtain ⟨result, errno, rfl, -, rfl⟩ := (step_send hstack).mp ht
  exact hall result errno hok

theorem sendFlush_call (hstack : w.stack = .call (.sendFlush p) :: rest)
    (hex : ∃ result errno, D.ok w (.sent result errno) ∧ w.canSend p
      ((w.mem.deref p).elim [] fun c => c.sendBuffer.headD []).length result = true)
    (hall : ∀ result errno, D.ok w (.sent result errno) →
      D.Ends rest R ({ w with stack := rest }.sendFlush p result errno)) : D.Ends rest R w := by
  obtain ⟨result, errno, hok, hcan⟩ := hex
  refine .later ⟨.sent result errno, _, hok,
    (step_sendFlush hstack).mpr ⟨result, errno, rfl, hcan, rfl⟩⟩ fun i t hok ht => ?_
  obtain ⟨result, errno, rfl, -, rfl⟩ := (step_sendFlush hstack).mp ht
  exact hall result errno hok

end Calls

/-! ### Hooks -/

theorem step_hook {arg : Arg} {calls : Nat} (hstack : w.stack = .hook arg calls :: rest)
    (h : w.step i = some t) :
    (∃ errno, i = .ret errno ∧ t = { w with errno := errno, stack := rest }) ∨
    ∃ call calls', calls = calls' + 1 ∧ i = .call call ∧ w.callable call = true ∧
      t = { w with stack := .call call :: .hook arg calls' :: rest } := by
  simp only [step, hstack] at h
  split at h
  · next calls' call heq =>
    obtain ⟨hc, h⟩ := Option.ite_none_right_eq_some.mp h
    obtain rfl := Option.some.inj h
    obtain ⟨rfl, hcalls⟩ := Frame.hook.inj heq
    exact .inr ⟨call, calls', hcalls, rfl, hc, rfl⟩
  · obtain rfl := Option.some.inj h
    exact .inl ⟨_, rfl, rfl⟩
  all_goals simp_all

/-- A hook returns, if every call that it may make does: by induction on the number of calls that it
still makes. -/
theorem hook_ends {arg : Arg} {calls : Nat} (hstack : w.stack = .hook arg calls :: rest)
    (hrest : D.base ≤ rest.length)
    (hcall : ∀ u call above, D.base ≤ above.length → D.Leaves w u → D.ok u (.call call) →
      u.callable call = true → D.Ends above (D.Leaves u) { u with stack := .call call :: above }) :
    D.Ends rest (D.Leaves w) w := by
  induction calls using Nat.strong_induction_on generalizing w with
  | _ calls ih =>
    have hret : w.step (.ret 0) = some { w with errno := 0, stack := rest } := by
      cases calls <;> simp only [step, hstack, setErrno]
    refine .later ⟨.ret 0, _, ok_of_stack hstack hrest trivial, hret⟩ fun i t hok ht => ?_
    rcases step_hook hstack ht with ⟨errno, -, rfl⟩ | ⟨call, calls', hcalls, rfl, hcallable, rfl⟩
    · exact .now ⟨rfl, D.refl _⟩
    · have hends := hcall w call (.hook arg calls' :: rest) (by rw [List.length_cons]; omega) (D.refl _)
        hok hcallable
      refine hends.bind fun u hu => ?_
      have hnext := ih calls' (by omega) hu.1 fun v call above habove hv =>
        hcall v call above habove (D.trans hu.2 hv)
      exact hnext.mono fun v hv => ⟨hv.1, D.trans hu.2 hv.2⟩

end Discipline

end World

end Unisock.Tcp
