import Unisock.Tcp.GivenUp

/-! The error number with which `listen` and `connect` report a failed call: each `ERROR` hook gets the
`errno` of the moment at which it is called. -/

namespace Unisock.Tcp

open Unisock.Events

namespace World

/-- The element on which `socket::close` is called next. -/
def closing? (w : World) : Option SockPtr :=
  match w.stack with
  | .call (.close p) :: _ => some p
  | .closing container :: _ => w.mem.first? container
  | _ => none

/-- What `::close`, or a hook that returns, leaves in `errno` with the next step. -/
def leaves (w : World) : Input → Option Int
  | .closed errno =>
    (w.closing?.bind w.mem.deref).bind fun c => if 0 ≤ c.sock then some errno else none
  | .ret errno => match w.stack with
    | .hook _ _ :: _ => some errno
    | _ => none
  | _ => none

/-- What `::close` and the hooks have left in `errno` last during a run, or else `errno`. -/
def lastErrno (errno : Int) (w : World) : List Input → Int
  | [] => errno
  | i :: inputs =>
    match w.step i with
    | none => errno
    | some t => lastErrno ((w.leaves i).getD errno) t inputs

/-- What is below the `ERROR` action of a failed call: `close`, or behind it the `return`. -/
def reportBase (p : SockPtr) (rest : List Frame) : SetUpStep → List Frame
  | .connect => .returning false :: rest
  | .addrinfo | .bind | .listen => .call (.close p) :: .returning false :: rest

/-- The call that failed in the step to `w₂` calls an `ERROR` hook of the owner, after `inputs`, with
the number `x`. -/
inductive Reports (w₂ : World) (o : Owner) (base : List Frame) (inputs : List Input) (x : Int) : Prop
  | called {u t : World} {i : Input} {e : Execution} {fn : String} {calls : Nat}
      {below : List Frame} (hrun : Machine.run step w₂ inputs = some u)
      (hfirst : Machine.Along step (fun v _ => v.stack ≠ base) w₂ inputs)
      (hstack : u.stack = .execute e :: base) (hlist : e.list = .owner o .error)
      (hstep : u.step i = some t) (hcalled : t.stack = .hook (.error fn x) calls :: below)

end World

/-- The functions of a failed call and of `close` below their hooks, in which `errno` is read and not
written, with no number that was read before. -/
def Frame.calm : Frame → Prop
  | .execute e => (∀ fn x, e.arg ≠ .error fn x) ∧
    ((∃ p, e.list = .socket p .closed ∨ e.list = .socket p .error) ∨
      ∃ o action, e.list = .owner o action)
  | .raise _ _ | .crash _ => True
  | _ => False

namespace World

/-- Where the call is between its failure and its reports, if `last` is what has been left in `errno`
last: before `close`, in its lists, or in a hook. -/
inductive Leaving (base : List Frame) (w : World) (last : Int) : Prop
  | pending {below : List Frame} {p : SockPtr} {c : Connection}
      (hstack : w.stack = .call (.close p) :: (below ++ base)) (hcalm : ∀ f ∈ below, f.calm)
      (hp : w.mem.deref p = some c) (hopen : 0 ≤ c.sock)
  | calm {above : List Frame} (hstack : w.stack = above ++ base) (hcalm : ∀ f ∈ above, f.calm)
      (herrno : w.errno = last)
  | hook {above below : List Frame} {arg : Arg} {calls : Nat}
      (hstack : w.stack = above ++ .hook arg calls :: (below ++ base))
      (hcalm : ∀ f ∈ below, f.calm)

section Leaving

variable {w t : World} {i : Input} {e : Execution} {o : Owner} {fn : String} {x last : Int}
  {base rest above : List Frame}

theorem calm_next (h : (Frame.execute e).calm) : (Frame.execute e.next).calm := h

theorem calm_after {cb : ActionCallback Callback} (h : (Frame.execute e).calm) :
    ∀ f ∈ e.after cb, f.calm := by
  intro f hf
  unfold Execution.after at hf
  split at hf
  · exact absurd hf (by simp)
  · obtain rfl := List.mem_singleton.mp hf
    exact calm_next h

/-- The callbacks of these lists call hooks, notify the owner or erase the element. -/
theorem current_calm {cb : ActionCallback Callback} (hm : w.mem.Steady) (htame : w.mem.Tame)
    (hcalm : (Frame.execute e).calm) (hcb : w.current e = some cb) :
    cb.exec = .user ∨
      ∃ p, e.list = .socket p .closed ∧ (cb.exec = .erase ∨ ∃ action, cb.exec = .notify action) := by
  rcases hcalm.2 with ⟨p, hlist | hlist⟩ | ⟨o, action, hlist⟩
  · obtain ⟨c, hp, hget, -⟩ := current_mem hlist hcb
    rcases (hm.erasesLast p c hp).callback (List.mem_of_getElem? hget) with
      hexec | rfl | hexec
    · exact .inl hexec
    · exact .inr ⟨p, hlist, .inl rfl⟩
    · exact .inr ⟨p, hlist, .inr hexec⟩
  · obtain ⟨c, hp, hget, -⟩ := current_mem hlist hcb
    exact .inl ((htame p c hp).1 cb (List.mem_of_getElem? hget))
  · obtain ⟨l, hl, -, hget⟩ := current_callbacks hcb
    simp only [callbacks, hlist, Option.some.injEq] at hl
    subst hl
    obtain ⟨cb', -, rfl⟩ := List.mem_map.mp (List.mem_of_getElem? hget)
    exact .inl rfl

/-- A turn of one of these executions leaves `errno` as it is, and calls a hook at most. -/
theorem Leaving.turn (hm : w.mem.Steady) (htame : w.mem.Tame)
    (hstack : w.stack = .execute e :: (above ++ base)) (he : (Frame.execute e).calm)
    (hcalm : ∀ f ∈ above, f.calm) (hstep : w.step i = some t) : Leaving base t w.errno := by
  have hafter : ∀ cb, ∀ f ∈ e.after cb ++ above, f.calm := fun cb f hf =>
    (List.mem_append.mp hf).elim (calm_after he f) (hcalm f)
  have hcurrent : { w with stack := above ++ base }.current e = w.current e := current_eq rfl rfl e
  rw [step_execute hstack] at hstep
  rcases resume_cases hstep with ⟨-, rfl | ⟨k, rfl⟩⟩ | ⟨cb, hcb, ⟨-, rfl⟩ | ⟨-, hturn⟩⟩
  · exact .calm rfl hcalm rfl
  · exact @calm base _ _ (.crash k :: above) rfl (List.forall_mem_cons.mpr ⟨trivial, hcalm⟩) rfl
  · exact @calm base _ _ (.execute e.next :: above) rfl
      (List.forall_mem_cons.mpr ⟨calm_next he, hcalm⟩) rfl
  · rcases current_calm hm htame he (hcurrent ▸ hcb) with
      hexec | ⟨p, hlist, hexec | ⟨action, hexec⟩⟩
    · rw [hexec] at hturn
      obtain ⟨calls, -, rfl⟩ := invoke_user.mp hturn
      have hpush := congrArg (List.cons (Frame.hook (w.passed e.arg) calls))
        (List.append_assoc (e.after cb) above base).symm
      exact @hook base _ _ [] (e.after cb ++ above) (w.passed e.arg) calls hpush (hafter cb)
    · rw [hexec] at hturn
      obtain ⟨-, rfl⟩ := (invoke_erase hlist).mp hturn
      exact .calm (List.append_assoc ..).symm (hafter cb) rfl
    · rw [hexec] at hturn
      obtain ⟨-, rfl⟩ := (invoke_notify hlist).mp hturn
      have howner : (Frame.execute ⟨.owner p.container.owner action, 0,
          (w.owners p.container.owner action).length, .connection p⟩).calm :=
        ⟨by simp, .inr ⟨_, _, rfl⟩⟩
      refine @calm base _ _ (_ :: (e.after cb ++ above)) ?_
        (List.forall_mem_cons.mpr ⟨howner, hafter cb⟩) rfl
      rw [List.cons_append, List.append_assoc]
      rfl

theorem calm_error (o : Owner) (fn : String) (stop : Nat) :
    (Frame.execute ⟨.owner o .error, 0, stop, .errno fn⟩).calm :=
  ⟨by simp, .inr ⟨_, _, rfl⟩⟩

theorem Leaving.step (hm : w.mem.Steady) (htame : w.mem.Tame) (h : Leaving base w last)
    (hne : w.stack ≠ base) (hstep : w.step i = some t) :
    Leaving base t ((w.leaves i).getD last) := by
  cases h with
  | @pending below p c hstack hcalm hp hopen =>
    obtain ⟨errno, rfl, rfl⟩ := (step_close hstack).mp hstep
    have hleaves : w.leaves (.closed errno) = some errno := by
      simp only [leaves, closing?, hstack, Option.bind_some, hp, if_pos hopen]
    rw [hleaves, close_open (w := { w with stack := below ++ base }) hp hopen]
    exact @calm base _ _ (_ :: below) rfl
      (List.forall_mem_cons.mpr ⟨⟨by simp, .inl ⟨p, .inl rfl⟩⟩, hcalm⟩) rfl
  | @calm above hstack hcalm herrno =>
    cases above with
    | nil => exact absurd hstack hne
    | cons f above =>
      obtain ⟨hf, habove⟩ := List.forall_mem_cons.mp hcalm
      have hnone : w.leaves i = none := by
        cases f with
        | execute _ | raise _ _ | crash _ => cases i <;> simp [leaves, closing?, hstack]
        | _ => exact hf.elim
      rw [hnone, Option.getD_none, ← herrno]
      cases f with
      | execute e => exact .turn hm htame hstack hf habove hstep
      | raise o fn =>
        obtain rfl := Option.some.inj ((step_raise hstack).symm.trans hstep)
        exact @calm base _ _ (_ :: above) rfl
          (List.forall_mem_cons.mpr ⟨calm_error .., habove⟩) rfl
      | crash k => simp [World.step, hstack] at hstep
      | _ => exact hf.elim
  | @hook above below arg calls hstack hcalm =>
    cases above with
    | cons f above =>
      obtain ⟨new, hnew, -⟩ := (step_move hstep).split
      rw [hstack, List.cons_append, List.tail_cons, ← List.append_assoc] at hnew
      exact .hook hnew hcalm
    | nil =>
      rw [List.nil_append] at hstack
      rcases Discipline.step_hook hstack hstep with
        ⟨errno, rfl, rfl⟩ | ⟨call, calls', -, rfl, -, rfl⟩
      · have hleaves : w.leaves (.ret errno) = some errno := by
          simp only [leaves, hstack]
        rw [hleaves]
        exact .calm rfl hcalm rfl
      · exact @hook base _ _ [.call call] below arg calls' rfl hcalm

/-- During a run from a failure, `errno` is what `::close` and the hooks have left last. -/
theorem Leaving.run (hs : w.Sound) (hm : w.mem.Steady) (htame : w.mem.Tame)
    (h : Leaving base w last) {inputs : List Input}
    (hrun : Machine.run World.step w inputs = some t)
    (hfirst : Machine.Along World.step (fun u _ => u.stack ≠ base) w inputs) :
    Leaving base t (lastErrno last w inputs) := by
  induction inputs generalizing w last with
  | nil =>
    obtain rfl := Option.some.inj hrun
    exact h
  | cons i inputs ih =>
    obtain ⟨u, hu, hrun⟩ := Option.bind_eq_some_iff.mp hrun
    obtain ⟨hne, hfirst⟩ := hfirst
    have hmove := step_move hu
    rw [lastErrno, hu]
    exact ih (hmove.sound hs) (steady_step hs hm hu) (hmove.tame htame)
      (h.step hm htame hne hu) hrun (hfirst u hu)

/-- The `ERROR` action of the call is executed with the `errno` that was left last. -/
theorem Leaving.errno_eq (h : Leaving base w last) (hstack : w.stack = .execute e :: base) :
    w.errno = last ∧ ∀ fn x, e.arg ≠ .error fn x := by
  have hlength := congrArg List.length hstack
  cases h with
  | @pending below p c hstack' _ _ _ => exact absurd (hstack.symm.trans hstack') (by simp)
  | @calm above hstack' hcalm herrno =>
    refine ⟨herrno, ?_⟩
    have habove : above = [.execute e] :=
      List.append_cancel_right (hstack'.symm.trans hstack : above ++ base = [.execute e] ++ base)
    exact (hcalm (.execute e) (habove ▸ List.mem_singleton_self _)).1
  | @hook above below arg calls hstack' _ =>
    cases above with
    | nil => exact absurd (hstack.symm.trans hstack') (by simp)
    | cons f above =>
      simp only [hstack', List.length_append, List.length_cons] at hlength
      omega

/-- What the hook is called with. -/
theorem passed_errno {arg : Arg} (harg : ∀ fn x, arg ≠ .error fn x)
    (h : w.passed arg = .error fn x) : x = w.errno := by
  cases arg with
  | errno fn' =>
    simp only [passed, Arg.error.injEq] at h
    exact h.2.symm
  | error fn' y => exact absurd rfl (harg fn' y)
  | _ => simp [passed] at h

theorem called_errno {calls : Nat} {below : List Frame} (hstack : w.stack = .execute e :: base)
    (hlist : e.list = .owner o .error) (harg : ∀ fn x, e.arg ≠ .error fn x)
    (hbase : ∀ arg calls below, base ≠ .hook arg calls :: below) (hstep : w.step i = some t)
    (hcalled : t.stack = .hook (.error fn x) calls :: below) : x = w.errno := by
  rw [step_execute hstack] at hstep
  rcases resume_cases hstep with ⟨-, rfl | ⟨k, rfl⟩⟩ | ⟨cb, hcb, ⟨-, rfl⟩ | ⟨-, hturn⟩⟩
  · exact absurd hcalled (hbase _ _ _)
  · exact absurd hcalled (by simp [push])
  · exact absurd hcalled (by simp [push])
  · obtain ⟨l, hl, -, hget⟩ := current_callbacks hcb
    simp only [callbacks, hlist, Option.some.injEq] at hl
    subst hl
    obtain ⟨cb', -, rfl⟩ := List.mem_map.mp (List.mem_of_getElem? hget)
    obtain ⟨n, -, rfl⟩ := invoke_user.mp hturn
    obtain ⟨hhook, -⟩ := List.cons.inj hcalled
    obtain ⟨hpassed, -⟩ := Frame.hook.inj hhook
    exact passed_errno (w := { w with stack := e.after ⟨.user, cb'.flags⟩ ++ base }) harg hpassed

end Leaving

/-! ### A report is possible -/

section Possible

variable {w t : World} {i : Input} {e : Execution} {o : Owner} {fn : String} {base : List Frame}

theorem Reports.head {inputs : List Input} {x : Int} (hstep : w.step i = some t)
    (hne : w.stack ≠ base) (h : Reports t o base inputs x) : Reports w o base (i :: inputs) x := by
  obtain ⟨hrun, hfirst, hstack, hlist, hlast, hcalled⟩ := h
  refine .called ?_ ⟨hne, fun v hv => ?_⟩ hstack hlist hlast hcalled
  · rw [Machine.run_cons, hstep, Option.bind_some, hrun]
  · obtain rfl := Option.some.inj (hstep.symm.trans hv)
    exact hfirst

theorem Reports.of_reach (h : Machine.Reach step (fun u _ => u.stack ≠ base) w t)
    (ht : ∃ inputs x, Reports t o base inputs x) : ∃ inputs x, Reports w o base inputs x := by
  induction h with
  | refl => exact ht
  | tail _ hne hstep ih =>
    obtain ⟨inputs, x, hreports⟩ := ht
    exact ih ⟨_, x, hreports.head hstep hne⟩

/-- The first callback without `SKIP` is called. -/
theorem Reports.of_execute (hstack : w.stack = .execute e :: base)
    (hlist : e.list = .owner o .error) (harg : e.arg = .errno fn)
    (hstop : e.stop = (w.owners o .error).length)
    (hcall : ∃ cb ∈ (w.owners o .error).drop e.pos, cb.has ActionFlag.skip = false) :
    ∃ inputs x, Reports w o base inputs x := by
  induction hk : e.stop - e.pos generalizing w e with
  | zero =>
    obtain ⟨cb, hcb, -⟩ := hcall
    rw [List.drop_eq_nil_of_le (by omega)] at hcb
    exact absurd hcb (List.not_mem_nil)
  | succ k ih =>
    have hpos : e.pos < (w.owners o .error).length := by omega
    rw [List.drop_eq_getElem_cons hpos] at hcall
    have hget := List.getElem?_eq_getElem hpos
    generalize (w.owners o .error)[e.pos] = cb at hcall hget
    have hl : { w with stack := base }.callbacks e.list =
        some ((w.owners o .error).map fun cb => ⟨.user, cb.flags⟩) := by
      rw [hlist]
      rfl
    have hcb : ((w.owners o .error).map fun cb => ⟨.user, cb.flags⟩)[e.pos]? =
        some (⟨.user, cb.flags⟩ : ActionCallback Callback) := by
      rw [List.getElem?_map, hget]
      rfl
    have hturn := fun i => (step_execute (i := i) hstack).trans
      (resume_turn hl (by rw [List.length_map, hstop]) hcb)
    have hsame : (⟨.user, cb.flags⟩ : ActionCallback Callback).has ActionFlag.skip =
        cb.has ActionFlag.skip := rfl
    cases hskip : cb.has ActionFlag.skip with
    | true =>
      have hstep := hturn .go
      rw [hsame, if_pos hskip] at hstep
      have hlater : ∃ cb ∈ (w.owners o .error).drop (e.pos + 1), cb.has ActionFlag.skip = false := by
        simpa [hskip] using hcall
      have hleft : e.stop - (e.pos + 1) = k := by omega
      obtain ⟨inputs, x, hreports⟩ := @ih { w with stack := .execute e.next :: base } e.next rfl
        hlist harg hstop hlater hleft
      exact ⟨_, x, hreports.head hstep (by simp [hstack])⟩
    | false =>
      have hstep := hturn (.enter 0)
      rw [hsame, if_neg (by simp [hskip]), invoke_user.mpr ⟨0, rfl, rfl⟩] at hstep
      have hpassed : w.passed e.arg = .error fn w.errno := by rw [harg, passed]
      exact ⟨[], w.errno, .called rfl trivial hstack hlist hstep
        (congrArg (fun arg => Frame.hook arg 0 :: (e.after ⟨.user, cb.flags⟩ ++ base)) hpassed)⟩

end Possible

section Failure

variable {w w₁ w₂ t : World} {i : Input} {p : SockPtr} {call : Call} {container : Container}
  {fd errno x : Int} {failing : SetUpStep} {rest : List Frame} {o : Owner} {base : List Frame}

theorem Leaving.reported_iff (hs : w₂.Sound) (hm : w₂.mem.Steady) (htame : w₂.mem.Tame)
    (h : Leaving base w₂ errno) (hbase : ∀ arg calls below, base ≠ .hook arg calls :: below)
    {inputs : List Input} (hreports : Reports w₂ o base inputs x) :
    x = errno ↔ lastErrno errno w₂ inputs = errno := by
  obtain ⟨hrun, hfirst, hstack, hlist, hstep, hcalled⟩ := hreports
  obtain ⟨herrno, harg⟩ := (h.run hs hm htame hrun hfirst).errno_eq hstack
  rw [called_errno hstack hlist harg hbase hstep hcalled, herrno]

theorem FailsWith.leaving {c : Connection} (h : FailsWith w p rest errno failing t)
    (hp : w.mem.deref p = some c) (hopen : 0 ≤ c.sock) :
    Leaving (reportBase p rest failing) t errno := by
  cases h with
  | error fn hfailing =>
    rcases hfailing with rfl | rfl
    all_goals exact @Leaving.calm _ _ _ [_] rfl (List.forall_mem_singleton.mpr (calm_error ..)) rfl
  | bind =>
    rw [bindFailed_eq hp]
    refine @Leaving.calm _ _ _ [_, .raise p.container.owner "bind"] rfl (fun f hf => ?_) rfl
    rcases List.mem_cons.mp hf with rfl | hf
    · exact ⟨by simp, .inl ⟨p, .inr rfl⟩⟩
    · exact List.mem_singleton.mp hf ▸ trivial
  | connect =>
    exact @Leaving.pending _ _ _ [.raise p.container.owner "listen"] p c rfl
      (List.forall_mem_singleton.mpr trivial) hp hopen

theorem Reports.of_raise {fn : String} (hstack : w.stack = .raise o fn :: base)
    (hcall : ∃ cb ∈ w.owners o .error, cb.has ActionFlag.skip = false) :
    ∃ inputs x, Reports w o base inputs x := by
  obtain ⟨inputs, x, hreports⟩ :=
    @of_execute (({ w with stack := base } : World).error o fn)
      ⟨.owner o .error, 0, (w.owners o .error).length, .errno fn⟩ o fn base rfl rfl rfl rfl hcall
  exact ⟨_, x, hreports.head (i := .go) (step_raise hstack) (by simp [hstack])⟩

theorem FailsWith.reports {c : Connection} (h : FailsWith w p rest errno failing t)
    (hp : w.mem.deref p = some c) (hopen : 0 ≤ c.sock)
    (hlist : c.actions .closed = p.container.installed) (hnone : c.actions .error = [])
    (hcall : ∃ cb ∈ w.owners p.container.owner .error, cb.has ActionFlag.skip = false) :
    ∃ inputs x, Reports t p.container.owner (reportBase p rest failing) inputs x := by
  cases h with
  | error fn hfailing =>
    rcases hfailing with rfl | rfl
    all_goals exact Reports.of_execute rfl rfl rfl rfl hcall
  | bind =>
    rw [bindFailed_eq hp, hnone]
    obtain ⟨inputs, x, hreports⟩ := Reports.of_raise (w := { w with
      errno := errno
      stack := .raise p.container.owner "bind" :: reportBase p rest .bind }) rfl hcall
    refine ⟨.go :: inputs, x, hreports.head ?_ (by simp [reportBase])⟩
    exact (step_execute rfl).trans (resume_end (Nat.le_refl 0))
  | connect =>
    have hbase : (reportBase p rest .connect).length ≤
        (.raise p.container.owner "listen" :: reportBase p rest .connect).length := Nat.le_succ _
    have hclose := resting_close (w := { w with
      errno := errno
      stack := .call (.close p) :: .raise p.container.owner "listen" ::
        reportBase p rest .connect }) rfl hbase hp hopen hlist
    obtain ⟨u, hreach, hstack, howners⟩ := hclose.exists_reach
    refine Reports.of_reach (hreach.mono fun v i hi => hi.1) (Reports.of_raise hstack ?_)
    rw [howners]
    exact hcall

/-- Every `ERROR` hook with which `listen` or `connect` reports a failed call gets the `errno` of that
call exactly if nothing else is what `::close` and the hooks that have returned since have left last;
and one is called, if there is one without `SKIP`. -/
theorem reported_errno_iff {owners : Owner → OwnerAction → Action Unit} {invalid : UShort}
    (h : Machine.Reach step Any (start owners invalid) w) (hstack : w.stack = .call call :: rest)
    (hcall : call.setsUp = some container)
    (hfree : (w.mem.sockets container).contains fd = false)
    (hmade : w.step (.opened (.ok fd)) = some w₁)
    (hfail : w₁.step (.setUp (some (failing, errno))) = some w₂)
    (hp : w.mem.newPtr container fd = p) :
    ((∃ cb ∈ w.owners container.owner .error, cb.has ActionFlag.skip = false) →
      ∃ inputs x, Reports w₂ container.owner (reportBase p rest failing) inputs x) ∧
    ∀ inputs x, Reports w₂ container.owner (reportBase p rest failing) inputs x →
      (x = errno ↔ lastErrno errno w₂ inputs = errno) := by
  subst hp
  have hfailed := (h.tail trivial hmade).tail trivial hfail
  obtain ⟨hopen, -, setUp, hsetUp, rfl⟩ := step_made hstack hcall hfree hmade
  have hp := Memory.deref_setUp hfree
  have hlist := setUpWiring_closed (Call.setsUp_not_clients hcall) w.mem.nextNode fd
  have hfails := step_failsWith hsetUp rfl hfail
  refine ⟨hfails.reports hp hopen hlist rfl, fun inputs x => ?_⟩
  refine (hfails.leaving hp hopen).reported_iff (sound_of_reach hfailed) (steady_of_reach hfailed)
    (tame_of_reach hfailed) ?_
  cases failing <;> simp [reportBase]

end Failure

/-- A client with a `CLOSED` and two `ERROR` hooks. -/
def closedErrorHooks : Owner → OwnerAction → Action Unit
  | .client 0, .closed => [⟨(), ActionFlag.default⟩]
  | .client 0, .error => [⟨(), ActionFlag.default⟩, ⟨(), ActionFlag.default⟩]
  | _, _ => []

/-- `::connect` is refused with 111. -/
def refusedConnect : List Input :=
  [.call (.connect 0), .opened (.ok 3), .setUp (some (.connect, 111))]

theorem refusedConnect_state : ∃ w w₁ w₂,
    Machine.run step (start closedErrorHooks 0) [.call (.connect 0)] = some w ∧
    w.stack = [.call (.connect 0)] ∧ (w.mem.sockets (.connections 0)).contains 3 = false ∧
    w.mem.newPtr (.connections 0) 3 = { container := .connections 0, key := 3, node := 0 } ∧
    w.step (.opened (.ok 3)) = some w₁ ∧ w₁.step (.setUp (some (.connect, 111))) = some w₂ ∧
    Machine.run step (start closedErrorHooks 0) refusedConnect = some w₂ :=
  first_call_fails (by decide)

theorem reported_errno_iff_refused : ∃ w₂,
    Machine.run step (start closedErrorHooks 0) refusedConnect = some w₂ ∧
    (∃ inputs x, Reports w₂ (.client 0) [.returning false] inputs x) ∧
    ∀ inputs x, Reports w₂ (.client 0) [.returning false] inputs x →
      (x = 111 ↔ lastErrno 111 w₂ inputs = 111) := by
  obtain ⟨w, w₁, w₂, hw, hstack, hfree, hp, hw₁, hw₂, hrun⟩ := refusedConnect_state
  have hreach : Machine.Reach step Any (start closedErrorHooks 0) w :=
    .of_run (fun _ _ => trivial) hw
  have howners : (Machine.run step (start closedErrorHooks 0) [.call (.connect 0)]).map
      (fun w => w.owners (.client 0) .error) =
        some [⟨(), ActionFlag.default⟩, ⟨(), ActionFlag.default⟩] := by decide
  rw [hw, Option.map_some, Option.some.injEq] at howners
  obtain ⟨hpossible, hiff⟩ := reported_errno_iff hreach hstack rfl hfree hw₁ hw₂ hp
  refine ⟨w₂, hrun, hpossible ⟨⟨(), ActionFlag.default⟩, ?_, by decide⟩, hiff⟩
  exact howners ▸ List.mem_cons_self

/-- `::close` leaves `errno` as it is, and the `CLOSED` hook leaves 2. -/
def hookLeaves : List Input := [.closed 111, .go, .enter 0, .ret 2, .go, .go, .go]

/-- The `ERROR` hook then gets 2. -/
theorem closed_hook_errno_reported : ¬ ∀ (owners : Owner → OwnerAction → Action Unit)
    (invalid : UShort) (w w₁ w₂ : World) (call : Call) (container : Container) (fd : Int)
    (failing : SetUpStep) (errno : Int) (rest : List Frame),
    Machine.Reach step Any (start owners invalid) w → w.stack = .call call :: rest →
    call.setsUp = some container → (w.mem.sockets container).contains fd = false →
    w.step (.opened (.ok fd)) = some w₁ → w₁.step (.setUp (some (failing, errno))) = some w₂ →
    failing ≠ .addrinfo → ∀ inputs x,
      Reports w₂ container.owner (reportBase (w.mem.newPtr container fd) rest failing) inputs x →
        x = errno := by
  intro hall
  obtain ⟨w, w₁, w₂, hw, hstack, hfree, hp, hw₁, hw₂, hrun⟩ := refusedConnect_state
  have hreported := hall closedErrorHooks 0 w w₁ w₂ (.connect 0) (.connections 0) 3 .connect 111 []
    (.of_run (fun _ _ => trivial) hw) hstack rfl hfree hw₁ hw₂ (by decide) hookLeaves 2
  have hchecked : (Machine.run step (start closedErrorHooks 0) refusedConnect).map (fun u =>
      Machine.checked step (fun v _ => v.stack != [.returning false]) u hookLeaves) = some true := by
    decide
  have hend : (Machine.run step (start closedErrorHooks 0) (refusedConnect ++ hookLeaves)).map
      (fun t => (t.stack, (t.step (.enter 0)).map World.stack)) =
        some ([.execute ⟨.owner (.client 0) .error, 0, 2, .errno "listen"⟩, .returning false],
          some [.hook (.error "listen" 2) 0,
            .execute ⟨.owner (.client 0) .error, 1, 2, .errno "listen"⟩, .returning false]) := by
    decide
  rw [hrun, Option.map_some, Option.some.injEq] at hchecked
  rw [Machine.run_append, hrun, Option.bind_some] at hend
  obtain ⟨t, ht, hend⟩ := Option.map_eq_some_iff.mp hend
  obtain ⟨hstack', hcalled⟩ := Prod.mk.inj hend
  obtain ⟨u, hu, hcalled⟩ := Option.map_eq_some_iff.mp hcalled
  have hfirst : Machine.Along step (fun v _ => v.stack ≠ [.returning false]) w₂ hookLeaves :=
    .of_checked (fun v _ hv => by simpa using hv) hchecked
  exact absurd (hreported (.called ht hfirst hstack' rfl hu hcalled)) (by decide)

end World

end Unisock.Tcp
