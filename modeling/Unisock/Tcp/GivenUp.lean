import Unisock.Tcp.Growing
import Unisock.Tcp.Rollback

/-! `listen` and `connect` when a call after `make_socket` fails, whatever the hooks do meanwhile: the
new element is closed and erased once and not used after that, if no hook closes it before the call
itself does, and none registers callbacks on lists that are being executed. -/

namespace Unisock.Tcp

open Unisock.Events

namespace World

/-- What the next step does not do to a failed call: it closes the open socket of `p` only as the
`close` with `base` below it, where the `CLOSED` list is not cut in front of `erase`, and it registers
no callback on a list that an execution above `rest` has not come to the end of. -/
structure LeftToCall (p : SockPtr) (base rest : List Frame) (w : World) : Prop where
  closed : ∀ c, w.mem.deref p = some c → 0 ≤ c.sock → w.ClosesNext p →
    w.stack = .call (.close p) :: base ∧ ¬ c.Cut
  lists : ∀ front e, w.stack = front ++ rest → .execute e ∈ front → e.pos < e.stop →
    ¬ w.RegistersOn e.list

/-- From `w` to `t`, `p` has been closed once and erased once. -/
structure DisposedOnce (w : World) (p : SockPtr) (t : World) : Prop where
  gone : t.mem.deref p = none
  shut : t.log.countP (Event.shuts p) = w.log.countP (Event.shuts p) + 1
  erased : t.log.countP (Event.erases p) = w.log.countP (Event.erases p) + 1

/-- The run of a failed call from `w₂` on, over states that `ok` admits: until the stack is `rest` again,
steps use `p` in its container only, and the program crashes in hooks only; then `p` has been closed
once and erased once since `w`, and is used no more.  And the call returns, if the hooks do. -/
structure Disposes (ok : World → Prop) (w : World) (p : SockPtr) (rest : List Frame) (w₂ : World) :
    Prop where
  uses : ∀ t, Machine.Reach step (fun u _ => u.stack ≠ rest ∧ ok u) w₂ t → t.Uses p →
    (t.mem.deref p).isSome
  crashes : ∀ t, Machine.Reach step (fun u _ => u.stack ≠ rest ∧ ok u) w₂ t → ∀ k below,
    t.stack = .crash k :: (below ++ rest) → ∃ arg calls, .hook arg calls ∈ below
  returned : ∀ t, Machine.Reach step (fun u _ => u.stack ≠ rest ∧ ok u) w₂ t → t.stack = rest →
    w.DisposedOnce p t ∧ ∀ u, Machine.Reach step Any t u → ¬ u.Uses p
  returns : Machine.Inevitable step CloseHooks
    (fun t => (t.stack = rest ∧ w.DisposedOnce p t) ∨ ¬ ok t) w₂

/-- Where the element is between the failure and the return: it is open and its `close` is to come,
its `CLOSED` list is executed, the program has crashed in it, or it is gone for good. -/
inductive Dying (p : SockPtr) (base : List Frame) (w : World) : Prop
  | pending {above : List Frame} {c : Connection}
      (hstack : w.stack = above ++ .call (.close p) :: base) (hp : w.mem.deref p = some c)
      (hopen : 0 ≤ c.sock)
  | closing (h : Erasing p base w)
  | crashed (h : w.stack = .crash .invalidated :: base)
  | gone (hp : w.mem.deref p = none) (hnone : ¬ w.Mentions p)

section Runs

variable {w t : World} {i : Input} {p : SockPtr} {base rest : List Frame}

theorem not_mentions (hstack : w.stack = base) (hbase : ∀ f ∈ base, f.subject ≠ some p) :
    ¬ w.Mentions p := by
  rintro ⟨f, hf, hsubject⟩
  exact hbase f (hstack ▸ hf) hsubject

/-- The element is in its container until it is erased. -/
theorem Dying.alive (h : Dying p base w) (hmentions : w.Mentions p)
    (hbase : ∀ f ∈ base, f.subject ≠ some p) : (w.mem.deref p).isSome := by
  cases h with
  | pending _ hp _ => exact Option.isSome_of_eq_some hp
  | closing h =>
    obtain ⟨above, e, c, -, -, hp, -⟩ := h
    exact Option.isSome_of_eq_some hp
  | crashed hcrash =>
    obtain ⟨f, hf, hsubject⟩ := hmentions
    rw [hcrash] at hf
    rcases List.mem_cons.mp hf with rfl | hf
    · simp [Frame.subject] at hsubject
    · exact absurd hsubject (hbase f hf)
  | gone _ hnone => exact absurd hmentions hnone

/-- An element that is gone, and that no function on the stack is about, stays so. -/
theorem gone_step (hs : w.Sound) (hnode : p.node < w.mem.nextNode) (hp : w.mem.deref p = none)
    (hnone : ¬ w.Mentions p) (hstep : w.step i = some t) :
    t.mem.deref p = none ∧ ¬ t.Mentions p := by
  have hgone : t.mem.deref p = none := by
    rw [Option.eq_none_iff_forall_ne_some]
    intro c' hc'
    obtain ⟨c, hc, -⟩ := (step_move hstep).element hs hnode hc'
    exact absurd (hp.symm.trans hc) (by simp)
  refine ⟨hgone, fun hmentions => ?_⟩
  rcases step_mentions hstep hmentions with hold | halive
  · exact hnone hold
  · exact absurd halive (by simp [hgone])

theorem not_uses_of_gone (hs : w.Sound) (hnode : p.node < w.mem.nextNode)
    (hp : w.mem.deref p = none) (hnone : ¬ w.Mentions p)
    (h : Machine.Reach World.step Any w t) : ¬ t.Uses p := by
  have hinv : t.Sound ∧ p.node < t.mem.nextNode ∧ t.mem.deref p = none ∧ ¬ t.Mentions p := by
    apply h.invariant ⟨hs, hnode, hp, hnone⟩
    rintro u i v ⟨hs, hnode, hp, hnone⟩ - hstep
    have hmove := step_move hstep
    exact ⟨hmove.sound hs, hnode.trans_le (hmove.ages hs).nextNode_le,
      gone_step hs hnode hp hnone hstep⟩
  obtain ⟨hs, -, hp, hnone⟩ := hinv
  intro huses
  rcases huses.mentioned hs.mem.toCorresponds with hmentions | halive
  · exact hnone hmentions
  · exact absurd halive (by simp [hp])

theorem Dying.step (hs : w.Sound) (hm : w.mem.Steady) (hnode : p.node < w.mem.nextNode)
    (hbase : ∀ f ∈ base, f.subject ≠ some p) (h : Dying p base w) (hok : w.LeftToCall p base rest)
    (hstep : w.step i = some t) : Dying p base t := by
  cases h with
  | @pending above c hstack hp hopen =>
    by_cases hcloses : w.ClosesNext p
    · obtain ⟨hcall, hcut⟩ := hok.closed c hp hopen hcloses
      exact .closing (.close hp hopen (hm.erasesLast p c hp) hcut hcall hstep)
    · obtain ⟨c', hp', hopen'⟩ := stays_open hs hp hopen hcloses hstep
      cases above with
      | nil => exact absurd (by simp only [ClosesNext, hstack, List.nil_append]) hcloses
      | cons f above =>
        obtain ⟨new, hnew, -⟩ := (step_move hstep).split
        rw [hstack, List.cons_append, List.tail_cons, ← List.append_assoc] at hnew
        exact .pending hnew hp' hopen'
  | closing herasing =>
    rcases herasing.step hs hm hstep with herasing | hcrash | ⟨hreturn, hgone⟩
    · exact .closing herasing
    · exact .crashed hcrash
    · exact .gone hgone (not_mentions hreturn hbase)
  | crashed hcrash => simp [World.step, hcrash] at hstep
  | gone hp hnone =>
    obtain ⟨hgone, hnone⟩ := gone_step hs hnode hp hnone hstep
    exact .gone hgone hnone

theorem Dying.returned (h : Dying p base w) (hle : rest.length ≤ base.length)
    (hreturn : w.stack = rest) : w.mem.deref p = none ∧ ¬ w.Mentions p := by
  have hlength := congrArg List.length hreturn
  cases h with
  | pending hstack _ _ =>
    simp only [hstack, List.length_append, List.length_cons] at hlength
    omega
  | closing h =>
    obtain ⟨above, e, c, hstack, -⟩ := h
    simp only [hstack, List.length_append, List.length_cons] at hlength
    omega
  | crashed hcrash =>
    simp only [hcrash, List.length_cons] at hlength
    omega
  | gone hp hnone => exact ⟨hp, hnone⟩

/-- Right before the `close` of the call, the element is open. -/
theorem Dying.open_of_close (h : Dying p base w) (hstack : w.stack = .call (.close p) :: base) :
    ∃ c, w.mem.deref p = some c ∧ 0 ≤ c.sock := by
  cases h with
  | pending _ hp hopen => exact ⟨_, hp, hopen⟩
  | closing h =>
    obtain ⟨above, e, c, hexecute, -⟩ := h
    rw [hstack] at hexecute
    cases above with
    | nil => exact absurd (List.cons.inj hexecute).1 (by simp)
    | cons f above =>
      have hlength := congrArg List.length hexecute
      simp only [List.length_append, List.length_cons] at hlength
      omega
  | crashed hcrash => exact absurd (hstack.symm.trans hcrash) (by simp)
  | gone _ hnone => exact absurd ⟨_, hstack ▸ List.mem_cons_self, rfl⟩ hnone

theorem Dying.reach {w₂ : World} (hs : w₂.Sound) (hm : w₂.mem.Steady)
    (hnode : p.node < w₂.mem.nextNode) (hbase : ∀ f ∈ base, f.subject ≠ some p)
    (h : Dying p base w₂) {ok : World → Input → Prop} (hok : ∀ u i, ok u i → u.LeftToCall p base rest)
    (hreach : Machine.Reach World.step ok w₂ t) :
    (t.Sound ∧ t.mem.Steady ∧ p.node < t.mem.nextNode) ∧ w₂.Balanced t p ∧ Dying p base t := by
  apply hreach.invariant ⟨⟨hs, hm, hnode⟩, ⟨rfl, rfl⟩, h⟩
  rintro u i v ⟨⟨hs, hm, hnode⟩, hbalanced, hdying⟩ hi hstep
  have hmove := step_move hstep
  exact ⟨⟨hmove.sound hs, steady_step hs hm hstep, hnode.trans_le (hmove.ages hs).nextNode_le⟩,
    hbalanced.trans (hmove.balanced hs hnode), hdying.step hs hm hnode hbase (hok u i hi) hstep⟩

end Runs

end World

/-! ### The functions of the call itself -/

/-- The failed call itself is in this function, not a hook of it. -/
def Frame.own (p : SockPtr) : Frame → Prop
  | .execute e =>
    match e.list with
    | .owner _ _ => True
    | .socket q .closed => q = p
    | .socket _ _ => e.stop ≤ e.pos
  | .call (.close q) => q = p
  | .raise _ _ | .returning _ => True
  | _ => False

namespace World

/-- Besides, its execution is not over a list that has grown. -/
structure Own (w : World) (p : SockPtr) (f : Frame) : Prop where
  own : f.own p
  whole : ∀ e, f = .execute e → w.Whole e

/-- Above `rest` are functions of the failed call, and above these nothing or a hook. -/
def Calling (p : SockPtr) (rest : List Frame) (w : World) : Prop :=
  ∃ above own, w.stack = above ++ (own ++ rest) ∧ (∀ f ∈ own, w.Own p f) ∧
    (above = [] ∨ ∃ nested arg calls, above = nested ++ [.hook arg calls])

section Calls

variable {w t : World} {i : Input} {p : SockPtr} {base rest own : List Frame} {e : Execution}

theorem Own.keep {f : Frame} (hf : w.Own p f) (hmove : Move w i t) (hnode : p.node < w.mem.nextNode)
    (hregs : ∀ e, f = .execute e → e.pos < e.stop → ¬ w.RegistersOn e.list)
    (halive : f.subject = some p → (t.mem.deref p).isSome) : t.Own p f := by
  refine ⟨hf.own, ?_⟩
  rintro e rfl
  obtain ⟨hlist, hwhole⟩ := hf
  refine (hwhole e rfl).keep fun hpos => ?_
  refine hmove.callbacks_keep (hregs e rfl hpos) fun q action hq => ?_
  simp only [Frame.own, Frame.subject, hq] at hlist halive
  cases action with
  | closed =>
    obtain rfl : q = p := hlist
    exact ⟨rfl, hnode, halive rfl⟩
  | _ => exact absurd hpos (not_lt.mpr hlist)

theorem own_owner (w : World) (o : Owner) (action : OwnerAction) (arg : Arg) :
    w.Own p (.execute ⟨.owner o action, 0, (w.owners o action).length, arg⟩) := by
  refine ⟨trivial, ?_⟩
  rintro e ⟨⟩
  exact fun _ => ⟨_, rfl, List.length_map ..⟩

theorem Own.next (h : w.Own p (.execute e)) : w.Own p (.execute e.next) := by
  obtain ⟨hlist, hwhole⟩ := h
  refine ⟨?_, ?_⟩
  · simp only [Frame.own, Execution.next] at hlist ⊢
    split at hlist
    · trivial
    · exact hlist
    · exact Nat.le_succ_of_le hlist
  · rintro e' ⟨⟩
    exact (hwhole e rfl).next

theorem Own.after (h : w.Own p (.execute e)) (cb : ActionCallback Callback) :
    ∀ f ∈ e.after cb, w.Own p f := by
  intro f hf
  unfold Execution.after at hf
  split at hf
  · exact absurd hf (by simp)
  · exact List.mem_singleton.mp hf ▸ h.next

theorem Frame.own_not_registers {f : Frame} (hf : f.own p) (hstack : w.stack = f :: rest)
    (list : ActionList) : ¬ w.RegistersOn list := by
  unfold RegistersOn
  rw [hstack]
  cases f with
  | call c => cases c <;> simp_all [Frame.own]
  | _ => simp

/-- The callbacks of such an execution are hooks, notifications and `erase`. -/
theorem own_callback (hm : w.mem.Steady) (h : (Frame.execute e).own p) (hpos : e.pos < e.stop)
    {l : Action Callback} (hl : w.callbacks e.list = some l) {cb : ActionCallback Callback}
    (hcb : cb ∈ l) : cb.exec = .user ∨
      (e.list = .socket p .closed ∧ (cb = eraser ∨ ∃ action, cb.exec = .notify action)) := by
  cases hlist : e.list with
  | owner o action =>
    simp only [callbacks, hlist, Option.some.injEq] at hl
    subst hl
    obtain ⟨cb', -, rfl⟩ := List.mem_map.mp hcb
    exact .inl rfl
  | socket q action =>
    simp only [Frame.own, hlist] at h
    cases action with
    | closed =>
      obtain rfl : q = p := h
      simp only [callbacks, hlist, Option.map_eq_some_iff] at hl
      obtain ⟨c, hp, rfl⟩ := hl
      exact ((hm.erasesLast q c hp).callback hcb).imp_right fun h => ⟨rfl, h⟩
    | _ => exact absurd hpos (not_lt.mpr h)

/-- The call executes a list: no callback is left, one is skipped or called. -/
theorem calling_execute (hm : w.mem.Steady) (hstack : w.stack = .execute e :: (own ++ rest))
    (he : w.Own p (.execute e)) (hown : ∀ f ∈ own, w.Own p f)
    (hkeep : ∀ f, w.Own p f → f ∈ t.stack → t.Own p f) (hstep : w.step i = some t) :
    Calling p rest t := by
  have calls : ∀ above new, t.stack = above ++ ((new ++ own) ++ rest) → (∀ f ∈ new, w.Own p f) →
      (above = [] ∨ ∃ nested arg calls, above = nested ++ [.hook arg calls]) → Calling p rest t := by
    intro above new ht hnew habove
    refine ⟨above, new ++ own, ht, fun f hf => ?_, habove⟩
    refine hkeep f ?_ (ht ▸ List.mem_append_right _ (List.mem_append_left _ hf))
    exact (List.mem_append.mp hf).elim (hnew f) (hown f)
  rw [step_execute hstack] at hstep
  by_cases hend : e.stop ≤ e.pos
  · rw [resume_end hend] at hstep
    obtain rfl := Option.some.inj hstep
    exact calls [] [] rfl (by simp) (.inl rfl)
  have hpos := not_le.mp hend
  obtain ⟨l, hl, hlen⟩ := he.whole e rfl hpos
  have hl' : { w with stack := own ++ rest }.callbacks e.list = some l := by
    cases hlist : e.list <;> simpa [callbacks, hlist] using hl
  rcases resume_whole hl' hlen hstep with rfl | ⟨cb, hcb, ⟨-, rfl⟩ | ⟨-, hbody⟩⟩
  · exact calls [] [] rfl (by simp) (.inl rfl)
  · exact calls [] [.execute e.next] rfl (by simpa using he.next) (.inl rfl)
  rcases own_callback hm he.own hpos hl hcb with hexec | ⟨hlist, rfl | ⟨action, hexec⟩⟩
  · rw [hexec] at hbody
    obtain ⟨n, -, rfl⟩ := invoke_user.mp hbody
    exact calls [_] (e.after cb) (congrArg (_ :: ·) (List.append_assoc ..).symm) (he.after cb)
      (.inr ⟨[], _, _, rfl⟩)
  · obtain ⟨-, rfl⟩ := (invoke_erase hlist).mp hbody
    exact calls [] (e.after eraser) (List.append_assoc ..).symm (he.after eraser) (.inl rfl)
  · rw [hexec] at hbody
    obtain ⟨-, rfl⟩ := (invoke_notify hlist).mp hbody
    exact calls [] (_ :: e.after cb) (congrArg (_ :: ·) (List.append_assoc ..).symm)
      (List.forall_mem_cons.mpr ⟨own_owner .., he.after cb⟩) (.inl rfl)

theorem Calling.step (hs : w.Sound) (hm : w.mem.Steady) (hnode : p.node < w.mem.nextNode)
    (hbase : ∀ f ∈ base, f.subject ≠ some p) (hd : Dying p base w) (h : Calling p rest w)
    (hok : w.LeftToCall p base rest) (hne : w.stack ≠ rest) (hstep : w.step i = some t) :
    Calling p rest t := by
  have hmove := step_move hstep
  have hd' := hd.step hs hm hnode hbase hok hstep
  have halive : ∀ f ∈ t.stack, f.subject = some p → (t.mem.deref p).isSome := fun f hf hsubject =>
    hd'.alive ⟨f, hf, hsubject⟩ hbase
  obtain ⟨above, own, hstack, hown, habove⟩ := h
  -- below a hook the functions of the call wait
  have waits : ∀ above', t.stack = above' ++ (own ++ rest) →
      (above' = [] ∨ ∃ nested arg calls, above' = nested ++ [.hook arg calls]) →
      Calling p rest t := by
    intro above' ht habove'
    refine ⟨above', own, ht, fun f hf => ?_, habove'⟩
    have hin : f ∈ t.stack := ht ▸ List.mem_append_right _ (List.mem_append_left _ hf)
    refine (hown f hf).keep hmove hnode (fun e he hpos => ?_) (halive f hin)
    refine hok.lists (above ++ own) e (by rw [hstack, List.append_assoc]) ?_ hpos
    exact List.mem_append_right _ (he ▸ hf)
  rcases habove with rfl | ⟨nested, arg, calls, rfl⟩
  · cases own with
    | nil => exact absurd hstack hne
    | cons f own =>
      obtain ⟨hf, hbelow⟩ := List.forall_mem_cons.mp hown
      have hstack : w.stack = f :: (own ++ rest) := hstack
      have hkeep : ∀ g, w.Own p g → g ∈ t.stack → t.Own p g := fun g hg hin =>
        hg.keep hmove hnode (fun e _ _ => Frame.own_not_registers hf.own hstack e.list) (halive g hin)
      have goes : ∀ new, t.stack = new ++ (own ++ rest) → (∀ g ∈ new, t.Own p g) →
          Calling p rest t := by
        intro new ht hnew
        refine ⟨[], new ++ own, by rw [ht]; simp, fun g hg => ?_, .inl rfl⟩
        rcases List.mem_append.mp hg with hg | hg
        · exact hnew g hg
        · exact hkeep g (hbelow g hg) (ht ▸ List.mem_append_right _ (List.mem_append_left _ hg))
      cases f with
      | execute e => exact calling_execute hm hstack hf hbelow hkeep hstep
      | raise o fn =>
        obtain rfl := Option.some.inj ((step_raise hstack).symm.trans hstep)
        exact goes [_] rfl (List.forall_mem_singleton.mpr (own_owner ..))
      | returning result =>
        obtain rfl := Option.some.inj ((step_returning hstack).symm.trans hstep)
        exact goes [] rfl (by simp)
      | call c =>
        cases c with
        | close q =>
          obtain rfl : q = p := hf.own
          obtain ⟨c, hp⟩ := Option.isSome_iff_exists.mp
            (hd.alive ⟨_, hstack ▸ List.mem_cons_self, rfl⟩ hbase)
          obtain ⟨errno, rfl, rfl⟩ := (step_close hstack).mp hstep
          by_cases hopen : 0 ≤ c.sock
          · rw [close_open (w := { w with stack := own ++ rest }) hp hopen] at goes ⊢
            refine goes [_] rfl (List.forall_mem_singleton.mpr ⟨rfl, ?_⟩)
            rintro e ⟨⟩ _
            have hp' := (Memory.deref_closeSocket hp c.sock q).trans (if_pos rfl)
            exact ⟨c.actions .closed, by simp only [callbacks, hp', Option.map_some], rfl⟩
          · rw [close_closed (w := { w with stack := own ++ rest }) hp (not_le.mp hopen)] at goes ⊢
            exact goes [] rfl (by simp)
        | _ => exact hf.own.elim
      | _ => exact hf.own.elim
  · cases nested with
    | cons f nested =>
      obtain ⟨new, hnew, -⟩ := hmove.split
      refine waits (new ++ nested ++ [.hook arg calls]) ?_ (.inr ⟨new ++ nested, arg, calls, rfl⟩)
      rw [hnew, hstack]
      simp
    | nil =>
      rcases Discipline.step_hook hstack hstep with
        ⟨errno, rfl, rfl⟩ | ⟨call, calls', -, rfl, -, rfl⟩
      · exact waits [] rfl (.inl rfl)
      · exact waits [.call call, .hook arg calls'] rfl (.inr ⟨[.call call], arg, calls', rfl⟩)

theorem Calling.crashes (h : Calling p rest w) {k : Crash} {below : List Frame}
    (hstack : w.stack = .crash k :: (below ++ rest)) : ∃ arg calls, .hook arg calls ∈ below := by
  obtain ⟨above, own, hsplit, hown, habove⟩ := h
  rw [hstack, ← List.append_assoc, ← List.cons_append] at hsplit
  have htop := List.append_cancel_right hsplit
  rcases habove with rfl | ⟨nested, arg, calls, rfl⟩
  · rw [List.nil_append] at htop
    exact (hown (.crash k) (htop ▸ List.mem_cons_self)).own.elim
  · refine ⟨arg, calls, ?_⟩
    have hin : Frame.hook arg calls ∈ Frame.crash k :: below := htop ▸ by simp
    exact (List.mem_cons.mp hin).resolve_left (by simp)

end Calls

/-! ### After a step that breaks the condition -/

section Broken

variable {owners : Owner → OwnerAction → Action Unit} {invalid : UShort} {w t : World} {i : Input}
  {p : SockPtr} {base rest : List Frame}

/-- The `close` of the call is still to come, but the element is closed already; the element will stay
in its container; or the program crashes before the call returns. -/
inductive Doomed (p : SockPtr) (base rest : List Frame) (w : World) : Prop
  | pending {above : List Frame} (hstack : w.stack = above ++ .call (.close p) :: base)
      (hclosed : ∀ c, w.mem.deref p = some c → c.sock < 0)
  | kept (hstays : w.Stays p) (hspared : ∀ e, .execute e ∈ w.stack → w.Spared p e)
  | grown {above below : List Frame} {e : Execution}
      (hstack : w.stack = above ++ .execute e :: (below ++ rest)) (he : w.Outgrown e)
  | crashed {k : Crash} {below : List Frame} (hstack : w.stack = .crash k :: (below ++ rest))

theorem Doomed.step_kept (hs : w.Sound) (hm : w.mem.Steady) (hstays : w.Stays p)
    (hspared : ∀ e, .execute e ∈ w.stack → w.Spared p e) (hstep : w.step i = some t) :
    Doomed p base rest t := by
  have hmove := step_move hstep
  have htop : ∀ e rest, w.stack = .execute e :: rest → w.Spared p e := fun e rest hstack =>
    hspared e (hstack ▸ List.mem_cons_self)
  refine .kept (hmove.stays hs hm hstays htop) fun e he => ?_
  rcases hmove.origin he with hold | hbegins
  · exact hmove.spared hs hstays (hspared e hold)
  · exact hbegins.spared hs hmove hstays htop

theorem Doomed.step (hreach : Machine.Reach World.step Any (start owners invalid) w)
    (hnode : p.node < w.mem.nextNode) (hbase : ∀ f ∈ base, f.subject ≠ some p)
    (h : Doomed p base rest w) (hok : w.Uses p → (w.mem.deref p).isSome)
    (hstep : w.step i = some t) : Doomed p base rest t := by
  have hs := sound_of_reach hreach
  have hmove := step_move hstep
  obtain ⟨new, hnew, -⟩ := hmove.split
  cases h with
  | @pending above hstack hclosed =>
    cases above with
    | cons f above =>
      rw [hstack, List.cons_append, List.tail_cons, ← List.append_assoc] at hnew
      refine .pending hnew fun c' hc' => ?_
      obtain ⟨c, hc, hsock, -⟩ := hmove.element hs hnode hc'
      have := hclosed c hc
      omega
    | nil =>
      rw [List.nil_append] at hstack
      have huses : w.Uses p := by simp only [Uses, hstack, Frame.subject]
      obtain ⟨c, hp⟩ := Option.isSome_iff_exists.mp (hok huses)
      obtain ⟨errno, rfl, rfl⟩ := (step_close hstack).mp hstep
      rw [close_closed (w := { w with stack := base }) hp (hclosed c hp)]
      refine .kept ⟨c, hp, .inl (hclosed c hp)⟩ fun e he d hlist => ?_
      exact absurd (by simp only [Frame.subject, hlist]) (hbase (.execute e) he)
  | kept hstays hspared => exact .step_kept hs (steady_of_reach hreach) hstays hspared hstep
  | @grown above below e hstack he =>
    cases above with
    | cons f above =>
      rw [hstack, List.cons_append, List.tail_cons, ← List.append_assoc] at hnew
      refine .grown hnew (he.step hmove fun q hq => ?_)
      have hin : .execute e ∈ w.stack := hstack ▸ List.mem_append_right _ List.mem_cons_self
      exact mentioned_of_reach hreach ⟨_, hin, (Frame.subject_execute e).trans hq⟩
    | nil =>
      obtain ⟨k, hcrash⟩ := he.crashes hstack hstep
      exact .crashed hcrash
  | crashed hstack => simp [World.step, hstack] at hstep

/-- The step that closes an open element. -/
theorem closed_of_closesNext {c : Connection} (hp : w.mem.deref p = some c) (hopen : 0 ≤ c.sock)
    (hcloses : w.ClosesNext p) (hstep : w.step i = some t) :
    t.mem.deref p = some { c with sock := -1 } := by
  have hclosed : ∀ stack errno, ({ w with stack := stack }.close p errno).mem.deref p =
      some { c with sock := -1 } := by
    intro stack errno
    rw [close_open (w := { w with stack := stack }) hp hopen]
    exact (Memory.deref_closeSocket hp c.sock p).trans (if_pos rfl)
  unfold ClosesNext at hcloses
  split at hcloses
  · next q rest hstack =>
    subst hcloses
    obtain ⟨errno, rfl, rfl⟩ := (step_close hstack).mp hstep
    exact hclosed rest errno
  · next container rest hstack =>
    obtain ⟨⟨key, d⟩, hbegin, rfl⟩ := Option.map_eq_some_iff.mp hcloses
    obtain ⟨errno, rfl, rfl⟩ := (step_closing hstack).mp hstep
    have hbegin : w.mem.begin? container = some (key, d) := hbegin
    simp only [closeNext, hbegin]
    exact hclosed (.closing container :: rest) errno
  · exact hcloses.elim

/-- A step that closes the element out of turn, or closes it while its list is cut. -/
theorem Dying.doomed_of_closes {c : Connection} (hs : w.Sound) (hm : w.mem.Steady)
    (h : Dying p base w) (hp : w.mem.deref p = some c) (hopen : 0 ≤ c.sock)
    (hcloses : w.ClosesNext p) (hbad : w.stack = .call (.close p) :: base → c.Cut)
    (hstep : w.step i = some t) : Doomed p base rest t := by
  by_cases hcut : c.Cut
  · exact .step_kept hs hm ⟨c, hp, .inr hcut⟩ (hs.spared_of_open hp hopen) hstep
  · cases h with
    | @pending above d hstack _ _ =>
      cases above with
      | nil => exact absurd (hbad hstack) hcut
      | cons f above =>
        obtain ⟨new, hnew, -⟩ := (step_move hstep).split
        rw [hstack, List.cons_append, List.tail_cons, ← List.append_assoc] at hnew
        refine .pending hnew fun c' hc' => ?_
        rw [closed_of_closesNext hp hopen hcloses hstep] at hc'
        obtain rfl := Option.some.inj hc'
        show (-1 : Int) < 0
        decide
    | closing h =>
      obtain ⟨-, -, d, -, -, hd, hsock, -⟩ := h
      obtain rfl := Option.some.inj (hp.symm.trans hd)
      omega
    | crashed hcrash => simp [ClosesNext, hcrash] at hcloses
    | gone hnone _ => exact absurd (hp.symm.trans hnone) (by simp)

/-- A step that registers a callback on a list which is being executed. -/
theorem doomed_of_registers {front : List Frame} {e : Execution}
    (hreach : Machine.Reach World.step Any (start owners invalid) w)
    (hstack : w.stack = front ++ rest) (he : .execute e ∈ front) (hpos : e.pos < e.stop)
    (hreg : w.RegistersOn e.list) (hstep : w.step i = some t) : Doomed p base rest t := by
  have hin : .execute e ∈ w.stack := hstack ▸ List.mem_append_left _ he
  obtain ⟨c, htop, hnext⟩ := hreg.outgrows hpos (fun l hl => within_of_reach hreach hin hl) hstep
  obtain ⟨f, front, rfl⟩ := List.exists_cons_of_ne_nil (List.ne_nil_of_mem he)
  rw [hstack, List.cons_append, List.tail_cons] at htop hnext
  obtain ⟨rfl, -⟩ := List.cons.inj htop
  have he : .execute e ∈ front := (List.mem_cons.mp he).resolve_left (by simp)
  rcases hnext with ⟨k, hcrash⟩ | ⟨ht, hgrown⟩
  · exact .crashed hcrash
  · obtain ⟨above, below, rfl⟩ := List.append_of_mem he
    exact .grown (ht.trans (List.append_assoc ..)) hgrown

theorem Dying.doomed (hreach : Machine.Reach World.step Any (start owners invalid) w)
    (h : Dying p base w) (hbreak : ¬ w.LeftToCall p base rest) (hstep : w.step i = some t) :
    Doomed p base rest t := by
  by_cases hclosed : ∀ c, w.mem.deref p = some c → 0 ≤ c.sock → w.ClosesNext p →
      w.stack = .call (.close p) :: base ∧ ¬ c.Cut
  · have hlists : ¬ ∀ front e, w.stack = front ++ rest → .execute e ∈ front → e.pos < e.stop →
        ¬ w.RegistersOn e.list := fun h => hbreak ⟨hclosed, h⟩
    push Not at hlists
    obtain ⟨front, e, hstack, he, hpos, hreg⟩ := hlists
    exact doomed_of_registers hreach hstack he hpos hreg hstep
  · push Not at hclosed
    obtain ⟨c, hp, hopen, hcloses, hbad⟩ := hclosed
    exact h.doomed_of_closes (sound_of_reach hreach) (steady_of_reach hreach) hp hopen hcloses hbad
      hstep

/-- If the call returns, the element is still in its container then, unless it has been used after it
was erased. -/
theorem Doomed.reach {u : World} (hu : Machine.Reach World.step Any (start owners invalid) u)
    (hnode : p.node < u.mem.nextNode) (hbase : ∀ f ∈ base, f.subject ≠ some p)
    (h : Doomed p base rest u) (hle : rest.length ≤ base.length)
    (hreach : Machine.Reach World.step (fun x _ => x.Uses p → (x.mem.deref p).isSome) u t)
    (hreturn : t.stack = rest) : (t.mem.deref p).isSome := by
  have hinv : (Machine.Reach World.step Any (start owners invalid) t ∧ p.node < t.mem.nextNode) ∧
      Doomed p base rest t := by
    apply hreach.invariant ⟨⟨hu, hnode⟩, h⟩
    rintro x i y ⟨⟨hx, hnode⟩, hdoomed⟩ hok hstep
    have hages := (step_move hstep).ages (sound_of_reach hx)
    exact ⟨⟨hx.tail trivial hstep, hnode.trans_le hages.nextNode_le⟩,
      hdoomed.step hx hnode hbase hok hstep⟩
  have hlength := congrArg List.length hreturn
  cases hinv.2 with
  | pending hstack _ =>
    simp only [hstack, List.length_append, List.length_cons] at hlength
    omega
  | kept hstays _ =>
    obtain ⟨c, hc, -⟩ := hstays
    exact Option.isSome_of_eq_some hc
  | grown hstack _ =>
    simp only [hstack, List.length_append, List.length_cons] at hlength
    omega
  | crashed hstack =>
    simp only [hstack, List.length_append, List.length_cons] at hlength
    omega

end Broken

section Failure

variable {w w₁ w₂ t : World} {p : SockPtr} {call : Call} {container : Container} {fd : Int}
  {failure : SetUpStep × Int} {base rest : List Frame}

theorem GivesUp.dying {c : Connection} {below : List Frame} (h : GivesUp w p rest below t)
    (hp : w.mem.deref p = some c) (hopen : 0 ≤ c.sock) : Dying p below t := by
  cases h with
  | error fn errno => exact @Dying.pending p _ _ [_] c rfl hp hopen
  | bind errno =>
    rw [bindFailed_eq hp]
    exact @Dying.pending p _ _ [_, _] c rfl hp hopen
  | close errno => exact @Dying.pending p _ _ [] c rfl hp hopen

theorem GivesUp.log {below : List Frame} (h : GivesUp w p rest below t) {c : Connection}
    (hp : w.mem.deref p = some c) {q : Event → Bool}
    (hq : ∀ o action arg, q (.started o action arg) = false) :
    t.mem = w.mem ∧ t.log.countP q = w.log.countP q := by
  cases h with
  | error fn errno => exact ⟨rfl, List.countP_cons_of_neg (by simp [hq])⟩
  | bind errno =>
    rw [bindFailed_eq hp]
    exact ⟨rfl, rfl⟩
  | close errno => exact ⟨rfl, rfl⟩

/-- At the failure, the call has come to its first `ERROR` action, or to `close`. -/
theorem GivesUp.calling {c : Connection} {below : List Frame} (h : GivesUp w p rest below t)
    (hp : w.mem.deref p = some c) (hnone : c.actions .error = []) : Calling p rest t := by
  have hplain : ∀ {u : World} {f : Frame}, f.own p → (∀ e, f ≠ .execute e) → u.Own p f :=
    fun hf hnot => ⟨hf, fun e he => absurd he (hnot e)⟩
  have hreturning : ∀ {u : World}, u.Own p (.returning false) := hplain trivial (by simp)
  have hclose : ∀ {u : World}, u.Own p (.call (.close p)) := hplain rfl (by simp)
  have hraise : ∀ {u : World} {fn}, u.Own p (.raise p.container.owner fn) := hplain trivial (by simp)
  cases h with
  | error fn errno =>
    refine ⟨[], [_, .call (.close p), .returning false], rfl, fun f hf => ?_, .inl rfl⟩
    simp only [List.mem_cons, List.not_mem_nil, or_false] at hf
    rcases hf with rfl | rfl | rfl
    · exact own_owner ..
    · exact hclose
    · exact hreturning
  | bind errno =>
    rw [bindFailed_eq hp, hnone]
    refine ⟨[], [_, .raise p.container.owner "bind", .call (.close p), .returning false], rfl,
      fun f hf => ?_, .inl rfl⟩
    simp only [List.mem_cons, List.not_mem_nil, or_false] at hf
    rcases hf with rfl | rfl | rfl | rfl
    · refine ⟨Nat.le_refl 0, ?_⟩
      rintro e ⟨⟩ hpos
      exact absurd hpos (lt_irrefl 0)
    · exact hraise
    · exact hclose
    · exact hreturning
  | close errno =>
    refine ⟨[], [.call (.close p), .raise p.container.owner "listen", .returning false], rfl,
      fun f hf => ?_, .inl rfl⟩
    simp only [List.mem_cons, List.not_mem_nil, or_false] at hf
    rcases hf with rfl | rfl | rfl
    · exact hclose
    · exact hraise
    · exact hreturning

/-- With hooks that close, `ERROR` is over and `close` is called. -/
theorem GivesUp.comes_to_close {c : Connection} {below : List Frame} (h : GivesUp w p rest below t)
    (hp : w.mem.deref p = some c) (hnone : c.actions .error = []) (hm : w.mem.Steady) :
    Ends (.call (.close p) :: below) (fun _ => True) t := by
  cases h with
  | error fn errno =>
    have hends := @Discipline.executeOwner_ends closing
      { w with errno := errno, stack := .call (.close p) :: .returning false :: rest }
      p.container.owner .error (.errno fn) (Nat.zero_le _)
      (HooksEnd.discipline (hooks_end _) hm le_rfl)
    exact hends.mono fun u hu => ⟨hu.1, trivial⟩
  | bind errno =>
    rw [bindFailed_eq hp, hnone]
    have hdone : Ends (.raise p.container.owner "bind" :: .call (.close p) :: .returning false :: rest)
        (fun u => u.mem.Steady) { w with
          errno := errno
          stack := .execute ⟨.socket p .error, 0, 0, .errno "bind"⟩ ::
            .raise p.container.owner "bind" :: .call (.close p) :: .returning false :: rest } :=
      Discipline.end_ends (D := closing) rfl (Nat.zero_le _) (Nat.zero_le 0) hm
    refine hdone.bind fun u hu => ?_
    have hends := Discipline.raise_ends (D := closing) hu.1 (Nat.zero_le _)
      (HooksEnd.discipline (hooks_end _) hu.2 le_rfl)
    exact hends.mono fun v hv => ⟨hv.1, trivial⟩
  | close errno => exact .now ⟨rfl, trivial⟩

/-- Behind `close`, the call returns. -/
theorem closeBase_ends {o : Owner} {failing : SetUpStep} (hstack : w.stack = closeBase o rest failing)
    (hm : w.mem.Steady) : Ends rest (fun _ => True) w := by
  cases failing with
  | connect =>
    have hends := Discipline.raise_ends (D := closing) hstack (Nat.zero_le _)
      (HooksEnd.discipline (hooks_end _) hm le_rfl)
    exact hends.bind fun u hu => Discipline.returning_ends (D := closing) hu.1 (Nat.zero_le _) trivial
  | addrinfo | bind | listen =>
    exact Discipline.returning_ends (D := closing) hstack (Nat.zero_le _) trivial

theorem closeBase_subject (o : Owner) (hrest : ∀ f ∈ rest, f.subject ≠ some p)
    (failing : SetUpStep) : ∀ f ∈ closeBase o rest failing, f.subject ≠ some p := by
  have hreturning : ∀ f ∈ Frame.returning false :: rest, f.subject ≠ some p := by
    intro f hf
    rcases List.mem_cons.mp hf with rfl | hf
    · simp [Frame.subject]
    · exact hrest f hf
  cases failing with
  | connect =>
    intro f hf
    rcases List.mem_cons.mp hf with rfl | hf
    · simp [Frame.subject]
    · exact hreturning f hf
  | addrinfo | bind | listen => exact hreturning

theorem le_closeBase (o : Owner) (rest : List Frame) (failing : SetUpStep) :
    rest.length ≤ (closeBase o rest failing).length := by
  cases failing with
  | connect => exact Nat.le_add_right _ 2
  | addrinfo | bind | listen => exact Nat.le_succ _

theorem Calling.reach {u : World} (hs : u.Sound) (hm : u.mem.Steady) (hnode : p.node < u.mem.nextNode)
    (hbase : ∀ f ∈ base, f.subject ≠ some p) (hd : Dying p base u) (h : Calling p rest u)
    (hreach : Machine.Reach World.step (fun x _ => x.stack ≠ rest ∧ x.LeftToCall p base rest) u t) :
    Calling p rest t := by
  have hinv : ((t.Sound ∧ t.mem.Steady ∧ p.node < t.mem.nextNode) ∧ Dying p base t) ∧
      Calling p rest t := by
    apply hreach.invariant ⟨⟨⟨hs, hm, hnode⟩, hd⟩, h⟩
    rintro x i y ⟨⟨⟨hs, hm, hnode⟩, hd⟩, hcalling⟩ ⟨hne, hok⟩ hstep
    have hmove := step_move hstep
    exact ⟨⟨⟨hmove.sound hs, steady_step hs hm hstep,
      hnode.trans_le (hmove.ages hs).nextNode_le⟩, hd.step hs hm hnode hbase hok hstep⟩,
      hcalling.step hs hm hnode hbase hd hok hne hstep⟩
  exact hinv.2

theorem Balanced.disposedOnce {c : Connection} (h : w₂.Balanced t p) (hp : w₂.mem.deref p = some c)
    (hopen : 0 ≤ c.sock) (hgone : t.mem.deref p = none)
    (hlog : ∀ q : Event → Bool, (∀ o action arg, q (.started o action arg) = false) →
      (∀ container fd made, q (.obtained container fd made) = false) →
      w₂.log.countP q = w.log.countP q) : w.DisposedOnce p t := by
  have hshut := h.shut
  have herase := h.erase
  have hsame := hlog (Event.shuts p) (fun _ _ _ => rfl) fun _ _ _ => rfl
  have hsame' := hlog (Event.erases p) (fun _ _ _ => rfl) fun _ _ _ => rfl
  rw [shutCount, shutCount, hgone, hp, hsame, Option.elim_some, if_pos hopen] at hshut
  rw [eraseCount, eraseCount, hgone, hp, hsame'] at herase
  exact ⟨hgone, hshut, herase⟩

/-- The call returns with hooks that close, unless the condition is broken before. -/
theorem Dying.returns {o : Owner} {failing : SetUpStep} (hs : w₂.Sound) (hm : w₂.mem.Steady)
    (hnode : p.node < w₂.mem.nextNode) (hclean : ∀ f ∈ base, f.subject ≠ some p)
    (h : Dying p base w₂) (hbase : base = closeBase o rest failing)
    (hclose : Ends (.call (.close p) :: base) (fun _ => True) w₂) :
    Machine.Inevitable World.step CloseHooks
      (fun t => t.stack = rest ∨ ¬ t.LeftToCall p base rest) w₂ := by
  have hfirst : Machine.Inevitable World.step CloseHooks
      (fun t => t.stack = .call (.close p) :: base ∨ ¬ t.LeftToCall p base rest) w₂ :=
    hclose.mono fun t ht => .inl ht.1
  have hready := hfirst.and_of_first (Q := fun t => t.LeftToCall p base rest →
    t.mem.Steady ∧ ∃ c, t.mem.deref p = some c) fun t hreach ht hleft => by
      obtain ⟨⟨-, hm, -⟩, -, hd⟩ := h.reach hs hm hnode hclean
        (fun u i hi => not_not.mp fun hnot => hi.2 (.inr hnot)) hreach
      obtain ⟨c, hp, -⟩ := hd.open_of_close (ht.resolve_right (not_not_intro hleft))
      exact ⟨hm, c, hp⟩
  refine hready.bind fun t ht => ?_
  by_cases hleft : t.LeftToCall p base rest
  swap
  · exact .now (.inr hleft)
  have hstack := ht.1.resolve_right (not_not_intro hleft)
  obtain ⟨hm, c, hp⟩ := ht.2 hleft
  have hends := Discipline.close_call (D := World.closing) hstack (Nat.zero_le _) fun errno =>
    close_ends (w := { t with stack := base }) (fun m _ => hooks_end m) hm hp errno
  refine hends.bind fun u hu => ?_
  have hsteady : u.mem.Steady := Closes.steady (w := { t with stack := base }) hu.2.1 hm
  exact (closeBase_ends (hu.1.trans hbase) hsteady).mono fun v hv => .inl hv.1

/-- If a call after `make_socket` fails, then in every run in which no step but the `close` of
`listen` or `connect` closes the new element, with a `CLOSED` list that is not cut, and no step adds to
a list that is being executed, no step uses the element once it is erased, the call itself does not
crash, and the element has been closed once and erased once when it returns; it does return, if the
hooks only close and send.  After a step that breaks this, no run comes back that uses the element in
its container only and has erased it. -/
theorem failed_setUp_disposes {owners : Owner → OwnerAction → Action Unit} {invalid : UShort}
    (h : Machine.Reach step Any (start owners invalid) w) (hstack : w.stack = .call call :: rest)
    (hcall : call.setsUp = some container)
    (hfree : (w.mem.sockets container).contains fd = false)
    (hmade : w.step (.opened (.ok fd)) = some w₁)
    (hfail : w₁.step (.setUp (some failure)) = some w₂) (hp : w.mem.newPtr container fd = p)
    (hbase : closeBase container.owner rest failure.1 = base) :
    Disposes (LeftToCall p base rest) w p rest w₂ ∧
    ∀ u v t i, Machine.Reach step (fun x _ => x.stack ≠ rest ∧ x.LeftToCall p base rest) w₂ u →
      ¬ u.LeftToCall p base rest → u.step i = some v →
      Machine.Reach step (fun x _ => x.Uses p → (x.mem.deref p).isSome) v t → t.stack = rest →
      ¬ w.DisposedOnce p t := by
  subst hp hbase
  have hs₁ := sound_of_reach (h.tail trivial hmade)
  have hm₁ := steady_of_reach (h.tail trivial hmade)
  have hfailed := (h.tail trivial hmade).tail trivial hfail
  have hs₂ := sound_of_reach hfailed
  have hm₂ := steady_of_reach hfailed
  have hages := (step_move hfail).ages hs₁
  obtain ⟨hopen, -, setUp, hsetUp, rfl⟩ := step_made hstack hcall hfree hmade
  have hgives := step_givesUp hsetUp rfl hfail
  have hp := Memory.deref_setUp hfree
  have hdying := hgives.dying hp hopen
  have hnode : (w.mem.newPtr container fd).node < w₂.mem.nextNode :=
    (hs₁.mem.node_lt _ _ hp).trans_le hages.nextNode_le
  have hclean : ∀ f ∈ closeBase container.owner rest failure.1,
      f.subject ≠ some (w.mem.newPtr container fd) := by
    refine closeBase_subject container.owner (fun f hf hsubject => ?_) failure.1
    have hold := mentioned_of_reach h ⟨f, hstack ▸ List.mem_cons_of_mem _ hf, hsubject⟩
    exact lt_irrefl w.mem.nextNode hold
  have hle := le_closeBase container.owner rest failure.1
  have hdisposed : ∀ t, w₂.Balanced t (w.mem.newPtr container fd) →
      t.mem.deref (w.mem.newPtr container fd) = none →
      w.DisposedOnce (w.mem.newPtr container fd) t := fun t hbalanced hgone => by
    have hp₂ := (congrArg (Memory.deref · (w.mem.newPtr container fd))
      (hgives.log hp (q := fun _ => false) fun _ _ _ => rfl).1).trans hp
    refine hbalanced.disposedOnce hp₂ hopen hgone fun q hstarted hobtained => ?_
    rw [(hgives.log hp hstarted).2]
    exact List.countP_cons_of_neg (by simp [hobtained])
  refine ⟨⟨fun t hreach huses => ?_, fun t hreach k below hcrash => ?_, fun t hreach hreturn => ?_,
    ?_⟩, ?_⟩
  · obtain ⟨⟨hst, -⟩, -, hdt⟩ := hdying.reach hs₂ hm₂ hnode hclean (fun _ _ hi => hi.2) hreach
    rcases huses.mentioned hst.mem.toCorresponds with hmentions | halive
    · exact hdt.alive hmentions hclean
    · exact halive
  · exact ((hgives.calling hp rfl).reach hs₂ hm₂ hnode hclean hdying hreach).crashes hcrash
  · obtain ⟨⟨hst, -, hnt⟩, hbalanced, hdt⟩ :=
      hdying.reach hs₂ hm₂ hnode hclean (fun _ _ hi => hi.2) hreach
    obtain ⟨hgone, hnone⟩ := hdt.returned hle hreturn
    exact ⟨hdisposed t hbalanced hgone, fun u => not_uses_of_gone hst hnt hgone hnone⟩
  · have hreturns := hdying.returns hs₂ hm₂ hnode hclean rfl (hgives.comes_to_close hp rfl hm₁)
    have hends := hreturns.and_of_first (Q := fun t =>
      t.stack = rest → w.DisposedOnce (w.mem.newPtr container fd) t) fun t hreach _ hreturn => by
        obtain ⟨-, hbalanced, hdt⟩ := hdying.reach hs₂ hm₂ hnode hclean
          (fun u i hi => not_not.mp fun hnot => hi.2 (.inr hnot)) hreach
        exact hdisposed t hbalanced (hdt.returned hle hreturn).1
    exact hends.mono fun t ht => ht.1.imp_left fun hreturn => ⟨hreturn, ht.2 hreturn⟩
  · intro u v t i hreach hbreak hstep hrest hreturn hdisposed
    obtain ⟨⟨hsu, -, hnu⟩, -, hdu⟩ := hdying.reach hs₂ hm₂ hnode hclean (fun _ _ hi => hi.2) hreach
    have hu := hfailed.trans (hreach.mono fun _ _ _ => trivial)
    have hkept := (hdu.doomed hu hbreak hstep).reach (hu.tail trivial hstep)
      (hnu.trans_le ((step_move hstep).ages hsu).nextNode_le) hclean hle hrest hreturn
    rw [hdisposed.gone] at hkept
    exact absurd hkept (by decide)

end Failure

/-- The states of a run in which the first call of the main program fails after `make_socket`. -/
theorem first_call_fails {owners : Owner → OwnerAction → Action Unit} {invalid : UShort} {call : Call}
    {container : Container} {fd : Int} {failure : SetUpStep × Int}
    (hrun : (Machine.run step (start owners invalid)
      [.call call, .opened (.ok fd), .setUp (some failure)]).isSome) : ∃ w w₁ w₂,
    Machine.run step (start owners invalid) [.call call] = some w ∧ w.stack = [.call call] ∧
    (w.mem.sockets container).contains fd = false ∧
    w.mem.newPtr container fd = { container := container, key := fd, node := 0 } ∧
    w.step (.opened (.ok fd)) = some w₁ ∧ w₁.step (.setUp (some failure)) = some w₂ ∧
    Machine.run step (start owners invalid) [.call call, .opened (.ok fd), .setUp (some failure)] =
      some w₂ := by
  obtain ⟨w₂, hrun⟩ := Option.isSome_iff_exists.mp hrun
  obtain ⟨w, hw, hsteps⟩ := Option.bind_eq_some_iff.mp hrun
  obtain ⟨w₁, hw₁, hsteps⟩ := Option.bind_eq_some_iff.mp hsteps
  obtain ⟨t, hw₂, hsteps⟩ := Option.bind_eq_some_iff.mp hsteps
  obtain rfl := Option.some.inj hsteps
  have hcalled := hw
  simp only [step, start] at hcalled
  obtain ⟨-, hcalled⟩ := Option.ite_none_right_eq_some.mp hcalled
  have hpush := Option.some.inj hcalled
  refine ⟨w, w₁, t, by rw [Machine.run_cons, hw]; rfl, ?_, ?_, ?_, hw₁, hw₂, hrun⟩
  · rw [← hpush]
    rfl
  · simp [← hpush, push, Memory.empty]
  · rw [← hpush]
    rfl

/-- A server with an `ERROR` hook listens on descriptor 3, and its address is not found. -/
def errorServer : Owner → OwnerAction → Action Unit
  | .server 0, .error => [⟨(), ActionFlag.default⟩]
  | _, _ => []

def failedListen : List Input :=
  [.call (.listen 0), .opened (.ok 3), .setUp (some (.addrinfo, 2))]

theorem failedListen_state : ∃ w w₁ w₂,
    Machine.run step (start errorServer 0) [.call (.listen 0)] = some w ∧
    w.stack = [.call (.listen 0)] ∧ (w.mem.sockets (.listeners 0)).contains 3 = false ∧
    w.mem.newPtr (.listeners 0) 3 = { container := .listeners 0, key := 3, node := 0 } ∧
    w.step (.opened (.ok 3)) = some w₁ ∧ w₁.step (.setUp (some (.addrinfo, 2))) = some w₂ ∧
    Machine.run step (start errorServer 0) failedListen = some w₂ :=
  first_call_fails (by decide)

theorem failed_setUp_disposes_listen : ∃ w w₂,
    Machine.run step (start errorServer 0) [.call (.listen 0)] = some w ∧
    Machine.run step (start errorServer 0) failedListen = some w₂ ∧
    Disposes (LeftToCall { container := .listeners 0, key := 3, node := 0 } [.returning false] []) w
      { container := .listeners 0, key := 3, node := 0 } [] w₂ := by
  obtain ⟨w, w₁, w₂, hw, hstack, hfree, hp, hw₁, hw₂, hrun⟩ := failedListen_state
  have hdisposes := failed_setUp_disposes (.of_run (fun _ _ => trivial) hw) hstack rfl hfree hw₁ hw₂
    hp rfl
  exact ⟨w, w₂, hw, hrun, hdisposes.1⟩

/-- The `ERROR` hook closes the server. -/
def shutDownOnError : List Input :=
  [.enter 1, .call (.closeOwner (.server 0)), .go, .closed 0, .closed 0, .go, .go, .go, .closed 0,
    .ret 0, .go]

/-- `listen` then calls `close` on an element that is gone. -/
theorem shut_down_on_error_dangles : ¬ ∀ (owners : Owner → OwnerAction → Action Unit)
    (invalid : UShort) (w w₁ w₂ : World) (call : Call) (container : Container) (fd : Int)
    (failure : SetUpStep × Int) (rest : List Frame),
    Machine.Reach step Any (start owners invalid) w → w.stack = .call call :: rest →
    call.setsUp = some container → (w.mem.sockets container).contains fd = false →
    w.step (.opened (.ok fd)) = some w₁ → w₁.step (.setUp (some failure)) = some w₂ →
    Disposes (fun _ => True) w (w.mem.newPtr container fd) rest w₂ := by
  intro hall
  obtain ⟨w, w₁, w₂, hw, hstack, hfree, hp, hw₁, hw₂, hrun⟩ := failedListen_state
  have hdisposes := hall errorServer 0 w w₁ w₂ (.listen 0) (.listeners 0) 3 (.addrinfo, 2) []
    (.of_run (fun _ _ => trivial) hw) hstack rfl hfree hw₁ hw₂
  rw [hp] at hdisposes
  have hend : (Machine.run step (start errorServer 0) (failedListen ++ shutDownOnError)).map
      (fun t => (t.stack,
        (t.mem.deref { container := .listeners 0, key := 3, node := 0 }).isSome)) =
        some ([.call (.close { container := .listeners 0, key := 3, node := 0 }), .returning false],
          false) := by decide
  have hchecked : (Machine.run step (start errorServer 0) failedListen).map (fun u =>
      Machine.checked step (fun v _ => v.stack != []) u shutDownOnError) = some true := by decide
  rw [hrun, Option.map_some, Option.some.injEq] at hchecked
  rw [Machine.run_append, hrun, Option.bind_some] at hend
  obtain ⟨t, ht, hend⟩ := Option.map_eq_some_iff.mp hend
  obtain ⟨hstack, hdead⟩ := Prod.mk.inj hend
  have hin := hdisposes.uses t (.of_checked (fun u _ h => ⟨by simpa using h, trivial⟩) hchecked ht)
    (by simp only [Uses, hstack, Frame.subject])
  rw [hdead] at hin
  exact absurd hin (by decide)

end World

end Unisock.Tcp
