import Unisock.Lib.Observed
import Unisock.Udp.Registry

/-! What the hooks of the program are told: each datagram that is read and each descriptor that is
closed, once and in order, and what each hook is called with. -/

namespace Unisock.Udp

open Unisock.Address Unisock.Events

/-- What `init_socket` registers for an action. -/
def library : Tag → Action Callback
  | .readable => [⟨.recvfrom, ActionFlag.default⟩]
  | .recvfrom => [⟨.receive, ActionFlag.default⟩]
  | .closed => [⟨.closed, ActionFlag.default⟩]
  | _ => []

/-- The callbacks of the library come first, and those of the user after them. -/
def Object.Wired (x : Object) : Prop :=
  ∀ tag, ∃ users : Action Callback, x.actions tag = library tag ++ users ∧
    ∀ cb ∈ users, cb.exec = .user

/-- Callbacks are inserted behind a part of the list in which none is queued at the end. -/
theorem addCallback_behind {F : Type} {front : Action F} (hfront : ∀ cb ∈ front, cb.isNormal = true)
    (users : Action F) (func : F) (flags : UShort) :
    Action.addCallback (front ++ users) func flags = front ++ users.addCallback func flags := by
  induction users using List.reverseRecOn with
  | nil =>
    cases front using List.reverseRecOn with
    | nil => rfl
    | append_singleton front last =>
      have hlast : last.isNormal = true := hfront last (by simp)
      simp [Action.addCallback, hlast]
  | append_singleton users last ih =>
    cases hlast : last.isNormal with
    | true => simp [Action.addCallback, ← List.append_assoc, hlast]
    | false =>
      rw [← List.append_assoc, Action.addCallback_concat _ hlast, ih,
        Action.addCallback_concat _ hlast, List.append_assoc]

theorem library_normal (tag : Tag) : ∀ cb ∈ library tag, cb.isNormal = true := by
  cases tag <;> decide

/-- The action whose list a callback of the library is in. -/
theorem library_tag {tag : Tag} {cb : ActionCallback Callback} (h : library tag = [cb]) :
    tag = match cb.exec with
      | .user => tag
      | .recvfrom => .readable
      | .receive => .recvfrom
      | .closed => .closed := by
  cases tag <;> simp only [library, List.cons.injEq, and_true, reduceCtorEq] at h <;>
    exact h ▸ rfl

namespace Object

variable {x : Object}

theorem Wired.on (hx : x.Wired) (tag : Tag) (flags : UShort) : (x.on tag .user flags).Wired := by
  intro t
  obtain ⟨users, hlist, husers⟩ := hx t
  by_cases ht : t = tag
  · refine ⟨users.addCallback .user flags, ?_, fun cb hcb => ?_⟩
    · simp only [Object.on, ht, if_true]
      rw [← ht, hlist, addCallback_behind (library_normal t)]
    · rcases Action.mem_addCallback.mp hcb with rfl | hcb
      · rfl
      · exact husers cb hcb
  · exact ⟨users, by simpa [Object.on, ht] using hlist, husers⟩

theorem wired_new : Object.new.Wired := by
  intro tag
  exact ⟨[], by cases tag <;> rfl, by simp⟩

/-- Past the callbacks of the library there are hooks only. -/
theorem Wired.user (hx : x.Wired) {tag : Tag} {pos : Nat} {cb : ActionCallback Callback}
    (hcb : (x.actions tag)[pos]? = some cb) (hexec : cb.exec ≠ .user) :
    pos = 0 ∧ library tag = [cb] := by
  obtain ⟨users, hlist, husers⟩ := hx tag
  rw [hlist, List.getElem?_append] at hcb
  split at hcb
  · cases tag <;> simp_all [library]
  · exact absurd (husers cb (List.mem_of_getElem? hcb)) hexec

/-- The callback of the library is the first one. -/
theorem Wired.first (hx : x.Wired) {tag : Tag} {cb : ActionCallback Callback}
    (hlib : library tag = [cb]) : (x.actions tag)[0]? = some cb := by
  obtain ⟨users, hlist, -⟩ := hx tag
  rw [hlist, hlib]
  rfl

end Object

/-- What `RECEIVE` and `udp::CLOSED` are executed with. -/
def Started.notice : Started → Option Notice
  | ⟨s, .receive, .datagram sender message⟩ => some (.datagram s sender message)
  | ⟨s, .udpClosed, .address address⟩ => some (.closed s address)
  | _ => none

/-- What a hook is called with in `w` that is told. -/
def Notice.argument (w : World) : Notice → Arg
  | .datagram _ sender message => .datagram sender message
  | .closed s _ => .address (w.objects s).address

/-- An execution of `tag` on `s` with `arg`, or what is left where the last callback of it has been
called. -/
def Frame.hands (s : Nat) (tag : Tag) (arg : Arg) : Frame → Prop
  | .execute e => e.object = s ∧ e.tag = tag ∧ e.arg = arg
  | .hook .. | .crash _ => True
  | _ => False

/-- A function that is not at the top: no execution of it is at its first callback. -/
def Frame.settled : Frame → Prop
  | .execute e => 1 ≤ e.pos
  | .recvfrom _ => False
  | _ => True

namespace World

/-- What an execution that is about to call its first callback will tell the program. -/
def pending (w : World) : List Notice :=
  match w.stack with
  | .execute ⟨s, .recvfrom, 0, _, .datagram sender message⟩ :: _ => [.datagram s sender message]
  | .execute ⟨s, .closed, 0, _, _⟩ :: _ => [.closed s (w.objects s).address]
  | _ => []

/-- What the program has been told, in order. -/
def told (w : World) : List Notice := w.log.reverse.filterMap Started.notice

/-- Above `base` there is an execution of `tag` on `s` with `arg`, with what it has called. -/
def Handing (w : World) (base : List Frame) (s : Nat) (tag : Tag) (arg : Arg) : Prop :=
  ∃ above f, w.stack = above ++ f :: base ∧ f.hands s tag arg

/-- A step from `w` starts the execution that tells the program of `n`.  A run from there comes to `t`,
where this execution calls a hook with `arg`. -/
inductive Tells (o : ByteOrder) (n : Notice) (w t : World) (arg : Arg) : Prop
  | hook {i j : Input} {v u : World} {e e' : Execution} {above base : List Frame} {calls : Nat}
      (hstart : w.step o i = some v) (htold : v.told = w.told ++ [n])
      (hstack : v.stack = .execute e :: base)
      (hrun : Machine.Reach (step o) (fun r _ => r.stack ≠ base) v t)
      (hstack' : t.stack = .execute e' :: base) (hcall : t.step o j = some u)
      (hcalled : u.stack = .hook arg calls :: (above ++ base))

/-- The function at the top of the stack is as the one that has called it leaves it. -/
structure TopReady (w : World) : Prop where
  recvfrom : ∀ s rest, w.stack = .recvfrom s :: rest → 0 ≤ (w.objects s).sock
  stop : ∀ e rest, w.stack = .execute e :: rest → e.pos = 0 →
    e.stop = ((w.objects e.object).actions e.tag).length
  arg : ∀ e rest, w.stack = .execute e :: rest → e.pos = 0 → e.tag = .recvfrom →
    ∃ sender message, e.arg = .datagram sender message
  readable : ∀ e rest, w.stack = .execute e :: rest → e.pos = 0 → e.tag = .readable →
    0 ≤ (w.objects e.object).sock

/-- Executions are at their first callback only while they are at the top. -/
structure Relays (w : World) : Prop where
  wired : ∀ s, (w.objects s).Wired
  below : ∀ f ∈ w.stack.tail, f.settled
  top : w.TopReady

section Steps

variable {w w' : World} {i : Input} {o : ByteOrder}

theorem told_execute (s : Nat) (tag : Tag) (arg : Arg) :
    (w.execute s tag arg).told = w.told ++ (Started.notice ⟨s, tag, w.passed s arg⟩).toList := by
  cases h : Started.notice ⟨s, tag, w.passed s arg⟩ <;> simp [told, execute, push, h]

theorem settled_of_plain {f : Frame} (hf : f.plain = true) : f.settled := by
  cases f <;> simp_all [Frame.plain, Frame.settled]

theorem settled_after {e : Execution} {cb : ActionCallback Callback} {f : Frame}
    (hf : f ∈ e.after cb) : f.settled := by
  unfold Execution.after at hf
  split at hf
  · exact absurd hf (by simp)
  · obtain rfl := List.mem_singleton.mp hf
    exact Nat.succ_le_succ (Nat.zero_le _)

/-- A function that nobody waits for has nothing to be ready for. -/
theorem topReady_of_settled (h : ∀ f ∈ w.stack, f.settled) : w.TopReady := by
  have top : ∀ f rest, w.stack = f :: rest → f.settled := fun f rest hs => h f (by simp [hs])
  refine ⟨fun s rest hs => (top _ _ hs).elim, fun e rest hs h0 => ?_, fun e rest hs h0 => ?_,
    fun e rest hs h0 => ?_⟩ <;>
  · have hpos : 1 ≤ e.pos := top _ _ hs
    omega

theorem pending_of_settled (h : ∀ f ∈ w.stack, f.settled) : w.pending = [] := by
  unfold pending
  split
  · next hs => exact absurd (h _ (hs ▸ List.mem_cons_self)) (by simp [Frame.settled])
  · next hs => exact absurd (h _ (hs ▸ List.mem_cons_self)) (by simp [Frame.settled])
  · rfl

/-- An execution that has just been started is ready. -/
theorem topReady_execute {s : Nat} {tag : Tag} {arg : Arg}
    (harg : tag = .recvfrom → ∃ sender message, arg = .datagram sender message)
    (hread : tag = .readable → 0 ≤ (w.objects s).sock) : (w.execute s tag arg).TopReady := by
  refine ⟨fun r rest hs => ?_, fun e rest hs _ => ?_, fun e rest hs _ htag => ?_,
    fun e rest hs _ htag => ?_⟩
  · exact absurd (List.cons.inj hs).1 (by simp)
  all_goals obtain rfl := Frame.execute.inj (List.cons.inj hs).1
  · rfl
  · exact harg htag
  · exact hread htag

theorem pending_nil {f : Frame} {rest : List Frame} (hstack : w.stack = f :: rest)
    (hf : ∀ e, f ≠ .execute e) : w.pending = [] := by
  unfold pending
  rw [hstack]
  split
  · next hs => exact absurd (List.cons.inj hs).1 (hf _)
  · next hs => exact absurd (List.cons.inj hs).1 (hf _)
  · rfl

theorem current_get {e : Execution} {cb : ActionCallback Callback} (h : w.current e = some cb) :
    ((w.objects e.object).actions e.tag)[e.pos]? = some cb := by
  simp only [current] at h
  exact (Option.ite_none_right_eq_some.mp h).2

/-- An execution that has just been started is about to call the callback of the library. -/
theorem Relays.current (hw : w.Relays) {e : Execution} {rest : List Frame}
    (hstack : w.stack = .execute e :: rest) (hpos : e.pos = 0) {cb : ActionCallback Callback}
    (hlib : library e.tag = [cb]) : w.current e = some cb := by
  have hget := (hw.wired e.object).first hlib
  have hstop := hw.top.stop e rest hstack hpos
  have hlt := (List.getElem?_eq_some_iff.mp hget).1
  simp only [World.current, hpos, hstop]
  rw [if_pos ⟨hlt, trivial⟩, hget]

/-- Nothing is pending unless a callback of the library is about to relay it. -/
theorem Relays.pending_nil (hw : w.Relays) {e : Execution} {rest : List Frame}
    (hstack : w.stack = .execute e :: rest)
    (hcb : ∀ cb, w.current e = some cb → cb.has ActionFlag.skip = false →
      cb.exec ≠ .receive ∧ cb.exec ≠ .closed) : w.pending = [] := by
  have none_of : ∀ cb, library e.tag = [cb] → cb.has ActionFlag.skip = false →
      (cb.exec = .receive ∨ cb.exec = .closed) → e.pos ≠ 0 := by
    intro cb hlib hskip hexec hpos
    obtain ⟨hreceive, hclosed⟩ := hcb cb (hw.current hstack hpos hlib) hskip
    exact hexec.elim hreceive hclosed
  unfold pending
  rw [hstack]
  split
  · next hs =>
    obtain rfl := Frame.execute.inj (List.cons.inj hs).1
    exact absurd rfl (none_of _ rfl (by decide) (.inl rfl))
  · next hs =>
    obtain rfl := Frame.execute.inj (List.cons.inj hs).1
    exact absurd rfl (none_of _ rfl (by decide) (.inr rfl))
  · rfl

/-- What holds after a step: what the program has been told and what it is about to be told is what it
was before, with what the system has done in between. -/
def Keeps (w : World) (i : Input) (w' : World) : Prop :=
  w'.Relays ∧ w'.told ++ w'.pending = w.told ++ w.pending ++ w.notices i

/-- A step after which no function is at the top that has just been called. -/
theorem keeps_of_settled (hwired : ∀ s, (w'.objects s).Wired) (hstack : ∀ f ∈ w'.stack, f.settled)
    (hlog : w'.log = w.log) (hp : w.pending = []) (hnone : w.notices i = []) : Keeps w i w' := by
  refine ⟨⟨hwired, fun f hf => hstack f (List.mem_of_mem_tail hf), topReady_of_settled hstack⟩, ?_⟩
  rw [pending_of_settled hstack, hp, hnone, told, told, hlog]
  simp

/-- A step that starts an execution. -/
theorem keeps_of_execute {below : World} {s : Nat} {tag : Tag} {arg : Arg}
    (hwired : ∀ s, (below.objects s).Wired) (hstack : ∀ f ∈ below.stack, f.settled)
    (harg : tag = .recvfrom → ∃ sender message, arg = .datagram sender message)
    (hread : tag = .readable → 0 ≤ (below.objects s).sock) (hlog : below.log = w.log)
    (htold : (Started.notice ⟨s, tag, below.passed s arg⟩).toList ++ (below.execute s tag arg).pending =
      w.pending ++ w.notices i) : Keeps w i (below.execute s tag arg) := by
  refine ⟨⟨hwired, hstack, topReady_execute harg hread⟩, ?_⟩
  rw [told_execute, List.append_assoc, htold, told, told, hlog, List.append_assoc]

theorem wired_update {x : Object} {s : Nat} (hw : ∀ r, (w.objects r).Wired) (hx : x.Wired) (r : Nat) :
    (Function.update w.objects s x r).Wired := by
  by_cases hr : r = s
  · subst hr
    simpa using hx
  · simpa [hr] using hw r

theorem notices_read {s : Nat} {sender payload : List UInt8} {rest : List Frame}
    (hstack : w.stack = .recvfrom s :: rest) (hopen : 0 < (w.objects s).sock) :
    w.notices (.received (.ok sender) payload) =
      [.datagram s (SocketAddress.empty.copy sender) (payload.take Raw.RECV_BUFFER_SIZE)] := by
  simp only [notices, hstack, if_pos hopen]

theorem notices_shut {s : Nat} {rest : List Frame} (hstack : w.stack = .call (.close s) :: rest)
    (hopen : ¬ (w.objects s).sock < 0) :
    w.notices i = [.closed s (w.objects s).address] := by
  simp only [notices, hstack, if_neg hopen]

theorem withBase_wired (hw : ∀ r, (w.objects r).Wired) (s : Nat) (b : Raw.Socket Nat) (r : Nat) :
    ((w.withBase s b).objects r).Wired := by
  have hx : ({ w.objects s with sock := b.sock, log := b.log } : Object).Wired := hw s
  exact wired_update hw hx r

/-- What a step tells the program is what was pending, or what the system does in it. -/
theorem Move.relays (ho : w.Owned) (hw : w.Relays) (h : Move w i w') : Keeps w i w' := by
  have below : ∀ {f rest} new, w.stack = f :: rest → (∀ g ∈ new, g.plain) →
      ∀ g ∈ new ++ rest, g.settled := by
    intro f rest new hstack hnew g hg
    rcases List.mem_append.mp hg with hg | hg
    · exact settled_of_plain (hnew g hg)
    · exact hw.below g (by rwa [hstack])
  have behind : ∀ {e cb rest}, w.stack = .execute e :: rest → ∀ g ∈ e.after cb ++ rest, g.settled := by
    intro e cb rest hstack g hg
    rcases List.mem_append.mp hg with hg | hg
    · exact settled_after hg
    · exact hw.below g (by rwa [hstack])
  cases h with
  | @called c old new rest hstack hold hnew =>
    have hnotices : w.notices i = [] := by
      rcases hold with ⟨rfl, rfl⟩ | ⟨arg, n, rfl⟩ <;> simp [notices, hstack]
    have hp : w.pending = [] := by
      rcases hold with ⟨rfl, rfl⟩ | ⟨arg, n, rfl⟩ <;> simp [pending, hstack]
    refine keeps_of_settled hw.wired (List.forall_mem_cons.mpr ⟨trivial, fun g hg => ?_⟩) rfl hp
      hnotices
    rcases List.mem_append.mp hg with hg | hg
    · exact settled_of_plain (hnew g hg)
    · refine hw.below g ?_
      rcases hold with ⟨-, rfl⟩ | ⟨arg, n, rfl⟩
      · exact absurd hg (by simp)
      · rwa [hstack]
  | @quiet f new rest errno hstack hf hnone hnew =>
    refine keeps_of_settled hw.wired (below new hstack hnew) rfl ?_ hnone
    by_cases hex : ∃ e, f = .execute e
    · obtain ⟨e, rfl⟩ := hex
      exact hw.pending_nil hstack fun cb hcb _ => by simp [hf e rfl] at hcb
    · exact World.pending_nil hstack fun e he => hex ⟨e, he⟩
  | @skipped e cb rest hstack hcb hskip =>
    have hp : w.pending = [] := hw.pending_nil hstack fun cb' hcb' hskip' => by
      obtain rfl := Option.some.inj (hcb.symm.trans hcb')
      exact absurd (hskip.symm.trans hskip') (by simp)
    refine keeps_of_settled hw.wired (List.forall_mem_cons.mpr ⟨?_, below [] hstack (by simp)⟩) rfl hp
      (notices_nil hstack (by simp) (by simp))
    exact Nat.succ_le_succ (Nat.zero_le _)
  | @entered e cb f rest hstack hcb hskip hf =>
    have hp : w.pending = [] := hw.pending_nil hstack fun cb' hcb' hskip' => by
      obtain rfl := Option.some.inj (hcb.symm.trans hcb')
      rcases hf with ⟨hexec, -⟩ | ⟨hexec, -⟩ <;> simp [hexec]
    have hnotices : w.notices i = [] := notices_nil hstack (by simp) (by simp)
    rcases hf with ⟨-, n, rfl⟩ | ⟨hexec, rfl⟩
    · exact keeps_of_settled hw.wired (List.forall_mem_cons.mpr ⟨trivial, behind hstack⟩) rfl hp
        hnotices
    · -- only the callback of the library for `READABLE` calls `recvfrom`
      obtain ⟨hpos, hlib⟩ := (hw.wired e.object).user (current_get hcb) (by simp [hexec])
      have htag : e.tag = .readable := by simpa [hexec] using library_tag hlib
      have hsock := hw.top.readable e rest hstack hpos htag
      refine ⟨⟨hw.wired, behind hstack, fun s rest' hs => ?_, fun e' _ hs => ?_, fun e' _ hs => ?_,
        fun e' _ hs => ?_⟩, ?_⟩
      · obtain rfl := Frame.recvfrom.inj (List.cons.inj hs).1
        exact hsock
      · exact absurd (List.cons.inj hs).1 (by simp)
      · exact absurd (List.cons.inj hs).1 (by simp)
      · exact absurd (List.cons.inj hs).1 (by simp)
      · rw [hp, hnotices, List.append_nil]
        rfl
  | @relayed e cb tag arg rest hstack hcb hskip htag =>
    have hnotices : w.notices i = [] := notices_nil hstack (by simp) (by simp)
    have hget := current_get hcb
    rcases htag with ⟨hexec, rfl, rfl, sender, message, harg⟩ | ⟨hexec, rfl, rfl⟩
    · obtain ⟨hpos, hlib⟩ := (hw.wired e.object).user hget (by simp [hexec])
      refine keeps_of_execute hw.wired (behind hstack) (by simp) (by simp) rfl ?_
      have htag : e.tag = .recvfrom := by simpa [hexec] using library_tag hlib
      obtain ⟨s, tag, pos, stop, arg⟩ := e
      obtain ⟨rfl, rfl, rfl⟩ : tag = .recvfrom ∧ pos = 0 ∧ arg = _ := ⟨htag, hpos, harg⟩
      simp [hnotices, pending, hstack, execute, passed, push, Started.notice]
    · obtain ⟨hpos, hlib⟩ := (hw.wired e.object).user hget (by simp [hexec])
      refine keeps_of_execute hw.wired (behind hstack) (by simp) (by simp) rfl ?_
      have htag : e.tag = .closed := by simpa [hexec] using library_tag hlib
      obtain ⟨s, tag, pos, stop, arg⟩ := e
      obtain ⟨rfl, rfl⟩ : tag = .closed ∧ pos = 0 := ⟨htag, hpos⟩
      simp [hnotices, pending, hstack, execute, passed, push, Started.notice]
  | @told f s tag arg rest address errno hstack hf hnone htag =>
    refine keeps_of_execute (wired_update hw.wired (hw.wired s)) (below [] hstack (by simp))
      ?_ ?_ rfl ?_
    · rintro rfl
      simp at htag
    · rintro rfl
      simp at htag
    · rw [World.pending_nil hstack hf, hnone]
      rcases htag with rfl | rfl <;> rfl
  | read hstack hi hopen =>
    subst hi
    refine keeps_of_execute hw.wired (below [] hstack (by simp)) (fun _ => ⟨_, _, rfl⟩)
      (by simp) rfl ?_
    rw [World.pending_nil hstack (by simp), notices_read hstack hopen]
    rfl
  | polled hstack hf htag hs =>
    refine keeps_of_execute hw.wired (below [_] hstack (by simp [Frame.plain])) ?_
      (fun _ => ho.open_of_mem hs) rfl ?_
    · rintro rfl
      simp at htag
    · obtain ⟨l, rfl⟩ := hf
      rw [World.pending_nil hstack (by simp), notices_nil hstack (by simp) (by simp)]
      rcases htag with rfl | rfl <;> rfl
  | opened hstack hf _ hnone hclosed hfd hfresh hnew =>
    obtain ⟨c, rfl⟩ := hf
    exact keeps_of_settled (withBase_wired hw.wired _ _) (below _ hstack hnew) rfl
      (World.pending_nil hstack (by simp)) hnone
  | refused hstack hf hnone hclosed hnew =>
    obtain ⟨c, rfl⟩ := hf
    refine keeps_of_execute (withBase_wired hw.wired _ _) (below _ hstack hnew) (by simp) (by simp)
      rfl ?_
    rw [World.pending_nil hstack (by simp), hnone]
    rfl
  | shut errno hstack hopen =>
    refine keeps_of_execute (withBase_wired hw.wired _ _) (below [] hstack (by simp)) (by simp)
      (by simp) rfl ?_
    rw [World.pending_nil hstack (by simp), notices_shut hstack hopen]
    simp [pending, execute, push, Started.notice, withBase, setErrno]
  | hooked hstack =>
    exact keeps_of_settled (wired_update hw.wired ((hw.wired _).on _ _)) (below [] hstack (by simp))
      rfl (World.pending_nil hstack (by simp)) (notices_nil hstack (by simp) (by simp))
  | assigned hstack =>
    exact keeps_of_settled (wired_update hw.wired (hw.wired _)) (below [] hstack (by simp)) rfl
      (World.pending_nil hstack (by simp)) (notices_nil hstack (by simp) (by simp))
  | reported hstack hlen =>
    exact keeps_of_settled hw.wired (below [_] hstack (by simp [Frame.plain])) rfl
      (World.pending_nil hstack (by simp)) (notices_nil hstack (by simp) (by simp))

/-- Descriptors come from `::socket`. -/
theorem Move.descriptors (h : Move w i w') {fd : Int} (hfd : fd ∈ w'.descriptors) :
    fd ∈ w.descriptors ∨ i = .opened (.ok fd) := by
  cases h with
  | called | quiet | skipped | entered | relayed | told | read | polled | hooked | assigned |
      reported => exact .inl hfd
  | opened _ _ hi =>
    rcases List.mem_cons.mp hfd with rfl | hold
    · exact .inr hi
    · exact .inl hold
  | refused => exact .inl hfd
  | @shut s _ _ _ hopen =>
    have hshut : fd ∈ (w.base s).closeSocket.descriptors := hfd
    rw [Raw.Socket.closeSocket_open (Int.not_lt.mp hopen)] at hshut
    exact .inl (List.mem_filter.mp hshut).1

theorem relays_start (invalid : UShort) : (start invalid).Relays where
  wired _ := Object.wired_new
  below f hf := absurd hf (by simp [start])
  top := topReady_of_settled (by simp [start])

theorem relays_of_reach {ok : World → Input → Prop} {invalid : UShort}
    (h : Machine.Reach (step o) ok (start invalid) w) : w.Owned ∧ w.Relays := by
  refine h.invariant (P := fun w => w.Owned ∧ w.Relays) ⟨owned_start invalid, relays_start invalid⟩ ?_
  rintro u i v ⟨ho, hr⟩ - hstep
  exact ⟨ho.step hstep, ((step_move hstep).relays ho hr).1⟩

end Steps

/-! ### What the hooks get -/

section Hooks

variable {w w' v t u : World} {i : Input} {o : ByteOrder} {n : Notice} {e : Execution} {s : Nat}
  {tag : Tag} {arg : Arg} {base : List Frame} {invalid : UShort}

theorem told_ne (hlog : v.log = w.log) : v.told ≠ w.told ++ [n] := by
  rw [told, told, hlog]
  simp

theorem notice_of_told (hlog : w'.log = w.log)
    (htold : (w'.execute s tag arg).told = w.told ++ [n]) :
    Started.notice ⟨s, tag, w'.passed s arg⟩ = some n := by
  rw [told_execute, told, told, hlog, List.append_cancel_left_eq] at htold
  exact Option.toList_eq_singleton_iff.mp htold

/-- What is told in a step is told by an execution whose callbacks are hooks, with the argument. -/
theorem Move.hands (h : Move w i v) (htold : v.told = w.told ++ [n])
    (hstack : v.stack = .execute e :: base) :
    library e.tag = [] ∧ ∀ r : World, r.passed e.object e.arg = n.argument r := by
  cases h with
  | called | quiet | skipped | entered | opened | hooked | assigned | reported =>
    exact absurd htold (told_ne rfl)
  | @relayed e' cb tag arg rest hstack' hcb hskip htag =>
    have hnotice := notice_of_told rfl htold
    obtain rfl := Frame.execute.inj (List.cons.inj hstack).1
    rcases htag with ⟨-, rfl, rfl, sender, message, harg⟩ | ⟨-, rfl, rfl⟩
    · rw [harg] at hnotice ⊢
      obtain rfl := Option.some.inj hnotice
      exact ⟨rfl, fun _ => rfl⟩
    · obtain rfl := Option.some.inj hnotice
      exact ⟨rfl, fun _ => rfl⟩
  | told _ _ _ _ _ htag =>
    have hnotice := notice_of_told rfl htold
    rcases htag with rfl | rfl <;> exact absurd hnotice (by simp [Started.notice])
  | polled _ _ htag =>
    have hnotice := notice_of_told rfl htold
    rcases htag with rfl | rfl <;> exact absurd hnotice (by simp [Started.notice])
  | read | refused | shut => exact absurd (notice_of_told rfl htold) (by simp [Started.notice])

/-- A step leaves what is below the topmost function. -/
theorem Move.stack_tail (h : Move w i w') : ∃ new, w'.stack = new ++ w.stack.tail := by
  cases h with
  | @called c old new rest hstack hold hnew =>
    rcases hold with ⟨rfl, rfl⟩ | ⟨arg, n, rfl⟩
    · exact ⟨.call c :: new, by rw [hstack]; rfl⟩
    · exact ⟨.call c :: new, by rw [hstack]; rfl⟩
  | @quiet f new rest errno hstack => exact ⟨new, by rw [hstack]; rfl⟩
  | @skipped e cb rest hstack => exact ⟨[.execute e.next], by rw [hstack]; rfl⟩
  | @entered e cb f rest hstack => exact ⟨f :: e.after cb, by rw [hstack]; rfl⟩
  | @relayed e cb tag arg rest hstack => exact ⟨.execute _ :: e.after cb, by rw [hstack]; rfl⟩
  | told _ _ hstack | read hstack | shut _ hstack => exact ⟨[.execute _], by rw [hstack]; rfl⟩
  | polled hstack => exact ⟨[.execute _, .polling _], by rw [hstack]; rfl⟩
  | @opened f s fd new rest hstack => exact ⟨new, by rw [hstack]; rfl⟩
  | @refused f s errno new rest hstack => exact ⟨.execute _ :: new, by rw [hstack]; rfl⟩
  | hooked hstack | assigned hstack => exact ⟨[], by rw [hstack]; rfl⟩
  | reported hstack => exact ⟨[.polling _], by rw [hstack]; rfl⟩

/-- Where all callbacks are hooks, a turn of `execute` calls a hook with the argument as it is now, or
calls nothing. -/
theorem Relays.resume_hooks (hw : w.Relays) (hstack : w.stack = .execute e :: base)
    (hlib : library e.tag = []) (hstep : w.step o i = some w') :
    w' = { w with stack := base } ∨ (∃ k, w' = { w with stack := .crash k :: base }) ∨
      w' = { w with stack := .execute e.next :: base } ∨
      ∃ cb calls, w' = { w with
        stack := .hook (w.passed e.object e.arg) calls :: (e.after cb ++ base) } := by
  simp only [World.step, hstack] at hstep
  rcases resume_cases hstep with ⟨-, rfl | ⟨k, rfl⟩⟩ | ⟨cb, hcb, ⟨-, rfl⟩ | ⟨-, hturn⟩⟩
  · exact .inl rfl
  · exact .inr (.inl ⟨k, rfl⟩)
  · exact .inr (.inr (.inl rfl))
  · have hexec : cb.exec = .user := by
      by_contra hexec
      obtain ⟨-, hcb'⟩ := (hw.wired e.object).user (current_get hcb) hexec
      exact absurd (hlib.symm.trans hcb') (by simp)
    rw [hexec] at hturn
    unfold invoke at hturn
    split at hturn
    · exact .inr (.inr (.inr ⟨cb, _, (Option.some.inj hturn).symm⟩))
    all_goals simp_all

/-- Until it ends, an execution whose callbacks are hooks keeps its argument. -/
theorem Handing.step (hw : w.Relays) (hlib : library tag = []) (h : w.Handing base s tag arg)
    (hstep : w.step o i = some w') : w'.stack = base ∨ w'.Handing base s tag arg := by
  obtain ⟨above, f, hstack, hf⟩ := h
  cases above with
  | cons g above =>
    obtain ⟨new, hnew⟩ := (step_move hstep).stack_tail
    rw [hstack] at hnew
    exact .inr ⟨new ++ above, f, by rw [hnew]; simp, hf⟩
  | nil =>
    cases f with
    | execute e =>
      obtain ⟨hs, rfl, harg⟩ := hf
      rcases hw.resume_hooks hstack hlib hstep with rfl | ⟨k, rfl⟩ | rfl | ⟨cb, calls, rfl⟩
      · exact .inl rfl
      · exact .inr ⟨[], _, rfl, trivial⟩
      · exact .inr ⟨[], _, rfl, hs, rfl, harg⟩
      · unfold Execution.after
        split
        · exact .inr ⟨[], _, rfl, trivial⟩
        · exact .inr ⟨[_], _, rfl, hs, rfl, harg⟩
    | hook arg' calls =>
      simp only [World.step, hstack, List.nil_append] at hstep
      split at hstep
      · obtain rfl := Option.some.inj hstep
        exact .inr ⟨[_], _, rfl, trivial⟩
      · obtain rfl := Option.some.inj hstep
        exact .inl rfl
      all_goals simp_all
    | crash k => simp [World.step, hstack] at hstep
    | _ => exact hf.elim

theorem handing_of_reach (hlib : library tag = [])
    (hreach : Machine.Reach (step o) (fun _ _ => True) (start invalid) v)
    (hv : v.Handing base s tag arg)
    (hrun : Machine.Reach (step o) (fun r _ => r.stack ≠ base) v t) :
    Machine.Reach (step o) (fun _ _ => True) (start invalid) t ∧
      (t.stack = base ∨ t.Handing base s tag arg) := by
  induction hrun with
  | refl => exact ⟨hreach, .inr hv⟩
  | tail _ hne hstep ih =>
    obtain ⟨hu, hbase | hhanding⟩ := ih
    · exact absurd hbase hne
    · exact ⟨hu.tail trivial hstep, hhanding.step (relays_of_reach hu).2 hlib hstep⟩

/-- A hook that is called in an execution started for `n` gets what `n` says, as it is now. -/
theorem Tells.argument (hreach : Machine.Reach (step o) (fun _ _ => True) (start invalid) w)
    (h : Tells o n w t arg) : arg = n.argument t := by
  obtain @⟨i, j, v, u, e, e', above, base, calls, hstart, htold, hstack, hrun, hstack', hcall,
    hcalled⟩ := h
  obtain ⟨hlib, hpassed⟩ := (step_move hstart).hands htold hstack
  obtain ⟨hreach, hbase | ⟨front, f, hfront, hf⟩⟩ := handing_of_reach hlib
    (hreach.tail trivial hstart) ⟨[], _, hstack, rfl, rfl, rfl⟩ hrun
  · exact absurd (hstack'.symm.trans hbase) (by simp)
  obtain rfl : f = .execute e' := by
    have hone : front ++ [f] ++ base = [] ++ [.execute e'] ++ base := by
      simpa using hfront.symm.trans hstack'
    exact (List.append_singleton_inj.mp (List.append_cancel_right hone)).2
  obtain ⟨hobject, htag, harg⟩ := hf
  have hw := (relays_of_reach hreach).2
  rcases hw.resume_hooks hstack' (htag ▸ hlib) hcall with rfl | ⟨k, rfl⟩ | rfl | ⟨cb, calls, rfl⟩
  · exact absurd (congrArg List.length hcalled) (by simp; omega)
  · exact absurd (List.cons.inj hcalled).1 (by simp)
  · exact absurd (List.cons.inj hcalled).1 (by simp)
  · rw [← (Frame.hook.inj (List.cons.inj hcalled).1).1, hobject, harg]
    exact hpassed t

end Hooks

section Runs

variable {w : World} {o : ByteOrder} {ok : World → Input → Prop} {invalid : UShort}

theorem length_pending (w : World) : w.pending.length ≤ 1 := by
  unfold pending
  split <;> simp

theorem notices_eq {seen : List Notice}
    (h : Machine.Seen (step o) ok notices (start invalid) seen w) : seen = w.told ++ w.pending := by
  refine h.invariant (P := fun seen w => seen = w.told ++ w.pending) rfl ?_
  intro seen u i v hseen hu _ hstep
  obtain ⟨ho, hr⟩ := relays_of_reach hseen.reach
  rw [hu, ((step_move hstep).relays ho hr).2]

/-- In every run, whatever the hooks do: the datagrams that are read and the descriptors that are
closed, in this order, are what `RECEIVE` and `CLOSED` are executed with, but for one that is about to
be handed on.  A datagram is given with its sender and as far as the buffer holds it, a descriptor with
the address of its object.  Every hook that is called then gets the datagram, or the address that the
object has when it is called. -/
theorem told_in_order {seen : List Notice}
    (h : Machine.Seen (step o) ok notices (start invalid) seen w) :
    seen = w.told ++ w.pending ∧ w.pending.length ≤ 1 ∧ (w.stack = [] → seen = w.told) ∧
      ∀ n t arg, Tells o n w t arg → arg = n.argument t := by
  refine ⟨notices_eq h, length_pending w, fun hidle => ?_, fun n t arg htells => ?_⟩
  · rw [notices_eq h, pending, hidle]
    exact List.append_nil _
  · exact htells.argument (h.reach.mono fun _ _ _ => trivial)

/-- In every run in which `::socket` does not return 0, `recvfrom` is only called on an object that is
open, under whose descriptor it is registered; so its assertion holds. -/
theorem reads_open (h : Machine.Reach (step o) (fun _ i => i ≠ .opened (.ok 0)) (start invalid) w)
    {s : Nat} {rest : List Frame} (hstack : w.stack = .recvfrom s :: rest) :
    0 < (w.objects s).sock ∧ (w.objects s).sock ∈ w.descriptors ∧
      ((w.objects s).sock, s) ∈ w.handler.registrations := by
  obtain ⟨ho, hr⟩ := relays_of_reach h
  have hopen := hr.top.recvfrom s rest hstack
  have hmem := ho.mem_descriptors hopen
  have hzero : (0 : Int) ∉ w.descriptors := by
    refine h.invariant (P := fun w => (0 : Int) ∉ w.descriptors) (by simp [start]) ?_
    intro u i v hu hok hstep hv
    rcases (step_move hstep).descriptors hv with hold | hi
    · exact hu hold
    · exact hok hi
  have hne : (w.objects s).sock ≠ 0 := fun heq => hzero (heq ▸ hmem)
  exact ⟨by omega, hmem, ho.entry hopen⟩

end Runs

/-- An object with a hook on `RECEIVE` and two on `CLOSED` is polled, reads two bytes and is closed. -/
def readRun : List Input :=
  [.call (.on 0 .receive ActionFlag.default), .go, .call (.on 0 .udpClosed ActionFlag.default), .go,
    .call (.on 0 .udpClosed ActionFlag.default), .go, .call (.openSocket 0), .opened (.ok 3),
    .call .poll, .polled 1 [POLLIN], .go, .go, .received (.ok [16, 2]) [7, 8], .go, .enter 0, .ret 0,
    .go, .go, .go, .go, .go, .call (.close 0), .closed 0]

/-- The address that the first hook on `CLOSED` assigns. -/
def assigned : SocketAddress := SocketAddress.empty.copy [16, 2]

/-- The first hook on `CLOSED` is called and returns. -/
def assignRun : List Input := [.enter 1, .call (.assign 0 assigned), .go, .ret 0]

/-- The second hook on `CLOSED` gets another address than that of the object when it was closed. -/
theorem readRun_tells {w : World} (hw : Machine.run (step .little) (start 0) readRun = some w) :
    ∃ t, Tells .little (.closed 0 .empty) w t (.address assigned) := by
  have hbefore : (Machine.run (step .little) (start 0) readRun).map (fun w =>
      (w.pending, w.notices .go)) = some ([.closed 0 .empty], []) := rfl
  have hstart : (Machine.run (step .little) (start 0) (readRun ++ [.go])).map (fun v =>
      (v.pending, v.stack, Machine.checked (step .little)
        (fun r _ => r.stack != [.execute ⟨0, .closed, 1, 1, .none⟩]) v assignRun)) =
      some ([], [.execute ⟨0, .udpClosed, 0, 2, .ownAddress⟩, .execute ⟨0, .closed, 1, 1, .none⟩],
        true) := by
    decide
  have hend : (Machine.run (step .little) (start 0) (readRun ++ .go :: assignRun)).map (fun t =>
      (t.stack, (t.step .little (.enter 0)).map World.stack)) =
      some ([.execute ⟨0, .udpClosed, 1, 2, .ownAddress⟩, .execute ⟨0, .closed, 1, 1, .none⟩],
        some [.hook (.address assigned) 0, .execute ⟨0, .udpClosed, 2, 2, .ownAddress⟩,
          .execute ⟨0, .closed, 1, 1, .none⟩]) :=
    rfl
  rw [hw, Option.map_some, Option.some.injEq] at hbefore
  obtain ⟨hpending, hnotices⟩ := Prod.mk.inj hbefore
  rw [Machine.run_append, hw, Option.bind_some] at hstart hend
  obtain ⟨v, hv, hstart⟩ := Option.map_eq_some_iff.mp hstart
  obtain ⟨hpending', hstart⟩ := Prod.mk.inj hstart
  obtain ⟨hstack, hchecked⟩ := Prod.mk.inj hstart
  have hstep : w.step .little .go = some v := by simpa using hv
  obtain ⟨ho, hr⟩ := relays_of_reach (.of_run (fun _ _ => trivial) hw)
  have htold : v.told = w.told ++ [.closed 0 .empty] := by
    simpa [hpending, hpending', hnotices] using ((step_move hstep).relays ho hr).2
  rw [Machine.run_cons, hstep, Option.bind_some] at hend
  obtain ⟨t, ht, hend⟩ := Option.map_eq_some_iff.mp hend
  obtain ⟨hstack', hcalled⟩ := Prod.mk.inj hend
  obtain ⟨u, hu, hcalled⟩ := Option.map_eq_some_iff.mp hcalled
  have hrun : Machine.Reach (step .little)
      (fun r _ => r.stack ≠ [.execute ⟨0, .closed, 1, 1, .none⟩]) v t :=
    .of_checked (fun r _ hr => by simpa using hr) hchecked ht
  have hcalled : u.stack = .hook (.address assigned) 0 ::
      ([.execute ⟨0, .udpClosed, 2, 2, .ownAddress⟩] ++ [.execute ⟨0, .closed, 1, 1, .none⟩]) := hcalled
  exact ⟨t, .hook hstep htold hstack hrun hstack' hu hcalled⟩

theorem told_in_order_readRun : ∃ seen w,
    Machine.run (step .little) (start 0) readRun = some w ∧ seen.length = 2 ∧
      (∃ t, Tells .little (.closed 0 .empty) w t (.address assigned)) ∧
      seen = w.told ++ w.pending ∧ w.pending.length ≤ 1 ∧ (w.stack = [] → seen = w.told) ∧
      ∀ n t arg, Tells .little n w t arg → arg = n.argument t := by
  have hsome : (Machine.run (step .little) (start 0) readRun).isSome := by decide
  obtain ⟨w, hw⟩ := Option.isSome_iff_exists.mp hsome
  have hseen : Machine.Seen (step .little) (fun _ _ => True) notices (start 0)
      (Machine.shown (step .little) notices (start 0) readRun) w :=
    .of_run (fun _ _ => trivial) hw
  exact ⟨_, w, hw, by decide, readRun_tells hw, told_in_order hseen⟩

/-- The input is not that `::socket` returns 0. -/
def notZero (_ : World) (i : Input) : Bool :=
  match i with
  | .opened (.ok fd) => fd != 0
  | _ => true

theorem reads_open_readRun : ∃ w rest,
    Machine.run (step .little) (start 0) (readRun.take 12) = some w ∧
      w.stack = .recvfrom 0 :: rest ∧ 0 < (w.objects 0).sock ∧
      (w.objects 0).sock ∈ w.descriptors ∧
      ((w.objects 0).sock, 0) ∈ w.handler.registrations := by
  have hsome : ((Machine.run (step .little) (start 0) (readRun.take 12)).filter fun w =>
      w.stack.head? = some (.recvfrom 0)).isSome := by decide
  obtain ⟨w, hw⟩ := Option.isSome_iff_exists.mp hsome
  obtain ⟨hw, htop⟩ := Option.filter_eq_some_iff.mp hw
  obtain ⟨rest, hstack⟩ := List.head?_eq_some_iff.mp (of_decide_eq_true htop)
  have hok : ∀ u i, notZero u i = true → i ≠ .opened (.ok 0) := by
    rintro u i hi rfl
    exact absurd hi (by simp [notZero])
  have hreach : Machine.Reach (step .little) (fun _ i => i ≠ .opened (.ok 0)) (start 0) w :=
    .of_checked hok (by decide) hw
  exact ⟨w, rest, hw, hstack, reads_open hreach hstack⟩

end World

end Unisock.Udp
