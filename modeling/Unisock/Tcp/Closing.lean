import Unisock.Tcp.Hooks
import Unisock.Tcp.Registry

/-! What closing does to the sockets, and that it ends: `close` on a connection, on a container or on
a server or client returns, if the containers in question have no element that stays. -/

namespace Unisock.Tcp

open Unisock.Events

/-- An execution that calls this callback ends before `erase`. -/
def cuts (cb : ActionCallback Callback) : Bool :=
  cb.exec != .erase && !cb.has ActionFlag.skip && cb.has ActionFlag.stopAfter

/-- `close` on the connection does not erase it. -/
def Connection.Cut (c : Connection) : Prop := ∃ cb ∈ c.actions .closed, cuts cb = true

/-- The `CLOSED` list ends with `erase`, behind hooks and notifications. -/
def Connection.ErasesLast (c : Connection) : Prop :=
  ∃ pre, c.actions .closed = pre ++ [eraser] ∧ ∀ cb ∈ pre, cb.exec.late = true

theorem Connection.ErasesLast.callback {c : Connection} (h : c.ErasesLast)
    {cb : ActionCallback Callback} (hcb : cb ∈ c.actions .closed) :
    cb.exec = .user ∨ cb = eraser ∨ ∃ action, cb.exec = .notify action := by
  obtain ⟨pre, hactions, hlate⟩ := h
  rcases List.mem_append.mp (hactions ▸ hcb) with hmem | hmem
  · have hexec := hlate cb hmem
    cases hcase : cb.exec with
    | user => exact .inl rfl
    | notify action => exact .inr (.inr ⟨action, rfl⟩)
    | _ => simp [hcase, Callback.late] at hexec
  · exact .inr (.inl (List.mem_singleton.mp hmem))

namespace Memory

/-- The invariants of the memory that closing relies on. -/
structure Steady (m : Memory) : Prop extends Sound m where
  erasesLast : ∀ p c, m.deref p = some c → c.ErasesLast

/-- Every element of the container is open, and goes away when it is closed. -/
def Closable (m : Memory) (container : Container) : Prop :=
  ∀ p c, p.container = container → m.deref p = some c → 0 ≤ c.sock ∧ ¬ c.Cut

/-- From `m` to `m'`, calls have closed sockets: no element is new or open again, those that were
closed are still there, and those that got closed are erased unless their list is cut. -/
structure Closes (m m' : Memory) : Prop where
  changes : Changes m m'
  count : m'.handler.count ≤ m.handler.count
  old : ∀ p c', m'.deref p = some c' →
    ∃ c, m.deref p = some c ∧ c'.actions = c.actions ∧ (0 ≤ c'.sock → 0 ≤ c.sock)
  kept : ∀ p c, m.deref p = some c → c.sock < 0 → (m'.deref p).isSome
  settled : ∀ p c', m'.deref p = some c' → c'.sock < 0 → ¬ c'.Cut →
    ∃ c, m.deref p = some c ∧ c.sock < 0

variable {m m' m'' : Memory} {p : SockPtr} {c c' : Connection}

/-! ### Every `CLOSED` list ends with `erase` -/

/-- A property of the `CLOSED` lists: of that of a new element, and kept by registrations. -/
theorem Change.closedList {P : Action Callback → Prop} (hnew : P [eraser])
    (hadd : ∀ l exec flags, exec.late = true → P l → P (l.addCallback exec flags))
    (h : Change m m') (hm : ∀ p c, m.deref p = some c → P (c.actions .closed)) (q : SockPtr)
    (d : Connection) (hq : m'.deref q = some d) : P (d.actions .closed) := by
  cases h with
  | @wired p c f hp hnode _ _ hclosed =>
    rw [deref_modify hp hnode] at hq
    split at hq
    · obtain rfl := Option.some.inj hq
      rcases hclosed with heq | ⟨exec, flags, hexec, heq⟩
      · exact heq ▸ hm p c hp
      · exact heq ▸ hadd _ exec flags hexec (hm p c hp)
    · exact hm q d hq
  | retuned _ _ _ => exact hm q d hq
  | @added container fd _ _ hfree =>
    rw [deref_addElement (m := m.openFd fd) hfree] at hq
    split at hq
    · obtain rfl := Option.some.inj hq
      exact hnew
    · exact hm q d hq
  | @closed p c hp _ =>
    rw [deref_closeSocket hp] at hq
    split at hq
    · obtain rfl := Option.some.inj hq
      exact hm p c hp
    · exact hm q d hq
  | erased hp _ =>
    rw [deref_eraseSocket hp] at hq
    exact hm q d (Option.ite_none_left_eq_some.mp hq).2

theorem Changes.closedList {P : Action Callback → Prop} (hnew : P [eraser])
    (hadd : ∀ l exec flags, exec.late = true → P l → P (l.addCallback exec flags))
    (h : Changes m m') (hm : ∀ p c, m.deref p = some c → P (c.actions .closed)) (q : SockPtr)
    (d : Connection) (hq : m'.deref q = some d) : P (d.actions .closed) := by
  induction h generalizing q d with
  | refl => exact hm q d hq
  | tail _ hc ih => exact hc.closedList hnew hadd ih q d hq

theorem Changes.steady (h : Changes m m') (hm : m.Steady) : m'.Steady where
  toSound := h.sound hm.toSound
  erasesLast q d hq := by
    refine h.closedList (P := fun l => ∃ pre, l = pre ++ [eraser] ∧ ∀ cb ∈ pre, cb.exec.late = true)
      ⟨[], rfl, by simp⟩ ?_ hm.erasesLast q d hq
    rintro _ exec flags hexec ⟨pre, rfl, hlate⟩
    refine ⟨Action.addCallback pre exec flags, ?_, fun cb hcb => ?_⟩
    · exact Action.addCallback_concat pre (by decide) exec flags
    · rcases Action.mem_addCallback.mp hcb with rfl | hcb
      · exact hexec
      · exact hlate cb hcb

/-! ### Sequences of calls that close -/

theorem Closes.refl (m : Memory) : m.Closes m where
  changes := .refl
  count := le_rfl
  old _ c' h := ⟨c', h, rfl, id⟩
  kept _ _ h _ := Option.isSome_of_eq_some h
  settled _ c' h hsock _ := ⟨c', h, hsock⟩

theorem Closes.closed (h : m.Closes m') (hp : m.deref p = some c) (hsock : c.sock < 0) :
    ∃ c', m'.deref p = some c' ∧ c'.actions = c.actions ∧ c'.sock < 0 := by
  obtain ⟨c', hc'⟩ := Option.isSome_iff_exists.mp (h.kept p c hp hsock)
  obtain ⟨d, hd, hactions, hopen⟩ := h.old p c' hc'
  obtain rfl : d = c := Option.some.inj (hd.symm.trans hp)
  refine ⟨c', hc', hactions, ?_⟩
  by_contra hge
  have := hopen (by omega)
  omega

theorem cut_congr (hactions : c'.actions = c.actions) : c'.Cut ↔ c.Cut := by
  rw [Connection.Cut, Connection.Cut, hactions]

theorem Closes.trans (h : m.Closes m') (h' : m'.Closes m'') : m.Closes m'' where
  changes := h.changes.trans h'.changes
  count := h'.count.trans h.count
  old p c'' hp := by
    obtain ⟨c', hc', hactions', hopen'⟩ := h'.old p c'' hp
    obtain ⟨c, hc, hactions, hopen⟩ := h.old p c' hc'
    exact ⟨c, hc, hactions'.trans hactions, fun ho => hopen (hopen' ho)⟩
  kept p c hp hsock := by
    obtain ⟨c', hc', -, hsock'⟩ := h.closed hp hsock
    exact h'.kept p c' hc' hsock'
  settled p c'' hp hsock hcut := by
    obtain ⟨c', hc', hsock'⟩ := h'.settled p c'' hp hsock hcut
    obtain ⟨d, hd, hactions, -⟩ := h'.old p c'' hp
    obtain rfl : d = c' := Option.some.inj (hd.symm.trans hc')
    exact h.settled p d hc' hsock' fun hd => hcut ((cut_congr hactions).mpr hd)

theorem Closes.closable (h : m.Closes m') {container : Container} (hk : m.Closable container) :
    m'.Closable container := by
  intro p c' hcontainer hc'
  obtain ⟨c, hc, hactions, -⟩ := h.old p c' hc'
  obtain ⟨hopen, hcut⟩ := hk p c hcontainer hc
  have hcut' : ¬ c'.Cut := fun h => hcut ((cut_congr hactions).mp h)
  refine ⟨?_, hcut'⟩
  by_contra hneg
  obtain ⟨d, hd, hsock⟩ := h.settled p c' hc' (by omega) hcut'
  obtain rfl : d = c := Option.some.inj (hd.symm.trans hc)
  omega

theorem Corresponds.count (hc : m.Corresponds) :
    m.handler.count = m.handler.registrations.length := by
  rw [HandlerImpl.registrations, List.length_zip, hc.aligned.length_fds, Nat.min_self]
  exact hc.aligned

theorem Corresponds.count_closeSocket (hc : m.Corresponds) (hp : m.deref p = some c)
    (hopen : 0 ≤ c.sock) : (m.closeSocket p c.sock).handler.count < m.handler.count := by
  have hentry := hc.element p c hp hopen
  rw [(hc.closed hp hopen).count, hc.count, hc.registrations_closed hp hopen]
  exact List.length_filter_lt_length_iff_exists.mpr ⟨_, hentry, by simp⟩

/-- `close` on an open socket: its `CLOSED` list ran, and its end is `erase` unless it is cut. -/
theorem Closes.close (hs : m.Sound) (hp : m.deref p = some c) (hopen : 0 ≤ c.sock)
    (h : (m.closeSocket p c.sock).Closes m')
    (hend : (m'' = m' ∧ c.Cut) ∨ m'' = m'.eraseSocket p.container p.key) :
    m.Closes m'' ∧ m''.handler.count < m.handler.count ∧ (¬ c.Cut → m''.deref p = none) := by
  have hclosed : (m.closeSocket p c.sock).deref p = some { c with sock := -1 } := by
    rw [deref_closeSocket hp, if_pos rfl]
  obtain ⟨c', hc', hactions, hsock⟩ := h.closed hclosed (by simp)
  have hcount : m''.handler.count < m.handler.count := by
    have hle : m''.handler.count ≤ (m.closeSocket p c.sock).handler.count := by
      rcases hend with ⟨rfl, -⟩ | rfl <;> exact h.count
    exact hle.trans_lt (hs.count_closeSocket hp hopen)
  have hderef : ∀ q, q ≠ p → m''.deref q = m'.deref q := by
    intro q hq
    rcases hend with ⟨rfl, -⟩ | rfl
    · rfl
    · rw [deref_eraseSocket hc', if_neg hq]
  have hgone : m''.deref p = none ∨ (m''.deref p = some c' ∧ c.Cut) := by
    rcases hend with ⟨rfl, hcut⟩ | rfl
    · exact .inr ⟨hc', hcut⟩
    · exact .inl (by rw [deref_eraseSocket hc', if_pos rfl])
  refine ⟨⟨?_, hcount.le, ?_, ?_, ?_⟩, hcount, ?_⟩
  · have hto : Changes m m' := .trans (.single (.closed hp hopen)) h.changes
    rcases hend with ⟨rfl, -⟩ | rfl
    · exact hto
    · exact hto.tail (.erased hc' hsock)
  · intro q d hd
    by_cases hq : q = p
    · subst hq
      rcases hgone with hnone | ⟨hsome, -⟩
      · exact absurd (hnone.symm.trans hd) (by simp)
      · obtain rfl := Option.some.inj (hsome.symm.trans hd)
        exact ⟨c, hp, hactions, fun _ => hopen⟩
    · obtain ⟨d', hd', hrest⟩ := h.old q d (hderef q hq ▸ hd)
      rw [deref_closeSocket hp, if_neg hq] at hd'
      exact ⟨d', hd', hrest⟩
  · intro q d hd hneg
    have hq : q ≠ p := by
      rintro rfl
      obtain rfl := Option.some.inj (hd.symm.trans hp)
      omega
    rw [hderef q hq]
    exact h.kept q d (by rw [deref_closeSocket hp, if_neg hq, hd]) hneg
  · intro q d hd hneg hcut
    by_cases hq : q = p
    · subst hq
      rcases hgone with hnone | ⟨hsome, hcutc⟩
      · exact absurd (hnone.symm.trans hd) (by simp)
      · obtain rfl := Option.some.inj (hsome.symm.trans hd)
        exact absurd ((cut_congr hactions).mpr hcutc) hcut
    · obtain ⟨d', hd', hsock'⟩ := h.settled q d (hderef q hq ▸ hd) hneg hcut
      rw [deref_closeSocket hp, if_neg hq] at hd'
      exact ⟨d', hd', hsock'⟩
  · intro hcut
    rcases hgone with hnone | ⟨-, hcutc⟩
    · exact hnone
    · exact absurd hcutc hcut

theorem Closes.sent (hp : m.deref p = some c) {buffer : List Bytes}
    {handler : Handler SockPtr} (hhandler : handler = m.handler ∨
      ∃ active, handler = m.handler.socketWantWrite c.sock active) :
    m.Closes (m.sent p ⟨{ c with sendBuffer := buffer }, handler, false⟩) := by
  have hderef : ∀ q, (m.sent p ⟨{ c with sendBuffer := buffer }, handler, false⟩).deref q =
      if q = p then some { c with sendBuffer := buffer } else m.deref q :=
    deref_modify hp (f := fun _ => { c with sendBuffer := buffer }) rfl
  have hfds : handler.fds = m.handler.fds := by
    rcases hhandler with rfl | ⟨active, rfl⟩
    · rfl
    · exact HandlerImpl.socketWant_fds ..
  have hsame : ∀ q d', (m.sent p ⟨{ c with sendBuffer := buffer }, handler, false⟩).deref q =
      some d' → ∃ d, m.deref q = some d ∧ d'.actions = d.actions ∧ d'.sock = d.sock := by
    intro q d' hd'
    rw [hderef] at hd'
    split at hd'
    · next hq =>
      obtain rfl := Option.some.inj hd'
      exact ⟨c, hq ▸ hp, rfl, rfl⟩
    · exact ⟨d', hd', rfl, rfl⟩
  constructor
  · refine .tail (.single (.wired (f := fun _ => { c with sendBuffer := buffer }) hp rfl rfl
      (fun _ _ h _ => h) (.inl rfl))) ?_
    rcases hhandler with rfl | ⟨active, rfl⟩
    · exact .retuned id rfl rfl
    · exact .retuned (fun ha => HandlerImpl.socketWant_aligned ha ..)
        (HandlerImpl.socketWant_fds ..) (HandlerImpl.socketWant_registrations ..)
  · have hlength := congrArg List.length hfds
    simp only [HandlerImpl.fds, List.length_map] at hlength
    exact hlength.le
  · intro q d' hd'
    obtain ⟨d, hd, hactions, hsock⟩ := hsame q d' hd'
    exact ⟨d, hd, hactions, fun h => hsock ▸ h⟩
  · intro q d hd _
    rw [hderef]
    split
    · rfl
    · exact Option.isSome_of_eq_some hd
  · intro q d' hd' hneg _
    obtain ⟨d, hd, -, hsock⟩ := hsame q d' hd'
    exact ⟨d, hd, hsock ▸ hneg⟩

end Memory

/-- The containers of a server or client, in the order in which its `close` closes them. -/
def Owner.containers : Owner → List Container
  | .server id => [.clients id, .listeners id]
  | .client id => [.connections id]

/-- The containers that the call closes. -/
def Call.closes : Call → List Container
  | .closeContainer container => [container]
  | .closeOwner o => o.containers
  | _ => []

namespace World

/-- Hooks open no sockets: they call `close`, on connections, containers, servers and clients, and
`send` and `send_flush` on open connections, without an error. -/
def Calm (w : World) : Input → Prop
  | .call (.close _) | .call (.closeContainer _) | .call (.closeOwner _) => True
  | .call (.send p _) | .call (.sendFlush p) => ∃ c, w.mem.deref p = some c ∧ 0 ≤ c.sock
  | .call _ => False
  | .sent result _ => 0 ≤ toInt result
  | _ => True

/-- Besides, they close only containers of which every element is open and goes away. -/
def CloseHooks (w : World) (i : Input) : Prop :=
  w.Calm i ∧ ∀ c, i = .call c → ∀ container ∈ c.closes, w.mem.Closable container

/-- From `w` to `w'`, calls have closed sockets. -/
def Closes (w w' : World) : Prop := w'.owners = w.owners ∧ w.mem.Closes w'.mem

abbrev Ends (rest : List Frame) (R : World → Prop) : World → Prop :=
  Machine.Inevitable step CloseHooks fun t => t.stack = rest ∧ R t

/-- Hooks return, where at most `n` sockets are registered. -/
def HooksEnd (n : Nat) : Prop :=
  ∀ (w : World) arg calls rest, w.mem.Steady → w.mem.handler.count ≤ n →
    w.stack = .hook arg calls :: rest → Ends rest w.Closes w

variable {w w' t : World} {i : Input} {rest rest' : List Frame} {p : SockPtr} {c : Connection}
  {n : Nat}

theorem Closes.refl (w : World) : w.Closes w := ⟨rfl, .refl _⟩

theorem Closes.trans (h : w.Closes t) (h' : t.Closes w') : w.Closes w' :=
  ⟨h'.1.trans h.1, h.2.trans h'.2⟩

theorem Closes.steady (h : w.Closes t) (hs : w.mem.Steady) : t.mem.Steady :=
  h.2.changes.steady hs

theorem closeHooks_of_not_call (hcalm : w.Calm i) (hi : ∀ c, i ≠ .call c) : w.CloseHooks i :=
  ⟨hcalm, fun c h => absurd h (hi c)⟩

/-- The discipline of hooks that close. -/
def closing : Discipline where
  base := 0
  ok := CloseHooks
  effect s t := t.owners = s.owners ∧ s.mem.Closes t.mem
  internal w i _ hi := by
    cases i with
    | go | enter _ | ret _ | closed _ => exact closeHooks_of_not_call trivial (by simp)
    | _ => exact hi.elim
  refl s := ⟨rfl, .refl s.mem⟩
  trans h h' := ⟨h'.1.trans h.1, h.2.trans h'.2⟩
  owners h := h.1

theorem HooksEnd.discipline (hhooks : HooksEnd n) (hs : w.mem.Steady)
    (hcount : w.mem.handler.count ≤ n) : closing.HooksEnd w := fun t arg calls rest _ ht hstack =>
  hhooks t arg calls rest (Closes.steady (w := w) ht hs) (ht.2.count.trans hcount) hstack

/-! ### Executions -/

/-- The callbacks in front of `erase` end. -/
theorem late_ends (hhooks : HooksEnd n) (hs : w.mem.Steady) (hcount : w.mem.handler.count ≤ n)
    {e : Execution} {list : SocketAction} (hlist : e.list = .socket p list) {exec : Callback}
    (hexec : exec.late = true) : closing.BodyEnds w e exec w.Closes := by
  cases exec with
  | user => exact Discipline.user_ends (Nat.zero_le _) (hhooks.discipline hs hcount) e
  | notify action =>
    exact Discipline.notify_ends (Nat.zero_le _) hlist
      (HooksEnd.discipline (w := w.note _) hhooks hs hcount)
  | erase | accept | recv | sendFlush | receive => exact absurd hexec (by decide)

/-- The `CLOSED` list of `p` has run: it is erased then, unless its list is cut. -/
def Closed (w : World) (p : SockPtr) (c : Connection) (t : World) : Prop :=
  t.owners = w.owners ∧ ∃ mid, w.mem.Closes mid ∧
    ((t.mem = mid ∧ c.Cut) ∨ t.mem = mid.eraseSocket p.container p.key)

/-- The execution of a `CLOSED` list ends. -/
theorem closed_ends (hhooks : HooksEnd n) (hs : w.mem.Steady) (hcount : w.mem.handler.count ≤ n)
    {e : Execution} (hstack : w.stack = .execute e :: rest) (hlist : e.list = .socket p .closed)
    (hp : w.mem.deref p = some c) (hsock : c.sock < 0)
    (hstop : e.stop = (c.actions .closed).length) (hpos : e.pos < e.stop) :
    Ends rest (w.Closed p c) w := by
  obtain ⟨pre, hactions, hlate⟩ := hs.erasesLast p c hp
  have hlength : e.stop = pre.length + 1 := by rw [hstop, hactions]; simp
  have hl : w.callbacks e.list = some (c.actions .closed) := by
    rw [hlist, callbacks, hp]
    rfl
  induction hk : pre.length - e.pos generalizing w e c with
  | zero =>
    have hcb : (c.actions .closed)[e.pos]? = some eraser := by
      rw [hactions, show e.pos = pre.length by omega]
      simp
    refine Discipline.erase_ends (D := closing) hstack (Nat.zero_le _) hlist hl hstop.symm hcb ?_
    exact ⟨rfl, w.mem, .refl _, .inr rfl⟩
  | succ k ih =>
    have hlt : e.pos < pre.length := by omega
    have hcb : (c.actions .closed)[e.pos]? = some pre[e.pos] := by
      rw [hactions, List.getElem?_append_left hlt, List.getElem?_eq_getElem hlt]
    have hmem : pre[e.pos] ∈ c.actions .closed := List.mem_of_getElem? hcb
    have hexec := hlate _ (List.getElem_mem hlt)
    generalize pre[e.pos] = cb at hcb hmem hexec
    have hnext : ∀ t : World, t.stack = .execute e.next :: rest → w.Closes t →
        Ends rest (w.Closed p c) t := by
      intro t htstack ht
      obtain ⟨c', hc', hactions', hsock'⟩ := ht.2.closed hp hsock
      have hl' : t.callbacks e.next.list = some (c'.actions .closed) := by
        show t.callbacks e.list = _
        rw [hlist, callbacks, hc']
        rfl
      have hrest := ih (ht.steady hs) (ht.2.count.trans hcount) htstack hlist hc' hsock'
        (by rw [hactions']; exact hstop) (by show e.pos + 1 < e.stop; omega)
        (by rw [hactions']; exact hactions) hlength hl' (by show pre.length - (e.pos + 1) = k; omega)
      refine hrest.mono ?_
      rintro u ⟨hu, howners, mid, hmid, hend⟩
      refine ⟨hu, howners.trans ht.1, mid, ht.2.trans hmid, ?_⟩
      rwa [Memory.cut_congr hactions'] at hend
    refine Discipline.turn_ends (D := closing) hstack (Nat.zero_le _) hl hstop.symm hcb
      (fun _ => hnext _ rfl (.refl w)) fun hskip => ?_
    obtain ⟨henter, hall⟩ :=
      late_ends (w := { w with stack := e.after cb ++ rest }) hhooks hs hcount hlist hexec
    refine ⟨henter, fun i t ht => (hall i t ht).bind ?_⟩
    rintro u ⟨hu, hclosed⟩
    cases hstop' : cb.has ActionFlag.stopAfter with
    | true =>
      have hcut : c.Cut := by
        refine ⟨cb, hmem, ?_⟩
        have hne : cb.exec ≠ .erase := fun h => by rw [h] at hexec; exact absurd hexec (by decide)
        simp [cuts, hskip, hstop', hne]
      exact .now ⟨by simpa [Execution.after, hstop'] using hu, hclosed.1, u.mem, hclosed.2,
        .inl ⟨rfl, hcut⟩⟩
    | false => exact hnext u (by simpa [Execution.after, hstop'] using hu) hclosed

/-! ### Calls -/

/-- `close` on a connection ends.  If the connection was open and its list is not cut, it is erased
then, and fewer sockets are registered. -/
theorem close_ends (hhooks : ∀ m < w.mem.handler.count, HooksEnd m) (hs : w.mem.Steady)
    (hp : w.mem.deref p = some c) (errno : Int) :
    Ends w.stack (fun t => w.Closes t ∧ (0 ≤ c.sock → ¬ c.Cut →
      t.mem.handler.count < w.mem.handler.count ∧ t.mem.deref p = none)) (w.close p errno) := by
  by_cases hsock : 0 ≤ c.sock
  · rw [close_open hp hsock]
    have hcount := hs.count_closeSocket hp hsock
    have hderef : (w.mem.closeSocket p c.sock).deref p = some { c with sock := -1 } := by
      rw [Memory.deref_closeSocket hp, if_pos rfl]
    have hsteady : (w.mem.closeSocket p c.sock).Steady :=
      Memory.Changes.steady (.single (.closed hp hsock)) hs
    have hpos : 0 < (c.actions .closed).length := by
      obtain ⟨pre, hactions, -⟩ := hs.erasesLast p c hp
      rw [hactions]
      simp
    have hlist := closed_ends (w := { w with
      mem := w.mem.closeSocket p c.sock
      errno := errno
      log := .shut p c.sock :: .removed p c.sock :: w.log
      stack := .execute ⟨.socket p .closed, 0, (c.actions .closed).length, .none⟩ :: w.stack })
      (hhooks _ hcount) hsteady le_rfl rfl rfl hderef (by simp) rfl hpos
    refine hlist.mono ?_
    rintro t ⟨ht, howners, mid, hmid, hend⟩
    obtain ⟨hcloses, hless, hgone⟩ := Memory.Closes.close hs.toSound hp hsock hmid hend
    exact ⟨ht, ⟨howners, hcloses⟩, fun _ hcut => ⟨hless, hgone hcut⟩⟩
  · rw [close_closed hp (by omega)]
    exact .now ⟨rfl, .refl w, fun h => absurd h hsock⟩

/-- The loop of `socket_container::close` ends: each turn leaves fewer sockets registered. -/
theorem closing_ends {container : Container} (hhooks : ∀ m < w.mem.handler.count, HooksEnd m)
    (hs : w.mem.Steady) (hk : w.mem.Closable container)
    (hstack : w.stack = .closing container :: rest) : Ends rest w.Closes w := by
  induction hn : w.mem.handler.count using Nat.strong_induction_on generalizing w with
  | _ n ih =>
    subst hn
    refine .later ⟨.closed 0, _, closeHooks_of_not_call trivial (by simp),
      (step_closing hstack).mpr ⟨0, rfl, rfl⟩⟩ fun i t _ ht => ?_
    obtain ⟨errno, rfl, rfl⟩ := (step_closing hstack).mp ht
    unfold closeNext
    cases hbegin : w.mem.begin? container with
    | none => exact .now ⟨rfl, .refl w⟩
    | some entry =>
      obtain ⟨key, c⟩ := entry
      have hp : w.mem.deref (.pointer container key c) = some c :=
        Memory.deref_pointer (Memory.begin?_eq_some hbegin)
      obtain ⟨hopen, hcut⟩ := hk _ c rfl hp
      have hturn := close_ends (w := { w with stack := .closing container :: rest }) hhooks hs hp
        errno
      refine hturn.bind ?_
      rintro t ⟨htstack, ht, hless⟩
      obtain ⟨hless, -⟩ := hless hopen hcut
      have hrest := ih _ hless (fun m hm => hhooks m (hm.trans hless)) (ht.steady hs)
        (ht.2.closable hk) htstack rfl
      exact hrest.mono fun u hu => ⟨hu.1, ht.trans hu.2⟩

theorem closings_ends {containers : List Container}
    (hhooks : ∀ m < w.mem.handler.count, HooksEnd m) (hs : w.mem.Steady)
    (hk : ∀ container ∈ containers, w.mem.Closable container)
    (hstack : w.stack = containers.map .closing ++ rest) : Ends rest w.Closes w := by
  induction containers generalizing w with
  | nil => exact .now ⟨hstack, .refl w⟩
  | cons container containers ih =>
    refine Discipline.Ends.seq (D := closing)
      (closing_ends hhooks hs (hk _ List.mem_cons_self) hstack) fun t ht (hclosed : w.Closes t) => ?_
    refine ih (fun m hm => hhooks m (hm.trans_le hclosed.2.count)) (hclosed.steady hs) ?_ ht
    exact fun k hmem => hclosed.2.closable (hk k (List.mem_cons_of_mem _ hmem))

theorem closeOwner_stack (w : World) (o : Owner) :
    w.closeOwner o = { w with stack := o.containers.map .closing ++ w.stack } := by
  cases o <;> rfl

theorem step_closes {call : Call} (hcall : call.closes ≠ []) (hstack : w.stack = .call call :: rest)
    (i : Input) : w.step i = some { w with stack := call.closes.map .closing ++ rest } := by
  cases call with
  | closeContainer container => simp only [step, hstack]; rfl
  | closeOwner o =>
    simp only [step, hstack, perform, closeOwner_stack]
    rfl
  | _ => exact absurd rfl hcall

theorem closes_ends {call : Call} (hhooks : ∀ m < w.mem.handler.count, HooksEnd m)
    (hs : w.mem.Steady) (hcall : call.closes ≠ [])
    (hk : ∀ container ∈ call.closes, w.mem.Closable container)
    (hstack : w.stack = .call call :: rest) : Ends rest w.Closes w := by
  have hstep := step_closes hcall hstack
  refine .later ⟨.go, _, closeHooks_of_not_call trivial (by simp), hstep _⟩ fun i t _ ht => ?_
  obtain rfl := Option.some.inj ((hstep i).symm.trans ht)
  exact closings_ends (w := { w with stack := call.closes.map .closing ++ rest }) hhooks hs hk rfl

theorem sent_closes (hp : w.mem.deref p = some c) {s : Sent SockPtr} (hraised : s.raised = false)
    (hconn : ∃ buffer, s.connection = { c with sendBuffer := buffer })
    (hhandler : s.handler = w.mem.handler ∨
      ∃ active, s.handler = w.mem.handler.socketWantWrite c.sock active)
    (taken : Bytes) (errno : Int) :
    (w.sent p s taken errno).stack = w.stack ∧ w.Closes (w.sent p s taken errno) := by
  obtain ⟨buffer, hconn⟩ := hconn
  obtain ⟨connection, handler, raised⟩ := s
  simp only at hraised hconn hhandler
  subst hraised hconn
  exact ⟨rfl, rfl, Memory.Closes.sent hp hhandler⟩

theorem send_ends {message : Bytes} (hp : w.mem.deref p = some c) (hsock : 0 ≤ c.sock)
    (hstack : w.stack = .call (.send p message) :: rest) : Ends rest w.Closes w := by
  refine Discipline.send_call (D := closing) hstack ⟨0, 0, ?_, by simp [canSend, hp, hsock]⟩
    fun result errno hok => ?_
  · exact closeHooks_of_not_call (show 0 ≤ toInt 0 by decide) (by simp)
  · have hresult : 0 ≤ toInt result := hok.1
    have hraised := c.send_not_raised w.mem.handler message hresult
    obtain ⟨hconn, hhandler⟩ := c.send_frame w.mem.handler message result
    rw [send, access_some (w := { w with stack := rest }) hp]
    exact .now (sent_closes (w := { w with stack := rest }) hp hraised hconn hhandler _ _)

theorem sendFlush_ends (hp : w.mem.deref p = some c) (hsock : 0 ≤ c.sock)
    (hstack : w.stack = .call (.sendFlush p) :: rest) : Ends rest w.Closes w := by
  refine Discipline.sendFlush_call (D := closing) hstack ⟨0, 0, ?_, by simp [canSend, hp, hsock]⟩
    fun result errno hok => ?_
  · exact closeHooks_of_not_call (show 0 ≤ toInt 0 by decide) (by simp)
  · have hresult : 0 ≤ toInt result := hok.1
    have hraised := c.sendFlush_not_raised w.mem.handler hresult
    obtain ⟨hconn, hhandler⟩ := c.sendFlush_frame w.mem.handler result
    rw [sendFlush, access_some (w := { w with stack := rest }) hp]
    exact .now (sent_closes (w := { w with stack := rest }) hp hraised hconn hhandler _ _)

theorem call_ends {call : Call} (hhooks : ∀ m < w.mem.handler.count, HooksEnd m)
    (hs : w.mem.Steady) (hcallable : w.callable call = true) (hok : w.CloseHooks (.call call))
    (hstack : w.stack = .call call :: rest) : Ends rest w.Closes w := by
  obtain ⟨hcalm, hcloses⟩ := hok
  cases call with
  | close p =>
    obtain ⟨c, hp⟩ := Option.isSome_iff_exists.mp hcallable
    refine Discipline.close_call (D := closing) hstack (Nat.zero_le _) fun errno => ?_
    have hends := close_ends (w := { w with stack := rest }) hhooks hs hp errno
    exact hends.mono fun u hu => ⟨hu.1, hu.2.1⟩
  | closeContainer container =>
    exact closes_ends hhooks hs (by simp [Call.closes]) (hcloses _ rfl) hstack
  | closeOwner o =>
    have hne : (Call.closeOwner o).closes ≠ [] := by
      cases o <;> simp [Call.closes, Owner.containers]
    exact closes_ends hhooks hs hne (hcloses _ rfl) hstack
  | send p message =>
    obtain ⟨c, hp, hsock⟩ := hcalm
    exact send_ends hp hsock hstack
  | sendFlush p =>
    obtain ⟨c, hp, hsock⟩ := hcalm
    exact sendFlush_ends hp hsock hstack
  | _ => exact hcalm.elim

/-- Close hooks return: by induction on the number of registered sockets. -/
theorem hooks_end (n : Nat) : HooksEnd n := by
  induction n using Nat.strong_induction_on with
  | _ n ih =>
    intro w arg calls rest hs hcount hstack
    refine Discipline.hook_ends (D := closing) hstack (Nat.zero_le _)
      fun u call above _ hu hok hcallable => ?_
    have hhooks : ∀ m < u.mem.handler.count, HooksEnd m := fun m hm =>
      ih m (hm.trans_le (hu.2.count.trans hcount))
    exact call_ends (w := { u with stack := .call call :: above }) hhooks
      (Closes.steady (w := w) hu hs) (by cases call <;> exact hcallable) hok rfl

theorem steady_step (hs : w.Sound) (hm : w.mem.Steady) (h : w.step i = some w') :
    w'.mem.Steady := by
  rcases (step_move h).changes hs with hchanges | ⟨-, fd, hfd⟩
  · exact hchanges.steady hm
  · rw [hfd]
    exact ⟨hm.toSound.leaked fd, hm.erasesLast⟩

theorem steady_of_reach {owners : Owner → OwnerAction → Action Unit} {invalid : UShort}
    {ok : World → Input → Prop} (h : Machine.Reach step ok (start owners invalid) w) :
    w.mem.Steady := by
  have hinv : w.Sound ∧ w.mem.Steady := by
    apply h.invariant
    · exact ⟨start_sound owners invalid, Memory.empty_sound invalid,
        fun p c hp => by simp [start, Memory.empty, Memory.deref] at hp⟩
    · rintro u i v ⟨hs, hm⟩ - hstep
      exact ⟨(step_move hstep).sound hs, steady_step hs hm hstep⟩
  exact hinv.2

end World

end Unisock.Tcp
