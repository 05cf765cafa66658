import Mathlib.Data.List.Nodup
import Unisock.Lib.Machine
import Unisock.Tcp.Frames

/-! The handler against the containers: in every reachable state, its entries are the open elements
of all containers, each under its own descriptor. -/

namespace Unisock.Tcp

open Unisock.Events

namespace Memory

/-- The entries of the handler and the open elements of the containers correspond one to one. -/
structure Corresponds (m : Memory) : Prop where
  aligned : m.handler.Aligned
  nodup : m.handler.fds.Nodup
  entry : ∀ fd p, (fd, p) ∈ m.handler.registrations →
    ∃ c, m.deref p = some c ∧ p.key = fd ∧ c.sock = fd ∧ 0 ≤ c.sock
  element : ∀ p c, m.deref p = some c → 0 ≤ c.sock → (p.key, p) ∈ m.handler.registrations

/-- The invariant of the memory: besides the correspondence, registered descriptors are open, later
elements get later nodes, and only a `CLOSED` list erases its element. -/
structure Sound (m : Memory) : Prop extends Corresponds m where
  opened : ∀ fd ∈ m.handler.fds, fd ∈ m.descriptors
  node_lt : ∀ p c, m.deref p = some c → p.node < m.nextNode
  erases : ∀ p c action cb, m.deref p = some c → cb ∈ c.actions action → cb.exec = .erase →
    action = .closed ∧ cb.has ActionFlag.stopAfter = true

/-- `c'` has the `CLOSED` list of `c`, or one registration more. -/
def Registers (c c' : Connection) : Prop :=
  c'.actions .closed = c.actions .closed ∨ ∃ exec flags, exec.late = true ∧
    c'.actions .closed = (c.actions .closed).addCallback exec flags

/-- What a step does to the memory, apart from descriptors that no element gets. -/
inductive Change (m : Memory) : Memory → Prop
  | wired {p : SockPtr} {c : Connection} {f : Connection → Connection} (hp : m.deref p = some c)
      (hnode : (f c).node = c.node) (hsock : (f c).sock = c.sock)
      (herase : ∀ action cb, cb ∈ (f c).actions action → cb.exec = .erase →
        cb ∈ c.actions action) (hclosed : Registers c (f c)) : Change m (m.modify p f)
  | retuned {h : Handler SockPtr} (haligned : m.handler.Aligned → h.Aligned)
      (hfds : h.fds = m.handler.fds) (hregs : h.registrations = m.handler.registrations) :
      Change m { m with handler := h }
  | added {container : Container} {fd : Int} (hnonneg : 0 ≤ fd) (hfd : fd ∉ m.descriptors)
      (hfree : (m.sockets container).contains fd = false) :
      Change m ((m.openFd fd).addElement container fd)
  | closed {p : SockPtr} {c : Connection} (hp : m.deref p = some c) (hsock : 0 ≤ c.sock) :
      Change m (m.closeSocket p c.sock)
  | erased {p : SockPtr} {c : Connection} (hp : m.deref p = some c) (hsock : c.sock < 0) :
      Change m (m.eraseSocket p.container p.key)

/-- Changes one after the other. -/
abbrev Changes : Memory → Memory → Prop := Relation.ReflTransGen Change

/-- No element comes back, and no closed socket opens again. -/
structure Ages (m m' : Memory) : Prop where
  nextNode_le : m.nextNode ≤ m'.nextNode
  deref : ∀ p c', p.node < m.nextNode → m'.deref p = some c' →
    ∃ c, m.deref p = some c ∧ (c'.sock = c.sock ∨ c'.sock < 0)

variable {m m' m'' : Memory}

theorem Ages.refl (m : Memory) : m.Ages m := ⟨le_rfl, fun _ c' _ h => ⟨c', h, .inl rfl⟩⟩

theorem Ages.trans (h : m.Ages m') (h' : m'.Ages m'') : m.Ages m'' := by
  refine ⟨h.nextNode_le.trans h'.nextNode_le, fun p c'' hp hc'' => ?_⟩
  obtain ⟨c', hc', hsock'⟩ := h'.deref p c'' (hp.trans_le h.nextNode_le) hc''
  obtain ⟨c, hc, hsock⟩ := h.deref p c' hp hc'
  refine ⟨c, hc, ?_⟩
  rcases hsock' with hsock' | hneg
  · rwa [hsock']
  · exact .inr hneg

theorem Change.ages (h : Change m m') : m.Ages m' := by
  cases h with
  | wired hp hnode hsock _ _ =>
    refine ⟨le_rfl, fun q c' _ hq => ?_⟩
    rw [deref_modify hp hnode] at hq
    split at hq
    · next hqp =>
      obtain rfl := Option.some.inj hq
      exact ⟨_, hqp ▸ hp, .inl hsock⟩
    · exact ⟨c', hq, .inl rfl⟩
  | retuned _ _ _ => exact ⟨le_rfl, fun q c' _ hq => ⟨c', hq, .inl rfl⟩⟩
  | @added container fd _ _ hfree =>
    refine ⟨Nat.le_succ _, fun q c' hlt hq => ?_⟩
    rw [deref_addElement (m := m.openFd fd) hfree] at hq
    split at hq
    · next hnew =>
      rw [hnew] at hlt
      exact absurd hlt (lt_irrefl m.nextNode)
    · exact ⟨c', hq, .inl rfl⟩
  | closed hp _ =>
    refine ⟨le_rfl, fun q c' _ hq => ?_⟩
    rw [deref_closeSocket hp] at hq
    split at hq
    · next hqp =>
      obtain rfl := Option.some.inj hq
      exact ⟨_, hqp ▸ hp, .inr (by simp)⟩
    · exact ⟨c', hq, .inl rfl⟩
  | erased hp _ =>
    refine ⟨le_rfl, fun q c' _ hq => ?_⟩
    rw [deref_eraseSocket hp] at hq
    split at hq
    · exact absurd hq (by simp)
    · exact ⟨c', hq, .inl rfl⟩

theorem Changes.ages (h : Changes m m') : m.Ages m' := by
  induction h with
  | refl => exact .refl m
  | tail _ hc ih => exact ih.trans hc.ages

/-! ### Every change keeps the invariant -/

theorem Sound.node_ne (hs : m.Sound) {p : SockPtr} {c : Connection} (hp : m.deref p = some c)
    (container : Container) (fd : Int) : p ≠ m.newPtr container fd := fun h => by
  have hlt := hs.node_lt p c hp
  rw [h] at hlt
  exact lt_irrefl m.nextNode hlt

theorem Corresponds.sock_eq (hc : m.Corresponds) {p : SockPtr} {c : Connection}
    (hp : m.deref p = some c) (hopen : 0 ≤ c.sock) : c.sock = p.key := by
  obtain ⟨d, hd, -, hsock, -⟩ := hc.entry _ _ (hc.element p c hp hopen)
  obtain rfl : d = c := Option.some.inj (hd.symm.trans hp)
  exact hsock

theorem Corresponds.wired (hc : m.Corresponds) {p : SockPtr} {c : Connection}
    {f : Connection → Connection} (hp : m.deref p = some c) (hnode : (f c).node = c.node)
    (hsock : (f c).sock = c.sock) : (m.modify p f).Corresponds where
  aligned := hc.aligned
  nodup := hc.nodup
  entry fd q hq := by
    obtain ⟨d, hd, hkey, hfd, hopen⟩ := hc.entry fd q hq
    rw [deref_modify hp hnode]
    by_cases hqp : q = p
    · obtain rfl : d = c := Option.some.inj ((hqp ▸ hd).symm.trans hp)
      exact ⟨f d, by simp [hqp], hkey, hsock.trans hfd, hsock.symm ▸ hopen⟩
    · exact ⟨d, by simp [hqp, hd], hkey, hfd, hopen⟩
  element q d hd hopen := by
    rw [deref_modify hp hnode] at hd
    split at hd
    · next hqp =>
      obtain rfl := Option.some.inj hd
      exact hc.element q c (hqp ▸ hp) (hsock ▸ hopen)
    · exact hc.element q d hd hopen

theorem Corresponds.retuned (hc : m.Corresponds) {h : Handler SockPtr}
    (haligned : m.handler.Aligned → h.Aligned) (hfds : h.fds = m.handler.fds)
    (hregs : h.registrations = m.handler.registrations) :
    { m with handler := h }.Corresponds where
  aligned := haligned hc.aligned
  nodup := hfds ▸ hc.nodup
  entry fd q hq := hc.entry fd q (hregs ▸ hq)
  element q d hd hopen := hregs ▸ hc.element q d hd hopen

theorem Sound.wired (hs : m.Sound) {p : SockPtr} {c : Connection} {f : Connection → Connection}
    (hp : m.deref p = some c) (hnode : (f c).node = c.node) (hsock : (f c).sock = c.sock)
    (herase : ∀ action cb, cb ∈ (f c).actions action → cb.exec = .erase →
      cb ∈ c.actions action) : (m.modify p f).Sound where
  toCorresponds := hs.toCorresponds.wired hp hnode hsock
  opened := hs.opened
  node_lt q d hd := by
    rw [deref_modify hp hnode] at hd
    split at hd
    · next hqp => exact hs.node_lt q c (hqp ▸ hp)
    · exact hs.node_lt q d hd
  erases q d action cb hd hcb hexec := by
    rw [deref_modify hp hnode] at hd
    split at hd
    · next hqp =>
      obtain rfl := Option.some.inj hd
      exact hs.erases q c action cb (hqp ▸ hp) (herase action cb hcb hexec) hexec
    · exact hs.erases q d action cb hd hcb hexec

theorem Sound.retuned (hs : m.Sound) {h : Handler SockPtr}
    (haligned : m.handler.Aligned → h.Aligned) (hfds : h.fds = m.handler.fds)
    (hregs : h.registrations = m.handler.registrations) : { m with handler := h }.Sound where
  toCorresponds := hs.toCorresponds.retuned haligned hfds hregs
  opened fd hfd := hs.opened fd (hfds ▸ hfd)
  node_lt := hs.node_lt
  erases := hs.erases

theorem Sound.leaked (hs : m.Sound) (fd : Int) : (m.openFd fd).Sound where
  aligned := hs.aligned
  nodup := hs.nodup
  entry := hs.entry
  element := hs.element
  opened fd' hfd' := List.mem_cons_of_mem _ (hs.opened fd' hfd')
  node_lt := hs.node_lt
  erases := hs.erases

/-- A descriptor that is not registered, under a free key. -/
theorem Corresponds.added (hc : m.Corresponds) {container : Container} {fd : Int} (hnonneg : 0 ≤ fd)
    (hfd : fd ∉ m.handler.fds) (hfree : (m.sockets container).contains fd = false)
    (hnew : m.deref (m.newPtr container fd) = none) :
    ((m.openFd fd).addElement container fd).Corresponds := by
  have hregs : ((m.openFd fd).addElement container fd).handler.registrations =
      m.handler.registrations ++ [(fd, m.newPtr container fd)] :=
    HandlerImpl.addSocket_registrations hc.aligned fd _
  have haligned : ((m.openFd fd).addElement container fd).handler.Aligned :=
    HandlerImpl.addSocket_aligned hc.aligned fd _
  have hfds : ((m.openFd fd).addElement container fd).handler.fds = m.handler.fds ++ [fd] := by
    rw [← haligned.map_fst_registrations, hregs, List.map_append, hc.aligned.map_fst_registrations]
    rfl
  have hderef : ∀ q, ((m.openFd fd).addElement container fd).deref q =
      if q = m.newPtr container fd then some (Connection.inserted m.nextNode fd)
      else m.deref q := fun q => deref_addElement (m := m.openFd fd) hfree q
  exact {
    aligned := haligned
    nodup := by
      rw [hfds, List.nodup_append]
      refine ⟨hc.nodup, List.nodup_singleton fd, fun a ha b hb hab => ?_⟩
      rw [List.mem_singleton.mp hb] at hab
      exact hfd (hab ▸ ha)
    entry := fun fd' q hq => by
      rw [hregs, List.mem_append, List.mem_singleton] at hq
      rw [hderef]
      rcases hq with hq | hq
      · obtain ⟨d, hd, hrest⟩ := hc.entry fd' q hq
        have hne : q ≠ m.newPtr container fd := by
          rintro rfl
          exact absurd (hnew.symm.trans hd) (by simp)
        exact ⟨d, by rw [if_neg hne, hd], hrest⟩
      · obtain ⟨rfl, rfl⟩ := Prod.mk.inj hq
        exact ⟨_, if_pos rfl, rfl, rfl, hnonneg⟩
    element := fun q d hd hopen => by
      rw [hderef] at hd
      rw [hregs, List.mem_append, List.mem_singleton]
      split at hd
      · next hq => exact .inr (by rw [hq]; rfl)
      · exact .inl (hc.element q d hd hopen) }

theorem Sound.added (hs : m.Sound) {container : Container} {fd : Int} (hnonneg : 0 ≤ fd)
    (hfd : fd ∉ m.descriptors) (hfree : (m.sockets container).contains fd = false) :
    ((m.openFd fd).addElement container fd).Sound := by
  have hnew : m.deref (m.newPtr container fd) = none := by
    rw [Option.eq_none_iff_forall_ne_some]
    exact fun c hc => hs.node_ne hc container fd rfl
  have hderef : ∀ q, ((m.openFd fd).addElement container fd).deref q =
      if q = m.newPtr container fd then some (Connection.inserted m.nextNode fd)
      else m.deref q := fun q => deref_addElement (m := m.openFd fd) hfree q
  have hregs : ((m.openFd fd).addElement container fd).handler.registrations =
      m.handler.registrations ++ [(fd, m.newPtr container fd)] :=
    HandlerImpl.addSocket_registrations hs.aligned fd _
  have hc := hs.toCorresponds.added hnonneg (fun h => hfd (hs.opened fd h)) hfree hnew
  exact {
    toCorresponds := hc
    opened := fun fd' hfd' => by
      rw [← hc.aligned.map_fst_registrations, List.mem_map] at hfd'
      obtain ⟨⟨fd, q⟩, hentry, rfl⟩ := hfd'
      rw [hregs] at hentry
      rcases List.mem_append.mp hentry with hold | hadded
      · refine List.mem_cons_of_mem _ (hs.opened fd ?_)
        exact hs.aligned.map_fst_registrations ▸ List.mem_map_of_mem hold
      · rw [(Prod.mk.inj (List.mem_singleton.mp hadded)).1]
        exact List.mem_cons_self
    node_lt := fun q d hd => by
      rw [hderef] at hd
      split at hd
      · next hq => exact hq ▸ Nat.lt_succ_self m.nextNode
      · exact Nat.lt_succ_of_lt (hs.node_lt q d hd)
    erases := fun q d action cb hd hcb hexec => by
      rw [hderef] at hd
      split at hd
      · obtain rfl := Option.some.inj hd
        by_cases haction : action = .closed
        · subst haction
          obtain rfl := List.mem_singleton.mp (show cb ∈ [⟨.erase, _⟩] from hcb)
          exact ⟨rfl, by decide⟩
        · simp [Connection.inserted, Connection.on, haction] at hcb
      · exact hs.erases q d action cb hd hcb hexec }

theorem Corresponds.nodup_registrations (hc : m.Corresponds) :
    (m.handler.registrations.map Prod.fst).Nodup :=
  hc.aligned.map_fst_registrations ▸ hc.nodup

/-- Only the entry of an open element has its descriptor. -/
theorem Corresponds.registration_eq (hc : m.Corresponds) {p : SockPtr} {c : Connection}
    (hp : m.deref p = some c) (hopen : 0 ≤ c.sock) {e : Int × SockPtr}
    (he : e ∈ m.handler.registrations) (hfd : e.1 = c.sock) : e.2 = p :=
  congrArg Prod.snd (List.inj_on_of_nodup_map hc.nodup_registrations he
    (hc.element p c hp hopen) (hfd.trans (hc.sock_eq hp hopen)))

theorem Corresponds.entry_eq (hc : m.Corresponds) {p : SockPtr} {c : Connection}
    (hp : m.deref p = some c) (hopen : 0 ≤ c.sock) {e : Pollfd × SockPtr}
    (he : e ∈ m.handler.entries) (hfd : e.1.fd = c.sock) : e.2 = p :=
  hc.registration_eq hp hopen (HandlerImpl.mem_registrations he) hfd

theorem Corresponds.registrations_closed (hc : m.Corresponds) {p : SockPtr} {c : Connection}
    (hp : m.deref p = some c) (hopen : 0 ≤ c.sock) :
    (m.closeSocket p c.sock).handler.registrations =
      m.handler.registrations.filter fun e => e.2 ≠ p := by
  have hregs : (m.closeSocket p c.sock).handler.registrations =
      m.handler.registrations.eraseP fun e => e.1 == c.sock :=
    HandlerImpl.delSocket_registrations hc.aligned c.sock
  rw [hregs, Parallel.eraseP_key hc.nodup_registrations]
  refine List.filter_congr fun e he => ?_
  rw [decide_eq_decide, not_iff_not]
  constructor
  · exact hc.registration_eq hp hopen he
  · intro heq
    obtain ⟨-, -, hkey, -⟩ := hc.entry e.1 e.2 he
    rw [hc.sock_eq hp hopen, ← hkey, heq]

theorem Corresponds.closed (hc : m.Corresponds) {p : SockPtr} {c : Connection}
    (hp : m.deref p = some c) (hopen : 0 ≤ c.sock) : (m.closeSocket p c.sock).Corresponds := by
  have hregs := hc.registrations_closed hp hopen
  have haligned : (m.closeSocket p c.sock).handler.Aligned :=
    HandlerImpl.delSocket_aligned hc.aligned c.sock
  exact {
    aligned := haligned
    nodup := by
      rw [← haligned.map_fst_registrations, hregs]
      exact hc.nodup_registrations.sublist (List.filter_sublist.map _)
    entry := fun fd q hq => by
      rw [hregs, List.mem_filter, decide_eq_true_eq] at hq
      obtain ⟨d, hd, hrest⟩ := hc.entry fd q hq.1
      exact ⟨d, by rw [deref_closeSocket hp, if_neg hq.2, hd], hrest⟩
    element := fun q d hd hopen' => by
      rw [deref_closeSocket hp] at hd
      rw [hregs, List.mem_filter, decide_eq_true_eq]
      split at hd
      · obtain rfl := Option.some.inj hd
        exact absurd hopen' (by simp)
      · next hqp => exact ⟨hc.element q d hd hopen', hqp⟩ }

theorem Sound.closed (hs : m.Sound) {p : SockPtr} {c : Connection} (hp : m.deref p = some c)
    (hopen : 0 ≤ c.sock) : (m.closeSocket p c.sock).Sound := by
  have hc := hs.toCorresponds.closed hp hopen
  have hnode : ∀ q d', (m.closeSocket p c.sock).deref q = some d' →
      ∃ c', m.deref q = some c' ∧ d'.actions = c'.actions := fun q d' hq => by
    rw [deref_closeSocket hp] at hq
    split at hq
    · next hqp =>
      obtain rfl := Option.some.inj hq
      exact ⟨c, hqp ▸ hp, rfl⟩
    · exact ⟨d', hq, rfl⟩
  exact {
    toCorresponds := hc
    opened := fun fd hfd => by
      rw [← hc.aligned.map_fst_registrations, List.mem_map] at hfd
      obtain ⟨⟨fd, q⟩, he, rfl⟩ := hfd
      obtain ⟨d', hd', hkey, hsock, hopen'⟩ := hc.entry fd q he
      rw [hs.registrations_closed hp hopen, List.mem_filter, decide_eq_true_eq] at he
      have hin := hs.opened fd (hs.aligned.map_fst_registrations ▸ List.mem_map_of_mem he.1)
      refine List.mem_filter.mpr ⟨hin, ?_⟩
      -- the descriptor of `p` is that of no other element
      simp only [bne_iff_ne, ne_eq]
      exact fun heq => he.2 (hs.registration_eq hp hopen he.1 heq)
    node_lt := fun q d' hd' => by
      obtain ⟨c', hc', -⟩ := hnode q d' hd'
      exact hs.node_lt q c' hc'
    erases := fun q d' action cb hd' hcb hexec => by
      obtain ⟨c', hc', hact⟩ := hnode q d' hd'
      exact hs.erases q c' action cb hc' (hact ▸ hcb) hexec }

theorem Corresponds.erased (hc : m.Corresponds) {p : SockPtr} {c : Connection}
    (hp : m.deref p = some c) (hclosed : c.sock < 0) :
    (m.eraseSocket p.container p.key).Corresponds where
  aligned := hc.aligned
  nodup := hc.nodup
  entry fd q hq := by
    obtain ⟨d, hd, hkey, hfd, hopen⟩ := hc.entry fd q hq
    refine ⟨d, ?_, hkey, hfd, hopen⟩
    rw [deref_eraseSocket hp, if_neg, hd]
    rintro rfl
    obtain rfl : c = d := Option.some.inj (hp.symm.trans hd)
    omega
  element q d hd hopen := by
    rw [deref_eraseSocket hp] at hd
    exact hc.element q d (Option.ite_none_left_eq_some.mp hd).2 hopen

theorem Sound.erased (hs : m.Sound) {p : SockPtr} {c : Connection} (hp : m.deref p = some c)
    (hclosed : c.sock < 0) : (m.eraseSocket p.container p.key).Sound where
  toCorresponds := hs.toCorresponds.erased hp hclosed
  opened := hs.opened
  node_lt q d hd := by
    rw [deref_eraseSocket hp] at hd
    exact hs.node_lt q d (Option.ite_none_left_eq_some.mp hd).2
  erases q d action cb hd := by
    rw [deref_eraseSocket hp] at hd
    exact hs.erases q d action cb (Option.ite_none_left_eq_some.mp hd).2

theorem Change.sound (hs : m.Sound) (h : Change m m') : m'.Sound := by
  cases h with
  | wired hp hnode hsock herase _ => exact hs.wired hp hnode hsock herase
  | retuned haligned hfds hregs => exact hs.retuned haligned hfds hregs
  | added hnonneg hfd hfree => exact hs.added hnonneg hfd hfree
  | closed hp hsock => exact hs.closed hp hsock
  | erased hp hsock => exact hs.erased hp hsock

theorem Changes.sound (hs : m.Sound) (h : Changes m m') : m'.Sound := by
  induction h with
  | refl => exact hs
  | tail _ hc ih => exact hc.sound ih

theorem empty_sound (invalid : UShort) : (empty invalid).Sound where
  aligned := rfl
  nodup := List.nodup_nil
  entry fd q hq := absurd hq (by simp [empty, HandlerImpl.registrations])
  element q d hd := by simp [empty, deref] at hd
  opened fd hfd := absurd hfd (by simp [empty, HandlerImpl.fds])
  node_lt q d hd := by simp [empty, deref] at hd
  erases q d action cb hd := by simp [empty, deref] at hd

end Memory

namespace World

/-- The invariant of the machine: a `CLOSED` list is executed for a socket that is closed. -/
structure Sound (w : World) : Prop where
  mem : w.mem.Sound
  closing : ∀ e p, .execute e ∈ w.stack → e.list = .socket p .closed →
    p.node < w.mem.nextNode ∧ ∀ c, w.mem.deref p = some c → c.sock < 0

end World

theorem Connection.on_erase_mem {c : Connection} {action action' : SocketAction} {exec : Callback}
    {flags : UShort} {cb : ActionCallback Callback} (hexec : exec ≠ .erase)
    (hcb : cb ∈ (c.on action exec flags).actions action') (hcbe : cb.exec = .erase) :
    cb ∈ c.actions action' := by
  unfold Connection.on at hcb
  dsimp only at hcb
  split at hcb
  · rcases Action.mem_addCallback.mp hcb with rfl | hcb
    · exact absurd hcbe hexec
    · exact hcb
  · exact hcb

namespace World

variable {w w' : World} {i : Input}

/-- The step gets the descriptor `fd` from the system for `container`, where no element gets it: the
key is still taken, or it is the 0 that `make_socket` refuses for accepted sockets. -/
def Leaks (w : World) (i : Input) : Prop :=
  ∃ f rest container fd, w.stack = f :: rest ∧ f.target = some container ∧ w.Opens i fd ∧
    ((w.mem.sockets container).contains fd = true ∨ (fd = 0 ∧ ∃ s, container = .clients s))

theorem added_wired {container : Container} {fd : Int} {f : Connection → Connection}
    (hfree : (w.mem.sockets container).contains fd = false) (hopens : w.Opens i fd)
    (hnode : ∀ c, (f c).node = c.node) (hsock : ∀ c, (f c).sock = c.sock)
    (herase : ∀ c action cb, cb ∈ (f c).actions action → cb.exec = .erase →
      cb ∈ c.actions action) (hclosed : ∀ c, Memory.Registers c (f c)) :
    Memory.Changes w.mem (((w.mem.openFd fd).addElement container fd).modify
      (w.mem.newPtr container fd) f) := by
  have hnew : ((w.mem.openFd fd).addElement container fd).deref (w.mem.newPtr container fd) =
      some (Connection.inserted w.mem.nextNode fd) :=
    (Memory.deref_addElement (m := w.mem.openFd fd) hfree _).trans (if_pos rfl)
  refine .tail (.single (.added hopens.2.1 hopens.2.2 hfree)) ?_
  exact .wired hnew (hnode _) (hsock _) (herase _) (hclosed _)

theorem setUpWiring_erase (c : Connection) (action : SocketAction) (cb : ActionCallback Callback)
    (hcb : cb ∈ c.setUpWiring.actions action) (hexec : cb.exec = .erase) :
    cb ∈ c.actions action :=
  Connection.on_erase_mem (by simp) hcb hexec

theorem listenWiring_erase (c : Connection) (action : SocketAction) (cb : ActionCallback Callback)
    (hcb : cb ∈ c.listenWiring.actions action) (hexec : cb.exec = .erase) :
    cb ∈ c.actions action :=
  Connection.on_erase_mem (by simp) hcb hexec

theorem connectWiring_erase (c : Connection) (action : SocketAction)
    (cb : ActionCallback Callback) (hcb : cb ∈ c.connectWiring.actions action)
    (hexec : cb.exec = .erase) : cb ∈ c.actions action :=
  Connection.on_erase_mem (by simp) (Connection.on_erase_mem (by simp) hcb hexec) hexec

theorem acceptWiring_erase (c : Connection) (action : SocketAction) (cb : ActionCallback Callback)
    (hcb : cb ∈ c.acceptWiring.actions action) (hexec : cb.exec = .erase) :
    cb ∈ c.actions action := by
  have h := Connection.on_erase_mem (by simp) hcb hexec
  have h := Connection.on_erase_mem (by simp) h hexec
  have h := Connection.on_erase_mem (by simp) h hexec
  exact Connection.on_erase_mem (by simp) h hexec

/-- Every move changes the memory in the ways listed, or leaks a descriptor. -/
theorem Move.changes (hs : w.Sound) (h : Move w i w') :
    Memory.Changes w.mem w'.mem ∨ (w.Leaks i ∧ ∃ fd, w'.mem = w.mem.openFd fd) := by
  cases h with
  | called _ _ _ _ _ => exact .inl .refl
  | quiet _ _ _ _ _ _ _ => exact .inl .refl
  | skipped _ _ _ => exact .inl .refl
  | entered _ _ _ _ _ => exact .inl .refl
  | notify _ _ _ _ _ => exact .inl .refl
  | receive _ _ _ _ _ => exact .inl .refl
  | @erase e cb p list rest hstack hlist hcb _ hexec =>
    obtain ⟨c, hp, hget, -⟩ := current_mem hlist hcb
    obtain ⟨hclosed, -⟩ := hs.mem.erases p c list cb hp (List.mem_of_getElem? hget) hexec
    have hin : .execute e ∈ w.stack := hstack ▸ List.mem_cons_self
    have hsock := (hs.closing e p hin (hclosed ▸ hlist)).2 c hp
    exact .inl (.single (.erased hp hsock))
  | acted _ _ _ _ _ _ _ => exact .inl .refl
  | closed _ _ _ hp hsock _ => exact .inl (.single (.closed hp hsock))
  | failed _ _ _ _ => exact .inl .refl
  | made _ _ _ hopens hfree =>
    exact .inl (added_wired hfree hopens (fun _ => rfl) (fun _ => rfl) setUpWiring_erase
      fun _ => .inr ⟨_, _, rfl, rfl⟩)
  | accepted _ _ hopens hfree =>
    exact .inl (added_wired hfree hopens (fun _ => rfl) (fun _ => rfl) acceptWiring_erase
      fun _ => .inr ⟨_, _, rfl, rfl⟩)
  | leaked hstack htarget hopens htaken _ hw' =>
    refine .inr ⟨⟨_, _, _, _, hstack, htarget, hopens, htaken⟩, ?_⟩
    rcases hw' with ⟨k, rfl⟩ | ⟨o, arg, -, rfl⟩ <;> exact ⟨_, rfl⟩
  | finished _ hf hp =>
    rcases hf with ⟨-, rfl, -⟩ | ⟨-, rfl, -⟩
    · exact .inl (.single (.wired hp rfl rfl (listenWiring_erase _) (.inl rfl)))
    · exact .inl (.single (.wired hp rfl rfl (connectWiring_erase _) (.inl rfl)))
  | @wrote f p c buffer handler bytes rest _ _ hp hhandler =>
    refine .inl (.tail (.single (.wired (f := fun _ => { c with sendBuffer := buffer }) hp rfl rfl
      (fun _ _ h _ => h) (.inl rfl))) ?_)
    rcases hhandler with rfl | ⟨active, rfl⟩
    · exact .retuned id rfl rfl
    · exact .retuned (fun ha => HandlerImpl.socketWant_aligned ha ..)
        (HandlerImpl.socketWant_fds ..) (HandlerImpl.socketWant_registrations ..)
  | @hooked p c action flags rest _ hp =>
    have hclosed : Memory.Registers c (c.on action .user flags) := by
      by_cases haction : SocketAction.closed = action
      · exact .inr ⟨.user, flags, rfl, if_pos haction⟩
      · exact .inl (if_neg haction)
    exact .inl (.single (.wired hp rfl rfl (fun _ _ h he => Connection.on_erase_mem (by simp) h he)
      hclosed))
  | reported _ _ hlen =>
    exact .inl (.single (.retuned (fun ha => HandlerImpl.report_aligned ha hlen)
      (HandlerImpl.report_fds _ hlen) (HandlerImpl.report_registrations _ hlen)))

theorem Move.ages (hs : w.Sound) (h : Move w i w') : w.mem.Ages w'.mem := by
  rcases h.changes hs with hc | ⟨-, fd, hfd⟩
  · exact hc.ages
  · rw [hfd]
    exact ⟨le_rfl, fun p c' _ hp => ⟨c', hp, .inl rfl⟩⟩

theorem Move.sound (hs : w.Sound) (h : Move w i w') : w'.Sound where
  mem := by
    rcases h.changes hs with hc | ⟨-, fd, hfd⟩
    · exact hc.sound hs.mem
    · exact hfd ▸ hs.mem.leaked fd
  closing e p he hlist := by
    have hages := h.ages hs
    have old : ∀ e₀, .execute e₀ ∈ w.stack → e₀.list = .socket p .closed →
        p.node < w'.mem.nextNode ∧ ∀ c, w'.mem.deref p = some c → c.sock < 0 := fun e₀ he₀ hl => by
      obtain ⟨hnode, hsock⟩ := hs.closing e₀ p he₀ hl
      refine ⟨hnode.trans_le hages.nextNode_le, fun c' hc' => ?_⟩
      obtain ⟨c, hc, heq | hneg⟩ := hages.deref p c' hnode hc'
      · exact heq ▸ hsock c hc
      · exact hneg
    rcases h.origin he with hold | hbegins
    · exact old e hold hlist
    cases hbegins with
    | next hstack hnext _ _ =>
      exact old _ (hstack ▸ List.mem_cons_self) (by rw [hnext] at hlist; exact hlist)
    | owner howner _ _ _ => exact absurd (howner.symm.trans hlist) (by simp)
    | @socket q c action hq _ _ hp _ hclosed =>
      obtain ⟨rfl, rfl⟩ := ActionList.socket.inj (hq.symm.trans hlist)
      obtain ⟨-, hmem⟩ := hclosed rfl
      refine ⟨(hs.mem.node_lt q c hp).trans_le hages.nextNode_le, fun c' hc' => ?_⟩
      rw [hmem, Memory.deref_closeSocket hp, if_pos rfl] at hc'
      obtain rfl := Option.some.inj hc'
      simp

theorem start_sound (owners : Owner → OwnerAction → Action Unit) (invalid : UShort) :
    (start owners invalid).Sound where
  mem := Memory.empty_sound invalid
  closing e p he := absurd he (by simp [start])

/-- Any input is admitted. -/
def Any (_ : World) (_ : Input) : Prop := True

theorem sound_of_reach {owners : Owner → OwnerAction → Action Unit} {invalid : UShort}
    {ok : World → Input → Prop} (h : Machine.Reach step ok (start owners invalid) w) : w.Sound :=
  h.invariant (start_sound owners invalid) fun _ _ _ hs _ hstep => (step_move hstep).sound hs

/-- In every state of every run, in the middle of hooks too, the entries of the handler and the open
elements of the containers correspond one to one. -/
theorem registry_corresponds {owners : Owner → OwnerAction → Action Unit} {invalid : UShort}
    (h : Machine.Reach step Any (start owners invalid) w) : w.mem.Corresponds :=
  (sound_of_reach h).mem.toCorresponds

/-- A server that listens on descriptor 3 and accepts a connection on descriptor 4. -/
def acceptRun : List Input :=
  [.call (.listen 0), .opened (.ok 3), .setUp none, .go, .go, .call .poll, .polled 1 [POLLIN], .go, .go,
    .opened (.ok 4)]

theorem registry_corresponds_accept : ∃ w,
    Machine.run step (start (fun _ _ => []) 0) acceptRun = some w ∧ w.mem.Corresponds := by
  have hsome : (Machine.run step (start (fun _ _ => []) 0) acceptRun).isSome := by decide
  obtain ⟨w, hw⟩ := Option.isSome_iff_exists.mp hsome
  exact ⟨w, hw, registry_corresponds (.of_run (fun _ _ => trivial) hw)⟩

/-- The connection on descriptor 4 that `acceptRun` makes. -/
def accepted4 : SockPtr := { container := .clients 0, key := 4, node := 1 }

end World

end Unisock.Tcp
