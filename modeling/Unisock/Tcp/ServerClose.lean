import Unisock.Tcp.CloseLoop
import Unisock.Tcp.Descriptors
import Unisock.Tcp.Installed

/-! `close` of a server or client whose hooks close single connections of it: which elements go away,
what is recorded of each of them, and that the handler keeps the entries of all other owners. -/

namespace Unisock.Tcp

open Unisock.Events

def Event.isWrote : Event → Bool
  | .wrote _ _ => true
  | _ => false

/-- What is recorded when `p` is closed and erased, the last event first. -/
def SockPtr.closing (p : SockPtr) : List Event :=
  [.erased p, .started p.container.owner p.container.endAction (.connection p), .shut p p.key,
    .removed p p.key]

/-- What closing looks at in a connection. -/
def Connection.fixed (c : Connection) : Int × Action Callback := (c.sock, c.actions .closed)

/-- The entries of the handler that are not of the owner. -/
def Memory.entriesOfOthers (m : Memory) (o : Owner) : List (Pollfd × SockPtr) :=
  m.handler.entries.filter fun e => e.2.container.owner ≠ o

namespace World

/-- From `s` to `t`, the open elements `gone` of the owner have been closed and erased, and nothing
else has changed but what its connections send. -/
structure Removes (o : Owner) (s t : Stored) (gone : List SockPtr) : Prop where
  owners : t.owners = s.owners
  nodup : gone.Nodup
  opened : ∀ p ∈ gone, p.container.owner = o ∧ ∃ c, s.mem.deref p = some c ∧ 0 ≤ c.sock
  erased : ∀ p ∈ gone, t.mem.deref p = none
  kept : ∀ p, p ∉ gone → (t.mem.deref p).map Connection.fixed = (s.mem.deref p).map Connection.fixed
  containers : ∀ container, container.owner ≠ o → t.mem.sockets container = s.mem.sockets container
  registrations : t.mem.handler.registrations =
    s.mem.handler.registrations.filter fun e => e.2 ∉ gone
  entries : t.mem.entriesOfOthers o = s.mem.entriesOfOthers o
  corresponds : s.mem.Corresponds → t.mem.Corresponds
  events : ∃ new, t.log = new ++ s.log ∧
    (new.filter fun e => !e.isWrote).Perm (gone.flatMap SockPtr.closing)

variable {o : Owner} {s t u : Stored} {gone gone' : List SockPtr} {p : SockPtr} {c : Connection}

/-- An element that is not gone has the fields that closing looks at. -/
theorem Removes.some_of_kept (h : Removes o s t gone) (hp : p ∉ gone)
    (hc : s.mem.deref p = some c) :
    ∃ c', t.mem.deref p = some c' ∧ c'.sock = c.sock ∧ c'.actions .closed = c.actions .closed := by
  have hkept := h.kept p hp
  rw [hc, Option.map_some, Option.map_eq_some_iff] at hkept
  obtain ⟨c', hc', heq⟩ := hkept
  obtain ⟨hsock, hlist⟩ := Prod.mk.inj heq
  exact ⟨c', hc', hsock, hlist⟩

theorem Removes.some_of_some (h : Removes o s t gone) {c' : Connection}
    (hc' : t.mem.deref p = some c') :
    p ∉ gone ∧
      ∃ c, s.mem.deref p = some c ∧ c'.sock = c.sock ∧ c'.actions .closed = c.actions .closed := by
  have hp : p ∉ gone := fun hp => absurd ((h.erased p hp).symm.trans hc') (by simp)
  have hkept := (h.kept p hp).symm
  rw [hc', Option.map_some, Option.map_eq_some_iff] at hkept
  obtain ⟨c, hc, heq⟩ := hkept
  obtain ⟨hsock, hlist⟩ := Prod.mk.inj heq
  exact ⟨hp, c, hc, hsock.symm, hlist.symm⟩

theorem Removes.refl (o : Owner) (s : Stored) : Removes o s s [] where
  owners := rfl
  nodup := List.nodup_nil
  opened := by simp
  erased := by simp
  kept _ _ := rfl
  containers _ _ := rfl
  registrations := by simp
  entries := rfl
  corresponds := id
  events := ⟨[], rfl, .nil⟩

theorem Removes.trans (h : Removes o s t gone) (h' : Removes o t u gone') :
    Removes o s u (gone ++ gone') where
  owners := h'.owners.trans h.owners
  nodup := by
    refine List.nodup_append.mpr ⟨h.nodup, h'.nodup, fun p hp q hq heq => ?_⟩
    obtain ⟨-, c, hc, -⟩ := h'.opened q hq
    rw [← heq, h.erased p hp] at hc
    exact absurd hc (by simp)
  opened p hp := by
    rcases List.mem_append.mp hp with hp | hp
    · exact h.opened p hp
    · obtain ⟨howner, c', hc', hopen⟩ := h'.opened p hp
      obtain ⟨-, c, hc, hsock, -⟩ := h.some_of_some hc'
      exact ⟨howner, c, hc, hsock ▸ hopen⟩
  erased p hp := by
    by_cases hp' : p ∈ gone'
    · exact h'.erased p hp'
    · have hgone := h.erased p ((List.mem_append.mp hp).resolve_right hp')
      have hkept := h'.kept p hp'
      rw [hgone, Option.map_none, Option.map_eq_none_iff] at hkept
      exact hkept
  kept p hp := by
    rw [List.mem_append, not_or] at hp
    exact (h'.kept p hp.2).trans (h.kept p hp.1)
  containers k hk := (h'.containers k hk).trans (h.containers k hk)
  registrations := by
    rw [h'.registrations, h.registrations, List.filter_filter]
    refine List.filter_congr fun e _ => ?_
    simp [Bool.and_comm]
  entries := h'.entries.trans h.entries
  corresponds hs := h'.corresponds (h.corresponds hs)
  events := by
    obtain ⟨new, hlog, hperm⟩ := h.events
    obtain ⟨new', hlog', hperm'⟩ := h'.events
    refine ⟨new' ++ new, by rw [hlog', hlog, List.append_assoc], ?_⟩
    rw [List.filter_append, List.flatMap_append]
    exact List.perm_append_comm.trans (hperm.append hperm')

/-! ### One element -/

theorem sockets_shut {container : Container} (hk : container ≠ p.container) :
    (s.shut p c).mem.sockets container = s.mem.sockets container :=
  Function.update_of_ne hk ..

theorem sockets_erase {container : Container} (hk : container ≠ p.container) :
    (s.erase p).mem.sockets container = s.mem.sockets container :=
  Function.update_of_ne hk ..

theorem entries_shut (hs : s.mem.Corresponds) (hp : s.mem.deref p = some c) (hopen : 0 ≤ c.sock) :
    (s.shut p c).mem.entriesOfOthers p.container.owner =
      s.mem.entriesOfOthers p.container.owner := by
  have hentries : (s.shut p c).mem.handler.entries =
      s.mem.handler.entries.eraseP fun e => e.1.fd == c.sock :=
    HandlerImpl.delSocket_entries hs.aligned c.sock
  rw [Memory.entriesOfOthers, Memory.entriesOfOthers, hentries]
  refine Parallel.filter_eraseP fun e he hfd => ?_
  have hown : e.2 = p := hs.entry_eq hp hopen he (by simpa using hfd)
  simp [hown]

/-- `close` on an open element of the owner, around what its hooks have removed. -/
theorem Removes.close (hs : s.mem.Corresponds) (hp : s.mem.deref p = some c) (hopen : 0 ≤ c.sock)
    (h : Removes p.container.owner (s.shut p c) t gone) :
    Removes p.container.owner s (t.erase p) (p :: gone) := by
  have hshut : (s.shut p c).mem.deref p = some { c with sock := -1 } :=
    (Memory.deref_closeSocket hp c.sock p).trans (if_pos rfl)
  have hother : ∀ q, q ≠ p → (s.shut p c).mem.deref q = s.mem.deref q := fun q hq =>
    (Memory.deref_closeSocket hp c.sock q).trans (if_neg hq)
  have hpgone : p ∉ gone := fun hmem => by
    obtain ⟨-, d, hd, hsock⟩ := h.opened p hmem
    obtain rfl := Option.some.inj (hshut.symm.trans hd)
    exact absurd hsock (by simp)
  obtain ⟨c', hc', hsock', -⟩ := h.some_of_kept hpgone hshut
  have herase : ∀ q, (t.erase p).mem.deref q = if q = p then none else t.mem.deref q :=
    Memory.deref_eraseSocket hc'
  exact {
    owners := h.owners
    nodup := List.nodup_cons.mpr ⟨hpgone, h.nodup⟩
    opened := fun q hq => by
      rcases List.mem_cons.mp hq with rfl | hq
      · exact ⟨rfl, c, hp, hopen⟩
      · obtain ⟨howner, d, hd, hd'⟩ := h.opened q hq
        have hne : q ≠ p := fun heq => hpgone (heq ▸ hq)
        exact ⟨howner, d, hother q hne ▸ hd, hd'⟩
    erased := fun q hq => by
      rw [herase]
      split
      · rfl
      · next hne => exact h.erased q ((List.mem_cons.mp hq).resolve_left hne)
    kept := fun q hq => by
      rw [List.mem_cons, not_or] at hq
      rw [herase, if_neg hq.1, h.kept q hq.2, hother q hq.1]
    containers := fun k hk => by
      have hne : k ≠ p.container := fun heq => hk (by rw [heq])
      rw [sockets_erase hne, h.containers k hk, sockets_shut hne]
    registrations := by
      have hregs : (s.shut p c).mem.handler.registrations =
          s.mem.handler.registrations.filter fun e => e.2 ≠ p := hs.registrations_closed hp hopen
      have hsame : (t.erase p).mem.handler.registrations = t.mem.handler.registrations := rfl
      rw [hsame, h.registrations, hregs, List.filter_filter]
      refine List.filter_congr fun e _ => ?_
      simp [Bool.and_comm]
    entries := by
      have hsame : (t.erase p).mem.entriesOfOthers p.container.owner =
          t.mem.entriesOfOthers p.container.owner := rfl
      rw [hsame, h.entries, entries_shut hs hp hopen]
    corresponds := fun _ => (h.corresponds (hs.closed hp hopen)).erased hc' (by rw [hsock']; simp)
    events := by
      obtain ⟨new, hlog, hperm⟩ := h.events
      have hkey : c.sock = p.key := hs.sock_eq hp hopen
      refine ⟨.erased p :: (new ++ [.started p.container.owner p.container.endAction
        (.connection p), .shut p p.key, .removed p p.key]), ?_, ?_⟩
      · have hlog' : (t.erase p).log = .erased p :: t.log := rfl
        rw [hlog', hlog, ← hkey]
        simp [Stored.shut]
      · have hevents : (Event.erased p :: (new ++ [.started p.container.owner
            p.container.endAction (.connection p), .shut p p.key, .removed p p.key])).filter
              (fun e => !e.isWrote) = .erased p :: ((new.filter fun e => !e.isWrote) ++
                [.started p.container.owner p.container.endAction (.connection p),
                  .shut p p.key, .removed p p.key]) := by
          simp [Event.isWrote]
        rw [hevents, List.flatMap_cons]
        refine .cons _ ?_
        exact List.perm_append_comm.trans (hperm.append_left _) }

/-- What `send` or `send_flush` without an error does to a connection of the owner. -/
theorem Removes.sent (hs : s.mem.Corresponds) (hp : s.mem.deref p = some c) (hopen : 0 ≤ c.sock)
    {buffer : List Bytes} {handler : Handler SockPtr} (hhandler : handler = s.mem.handler ∨
      ∃ active, handler = s.mem.handler.socketWantWrite c.sock active) (bytes : Bytes) :
    Removes p.container.owner s { s with
      mem := s.mem.sent p ⟨{ c with sendBuffer := buffer }, handler, false⟩
      log := .wrote p bytes :: s.log } [] := by
  have hderef : ∀ q, (s.mem.sent p ⟨{ c with sendBuffer := buffer }, handler, false⟩).deref q =
      if q = p then some { c with sendBuffer := buffer } else s.mem.deref q :=
    Memory.deref_modify hp (f := fun _ => { c with sendBuffer := buffer }) rfl
  have hwired := hs.wired (f := fun _ => { c with sendBuffer := buffer }) hp rfl rfl
  exact {
    owners := rfl
    nodup := List.nodup_nil
    opened := by simp
    erased := by simp
    kept := fun q _ => by
      rw [hderef]
      split
      · next hq => rw [hq, hp]; rfl
      · rfl
    containers := fun k hk => by
      have hne : k ≠ p.container := fun heq => hk (by rw [heq])
      exact Function.update_of_ne hne ..
    registrations := by
      have hall : (s.mem.handler.registrations.filter fun e => e.2 ∉ ([] : List SockPtr)) =
          s.mem.handler.registrations := by simp
      rw [hall]
      rcases hhandler with rfl | ⟨active, rfl⟩
      · rfl
      · exact HandlerImpl.socketWant_registrations ..
    entries := by
      rcases hhandler with rfl | ⟨active, rfl⟩
      · rfl
      · refine HandlerImpl.socketWant_filter
          (q := fun q : SockPtr => q.container.owner ≠ p.container.owner)
          (fun e he hfd => ?_) POLLOUT active
        simp [hs.entry_eq hp hopen he hfd]
    corresponds := fun _ => by
      rcases hhandler with rfl | ⟨active, rfl⟩
      · exact hwired
      · exact hwired.retuned (fun ha => HandlerImpl.socketWant_aligned ha ..)
          (HandlerImpl.socketWant_fds ..) (HandlerImpl.socketWant_registrations ..)
    events := ⟨[.wrote p bytes], rfl, by simp [Event.isWrote]⟩ }

/-! ### Hooks that close single connections -/

/-- Hooks open no sockets and close no containers: they close connections of the owner, and send on
those that are open, without an error. -/
def ClosesOwn (o : Owner) (w : World) : Input → Prop
  | .call (.close p) => p.container.owner = o
  | .call (.send p _) | .call (.sendFlush p) =>
    p.container.owner = o ∧ ∃ c, w.mem.deref p = some c ∧ 0 ≤ c.sock
  | .call _ => False
  | .sent result _ => 0 ≤ toInt result
  | _ => True

/-- The discipline of these hooks, until the stack is `base`. -/
def closingOwn (o : Owner) (base : List Frame) : Discipline where
  base := base.length
  ok u i := u.stack ≠ base ∧ ClosesOwn o u i
  effect s t := ∃ gone, Removes o s t gone
  internal w i hbase hi := by
    refine ⟨fun heq => hbase.ne' (congrArg List.length heq), ?_⟩
    cases i with
    | go | enter _ | ret _ | closed _ => trivial
    | _ => exact hi.elim
  refl s := ⟨[], .refl o s⟩
  trans := by
    rintro s t u ⟨gone, h⟩ ⟨gone', h'⟩
    exact ⟨gone ++ gone', h.trans h'⟩
  owners := by
    rintro s t ⟨gone, h⟩
    exact h.owners

/-- Every element of the owner has the `CLOSED` list that it was made with. -/
def Installed (o : Owner) (m : Memory) : Prop :=
  ∀ p c, p.container.owner = o → m.deref p = some c → c.actions .closed = p.container.installed

theorem Removes.installed (h : Removes o s t gone) (hs : Installed o s.mem) :
    Installed o t.mem := by
  intro p c' howner hc'
  obtain ⟨-, c, hc, -, hlist⟩ := h.some_of_some hc'
  exact hlist.trans (hs p c howner hc)

theorem Removes.count_le (h : Removes o s t gone) (hs : s.mem.Corresponds) :
    t.mem.handler.count ≤ s.mem.handler.count := by
  rw [hs.count, (h.corresponds hs).count, h.registrations]
  exact List.length_filter_le ..

section Ends

variable {w : World} {base rest : List Frame}

/-- Hooks that close single connections of the owner return, where at most `n` sockets are
registered. -/
def OwnHooksEnd (o : Owner) (base : List Frame) (n : Nat) : Prop :=
  ∀ w : World, w.mem.Corresponds → Installed o w.mem → w.mem.handler.count ≤ n →
    (closingOwn o base).HooksEnd w

/-- `close` on a connection of the owner ends: it has gone then, with those that its hooks closed. -/
theorem closeOwn_ends (hhooks : ∀ m < w.mem.handler.count, OwnHooksEnd p.container.owner base m)
    (hbase : base.length ≤ w.stack.length) (hw : w.mem.Corresponds)
    (hinst : Installed p.container.owner w.mem) (hp : w.mem.deref p = some c) (errno : Int) :
    (closingOwn p.container.owner base).Ends w.stack (fun t => ∃ gone,
      Removes p.container.owner w.stored t.stored gone ∧ (0 ≤ c.sock → p ∈ gone))
      (w.close p errno) := by
  by_cases hopen : 0 ≤ c.sock
  · have hclosed : (w.mem.closeSocket p c.sock).Corresponds := hw.closed hp hopen
    have hshut : (w.mem.closeSocket p c.sock).deref p = some { c with sock := -1 } :=
      (Memory.deref_closeSocket hp c.sock p).trans (if_pos rfl)
    have hinst' : Installed p.container.owner (w.mem.closeSocket p c.sock) := by
      intro q d howner hd
      rw [Memory.deref_closeSocket hp] at hd
      split at hd
      · next hq =>
        obtain rfl := Option.some.inj hd
        exact hq ▸ hinst p c rfl hp
      · exact hinst q d howner hd
    refine (Discipline.close_ends hbase hp hopen (hinst p c rfl hp) ?_ ?_ errno).mono ?_
    · rintro mid ⟨gone, hmid⟩
      have hpgone : p ∉ gone := fun hmem => by
        obtain ⟨-, d, hd, hsock⟩ := hmid.opened p hmem
        obtain rfl := Option.some.inj (hshut.symm.trans hd)
        exact absurd hsock (by simp)
      obtain ⟨c', hc', -, hlist⟩ := hmid.some_of_kept hpgone hshut
      exact ⟨c', hc', hlist.trans (hinst p c rfl hp)⟩
    · rintro t ht
      have hmem : t.mem = w.mem.closeSocket p c.sock := congrArg Stored.mem ht
      refine hhooks _ (hw.count_closeSocket hp hopen) t ?_ ?_ ?_
      · exact hmem ▸ hclosed
      · exact hmem ▸ hinst'
      · exact hmem ▸ le_rfl
    · rintro t ⟨hstack, mid, ⟨gone, hmid⟩, ht⟩
      refine ⟨hstack, p :: gone, ht ▸ hmid.close hw hp hopen, fun _ => List.mem_cons_self⟩
  · rw [close_closed hp (by omega)]
    exact .now ⟨rfl, [], .refl _ _, fun h => absurd h hopen⟩

theorem sentOwn_ends (hw : w.mem.Corresponds) (hp : w.mem.deref p = some c) (hopen : 0 ≤ c.sock)
    {sent : Sent SockPtr} (hraised : sent.raised = false)
    (hconn : ∃ buffer, sent.connection = { c with sendBuffer := buffer })
    (hhandler : sent.handler = w.mem.handler ∨
      ∃ active, sent.handler = w.mem.handler.socketWantWrite c.sock active)
    (taken : Bytes) (errno : Int) :
    (w.sent p sent taken errno).stack = w.stack ∧
      (closingOwn p.container.owner base).Leaves w (w.sent p sent taken errno) := by
  obtain ⟨buffer, hconn⟩ := hconn
  obtain ⟨connection, handler, raised⟩ := sent
  simp only at hraised hconn hhandler
  subst hraised hconn
  exact ⟨rfl, [], Removes.sent (s := w.stored) hw hp hopen hhandler taken⟩

theorem callOwn_ends {call : Call} (hhooks : ∀ m < w.mem.handler.count, OwnHooksEnd o base m)
    (hrest : base.length ≤ rest.length) (hw : w.mem.Corresponds) (hinst : Installed o w.mem)
    (hcallable : w.callable call = true) (hok : ClosesOwn o w (.call call))
    (hstack : w.stack = .call call :: rest) :
    (closingOwn o base).Ends rest ((closingOwn o base).Leaves w) w := by
  have habove : w.stack ≠ base := fun heq => by
    have hlength := congrArg List.length (hstack.symm.trans heq)
    simp only [List.length_cons] at hlength
    omega
  cases call with
  | close p =>
    obtain rfl : p.container.owner = o := hok
    obtain ⟨c, hp⟩ := Option.isSome_iff_exists.mp hcallable
    refine Discipline.close_call hstack hrest fun errno => ?_
    have hends := closeOwn_ends (w := { w with stack := rest }) hhooks hrest hw hinst hp errno
    refine hends.mono ?_
    rintro t ⟨ht, gone, hgone, -⟩
    exact ⟨ht, gone, hgone⟩
  | send p message =>
    obtain ⟨rfl, c, hp, hopen⟩ := hok
    refine Discipline.send_call hstack
      ⟨0, 0, ⟨habove, show 0 ≤ toInt 0 by decide⟩, by simp [canSend, hp, hopen]⟩
      fun result errno hok => ?_
    have hresult : 0 ≤ toInt result := hok.2
    have hraised := c.send_not_raised w.mem.handler message hresult
    obtain ⟨hconn, hhandler⟩ := c.send_frame w.mem.handler message result
    rw [send, access_some (w := { w with stack := rest }) hp]
    exact .now (sentOwn_ends (w := { w with stack := rest }) hw hp hopen hraised hconn hhandler _ _)
  | sendFlush p =>
    obtain ⟨rfl, c, hp, hopen⟩ := hok
    refine Discipline.sendFlush_call hstack
      ⟨0, 0, ⟨habove, show 0 ≤ toInt 0 by decide⟩, by simp [canSend, hp, hopen]⟩
      fun result errno hok => ?_
    have hresult : 0 ≤ toInt result := hok.2
    have hraised := c.sendFlush_not_raised w.mem.handler hresult
    obtain ⟨hconn, hhandler⟩ := c.sendFlush_frame w.mem.handler result
    rw [sendFlush, access_some (w := { w with stack := rest }) hp]
    exact .now (sentOwn_ends (w := { w with stack := rest }) hw hp hopen hraised hconn hhandler _ _)
  | _ => exact absurd hok id

/-- Such hooks return: by induction on the number of registered sockets, for each close takes one
away before its hooks run. -/
theorem ownHooks_end (o : Owner) (base : List Frame) (n : Nat) : OwnHooksEnd o base n := by
  induction n using Nat.strong_induction_on with
  | _ n ih =>
    intro w hw hinst hcount t arg calls rest hrest ht hstack
    refine Discipline.hook_ends hstack hrest fun u call above habove hu hok hcallable => ?_
    obtain ⟨gone, hgone⟩ := (closingOwn o base).trans ht hu
    have hle : u.mem.handler.count ≤ n := (hgone.count_le hw).trans hcount
    exact callOwn_ends (w := { u with stack := .call call :: above })
      (fun m hm => ih m (Nat.lt_of_lt_of_le hm hle)) habove (hgone.corresponds hw)
      (hgone.installed hinst) (by cases call <;> exact hcallable) hok.2 rfl

/-! ### The loops over the containers -/

def AllOpen (o : Owner) (m : Memory) : Prop :=
  ∀ p c, p.container.owner = o → m.deref p = some c → 0 ≤ c.sock

theorem Removes.allOpen (h : Removes o s t gone) (hs : AllOpen o s.mem) : AllOpen o t.mem := by
  intro p c' howner hc'
  obtain ⟨-, c, hc, hsock, -⟩ := h.some_of_some hc'
  rw [hsock]
  exact hs p c howner hc

def Emptied (container : Container) (m : Memory) : Prop :=
  ∀ p, p.container = container → m.deref p = none

theorem Removes.emptied (h : Removes o s t gone) {container : Container}
    (hs : Emptied container s.mem) : Emptied container t.mem := by
  intro p hp
  rw [Option.eq_none_iff_forall_ne_some]
  intro c' hc'
  obtain ⟨-, c, hc, -⟩ := h.some_of_some hc'
  exact absurd ((hs p hp).symm.trans hc) (by simp)

/-- The loop over a container empties it: each turn takes one element away, and hooks more. -/
theorem closingOwn_ends {container : Container} (howner : container.owner = o)
    (hrest : base.length ≤ rest.length) (hw : w.mem.Corresponds) (hinst : Installed o w.mem)
    (hopen : AllOpen o w.mem)
    (hstack : w.stack = .closing container :: rest) :
    (closingOwn o base).Ends rest
      (fun t => (closingOwn o base).Leaves w t ∧ Emptied container t.mem) w := by
  induction hn : w.mem.handler.count using Nat.strong_induction_on generalizing w with
  | _ n ih =>
    subst hn
    refine .later ⟨.closed 0, _, Discipline.ok_of_stack hstack hrest trivial,
      (step_closing hstack).mpr ⟨0, rfl, rfl⟩⟩ fun i t _ ht => ?_
    obtain ⟨errno, rfl, rfl⟩ := (step_closing hstack).mp ht
    unfold closeNext
    cases hbegin : w.mem.begin? container with
    | none => exact .now ⟨rfl, (closingOwn o base).refl _, Memory.begin?_eq_none hbegin⟩
    | some entry =>
      obtain ⟨key, c⟩ := entry
      have hp : w.mem.deref (.pointer container key c) = some c :=
        Memory.deref_pointer (Memory.begin?_eq_some hbegin)
      have hturn := closeOwn_ends (w := { w with stack := .closing container :: rest })
        (p := .pointer container key c) (fun m _ => ownHooks_end _ base m)
        (Nat.le_succ_of_le hrest) hw (show Installed container.owner w.mem from howner ▸ hinst) hp
        errno
      obtain rfl : container.owner = o := howner
      refine Machine.Inevitable.bind hturn ?_
      rintro t ⟨htstack, gone, hgone, hmem⟩
      have hgone : Removes container.owner w.stored t.stored gone := hgone
      have hless : t.mem.handler.count < w.mem.handler.count := by
        have hsock : 0 ≤ c.sock := hopen _ c rfl hp
        have hentry := hw.element _ c hp hsock
        have ht' : t.mem.Corresponds := hgone.corresponds hw
        have hregs : t.mem.handler.registrations =
          w.mem.handler.registrations.filter fun e => e.2 ∉ gone := hgone.registrations
        rw [hw.count, ht'.count, hregs]
        exact List.length_filter_lt_length_iff_exists.mpr ⟨_, hentry, by simp [hmem hsock]⟩
      have hrest := ih _ hless (hgone.corresponds hw) (hgone.installed hinst)
        (hgone.allOpen hopen) htstack rfl
      exact hrest.mono fun u hu =>
        ⟨hu.1, (closingOwn container.owner base).trans ⟨gone, hgone⟩ hu.2.1, hu.2.2⟩

theorem closingsOwn_ends {containers : List Container}
    (howner : ∀ container ∈ containers, container.owner = o) (hrest : base.length ≤ rest.length)
    (hw : w.mem.Corresponds) (hinst : Installed o w.mem) (hopen : AllOpen o w.mem)
    (hstack : w.stack = containers.map .closing ++ rest) :
    (closingOwn o base).Ends rest (fun t => (closingOwn o base).Leaves w t ∧
      ∀ container ∈ containers, Emptied container t.mem) w := by
  induction containers generalizing w with
  | nil => exact .now ⟨hstack, (closingOwn o base).refl _, by simp⟩
  | cons container containers ih =>
    have habove : base.length ≤ (containers.map Frame.closing ++ rest).length := by
      rw [List.length_append]
      omega
    have hfirst := closingOwn_ends (howner _ List.mem_cons_self) habove hw hinst hopen hstack
    refine hfirst.bind ?_
    rintro t ⟨htstack, ⟨gone, hgone⟩, hempty⟩
    have hrest := ih (fun k hk => howner k (List.mem_cons_of_mem _ hk)) (hgone.corresponds hw)
      (hgone.installed hinst) (hgone.allOpen hopen) htstack
    refine hrest.mono ?_
    rintro u ⟨hu, ⟨gone', hgone'⟩, hall⟩
    refine ⟨hu, ⟨_, hgone.trans hgone'⟩, fun k hk => ?_⟩
    rcases List.mem_cons.mp hk with rfl | hk
    · exact hgone'.emptied hempty
    · exact hall k hk

end Ends

/-! ### What `close` of a server leaves behind -/

/-- In a list of parts, an event of one part only. -/
theorem countP_flatMap_eq_one {α β : Type} {l : List α} (hnd : l.Nodup) {a : α} (ha : a ∈ l)
    {f : α → List β} {q : β → Bool} (hone : (f a).countP q = 1)
    (hzero : ∀ b ∈ l, b ≠ a → (f b).countP q = 0) : (l.flatMap f).countP q = 1 := by
  induction l with
  | nil => simp at ha
  | cons b l ih =>
    obtain ⟨hb, hl⟩ := List.nodup_cons.mp hnd
    rw [List.flatMap_cons, List.countP_append]
    rcases List.mem_cons.mp ha with rfl | ha
    · have hrest : (l.flatMap f).countP q = 0 := by
        rw [List.countP_eq_zero]
        intro x hx
        obtain ⟨d, hd, hx⟩ := List.mem_flatMap.mp hx
        have hne : d ≠ a := fun heq => hb (heq ▸ hd)
        exact List.countP_eq_zero.mp (hzero d (List.mem_cons_of_mem _ hd) hne) x hx
      rw [hone, hrest]
    · have hne : b ≠ a := fun heq => hb (heq ▸ ha)
      rw [hzero b List.mem_cons_self hne, ih hl ha fun d hd => hzero d (List.mem_cons_of_mem _ hd)]

/-- What `close` of the server brings about from `w` to `t`, where `new` is what it has logged. -/
structure ServerClosed (server : Nat) (w t : World) (new : List Event) : Prop where
  log : t.log = new ++ w.log
  clients : t.mem.sockets (.clients server) = ∅
  listeners : t.mem.sockets (.listeners server) = ∅
  /-- Each descriptor of the server is passed to `::close` once, and no other is. -/
  shut : ∀ p c, p.container.owner = .server server → w.mem.deref p = some c →
    new.countP (isShut c.sock) = 1
  shutOwn : ∀ p fd, .shut p fd ∈ new → p.container.owner = .server server ∧
    ∃ c, w.mem.deref p = some c ∧ c.sock = fd
  disconnected : ∀ p, p.container = .clients server → (w.mem.deref p).isSome →
    new.count (.started (.server server) .disconnect (.connection p)) = 1
  closed : ∀ p, p.container = .listeners server → (w.mem.deref p).isSome →
    new.count (.started (.server server) .closed (.connection p)) = 1
  /-- No other action is started. -/
  startedOwn : ∀ o action arg, .started o action arg ∈ new → o = .server server ∧
    ∃ p, p.container.owner = .server server ∧ (w.mem.deref p).isSome ∧
      action = p.container.endAction ∧ arg = .connection p
  /-- The handler keeps the entries of all other owners, as they are and in their order. -/
  entries : t.mem.handler.entries =
    w.mem.handler.entries.filter fun e => e.2.container.owner ≠ .server server
  others : ∀ container, container.owner ≠ .server server →
    t.mem.sockets container = w.mem.sockets container

section Conclusions

variable {w t : World} {new : List Event}

theorem mem_closing_of_mem (hperm : (new.filter fun e => !e.isWrote).Perm
    (gone.flatMap SockPtr.closing)) {e : Event} (he : e ∈ new) (hwrote : e.isWrote = false) :
    ∃ p ∈ gone, e ∈ p.closing := by
  have hmem : e ∈ new.filter fun e => !e.isWrote := List.mem_filter.mpr ⟨he, by simp [hwrote]⟩
  exact List.mem_flatMap.mp (hperm.mem_iff.mp hmem)

theorem sockets_eq_empty {m : Memory} {container : Container} (h : Emptied container m) :
    m.sockets container = ∅ := by
  rw [Std.ExtTreeMap.eq_empty_iff_forall_contains]
  intro key
  rw [Std.ExtTreeMap.contains_eq_isSome_getElem?, Option.isSome_eq_false_iff,
    Option.isNone_iff_eq_none, Option.eq_none_iff_forall_ne_some]
  intro c hc
  exact absurd ((h _ rfl).symm.trans (Memory.deref_pointer hc)) (by simp)

theorem Removes.mem_gone {o : Owner} (h : Removes o w.stored t.stored gone) {p : SockPtr}
    (hp : (w.mem.deref p).isSome) (hempty : t.mem.deref p = none) : p ∈ gone := by
  obtain ⟨c, hc⟩ := Option.isSome_iff_exists.mp hp
  by_contra hmem
  obtain ⟨c', hc', -⟩ := h.some_of_kept hmem hc
  exact absurd (hempty.symm.trans hc') (by simp)

/-- The descriptor of an element that has gone has been closed once. -/
theorem Removes.shut_once {o : Owner} (hw : w.mem.Corresponds)
    (h : Removes o w.stored t.stored gone)
    (hperm : (new.filter fun e => !e.isWrote).Perm (gone.flatMap SockPtr.closing))
    {p : SockPtr} {c : Connection} (hp : w.mem.deref p = some c) (hsock : 0 ≤ c.sock)
    (hmem : p ∈ gone) : new.countP (isShut c.sock) = 1 := by
  rw [countP_of_perm_filter hperm fun e he => by cases e <;> simp_all [isShut, Event.isWrote]]
  refine countP_flatMap_eq_one h.nodup hmem ?_ fun q hq hne => ?_
  · simp [SockPtr.closing, isShut, hw.sock_eq hp hsock]
  · obtain ⟨-, d, hd, hsock'⟩ := h.opened q hq
    have hqkey : q.key ≠ c.sock := fun heq =>
      hne (hw.registration_eq hp hsock (hw.element q d hd hsock') heq)
    simp [SockPtr.closing, isShut, hqkey]

/-- The last action of an element that has gone has been started once. -/
theorem Removes.ended_once {o : Owner} (h : Removes o w.stored t.stored gone)
    (hperm : (new.filter fun e => !e.isWrote).Perm (gone.flatMap SockPtr.closing))
    {p : SockPtr} (howner : p.container.owner = o) (hmem : p ∈ gone) :
    new.count (.started o p.container.endAction (.connection p)) = 1 := by
  rw [List.count, countP_of_perm_filter hperm (by simp [Event.isWrote])]
  refine countP_flatMap_eq_one h.nodup hmem ?_ fun q hq hne => ?_
  · simp [SockPtr.closing, howner]
  · simp [SockPtr.closing, hne]

/-- Once the containers of the owner are empty, all entries of the handler are those of others. -/
theorem entriesOfOthers_emptied {m : Memory} {o : Owner} (hm : m.Corresponds)
    (hempty : ∀ p, p.container.owner = o → m.deref p = none) :
    m.entriesOfOthers o = m.handler.entries := by
  rw [Memory.entriesOfOthers, List.filter_eq_self]
  intro e he
  obtain ⟨c, hc, -⟩ := hm.entry _ _ (HandlerImpl.mem_registrations he)
  rw [decide_eq_true_eq]
  exact fun howner => absurd ((hempty e.2 howner).symm.trans hc) (by simp)

theorem Removes.serverClosed {server : Nat} (hw : w.mem.Corresponds)
    (hopen : AllOpen (.server server) w.mem) (h : Removes (.server server) w.stored t.stored gone)
    (hclients : Emptied (.clients server) t.mem) (hlisteners : Emptied (.listeners server) t.mem) :
    ∃ new, ServerClosed server w t new := by
  obtain ⟨new, hlog, hperm⟩ := h.events
  -- every element of the server has gone
  have hempty : ∀ p, p.container.owner = .server server → t.mem.deref p = none := fun p howner =>
    (Container.owner_eq_server.mp howner).elim (hclients p) (hlisteners p)
  have hgone : ∀ p, p.container.owner = .server server → (w.mem.deref p).isSome → p ∈ gone :=
    fun p howner hp => h.mem_gone hp (hempty p howner)
  have hended : ∀ p, p.container.owner = .server server → (w.mem.deref p).isSome →
      new.count (.started (.server server) p.container.endAction (.connection p)) = 1 :=
    fun p howner hp => h.ended_once hperm howner (hgone p howner hp)
  exact ⟨new, {
    log := hlog
    clients := sockets_eq_empty hclients
    listeners := sockets_eq_empty hlisteners
    shut := fun p c howner hp => h.shut_once hw hperm hp (hopen p c howner hp)
      (hgone p howner (Option.isSome_of_eq_some hp))
    shutOwn := fun p fd hmem => by
      obtain ⟨q, hq, hevent⟩ := mem_closing_of_mem hperm hmem rfl
      simp only [SockPtr.closing, List.mem_cons, Event.shut.injEq, reduceCtorEq, false_or,
        List.not_mem_nil, or_false] at hevent
      obtain ⟨rfl, rfl⟩ := hevent
      obtain ⟨howner, c, hc, hsock⟩ := h.opened p hq
      exact ⟨howner, c, hc, hw.sock_eq hc hsock⟩
    disconnected := fun p hp hsome => by
      have hcount := hended p (congrArg Container.owner hp) hsome
      rw [hp] at hcount
      exact hcount
    closed := fun p hp hsome => by
      have hcount := hended p (congrArg Container.owner hp) hsome
      rw [hp] at hcount
      exact hcount
    startedOwn := fun o action arg hmem => by
      obtain ⟨q, hq, hevent⟩ := mem_closing_of_mem hperm hmem rfl
      simp only [SockPtr.closing, List.mem_cons, Event.started.injEq, reduceCtorEq, false_or,
        List.not_mem_nil, or_false] at hevent
      obtain ⟨rfl, rfl, rfl⟩ := hevent
      obtain ⟨howner, c, hc, -⟩ := h.opened q hq
      exact ⟨howner, q, howner, Option.isSome_of_eq_some hc, rfl, rfl⟩
    entries := (entriesOfOthers_emptied (h.corresponds hw) hempty).symm.trans h.entries
    others := h.containers }⟩

/-- `close` of a server returns, whatever hooks do that close single connections of the server, if
every element of its containers is open and has the `CLOSED` list that it was made with; then both
containers are empty, every descriptor of theirs has been closed once, `DISCONNECT` and `CLOSED` have
been started once for each element, and the handler keeps the entries of the other owners.  The hooks
may also send on open connections of the server, without an error; they register nothing, and leave
the connections of other owners alone. -/
theorem server_close {server : Nat} {rest : List Frame} (hw : w.mem.Corresponds)
    (hopen : ∀ p c, p.container.owner = .server server → w.mem.deref p = some c →
      0 ≤ c.sock ∧ c.actions .closed = p.container.installed)
    (hstack : w.stack = .call (.closeOwner (.server server)) :: rest) :
    Returns (ClosesOwn (.server server)) rest (fun t => ∃ new, ServerClosed server w t new) w := by
  have hallOpen : AllOpen (.server server) w.mem := fun p c howner hp => (hopen p c howner hp).1
  have hinst : Installed (.server server) w.mem := fun p c howner hp => (hopen p c howner hp).2
  have hcloses : (Call.closeOwner (.server server)).closes ≠ [] := by
    simp [Call.closes, Owner.containers]
  have hstep := step_closes hcloses hstack
  refine .later ⟨.go, _, ⟨by simp [hstack], trivial⟩, hstep _⟩ fun i t _ ht => ?_
  obtain rfl := Option.some.inj ((hstep i).symm.trans ht)
  have howner : ∀ container ∈ [Container.clients server, .listeners server],
      container.owner = .server server := by
    simp [Container.owner]
  have hends := closingsOwn_ends
    (w := { w with stack := [.closing (.clients server), .closing (.listeners server)] ++ rest })
    howner le_rfl hw hinst hallOpen rfl
  refine Machine.Inevitable.mono hends ?_
  rintro u ⟨hu, ⟨gone, hgone⟩, hempty⟩
  exact ⟨hu, Removes.serverClosed hw hallOpen hgone (hempty _ (by simp)) (hempty _ (by simp))⟩

end Conclusions

def endHooks : Owner → OwnerAction → Action Unit
  | .server 0, .disconnect | .server 0, .closed => [⟨(), ActionFlag.default⟩]
  | _, _ => []

/-- Every element of the container is open, with the `CLOSED` list that it was made with. -/
def untouched (m : Memory) (container : Container) : Bool :=
  (m.sockets container).toList.all fun e =>
    0 ≤ e.2.sock && e.2.actions .closed == container.installed

theorem of_untouched {m : Memory} {container : Container} (h : untouched m container = true)
    {p : SockPtr} {c : Connection} (hp : p.container = container) (hc : m.deref p = some c) :
    0 ≤ c.sock ∧ c.actions .closed = p.container.installed := by
  have hmem := Std.ExtTreeMap.mem_toList_iff_getElem?_eq_some.mpr (Memory.deref_eq_some.mp hc).1
  rw [hp] at hmem ⊢
  have hall := List.all_eq_true.mp h _ hmem
  simpa using hall

theorem server_close_accepted : ∃ w, Machine.run step (start endHooks 0) closeServer = some w ∧
    Returns (ClosesOwn (.server 0)) [] (fun t => ∃ new, ServerClosed 0 w t new) w := by
  have hend : (Machine.run step (start endHooks 0) closeServer).map (fun w =>
      (w.stack, untouched w.mem (.clients 0), untouched w.mem (.listeners 0))) =
        some ([.call (.closeOwner (.server 0))], true, true) := by decide
  obtain ⟨w, hw, hend⟩ := Option.map_eq_some_iff.mp hend
  simp only [Prod.mk.injEq] at hend
  obtain ⟨hstack, hclients, hlisteners⟩ := hend
  refine ⟨w, hw, server_close (registry_corresponds (.of_run (fun _ _ => trivial) hw)) ?_ hstack⟩
  intro p c howner hc
  rcases Container.owner_eq_server.mp howner with hp | hp
  · exact of_untouched hclients hp hc
  · exact of_untouched hlisteners hp hc

end World

end Unisock.Tcp
