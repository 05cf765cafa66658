import Unisock.Lib.Machine
import Unisock.Events.Handler

/-! `raw::socket`: the functions `open` and `close` that it has from `unisock::socket`, on one object
and the handler that it is registered on. -/

namespace Unisock.Raw

open Unisock.Events

/-- What an object does that can be seen from outside. -/
inductive SocketEvent
  /-- `::socket` returned this descriptor. -/
  | obtained (fd : Int)
  /-- `::close(fd)`. -/
  | shut (fd : Int)
  /-- `execute<ERROR>(fn, errno)`. -/
  | error (fn : String) (errno : Int)
  /-- `execute<CLOSED>()`. -/
  | closed
deriving DecidableEq, Repr

/-- An object with its handler and the open descriptors of the process.  The log has its last event
first. -/
structure Socket (ρ : Type) where
  sock : Int
  handler : Handler ρ
  descriptors : List Int
  log : List SocketEvent

/-- What is called on the object.  Hooks on `ERROR` and `CLOSED` run at the end of `open` and `close`,
so the calls that they make come after the call that runs them. -/
inductive SocketCall
  /-- `open`, where `::socket` returns a descriptor, or fails with an `errno`. -/
  | opened (result : Except Int Int)
  | close
deriving Repr

namespace Socket

variable {ρ : Type}

/-- `socket_base::open`, with what it returns. -/
def baseOpen (s : Socket ρ) : Except Int Int → Socket ρ × Bool
  | .error _ => ({ s with sock := -1 }, false)
  | .ok fd =>
    ({ s with sock := fd, descriptors := fd :: s.descriptors, log := .obtained fd :: s.log }, true)

/-- `socket_base::close`. -/
def baseClose (s : Socket ρ) : Socket ρ :=
  if s.sock < 0 then s
  else
    { s with
      sock := -1
      descriptors := s.descriptors.filter fun fd => fd != s.sock
      log := .shut s.sock :: s.log }

/-- `socket::open` on the object `this`, with what it returns. -/
def openSocket (s : Socket ρ) (this : ρ) : Except Int Int → Socket ρ × Bool
  | .error errno =>
    let s := (s.baseOpen (.error errno)).1
    ({ s with log := .error "socket" errno :: s.log }, false)
  | .ok fd =>
    let s := (s.baseOpen (.ok fd)).1
    ({ s with handler := s.handler.addSocket s.sock this }, true)

/-- `socket::close`. -/
def closeSocket (s : Socket ρ) : Socket ρ :=
  if s.sock < 0 then s
  else
    let s := { s with handler := s.handler.deleteSocket s.sock }.baseClose
    { s with log := .closed :: s.log }

def step (this : ρ) (s : Socket ρ) : SocketCall → Option (Socket ρ)
  | .opened result => some (s.openSocket this result).1
  | .close => some s.closeSocket

/-- `::socket` returns a descriptor that is not open. -/
def Legal (s : Socket ρ) : SocketCall → Prop
  | .opened (.ok fd) => 0 ≤ fd ∧ fd ∉ s.descriptors
  | .opened (.error _) | .close => True

/-- The handler has one entry for the object, under its descriptor, while it is open, and none while
it is closed; and every other descriptor that it obtained has been closed as often. -/
structure Registered [DecidableEq ρ] (this : ρ) (s : Socket ρ) : Prop where
  entry : (s.handler.registrations.filter fun e => e.2 == this) =
    if 0 ≤ s.sock then [(s.sock, this)] else []
  kept : ∀ fd, s.log.count (.obtained fd) =
    s.log.count (.shut fd) + if 0 ≤ s.sock ∧ fd = s.sock then 1 else 0

/-- Registered descriptors are open, and registered once. -/
structure Sane (s : Socket ρ) : Prop where
  aligned : s.handler.Aligned
  nodup : s.handler.fds.Nodup
  opened : ∀ fd ∈ s.handler.fds, fd ∈ s.descriptors

/-- `open` is called on a closed object only. -/
def OpensClosed (s : Socket ρ) : SocketCall → Prop
  | .opened _ => s.sock < 0
  | .close => True

section Steps

variable {this : ρ} {s t : Socket ρ} {fd errno : Int}

theorem closeSocket_closed (hclosed : s.sock < 0) : s.closeSocket = s := if_pos hclosed

theorem closeSocket_open (hopen : 0 ≤ s.sock) : s.closeSocket =
    { sock := -1
      handler := s.handler.deleteSocket s.sock
      descriptors := s.descriptors.filter fun fd => fd != s.sock
      log := .closed :: .shut s.sock :: s.log } := by
  have hnot : ¬ s.sock < 0 := by omega
  simp [closeSocket, baseClose, hnot]

theorem Sane.registrations_keys (hs : s.Sane) :
    (s.handler.registrations.map Prod.fst).Nodup := by
  rw [hs.aligned.map_fst_registrations]
  exact hs.nodup

theorem registrations_close (hs : s.Sane) :
    (s.handler.deleteSocket s.sock).registrations =
      s.handler.registrations.eraseP fun e => e.1 == s.sock :=
  HandlerImpl.delSocket_registrations hs.aligned s.sock

/-- Legal calls keep the handler sane, whatever state the object is in. -/
theorem step_sane (hs : s.Sane) {c : SocketCall} (hlegal : s.Legal c)
    (h : s.step this c = some t) : t.Sane := by
  cases c with
  | opened result =>
    obtain rfl := Option.some.inj h
    cases result with
    | error errno => exact ⟨hs.aligned, hs.nodup, hs.opened⟩
    | ok fd =>
      obtain ⟨-, hfresh⟩ := hlegal
      have hfds : (s.handler.addSocket fd this).fds = s.handler.fds ++ [fd] := by
        simp [HandlerImpl.fds, Handler.addSocket, HandlerImpl.addSocket]
      refine ⟨HandlerImpl.addSocket_aligned hs.aligned fd this, ?_, fun d hd => ?_⟩
      · show (s.handler.addSocket fd this).fds.Nodup
        rw [hfds, List.nodup_append]
        refine ⟨hs.nodup, by simp, ?_⟩
        rintro d hd _ hlast rfl
        obtain rfl := List.mem_singleton.mp hlast
        exact hfresh (hs.opened _ hd)
      · have hd : d ∈ s.handler.fds ++ [fd] := hfds ▸ hd
        rcases List.mem_append.mp hd with hd | hd
        · exact List.mem_cons_of_mem _ (hs.opened d hd)
        · exact List.mem_singleton.mp hd ▸ List.mem_cons_self
  | close =>
    obtain rfl := Option.some.inj h
    by_cases hclosed : s.sock < 0
    · rw [closeSocket_closed hclosed]
      exact hs
    · rw [closeSocket_open (by omega)]
      have haligned : (s.handler.deleteSocket s.sock).Aligned :=
        HandlerImpl.delSocket_aligned hs.aligned s.sock
      have hfds : (s.handler.deleteSocket s.sock).fds =
          (s.handler.registrations.eraseP fun e => e.1 == s.sock).map Prod.fst := by
        rw [← haligned.map_fst_registrations, registrations_close hs]
      refine ⟨haligned, ?_, fun d hd => ?_⟩
      · show (s.handler.deleteSocket s.sock).fds.Nodup
        rw [hfds]
        exact hs.registrations_keys.sublist (List.eraseP_sublist.map _)
      · have hd : d ∈ (s.handler.registrations.eraseP fun e => e.1 == s.sock).map Prod.fst :=
          hfds ▸ hd
        obtain ⟨e, he, rfl⟩ := List.mem_map.mp hd
        obtain ⟨hmem, hne⟩ := (Parallel.mem_eraseP_key hs.registrations_keys).mp he
        have hreg : e.1 ∈ s.handler.fds := by
          rw [← hs.aligned.map_fst_registrations]
          exact List.mem_map_of_mem hmem
        exact List.mem_filter.mpr ⟨hs.opened _ hreg, by simpa using hne⟩

variable [DecidableEq ρ]

theorem registered_open_iff (hs : s.Sane) (hreg : s.Registered this) (hfd : 0 ≤ fd) :
    (s.openSocket this (.ok fd)).1.Registered this ↔ s.sock < 0 := by
  have hregs : (s.openSocket this (.ok fd)).1.handler.registrations =
      s.handler.registrations ++ [(fd, this)] :=
    HandlerImpl.addSocket_registrations hs.aligned fd this
  have hfilter : ((s.openSocket this (.ok fd)).1.handler.registrations.filter
      fun e => e.2 == this) = (if 0 ≤ s.sock then [(s.sock, this)] else []) ++ [(fd, this)] := by
    rw [hregs, List.filter_append, hreg.entry]
    simp
  constructor
  · intro h
    by_contra hopen
    have hentry := hfilter.symm.trans h.entry
    rw [if_pos (by omega), show (s.openSocket this (.ok fd)).1.sock = fd from rfl,
      if_pos hfd] at hentry
    exact absurd (congrArg List.length hentry) (by simp)
  · intro hclosed
    refine ⟨?_, fun d => ?_⟩
    · rw [hfilter, if_neg (by omega), show (s.openSocket this (.ok fd)).1.sock = fd from rfl,
        if_pos hfd]
      rfl
    · have hkept := hreg.kept d
      have hlog : (s.openSocket this (.ok fd)).1.log = .obtained fd :: s.log := rfl
      have hsock : (s.openSocket this (.ok fd)).1.sock = fd := rfl
      rw [if_neg (by omega)] at hkept
      rw [hlog, hsock, List.count_cons, List.count_cons]
      by_cases hd : d = fd
      · subst hd
        simp [hfd, hkept]
      · simp [hd, Ne.symm hd, hkept]

theorem registered_fail_iff (hreg : s.Registered this) :
    (s.openSocket this (.error errno)).1.Registered this ↔ s.sock < 0 := by
  have hhandler : (s.openSocket this (.error errno)).1.handler = s.handler := rfl
  have hsock : (s.openSocket this (.error errno)).1.sock = -1 := rfl
  constructor
  · intro h
    by_contra hopen
    have hentry := hreg.entry.symm.trans (hhandler ▸ h.entry)
    rw [hsock, if_pos (by omega), if_neg (by decide)] at hentry
    exact absurd hentry (by simp)
  · intro hclosed
    refine ⟨?_, fun d => ?_⟩
    · rw [hhandler, hreg.entry, hsock, if_neg (by omega), if_neg (by decide)]
    · have hkept := hreg.kept d
      have hlog : (s.openSocket this (.error errno)).1.log = .error "socket" errno :: s.log := rfl
      rw [if_neg (by omega)] at hkept
      rw [hlog, hsock, List.count_cons, List.count_cons]
      simpa using hkept

theorem registered_close (hs : s.Sane) (hreg : s.Registered this) :
    s.closeSocket.Registered this := by
  by_cases hclosed : s.sock < 0
  · rw [closeSocket_closed hclosed]
    exact hreg
  · have hopen : 0 ≤ s.sock := by omega
    have hentry := hreg.entry
    rw [if_pos hopen] at hentry
    rw [closeSocket_open hopen]
    refine ⟨?_, fun d => ?_⟩
    · simp only
      rw [registrations_close hs, if_neg (by decide), List.filter_eq_nil_iff]
      intro e he hthis
      obtain ⟨hmem, hne⟩ := (Parallel.mem_eraseP_key hs.registrations_keys).mp he
      have hself : e ∈ [(s.sock, this)] := hentry ▸ List.mem_filter.mpr ⟨hmem, hthis⟩
      exact hne (List.mem_singleton.mp hself ▸ rfl)
    · have hkept := hreg.kept d
      simp only [List.count_cons]
      by_cases hd : d = s.sock
      · subst hd
        simp_all
      · simp_all [Ne.symm hd]

theorem step_registered_iff (hs : s.Sane) {c : SocketCall} (hlegal : s.Legal c)
    (hreg : s.Registered this) (h : s.step this c = some t) :
    t.Registered this ↔ s.OpensClosed c := by
  cases c with
  | opened result =>
    obtain rfl := Option.some.inj h
    cases result with
    | error errno => exact registered_fail_iff hreg
    | ok fd => exact registered_open_iff hs hreg hlegal.1
  | close =>
    obtain rfl := Option.some.inj h
    exact iff_of_true (registered_close hs hreg) trivial

/-- Through a sequence of calls of `open` and `close`, the object has one entry in the handler while
it is open and none while it is closed, and every descriptor that it gave up has been closed, exactly
if `open` is only called while it is closed. -/
theorem registered_iff (hs : s.Sane) (hreg : s.Registered this) {calls : List SocketCall}
    (hlegal : Machine.Along (step this) Legal s calls) :
    Machine.Always (step this) (Registered this) s calls ↔
      Machine.Along (step this) OpensClosed s calls :=
  Machine.always_iff_along_legal
    (fun u c => by cases c <;> exact ⟨_, rfl⟩)
    (fun _ _ _ hu hc h => step_sane hu hc h)
    (fun _ _ _ hu hc hr h => step_registered_iff hu hc hr h) hs hreg hlegal

end Steps

/-- An object that has not been opened, on a handler with another one. -/
def unopened : Socket Nat where
  sock := -1
  handler := { sockets := [⟨3, POLLIN, 0⟩], socketPtrs := [30], invalid := 1 }
  descriptors := [0, 1, 2, 3]
  log := []

theorem unopened_sane : unopened.Sane := ⟨rfl, by decide, by decide⟩

theorem unopened_registered : unopened.Registered 40 := ⟨by decide, fun fd => by simp [unopened]⟩

/-- The object is opened, closed, and fails to open again. -/
def openCloseOpen : List SocketCall := [.opened (.ok 4), .close, .opened (.error 24)]

theorem registered_iff_unopened :
    Machine.Always (step 40) (Registered 40) unopened openCloseOpen ↔
      Machine.Along (step 40) OpensClosed unopened openCloseOpen := by
  refine registered_iff unopened_sane unopened_registered ⟨⟨by decide, by decide⟩, fun t ht => ?_⟩
  obtain rfl := Option.some.inj ht
  exact ⟨trivial, fun u hu => ⟨trivial, fun _ _ => trivial⟩⟩

/-- A second `open` leaves two entries for one object. -/
theorem reopen_keeps_entry : ¬ ∀ (this : Nat) (s : Socket Nat) (calls : List SocketCall), s.Sane →
    s.Registered this → Machine.Along (step this) Legal s calls →
    Machine.Always (step this) (Registered this) s calls := by
  intro hall
  have hlegal : Machine.Along (step 40) Legal unopened [.opened (.ok 4), .opened (.ok 5)] := by
    refine ⟨⟨by decide, by decide⟩, fun t ht => ?_⟩
    obtain rfl := Option.some.inj ht
    exact ⟨⟨by decide, by decide⟩, fun _ _ => trivial⟩
  obtain ⟨-, hrest⟩ := hall 40 unopened _ unopened_sane unopened_registered hlegal
  obtain ⟨-, hrest⟩ := hrest _ rfl
  exact absurd (hrest _ rfl).entry (by decide)

end Socket

end Unisock.Raw
