import Unisock.Address.Resolve
import Unisock.Raw.Socket

/-! `udp::socket`: `open` and `bind`, and what is left of a `bind` that fails. -/

namespace Unisock.Udp

open Unisock.Address
open Unisock.Raw (SocketCall SocketEvent)

/-- A `raw::socket` with the address that it is bound to. -/
structure Socket (ρ : Type) where
  base : Raw.Socket ρ
  address : SocketAddress

/-- What the hooks of one action do: their calls of `open` and `close`, also those inside of a `bind`
or of further hooks, and what they assign to the address. -/
structure Hooks where
  calls : List SocketCall
  address : Option SocketAddress

/-- The arguments of `bind`, what the system does in it, and what the hooks do. -/
structure Attempt where
  port : Int
  useIPv6 : Bool
  /-- What `::socket` returns. -/
  opened : Except Int Int
  /-- The `ERROR` hooks after a failed `::socket`. -/
  openHooks : Hooks
  resolver : Resolver
  /-- `errno` when the address is not found. -/
  resolveErrno : Int
  /-- What `::bind` returns for an open socket. -/
  bound : Except Int Unit
  /-- The hooks of the `ERROR` or `BIND` action at the end. -/
  hooks : Hooks

/-- How `bind` ends. -/
inductive Bound (ρ : Type)
  /-- `return false`, where `ERROR` was executed with `fn` and `errno`. -/
  | failed (s : Socket ρ) (fn : String) (errno : Int)
  /-- `return true`, where `BIND` was executed with `address`. -/
  | bound (s : Socket ρ) (address : SocketAddress)
  /-- The assertion fails. -/
  | aborted
  /-- The pointer to the port is null. -/
  | nullPointer

def EBADF : Int := 9

namespace Socket

variable {ρ : Type}

/-- A call of `open` or `close` by a hook. -/
def call (this : ρ) (s : Raw.Socket ρ) : SocketCall → Raw.Socket ρ
  | .opened result => if s.sock < 0 then (s.openSocket this result).1 else s
  | .close => s.closeSocket

/-- In a sequence of such calls, `::socket` returns descriptors that are not open. -/
abbrev LegalCalls (this : ρ) : Raw.Socket ρ → List SocketCall → Prop :=
  Machine.Along (fun s c => some (call this s c)) Raw.Socket.Legal

def runHooks (s : Socket ρ) (this : ρ) (hooks : Hooks) : Socket ρ where
  base := hooks.calls.foldl (call this) s.base
  address := hooks.address.getD s.address

/-- `socket_impl::open`, with what it returns. -/
def openSocket (s : Socket ρ) (this : ρ) (result : Except Int Int) (hooks : Hooks) :
    Socket ρ × Bool :=
  if s.base.sock < 0 then
    match s.base.openSocket this result with
    | (base, true) => ({ s with base := base }, true)
    | (base, false) => ({ s with base := base }.runHooks this hooks, false)
  else (s, true)

/-- `::bind` in `socket::bind`. -/
def baseBind (s : Socket ρ) (bound : Except Int Unit) : Except Int Unit :=
  if s.base.sock < 0 then .error EBADF else bound

/-- `socket_impl::bind`.  What `open` returns is not looked at. -/
def bind (o : ByteOrder) (this : ρ) (s : Socket ρ) (a : Attempt) : Bound ρ :=
  if s.base.sock ≠ -1 then .aborted
  else
    let s := (s.openSocket this a.opened a.openHooks).1
    match resolveThenSetPort o a.resolver s.address (UInt16.ofInt a.port) a.useIPv6 with
    | .failed => .failed (s.runHooks this a.hooks) "addrinfo" a.resolveErrno
    | .value address =>
      let s := { s with address := address }
      match s.baseBind a.bound with
      | .error errno => .failed (s.runHooks this a.hooks) "bind" errno
      | .ok () => .bound (s.runHooks this a.hooks) s.address
    | .thrown _ | .nullPointer => .nullPointer

/-- An attempt that fails. -/
def failing (o : ByteOrder) (this : ρ) (s : Socket ρ) (a : Attempt) : Option (Socket ρ) :=
  match s.bind o this a with
  | .failed t _ _ => some t
  | _ => none

/-- The socket is closed, and the handler has no entry for it. -/
def Closed [DecidableEq ρ] (this : ρ) (s : Socket ρ) : Prop :=
  s.base.sock = -1 ∧ (s.base.handler.registrations.filter fun e => e.2 == this) = []

end Socket

/-- Every `::socket` that succeeds is followed by a call of `close`. -/
def ShutAgain (calls : List SocketCall) : Prop :=
  ∀ before fd after, calls = before ++ .opened (.ok fd) :: after → .close ∈ after

namespace Attempt

/-- What `open` and `close` do during the attempt. -/
def calls (a : Attempt) : List SocketCall :=
  .opened a.opened ::
    ((match a.opened with | .ok _ => [] | .error _ => a.openHooks.calls) ++ a.hooks.calls)

/-- `::socket` fails, or the hooks close the socket; and they do not leave it open again. -/
def LeavesClosed (a : Attempt) : Prop := ShutAgain a.calls

def Legal {ρ : Type} (this : ρ) (s : Socket ρ) (a : Attempt) : Prop :=
  Socket.LegalCalls this s.base a.calls

end Attempt

section Calls

variable {c : SocketCall} {calls : List SocketCall}

theorem shutAgain_cons :
    ShutAgain (c :: calls) ↔ (∀ fd, c = .opened (.ok fd) → .close ∈ calls) ∧ ShutAgain calls := by
  constructor
  · intro h
    refine ⟨fun fd hc => h [] fd calls (by rw [hc]; rfl), fun before fd after heq => ?_⟩
    exact h (c :: before) fd after (by rw [heq]; rfl)
  · rintro ⟨hfirst, hrest⟩ before fd after heq
    cases before with
    | nil =>
      obtain ⟨hc, rfl⟩ := List.cons.inj heq
      exact hfirst fd hc
    | cons d before =>
      obtain ⟨-, heq⟩ := List.cons.inj heq
      exact hrest before fd after heq

variable {ρ : Type} {this : ρ} {s : Raw.Socket ρ}

theorem call_close_lt : (Socket.call this s .close).sock < 0 := by
  by_cases hclosed : s.sock < 0
  · rw [Socket.call, Raw.Socket.closeSocket_closed hclosed]
    exact hclosed
  · rw [Socket.call, Raw.Socket.closeSocket_open (by omega)]
    show (-1 : Int) < 0
    decide

theorem call_error_lt {errno : Int} :
    (Socket.call this s (.opened (.error errno))).sock < 0 ↔ s.sock < 0 := by
  by_cases hclosed : s.sock < 0
  · rw [Socket.call, if_pos hclosed]
    exact iff_of_true (show (-1 : Int) < 0 by decide) hclosed
  · rw [Socket.call, if_neg hclosed]

theorem call_ok_nonneg {fd : Int} (hfd : 0 ≤ fd) :
    0 ≤ (Socket.call this s (.opened (.ok fd))).sock := by
  by_cases hclosed : s.sock < 0
  · rw [Socket.call, if_pos hclosed]
    exact hfd
  · rw [Socket.call, if_neg hclosed]
    omega

/-- The socket is closed after these calls exactly if it was closed before or has been closed, and
every `::socket` that succeeded is followed by a `close`. -/
theorem closed_after_iff (hlegal : Socket.LegalCalls this s calls) :
    (calls.foldl (Socket.call this) s).sock < 0 ↔
      (s.sock < 0 ∨ .close ∈ calls) ∧ ShutAgain calls := by
  induction calls generalizing s with
  | nil => simp [ShutAgain]
  | cons c calls ih =>
    obtain ⟨hc, hlegal⟩ := hlegal
    rw [List.foldl_cons, ih (hlegal _ rfl), shutAgain_cons]
    cases c with
    | close => simp [call_close_lt]
    | opened result =>
      cases result with
      | error errno => simp [call_error_lt]
      | ok fd =>
        have hopen : ¬ (Socket.call this s (.opened (.ok fd))).sock < 0 :=
          not_lt.mpr (call_ok_nonneg hc.1)
        simp only [hopen, false_or, List.mem_cons, reduceCtorEq, SocketCall.opened.injEq,
          Except.ok.injEq, forall_eq']
        tauto

variable [DecidableEq ρ]

/-- What holds of the object between calls. -/
structure Kept (this : ρ) (s : Raw.Socket ρ) : Prop where
  sane : s.Sane
  registered : s.Registered this
  sock : s.sock = -1 ∨ 0 ≤ s.sock

theorem Kept.call (h : Kept this s) (hlegal : s.Legal c) : Kept this (Socket.call this s c) := by
  cases c with
  | close =>
    have hstep : s.step this .close = some (Socket.call this s .close) := rfl
    refine ⟨Raw.Socket.step_sane h.sane hlegal hstep,
      Raw.Socket.registered_close h.sane h.registered, ?_⟩
    by_cases hclosed : s.sock < 0
    · rw [Socket.call, Raw.Socket.closeSocket_closed hclosed]
      exact h.sock
    · rw [Socket.call, Raw.Socket.closeSocket_open (by omega)]
      exact .inl rfl
  | opened result =>
    by_cases hclosed : s.sock < 0
    · rw [Socket.call, if_pos hclosed]
      have hstep : s.step this (.opened result) = some (s.openSocket this result).1 := rfl
      refine ⟨Raw.Socket.step_sane h.sane hlegal hstep,
        (Raw.Socket.step_registered_iff h.sane hlegal h.registered hstep).mpr hclosed, ?_⟩
      cases result with
      | error errno => exact .inl rfl
      | ok fd => exact .inr hlegal.1
    · rw [Socket.call, if_neg hclosed]
      exact h

theorem Kept.foldl (h : Kept this s) (hlegal : Socket.LegalCalls this s calls) :
    Kept this (calls.foldl (Socket.call this) s) := by
  induction calls generalizing s with
  | nil => exact h
  | cons c calls ih => exact ih (h.call hlegal.1) (hlegal.2 _ rfl)

end Calls

section Attempts

variable {ρ : Type} {o : ByteOrder} {this : ρ} {s t : Socket ρ} {a : Attempt} {fn : String}
  {errno : Int}

theorem openSocket_base (hclosed : s.base.sock = -1) (result : Except Int Int) (hooks : Hooks) :
    (s.openSocket this result hooks).1.base =
      (SocketCall.opened result :: match result with
        | .ok _ => []
        | .error _ => hooks.calls).foldl (Socket.call this) s.base := by
  have hlt : s.base.sock < 0 := by omega
  cases result with
  | ok fd => simp [Socket.openSocket, Raw.Socket.openSocket, Socket.call, hlt]
  | error errno =>
    simp [Socket.openSocket, Raw.Socket.openSocket, Socket.call, Socket.runHooks, hlt]

theorem bind_aborted_iff : s.bind o this a = .aborted ↔ s.base.sock ≠ -1 := by
  refine ⟨fun h hclosed => ?_, fun h => if_pos h⟩
  simp only [Socket.bind, hclosed, ne_eq, not_true_eq_false, if_false] at h
  split at h
  · exact absurd h (by simp)
  · split at h
    · exact absurd h (by simp)
    · exact absurd h (by simp)
  · exact absurd h (by simp)
  · exact absurd h (by simp)

/-- What a failed `bind` has done to the socket. -/
theorem bind_failed (h : s.bind o this a = .failed t fn errno) :
    s.base.sock = -1 ∧ t.base = a.calls.foldl (Socket.call this) s.base := by
  by_cases hclosed : s.base.sock = -1
  · refine ⟨hclosed, ?_⟩
    have hcalls : a.calls.foldl (Socket.call this) s.base = a.hooks.calls.foldl (Socket.call this)
        (s.openSocket this a.opened a.openHooks).1.base := by
      rw [openSocket_base hclosed, ← List.foldl_append]
      rfl
    rw [hcalls]
    simp only [Socket.bind, hclosed, ne_eq, not_true_eq_false, if_false] at h
    split at h
    · injection h with h
      rw [← h]
      rfl
    · split at h
      · injection h with h
        rw [← h]
        rfl
      · exact absurd h (by simp)
    · exact absurd h (by simp)
    · exact absurd h (by simp)
  · rw [bind_aborted_iff.mpr hclosed] at h
    exact absurd h (by simp)

variable [DecidableEq ρ]

/-- A failed `bind` leaves the object closed or open, with an entry accordingly. -/
theorem failing_spec (hk : Kept this s.base) (hlegal : a.Legal this s)
    (h : s.failing o this a = some t) :
    s.base.sock = -1 ∧ Kept this t.base ∧ (t.base.sock = -1 ↔ a.LeavesClosed) := by
  unfold Socket.failing at h
  split at h
  · next u fn errno hbind =>
    obtain rfl := Option.some.inj h
    obtain ⟨hclosed, hbase⟩ := bind_failed hbind
    have hkept := hk.foldl hlegal
    have hiff := closed_after_iff hlegal
    rw [← hbase] at hkept hiff
    have hlt : s.base.sock < 0 := by omega
    have hsock : u.base.sock = -1 ↔ u.base.sock < 0 := by
      have := hkept.sock
      omega
    refine ⟨hclosed, hkept, hsock.trans (hiff.trans ?_)⟩
    simp [hlt, Attempt.LeavesClosed]
  · exact absurd h (by simp)

theorem Kept.closed (hk : Kept this s.base) (hclosed : s.base.sock = -1) : s.Closed this := by
  refine ⟨hclosed, ?_⟩
  rw [hk.registered.entry, if_neg (by omega)]

theorem Kept.run (hk : Kept this s.base) {attempts : List Attempt}
    (hlegal : Machine.Along (Socket.failing o this) (fun s a => a.Legal this s) s attempts)
    (hfailed : Machine.run (Socket.failing o this) s attempts = some t) : Kept this t.base := by
  induction attempts generalizing s with
  | nil =>
    obtain rfl := Option.some.inj hfailed
    exact hk
  | cons a attempts ih =>
    obtain ⟨u, hu, hfailed⟩ := Option.bind_eq_some_iff.mp hfailed
    exact ih (failing_spec hk hlegal.1 hu).2.1 (hlegal.2 u hu) hfailed

/-- The attempts before the last one have left the socket closed, since the next one did not abort. -/
theorem closed_iff (hk : Kept this s.base) (hclosed : s.base.sock = -1) {attempts : List Attempt}
    (hlegal : Machine.Along (Socket.failing o this) (fun s a => a.Legal this s) s attempts)
    (hfailed : Machine.run (Socket.failing o this) s attempts = some t) :
    t.base.sock = -1 ↔ ∀ a ∈ attempts, a.LeavesClosed := by
  induction attempts generalizing s with
  | nil =>
    obtain rfl := Option.some.inj hfailed
    exact iff_of_true hclosed (by simp)
  | cons a attempts ih =>
    obtain ⟨u, hu, hfailed⟩ := Option.bind_eq_some_iff.mp hfailed
    obtain ⟨-, hkept, hleaves⟩ := failing_spec hk hlegal.1 hu
    rw [List.forall_mem_cons, ← hleaves]
    by_cases hnext : u.base.sock = -1
    · rw [ih hkept hnext (hlegal.2 u hu) hfailed]
      simp [hnext]
    · cases attempts with
      | nil =>
        obtain rfl := Option.some.inj hfailed
        simp
      | cons b attempts =>
        obtain ⟨v, hv, -⟩ := Option.bind_eq_some_iff.mp hfailed
        exact absurd (failing_spec hkept (hlegal.2 u hu).1 hv).1 hnext

/-- After a sequence of attempts to bind a closed socket, all of which have failed, the socket is
closed, without an entry in the handler, and the assertion of a next attempt holds, exactly if in
each of the attempts every `::socket` that succeeded was followed by a `close` of a hook. -/
theorem retryable_iff (hs : s.base.Sane) (hreg : s.base.Registered this)
    (hclosed : s.base.sock = -1) {attempts : List Attempt}
    (hlegal : Machine.Along (Socket.failing o this) (fun s a => a.Legal this s) s attempts)
    (hfailed : Machine.run (Socket.failing o this) s attempts = some t) :
    (t.Closed this ∧ ∀ next, t.bind o this next ≠ .aborted) ↔ ∀ a ∈ attempts, a.LeavesClosed := by
  have hk : Kept this s.base := ⟨hs, hreg, .inl hclosed⟩
  rw [← closed_iff hk hclosed hlegal hfailed]
  constructor
  · intro h
    exact h.1.1
  · intro hend
    exact ⟨(hk.run hlegal hfailed).closed hend, fun next h => bind_aborted_iff.mp h hend⟩

end Attempts

/-- A socket that has not been opened. -/
def unbound : Socket Nat := ⟨Raw.Socket.unopened, .empty⟩

/-- An attempt to bind a host that is not found. -/
def unknownHost (opened : Except Int Int) (calls : List SocketCall) : Attempt where
  port := 8080
  useIPv6 := false
  opened := opened
  openHooks := ⟨[], none⟩
  resolver := fun _ _ => .error 8
  resolveErrno := 2
  bound := .ok ()
  hooks := ⟨calls, none⟩

/-- `::socket` fails in the first attempt, and the `ERROR` hook closes the socket in the second. -/
theorem retryable_iff_unknownHost : ∃ t : Socket Nat,
    Machine.run (Socket.failing .little 40) unbound
      [unknownHost (.error 24) [], unknownHost (.ok 4) [.close]] = some t ∧
    ((t.Closed 40 ∧ ∀ next, t.bind .little 40 next ≠ .aborted) ↔
      ∀ a ∈ [unknownHost (.error 24) [], unknownHost (.ok 4) [.close]], a.LeavesClosed) := by
  have hlegal : Machine.Along (Socket.failing .little 40) (fun s a => a.Legal 40 s) unbound
      [unknownHost (.error 24) [], unknownHost (.ok 4) [.close]] := by
    refine ⟨⟨trivial, fun _ _ => trivial⟩, fun u hu => ?_⟩
    obtain rfl := Option.some.inj hu
    exact ⟨⟨⟨by decide, by decide⟩, fun _ _ => ⟨trivial, fun _ _ => trivial⟩⟩, fun _ _ => trivial⟩
  exact ⟨_, rfl, retryable_iff Raw.Socket.unopened_sane Raw.Socket.unopened_registered rfl hlegal rfl⟩

/-- `::socket` succeeds and the host is not found: the socket stays open and registered, and the next
attempt aborts. -/
theorem unknown_host_stays_open : ¬ ∀ (o : ByteOrder) (this : Nat) (s t : Socket Nat)
    (attempts : List Attempt), s.base.Sane → s.base.Registered this → s.base.sock = -1 →
    Machine.Along (Socket.failing o this) (fun s a => a.Legal this s) s attempts →
    Machine.run (Socket.failing o this) s attempts = some t →
    t.Closed this ∧ ∀ next, t.bind o this next ≠ .aborted := by
  intro hall
  have hlegal : Machine.Along (Socket.failing .little 40) (fun s a => a.Legal 40 s) unbound
      [unknownHost (.ok 4) []] :=
    ⟨⟨⟨by decide, by decide⟩, fun _ _ => trivial⟩, fun _ _ => trivial⟩
  obtain ⟨-, hnext⟩ := hall .little 40 unbound _ _ Raw.Socket.unopened_sane
    Raw.Socket.unopened_registered rfl hlegal rfl
  exact hnext (unknownHost (.ok 4) []) rfl

end Unisock.Udp
