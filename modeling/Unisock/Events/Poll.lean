import Unisock.Events.Handler

/-! The loop of `poll_impl<POLL>`, one turn at a time: where it reads the vectors of the handler,
when it calls an object back, and when it leaves. -/

namespace Unisock.Events

/-- Where the loop stands: at its condition for the next entry, or right after `on_readable` or
`on_writeable` of the current one. -/
inductive PollPhase
  | entry
  | read
  | written
deriving DecidableEq, Repr

/-- The local variables of the loop: the iterator as a position in `sockets`, `handler_ref` and
`n_changes`. -/
structure PollLoop where
  it : Nat
  handlerRef : UShort
  nChanges : Int
  phase : PollPhase
deriving DecidableEq, Repr

/-- The loop as `poll_impl` enters it after `::poll` returned `nChanges`. -/
def PollLoop.start (nChanges : Int) : PollLoop :=
  { it := 0, handlerRef := 0, nChanges := nChanges, phase := .entry }

/-- What the loop does next. -/
inductive PollAct (ρ : Type)
  /-- The loop ends, at its condition or by `break`. -/
  | leave
  /-- A position outside of the vectors is read. -/
  | wild
  | goOn (next : PollLoop)
  | readable (sockobj : ρ) (next : PollLoop)
  | writeable (sockobj : ρ) (next : PollLoop)

/-- One turn of the loop of `poll_impl<POLL>`. -/
def pollStep {ρ : Type} (h : Handler ρ) (l : PollLoop) : PollAct ρ :=
  match l.phase with
  | .entry =>
    if l.it = h.sockets.length then .leave
    else
      match h.sockets[l.it]? with
      | none => .wild
      | some socket =>
        if socket.revents = 0 then .goOn { l with it := l.it + 1, handlerRef := h.getRef }
        else if hasBit socket.revents POLLIN then
          match h.socketPtrs[l.it]? with
          | none => .wild
          | some sockobj => .readable sockobj { l with handlerRef := h.getRef, phase := .read }
        else .goOn { l with handlerRef := h.getRef, phase := .read }
  | .read =>
    if h.refHasChanged l.handlerRef then .leave
    else
      match h.sockets[l.it]? with
      | none => .wild
      | some socket =>
        if hasBit socket.revents POLLOUT then
          match h.socketPtrs[l.it]? with
          | none => .wild
          | some sockobj => .writeable sockobj { l with phase := .written }
        else .goOn { l with phase := .written }
  | .written =>
    if l.nChanges - 1 = 0 || h.refHasChanged l.handlerRef then .leave
    else .goOn { l with it := l.it + 1, nChanges := l.nChanges - 1, phase := .entry }

end Unisock.Events
