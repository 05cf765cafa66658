import Unisock.Tcp.Hooks
import Unisock.Tcp.Lifecycle

/-! Elements with the `CLOSED` list that `listen`, `connect` and `accept` leave: a notification of the
owner, then `erase`.  `close` on such an element ends whenever the hooks of the owner do. -/

namespace Unisock.Tcp

open Unisock.Events

/-- The `CLOSED` list of a new element of the container. -/
def Container.installed (container : Container) : Action Callback :=
  [⟨.notify container.endAction, ActionFlag.default⟩, eraser]

theorem setUpWiring_closed {container : Container} (hnot : ∀ server, container ≠ .clients server)
    (node : Nat) (fd : Int) :
    (Connection.inserted node fd).setUpWiring.actions .closed = container.installed := by
  cases container with
  | clients server => exact absurd rfl (hnot server)
  | listeners _ | connections _ => rfl

namespace World

/-- `close` on the open element `p`, up to the hooks of its owner. -/
def Stored.shut (s : Stored) (p : SockPtr) (c : Connection) : Stored :=
  { s with
    mem := s.mem.closeSocket p c.sock
    log := .started p.container.owner p.container.endAction (.connection p) :: .shut p c.sock ::
      .removed p c.sock :: s.log }

/-- The rest of `close`. -/
def Stored.erase (s : Stored) (p : SockPtr) : Stored :=
  { s with mem := s.mem.eraseSocket p.container p.key, log := .erased p :: s.log }

section Turns

variable {w t : World} {i : Input} {p : SockPtr} {c : Connection} {rest : List Frame}

theorem notify_plain (action : OwnerAction) (flag : UShort) :
    (⟨.notify action, ActionFlag.default⟩ : ActionCallback Callback).has flag = false := by
  simp [ActionCallback.has, ActionFlag.default]

theorem step_told (hstack : w.stack = .execute ⟨.socket p .closed, 0, 2, .none⟩ :: rest)
    (hp : w.mem.deref p = some c) (hlist : c.actions .closed = p.container.installed)
    (hstep : w.step i = some t) :
    t = { w with stack := .execute ⟨.socket p .closed, 1, 2, .none⟩ :: rest }.executeOwner
      p.container.owner p.container.endAction (.connection p) := by
  have hl : { w with stack := rest }.callbacks (.socket p .closed) = some p.container.installed := by
    rw [callbacks, hp, Option.map_some, hlist]
  rw [step_execute hstack, resume_turn hl rfl rfl, notify_plain, if_neg (by simp)] at hstep
  have hafter : Execution.after ⟨.socket p .closed, 0, 2, .none⟩
      ⟨.notify p.container.endAction, ActionFlag.default⟩ =
        [.execute ⟨.socket p .closed, 1, 2, .none⟩] := if_neg (by simp [notify_plain])
  rw [hafter] at hstep
  exact ((invoke_notify rfl).mp hstep).2

theorem step_erased (hstack : w.stack = .execute ⟨.socket p .closed, 1, 2, .none⟩ :: rest)
    (hp : w.mem.deref p = some c) (hlist : c.actions .closed = p.container.installed)
    (hstep : w.step i = some t) :
    t = { w with mem := w.mem.eraseSocket p.container p.key, stack := rest }.note (.erased p) := by
  have hl : { w with stack := rest }.callbacks (.socket p .closed) = some p.container.installed := by
    rw [callbacks, hp, Option.map_some, hlist]
  have hcb : p.container.installed[1]? = some eraser := rfl
  rw [step_execute hstack, resume_turn hl rfl hcb, if_neg (by decide)] at hstep
  exact ((invoke_erase rfl).mp hstep).2

end Turns

namespace Discipline

variable {D : Discipline} {w : World} {p : SockPtr} {c : Connection} {rest : List Frame}

/-- The two callbacks of an installed list, one after the other. -/
theorem installed_ends (hstack : w.stack = .execute ⟨.socket p .closed, 0, 2, .none⟩ :: rest)
    (hrest : D.base ≤ rest.length)
    (hkept : ∀ mid, D.effect
        (w.note (.started p.container.owner p.container.endAction (.connection p))).stored mid →
      ∃ c, mid.mem.deref p = some c ∧ c.actions .closed = p.container.installed)
    (hhooks : D.HooksEnd
      (w.note (.started p.container.owner p.container.endAction (.connection p)))) :
    D.Ends rest (fun t => ∃ mid, D.effect
        (w.note (.started p.container.owner p.container.endAction (.connection p))).stored mid ∧
      t.stored = mid.erase p) w := by
  have hl : ∀ t : World, D.Leaves
      (w.note (.started p.container.owner p.container.endAction (.connection p))) t →
      t.callbacks (.socket p .closed) = some p.container.installed := fun t ht => by
    obtain ⟨c, hc, hlist⟩ := hkept t.stored ht
    have hc : t.mem.deref p = some c := hc
    rw [callbacks, hc, Option.map_some, hlist]
  have hafter : Execution.after ⟨.socket p .closed, 0, 2, .none⟩
      ⟨.notify p.container.endAction, ActionFlag.default⟩ =
        [.execute ⟨.socket p .closed, 1, 2, .none⟩] := if_neg (by simp [notify_plain])
  refine turn_ends hstack hrest (hl (w.note _) (D.refl _)) rfl rfl
    (fun h => absurd ((notify_plain _ _).symm.trans h) (by decide)) fun _ => ?_
  rw [hafter]
  obtain ⟨henter, hall⟩ := notify_ends (D := D)
    (w := { w with stack := [.execute ⟨.socket p .closed, 1, 2, .none⟩] ++ rest })
    (e := ⟨.socket p .closed, 0, 2, .none⟩) (Nat.le_succ_of_le hrest) rfl hhooks
  refine ⟨henter, fun i t ht => (hall i t ht).bind ?_⟩
  rintro u ⟨hu, hleaves⟩
  exact erase_ends hu hrest rfl (hl u hleaves) rfl rfl ⟨u.stored, hleaves, rfl⟩

theorem close_ends (hbase : D.base ≤ w.stack.length) (hp : w.mem.deref p = some c)
    (hopen : 0 ≤ c.sock) (hlist : c.actions .closed = p.container.installed)
    (hkept : ∀ mid, D.effect (w.stored.shut p c) mid →
      ∃ c', mid.mem.deref p = some c' ∧ c'.actions .closed = p.container.installed)
    (hhooks : ∀ t : World, t.stored = w.stored.shut p c → D.HooksEnd t) (errno : Int) :
    D.Ends w.stack (fun t => ∃ mid, D.effect (w.stored.shut p c) mid ∧ t.stored = mid.erase p)
      (w.close p errno) := by
  rw [close_open hp hopen, hlist]
  exact installed_ends (w := { w with
    mem := w.mem.closeSocket p c.sock
    errno := errno
    log := .shut p c.sock :: .removed p c.sock :: w.log
    stack := .execute ⟨.socket p .closed, 0, 2, .none⟩ :: w.stack }) rfl hbase hkept (hhooks _ rfl)

end Discipline

end World

end Unisock.Tcp
