import Mathlib.Data.List.InsertIdx
import Unisock.Lib.Parallel
import Unisock.Events.Action

/-! The handler for `poll`: the parallel vectors `sockets` and `socket_ptrs` of `handler_impl<POLL>`,
the interest bits of their entries, and the `invalid` counter of `handler`.  `ρ` is the type of the
pointers to the socket objects. -/

namespace Unisock.Events

def POLLIN : UShort := 0x001#16

def POLLOUT : UShort := 0x004#16

/-- `struct pollfd`. -/
structure Pollfd where
  fd : Int
  events : UShort
  revents : UShort
deriving DecidableEq, Repr

/-- `field & mask`, as a condition. -/
def hasBit (field mask : UShort) : Bool := (field &&& mask) != 0

/-- The fields of `handler_impl<POLL>`. -/
structure HandlerImpl (ρ : Type) where
  sockets : List Pollfd
  socketPtrs : List ρ

namespace HandlerImpl

variable {ρ : Type}

/-- `std::find(sockets.begin(), sockets.end(), socket)`, as a position. -/
def find (h : HandlerImpl ρ) (socket : Int) : Option Nat :=
  h.sockets.findIdx? fun s => s.fd == socket

/-- `handler_impl<POLL>::add_socket`. -/
def addSocket (h : HandlerImpl ρ) (socket : Int) (ref : ρ) : HandlerImpl ρ where
  sockets := h.sockets ++ [{ fd := socket, events := POLLIN, revents := 0 }]
  socketPtrs := h.socketPtrs ++ [ref]

/-- `handler_impl<POLL>::del_socket`. -/
def delSocket (h : HandlerImpl ρ) (socket : Int) : HandlerImpl ρ :=
  match h.find socket with
  | none => h
  | some it => { sockets := h.sockets.eraseIdx it, socketPtrs := h.socketPtrs.eraseIdx it }

/-- `handler_impl<POLL>::empty`. -/
def empty (h : HandlerImpl ρ) : Bool := h.sockets.isEmpty

/-- `handler_impl<POLL>::count`. -/
def count (h : HandlerImpl ρ) : Nat := h.sockets.length

/-- The common body of `socket_want_read` and `socket_want_write`: the bits of `mask` are set in or
cleared from the interest of the first entry of `socket`. -/
def socketWant (h : HandlerImpl ρ) (mask : UShort) (socket : Int) (active : Bool) :
    HandlerImpl ρ :=
  match h.find socket with
  | none => h
  | some it =>
    { h with
      sockets := h.sockets.modify it fun s =>
        { s with events := if active then s.events ||| mask else s.events &&& ~~~mask } }

/-- `handler_impl<POLL>::socket_want_read`. -/
def socketWantRead (h : HandlerImpl ρ) (socket : Int) (active : Bool) : HandlerImpl ρ :=
  h.socketWant POLLIN socket active

/-- `handler_impl<POLL>::socket_want_write`. -/
def socketWantWrite (h : HandlerImpl ρ) (socket : Int) (active : Bool) : HandlerImpl ρ :=
  h.socketWant POLLOUT socket active

/-- What `::poll` writes when it succeeds: the `revents` of the entries, in order. -/
def report (h : HandlerImpl ρ) (revents : List UShort) : HandlerImpl ρ :=
  { h with sockets := h.sockets.zipWith (fun s r => { s with revents := r }) revents }

/-- Both vectors have the same length. -/
def Aligned (h : HandlerImpl ρ) : Prop := h.sockets.length = h.socketPtrs.length

/-- The descriptors of the entries, in order. -/
def fds (h : HandlerImpl ρ) : List Int := h.sockets.map Pollfd.fd

/-- The entries read position by position: descriptor and object. -/
def registrations (h : HandlerImpl ρ) : List (Int × ρ) := h.fds.zip h.socketPtrs

/-- The entries with their objects. -/
def entries (h : HandlerImpl ρ) : List (Pollfd × ρ) := h.sockets.zip h.socketPtrs

/-- The interest of the first entry of `socket`. -/
def interest (h : HandlerImpl ρ) (socket : Int) : Option UShort :=
  (h.sockets.find? fun s => s.fd == socket).map Pollfd.events

theorem fds_length (h : HandlerImpl ρ) : h.fds.length = h.count := List.length_map ..

theorem Aligned.length_fds {h : HandlerImpl ρ} (ha : h.Aligned) :
    h.fds.length = h.socketPtrs.length := by
  rw [fds, List.length_map]
  exact ha

theorem Aligned.map_fst_registrations {h : HandlerImpl ρ} (ha : h.Aligned) :
    h.registrations.map Prod.fst = h.fds :=
  Parallel.map_fst_zip_of_length ha.length_fds

theorem Aligned.map_snd_registrations {h : HandlerImpl ρ} (ha : h.Aligned) :
    h.registrations.map Prod.snd = h.socketPtrs :=
  List.map_snd_zip ha.length_fds.ge

theorem findIdx?_fds (h : HandlerImpl ρ) (socket : Int) :
    h.fds.findIdx? (fun fd => fd == socket) = h.find socket := by
  rw [fds, List.findIdx?_map]
  rfl

/-! ### Registration -/

theorem addSocket_aligned {h : HandlerImpl ρ} (ha : h.Aligned) (socket : Int) (ref : ρ) :
    (h.addSocket socket ref).Aligned := by
  simpa [Aligned, addSocket] using ha

theorem addSocket_registrations {h : HandlerImpl ρ} (ha : h.Aligned) (socket : Int) (ref : ρ) :
    (h.addSocket socket ref).registrations = h.registrations ++ [(socket, ref)] := by
  have hfds : (h.addSocket socket ref).fds = h.fds ++ [socket] := by simp [fds, addSocket]
  rw [registrations, hfds, addSocket, List.zip_append ha.length_fds]
  rfl

theorem delSocket_aligned {h : HandlerImpl ρ} (ha : h.Aligned) (socket : Int) :
    (h.delSocket socket).Aligned := by
  unfold delSocket
  split
  · exact ha
  · next it hit =>
    obtain ⟨hlt, -⟩ := List.findIdx?_eq_some_iff_getElem.mp hit
    have ha' : h.sockets.length = h.socketPtrs.length := ha
    simp only [Aligned, List.length_eraseIdx]
    rw [if_pos hlt, if_pos (ha' ▸ hlt), ha']

/-- A removal takes the first entry of the descriptor away and keeps the others in order. -/
theorem delSocket_registrations {h : HandlerImpl ρ} (ha : h.Aligned) (socket : Int) :
    (h.delSocket socket).registrations = h.registrations.eraseP fun e => e.1 == socket := by
  unfold delSocket
  split
  · next hnone =>
    exact (Parallel.eraseP_of_findIdx?_eq_none ha.length_fds
      (by rw [findIdx?_fds]; exact hnone)).symm
  · next it hit =>
    rw [← findIdx?_fds] at hit
    have hfds : (h.sockets.eraseIdx it).map Pollfd.fd = h.fds.eraseIdx it :=
      (List.eraseIdx_map ..).symm
    rw [registrations, fds, hfds]
    exact Parallel.zip_eraseIdx_findIdx? ha.length_fds hit

theorem registrations_eq (h : HandlerImpl ρ) :
    h.registrations = h.entries.map fun e => (e.1.fd, e.2) := by
  rw [registrations, fds, entries, List.zip_map_left]
  rfl

theorem mem_registrations {h : HandlerImpl ρ} {e : Pollfd × ρ} (he : e ∈ h.entries) :
    (e.1.fd, e.2) ∈ h.registrations := by
  rw [registrations_eq]
  exact List.mem_map_of_mem (f := fun e : Pollfd × ρ => (e.1.fd, e.2)) he

/-- What is registered last and deleted next leaves the vectors as they were. -/
theorem delSocket_addSocket {h : HandlerImpl ρ} (ha : h.Aligned) {socket : Int}
    (hnew : socket ∉ h.fds) (ref : ρ) : (h.addSocket socket ref).delSocket socket = h := by
  have hnone : h.sockets.findIdx? (fun s => s.fd == socket) = none := by
    rw [List.findIdx?_eq_none_iff]
    intro s hs
    have hne : s.fd ≠ socket := fun heq => hnew (heq ▸ List.mem_map_of_mem hs)
    simpa using hne
  have hfind : (h.addSocket socket ref).find socket = some h.sockets.length := by
    simp [find, addSocket, List.findIdx?_append, hnone]
  have ha : h.sockets.length = h.socketPtrs.length := ha
  obtain ⟨sockets, socketPtrs⟩ := h
  rw [delSocket, hfind]
  simp only [addSocket, HandlerImpl.mk.injEq]
  constructor
  · simp [List.eraseIdx_append_of_length_le]
  · simp only at ha
    simp [ha, List.eraseIdx_append_of_length_le]

theorem delSocket_entries {h : HandlerImpl ρ} (ha : h.Aligned) (socket : Int) :
    (h.delSocket socket).entries = h.entries.eraseP fun e => e.1.fd == socket := by
  unfold delSocket
  split
  · next hnone =>
    exact (Parallel.eraseP_of_findIdx?_eq_none (p := fun s : Pollfd => s.fd == socket) ha hnone).symm
  · next it hit =>
    exact Parallel.zip_eraseIdx_findIdx? (p := fun s : Pollfd => s.fd == socket) ha hit

/-! ### Interest and reports -/

@[simp] theorem socketWant_socketPtrs (h : HandlerImpl ρ) (mask : UShort) (socket : Int)
    (active : Bool) : (h.socketWant mask socket active).socketPtrs = h.socketPtrs := by
  unfold socketWant
  split <;> rfl

theorem socketWant_map {β : Type} (f : Pollfd → β) (hf : ∀ s events, f { s with events } = f s)
    (h : HandlerImpl ρ) (mask : UShort) (socket : Int) (active : Bool) :
    (h.socketWant mask socket active).sockets.map f = h.sockets.map f := by
  unfold socketWant
  split
  · rfl
  · next it _ =>
    apply List.ext_getElem?
    intro j
    simp only [List.getElem?_map, List.getElem?_modify]
    by_cases hj : it = j
    · subst hj
      cases h.sockets[it]? with
      | none => rfl
      | some s => simp [hf]
    · simp [hj]

@[simp] theorem socketWant_fds (h : HandlerImpl ρ) (mask : UShort) (socket : Int)
    (active : Bool) : (h.socketWant mask socket active).fds = h.fds :=
  socketWant_map Pollfd.fd (fun _ _ => rfl) h mask socket active

@[simp] theorem socketWant_registrations (h : HandlerImpl ρ) (mask : UShort) (socket : Int)
    (active : Bool) : (h.socketWant mask socket active).registrations = h.registrations := by
  simp [registrations]

theorem socketWant_aligned {h : HandlerImpl ρ} (ha : h.Aligned) (mask : UShort) (socket : Int)
    (active : Bool) : (h.socketWant mask socket active).Aligned := by
  have hlen := congrArg List.length (socketWant_fds h mask socket active)
  simp only [fds, List.length_map] at hlen
  simpa [Aligned, hlen] using ha

/-- A change of interest is seen in the entries of that descriptor only. -/
theorem socketWant_filter {h : HandlerImpl ρ} {q : ρ → Bool} {socket : Int}
    (hq : ∀ e ∈ h.entries, e.1.fd = socket → q e.2 = false) (mask : UShort) (active : Bool) :
    ((h.socketWant mask socket active).entries.filter fun e => q e.2) =
      h.entries.filter fun e => q e.2 := by
  unfold socketWant
  split
  · rfl
  · next it hit =>
    obtain ⟨hlt, hfd, -⟩ := List.findIdx?_eq_some_iff_getElem.mp hit
    rw [entries, Parallel.zip_modify]
    refine Parallel.filter_modify fun e he => ?_
    have hmem := List.mem_of_getElem? he
    obtain ⟨hs, -⟩ := List.getElem?_zip_eq_some.mp he
    have heq : h.sockets[it] = e.1 := Option.some.inj ((List.getElem?_eq_getElem hlt).symm.trans hs)
    have hdrop := hq e hmem (by rw [← heq]; simpa using hfd)
    exact ⟨hdrop, hdrop⟩

/-- A change of the interest of `socket` sets it as asked, where `socket` has an entry. -/
theorem socketWant_interest (h : HandlerImpl ρ) (mask : UShort) (socket : Int) (active : Bool) :
    (h.socketWant mask socket active).interest socket = (h.interest socket).map fun events =>
      if active then events ||| mask else events &&& ~~~mask := by
  obtain ⟨l, ptrs⟩ := h
  unfold socketWant interest find
  cases hfind : l.findIdx? (fun s => s.fd == socket) with
  | none =>
    have hnone : l.find? (fun s => s.fd == socket) = none := by
      rw [List.find?_eq_none]
      rw [List.findIdx?_eq_none_iff] at hfind
      intro s hs
      simpa using hfind s hs
    simp [hnone]
  | some it =>
    simp only
    induction l generalizing it with
    | nil => simp at hfind
    | cons s l ih =>
      rw [List.findIdx?_cons] at hfind
      by_cases hs : s.fd = socket
      · have hit : 0 = it := by simpa [hs] using hfind
        subst hit
        simp [hs]
      · simp only [beq_iff_eq, hs, ↓reduceIte, Option.map_eq_some_iff] at hfind
        obtain ⟨j, hj, rfl⟩ := hfind
        simpa [hs] using ih j hj

@[simp] theorem report_socketPtrs (h : HandlerImpl ρ) (revents : List UShort) :
    (h.report revents).socketPtrs = h.socketPtrs := rfl

theorem report_fds (h : HandlerImpl ρ) {revents : List UShort}
    (hlen : revents.length = h.sockets.length) : (h.report revents).fds = h.fds := by
  apply List.ext_getElem?
  intro i
  simp only [fds, report, List.getElem?_map, List.getElem?_zipWith]
  rcases Nat.lt_or_ge i h.sockets.length with hi | hi
  · simp [hi, hlen]
  · simp [List.getElem?_eq_none hi]

theorem report_registrations (h : HandlerImpl ρ) {revents : List UShort}
    (hlen : revents.length = h.sockets.length) :
    (h.report revents).registrations = h.registrations := by
  rw [registrations, report_fds h hlen, report_socketPtrs, registrations]

theorem report_aligned {h : HandlerImpl ρ} (ha : h.Aligned) {revents : List UShort}
    (hlen : revents.length = h.sockets.length) : (h.report revents).Aligned := by
  have := congrArg List.length (report_fds h hlen)
  simp only [fds, List.length_map] at this
  simpa [Aligned, this] using ha

end HandlerImpl

/-- `events::handler`: the vectors and the counter of changes to them. -/
structure Handler (ρ : Type) extends HandlerImpl ρ where
  invalid : UShort

namespace Handler

variable {ρ : Type}

/-- `handler::add_socket`. -/
def addSocket (h : Handler ρ) (socket : Int) (sptr : ρ) : Handler ρ where
  toHandlerImpl := h.toHandlerImpl.addSocket socket sptr
  invalid := h.invalid + 1

/-- `handler::delete_socket`. -/
def deleteSocket (h : Handler ρ) (socket : Int) : Handler ρ where
  toHandlerImpl := h.toHandlerImpl.delSocket socket
  invalid := h.invalid + 1

/-- `handler::get_ref`. -/
def getRef (h : Handler ρ) : UShort := h.invalid

/-- `handler::ref_has_changed`. -/
def refHasChanged (h : Handler ρ) (oldRef : UShort) : Bool := oldRef != h.getRef

/-- `handler::socket_want_read`. -/
def socketWantRead (h : Handler ρ) (socket : Int) (active : Bool) : Handler ρ :=
  { h with toHandlerImpl := h.toHandlerImpl.socketWantRead socket active }

/-- `handler::socket_want_write`. -/
def socketWantWrite (h : Handler ρ) (socket : Int) (active : Bool) : Handler ρ :=
  { h with toHandlerImpl := h.toHandlerImpl.socketWantWrite socket active }

/-- `HandlerImpl.report` on the vectors of the handler. -/
def report (h : Handler ρ) (revents : List UShort) : Handler ρ :=
  { h with toHandlerImpl := h.toHandlerImpl.report revents }

end Handler

end Unisock.Events
