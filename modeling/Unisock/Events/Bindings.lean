import Unisock.Events.Handler
import Unisock.Lib.OrderedMap

/-! The registry of a handler over whole runs of calls: the parallel vectors are a finite map from
descriptors to objects and interests, in the order of registration, and the counter of changes
counts the registrations and removals modulo `2^16`. -/

namespace Unisock.Events

/-- A call on the registry. -/
inductive Call (ρ : Type)
  | addSocket (socket : Int) (sptr : ρ)
  | deleteSocket (socket : Int)
  | socketWantRead (socket : Int) (active : Bool)
  | socketWantWrite (socket : Int) (active : Bool)

/-- The call is `add_socket` or `delete_socket`. -/
def Call.changes {ρ : Type} : Call ρ → Bool
  | .addSocket .. | .deleteSocket _ => true
  | .socketWantRead .. | .socketWantWrite .. => false

/-- The descriptor that is removed, or whose interest is changed. -/
def Call.target {ρ : Type} : Call ρ → Option Int
  | .addSocket .. => none
  | .deleteSocket socket | .socketWantRead socket _ | .socketWantWrite socket _ => some socket

namespace Handler

variable {ρ : Type}

def call (h : Handler ρ) : Call ρ → Handler ρ
  | .addSocket socket sptr => h.addSocket socket sptr
  | .deleteSocket socket => h.deleteSocket socket
  | .socketWantRead socket active => h.socketWantRead socket active
  | .socketWantWrite socket active => h.socketWantWrite socket active

def run (h : Handler ρ) (calls : List (Call ρ)) : Handler ρ := calls.foldl call h

/-- A handler without sockets; the source leaves `invalid` uninitialised. -/
def new (invalid : UShort) : Handler ρ := ⟨⟨[], []⟩, invalid⟩

/-! ### The counter of changes -/

theorem invalid_call (h : Handler ρ) (c : Call ρ) :
    (h.call c).invalid = h.invalid + BitVec.ofNat 16 c.changes.toNat := by
  cases c <;> simp [call, Call.changes, addSocket, deleteSocket, socketWantRead, socketWantWrite]

theorem invalid_run (h : Handler ρ) (calls : List (Call ρ)) :
    (h.run calls).invalid = h.invalid + BitVec.ofNat 16 (calls.countP Call.changes) := by
  induction calls generalizing h with
  | nil => simp [run]
  | cons c calls ih =>
    have hrest : (h.run (c :: calls)).invalid =
        (h.call c).invalid + BitVec.ofNat 16 (calls.countP Call.changes) := ih (h.call c)
    rw [hrest, invalid_call, List.countP_cons, BitVec.add_assoc, ← BitVec.ofNat_add]
    cases c.changes <;> simp [Nat.add_comm]

/-- The counter shows a change between `get_ref` and `ref_has_changed`, unless the number of
registrations and removals in between is a multiple of `2^16`. -/
theorem refHasChanged_run (h : Handler ρ) (calls : List (Call ρ)) :
    (h.run calls).refHasChanged h.getRef = true ↔ calls.countP Call.changes % 2 ^ 16 ≠ 0 := by
  rw [refHasChanged, getRef, getRef, invalid_run, bne_iff_ne, ne_eq, not_iff_not]
  constructor
  · intro hsame
    have hzero : BitVec.ofNat 16 (calls.countP Call.changes) = 0#16 := by
      apply BitVec.add_right_inj h.invalid |>.mp
      rw [← hsame]
      simp
    simpa using congrArg BitVec.toNat hzero
  · intro hmod
    have hzero : BitVec.ofNat 16 (calls.countP Call.changes) = 0#16 := by
      apply BitVec.eq_of_toNat_eq
      simpa using hmod
    rw [hzero, BitVec.add_zero]

/-- 65536 removals are not seen. -/
theorem refHasChanged_wraps : ¬ ∀ (h : Handler Nat) (calls : List (Call Nat)), calls ≠ [] →
    (∀ c ∈ calls, c.changes = true) → (h.run calls).refHasChanged h.getRef = true := by
  intro hall
  have hchanged := hall (new 0) (List.replicate 65536 (.deleteSocket 3))
    (List.ne_nil_of_length_pos (by rw [List.length_replicate]; decide))
    fun c hc => List.eq_of_mem_replicate hc ▸ rfl
  have hcount : (List.replicate 65536 (.deleteSocket 3 : Call Nat)).countP Call.changes = 65536 :=
    List.countP_replicate.trans (if_pos rfl)
  rw [refHasChanged, getRef, getRef, invalid_run, hcount] at hchanged
  exact absurd hchanged (by decide)

end Handler

/-! ### The vectors as a map -/

/-- What a registry says of one descriptor: the object, and whether it waits for input and output. -/
structure Binding (ρ : Type) where
  ptr : ρ
  wantsRead : Bool
  wantsWrite : Bool

/-- What a registry is for: a finite map from descriptors to bindings, in the order of
registration. -/
abbrev Bindings (ρ : Type) := OrderedMap Int (Binding ρ)

/-- The interest bits of a binding. -/
def interestBits (wantsRead wantsWrite : Bool) : UShort :=
  (if wantsRead then POLLIN else 0) ||| (if wantsWrite then POLLOUT else 0)

theorem interestBits_read : ∀ read write active : Bool,
    (if active then interestBits read write ||| POLLIN else interestBits read write &&& ~~~POLLIN) =
      interestBits active write := by
  decide

theorem interestBits_write : ∀ read write active : Bool,
    (if active then interestBits read write ||| POLLOUT
      else interestBits read write &&& ~~~POLLOUT) = interestBits read active := by
  decide

/-- The entry of the vectors for a binding. -/
def Binding.entry {ρ : Type} (e : Int × Binding ρ) : Pollfd × ρ :=
  ({ fd := e.1, events := interestBits e.2.wantsRead e.2.wantsWrite, revents := 0 }, e.2.ptr)

namespace Bindings

variable {ρ : Type}

/-- What a call means for the map.  A registration of a descriptor that is registered already has
no meaning here. -/
def call (m : Bindings ρ) : Call ρ → Bindings ρ
  | .addSocket socket sptr =>
    if h : socket ∈ m.map then m
    else m.push socket { ptr := sptr, wantsRead := true, wantsWrite := false } h
  | .deleteSocket socket => m.erase socket
  | .socketWantRead socket active => m.adjust socket fun b => { b with wantsRead := active }
  | .socketWantWrite socket active => m.adjust socket fun b => { b with wantsWrite := active }

def run (m : Bindings ρ) (calls : List (Call ρ)) : Bindings ρ := calls.foldl call m

end Bindings

namespace HandlerImpl

variable {ρ : Type}

/-- Where a descriptor has one entry at most, a change of interest is a change of its entry. -/
theorem socketWant_entries {h : HandlerImpl ρ} (hnd : h.fds.Nodup) (mask : UShort) (socket : Int)
    (active : Bool) : (h.socketWant mask socket active).entries = h.entries.map fun e =>
      if e.1.fd = socket then
        ({ e.1 with events := if active then e.1.events ||| mask else e.1.events &&& ~~~mask }, e.2)
      else e := by
  unfold socketWant
  split
  · next hnone =>
    have habsent : ∀ e ∈ h.entries, ¬ e.1.fd = socket := by
      intro e he
      simpa using List.findIdx?_eq_none_iff.mp hnone e.1 (List.of_mem_zip he).1
    exact ((List.map_congr_left fun e he => if_neg (habsent e he)).trans (List.map_id _)).symm
  · next it hit =>
    have hone : h.sockets.Pairwise fun a b => (a.fd == socket) = true → (b.fd == socket) = false := by
      refine (List.pairwise_map.mp hnd).imp fun {a b} hne ha => ?_
      rw [beq_eq_false_iff_ne]
      rw [beq_iff_eq] at ha
      exact ha ▸ hne.symm
    rw [entries, entries]
    simp only [Parallel.modify_findIdx? hone hit, List.zip_map_left]
    refine List.map_congr_left fun e _ => ?_
    obtain ⟨s, ptr⟩ := e
    by_cases hfd : s.fd = socket <;> simp [hfd]

theorem addSocket_entries {h : HandlerImpl ρ} (ha : h.Aligned) (socket : Int) (ref : ρ) :
    (h.addSocket socket ref).entries =
      h.entries ++ [({ fd := socket, events := POLLIN, revents := 0 }, ref)] := by
  rw [entries, addSocket, List.zip_append ha]
  rfl

theorem Aligned.map_fd_entries {h : HandlerImpl ρ} (ha : h.Aligned) :
    h.entries.map (fun e => e.1.fd) = h.fds := by
  rw [fds, ← Parallel.map_fst_zip_of_length ha, List.map_map]
  rfl

end HandlerImpl

namespace Handler

variable {ρ : Type}

/-- A registration is of a descriptor that has no entry. -/
def Allows (h : Handler ρ) : Call ρ → Prop
  | .addSocket socket _ => socket ∉ h.fds
  | .deleteSocket _ | .socketWantRead .. | .socketWantWrite .. => True

instance (h : Handler ρ) (c : Call ρ) : Decidable (h.Allows c) :=
  match c with
  | .addSocket socket _ => inferInstanceAs (Decidable (socket ∉ h.fds))
  | .deleteSocket _ | .socketWantRead .. | .socketWantWrite .. => isTrue trivial

/-- Each registration of a run is of a descriptor that has no entry then. -/
def AllowsRun (h : Handler ρ) : List (Call ρ) → Prop
  | [] => True
  | c :: calls => h.Allows c ∧ (h.call c).AllowsRun calls

/-- The vectors are the bindings of the map, position by position. -/
structure Refines (h : Handler ρ) (m : Bindings ρ) : Prop where
  aligned : h.Aligned
  entries : h.entries = m.toList.map Binding.entry

variable {h : Handler ρ} {m : Bindings ρ}

theorem Refines.fds (hr : h.Refines m) : h.fds = m.order := by
  rw [← hr.aligned.map_fd_entries, hr.entries, List.map_map, ← m.map_fst_toList]
  rfl

theorem Refines.nodup (hr : h.Refines m) : h.fds.Nodup := by
  rw [hr.fds]
  exact m.nodup

theorem Refines.mem_fds (hr : h.Refines m) (socket : Int) : socket ∈ h.fds ↔ socket ∈ m.map := by
  rw [hr.fds, m.mem_order]

theorem Refines.addSocket (hr : h.Refines m) {socket : Int} (hfresh : socket ∉ h.fds) (sptr : ρ) :
    (h.addSocket socket sptr).Refines (m.call (.addSocket socket sptr)) where
  aligned := HandlerImpl.addSocket_aligned hr.aligned socket sptr
  entries := by
    have hnone : socket ∉ m.map := fun hmem => hfresh ((hr.mem_fds socket).mpr hmem)
    have hread : interestBits true false = POLLIN := by decide
    rw [Bindings.call, dif_neg hnone, m.toList_push, List.map_append, ← hr.entries,
      Handler.addSocket, HandlerImpl.addSocket_entries hr.aligned]
    simp [Binding.entry, hread]

theorem Refines.deleteSocket (hr : h.Refines m) (socket : Int) :
    (h.deleteSocket socket).Refines (m.call (.deleteSocket socket)) where
  aligned := HandlerImpl.delSocket_aligned hr.aligned socket
  entries := by
    rw [Handler.deleteSocket, HandlerImpl.delSocket_entries hr.aligned, hr.entries, Bindings.call,
      m.toList_erase, List.eraseP_map]
    exact congrArg (List.map Binding.entry) (Parallel.eraseP_key m.nodup_keys_toList)

/-- A change of interest changes one bit of one binding. -/
theorem Refines.socketWant (hr : h.Refines m) {mask : UShort} {socket : Int} {active : Bool}
    {f : Binding ρ → Binding ρ}
    (hf : ∀ b, Binding.entry (socket, f b) =
      ({ (Binding.entry (socket, b)).1 with
        events := if active then (Binding.entry (socket, b)).1.events ||| mask
          else (Binding.entry (socket, b)).1.events &&& ~~~mask }, b.ptr)) :
    ({ h with toHandlerImpl := h.toHandlerImpl.socketWant mask socket active } : Handler ρ).Refines
      (m.adjust socket f) where
  aligned := HandlerImpl.socketWant_aligned hr.aligned mask socket active
  entries := by
    rw [HandlerImpl.socketWant_entries hr.nodup, hr.entries, m.toList_adjust, List.map_map,
      List.map_map]
    refine List.map_congr_left fun e _ => ?_
    obtain ⟨fd, b⟩ := e
    by_cases hfd : fd = socket
    · subst hfd
      simpa [Binding.entry] using (hf b).symm
    · simp [Binding.entry, hfd]

theorem Refines.call (hr : h.Refines m) {c : Call ρ} (hallows : h.Allows c) :
    (h.call c).Refines (m.call c) := by
  cases c with
  | addSocket socket sptr => exact hr.addSocket hallows sptr
  | deleteSocket socket => exact hr.deleteSocket socket
  | socketWantRead socket active =>
    exact hr.socketWant fun b => by
      simp [Binding.entry, ← interestBits_read b.wantsRead b.wantsWrite active]
  | socketWantWrite socket active =>
    exact hr.socketWant fun b => by
      simp [Binding.entry, ← interestBits_write b.wantsRead b.wantsWrite active]

theorem Refines.run (hr : h.Refines m) {calls : List (Call ρ)} (hallows : h.AllowsRun calls) :
    (h.run calls).Refines (m.run calls) := by
  induction calls generalizing h m with
  | nil => exact hr
  | cons c calls ih => exact ih (hr.call hallows.1) hallows.2

theorem refines_new (invalid : UShort) : (new invalid : Handler ρ).Refines .empty := ⟨rfl, rfl⟩

theorem Refines.count (hr : h.Refines m) : h.count = m.map.keys.card := by
  have hlen := congrArg List.length hr.fds
  rw [HandlerImpl.fds, List.length_map, ← m.map_fst_toList, List.length_map] at hlen
  rw [HandlerImpl.count, hlen, m.length_toList]

theorem Refines.empty_iff (hr : h.Refines m) : h.empty = true ↔ m.map = ∅ := by
  rw [HandlerImpl.empty, List.isEmpty_iff, ← List.length_eq_zero_iff]
  have hcount := hr.count
  rw [HandlerImpl.count] at hcount
  rw [hcount, Finset.card_eq_zero]
  constructor
  · intro hkeys
    refine Finmap.ext_lookup fun k => ?_
    rw [Finmap.lookup_empty, Finmap.lookup_eq_none, ← Finmap.mem_keys, hkeys]
    exact Finset.notMem_empty k
  · intro hmap
    rw [hmap, Finmap.keys_empty]

/-- A call on a descriptor that is not registered leaves the vectors as they are. -/
theorem call_of_absent {c : Call ρ} {socket : Int} (hsocket : c.target = some socket)
    (habsent : socket ∉ h.fds) : (h.call c).toHandlerImpl = h.toHandlerImpl := by
  have hfind : h.find socket = none := by
    rw [HandlerImpl.find, List.findIdx?_eq_none_iff]
    intro s hs
    have hne : s.fd ≠ socket := fun heq => habsent (heq ▸ List.mem_map_of_mem hs)
    simpa using hne
  cases c with
  | addSocket => cases hsocket
  | deleteSocket | socketWantRead | socketWantWrite =>
    cases hsocket
    simp [call, deleteSocket, socketWantRead, socketWantWrite, HandlerImpl.delSocket,
      HandlerImpl.socketWantRead, HandlerImpl.socketWantWrite, HandlerImpl.socketWant, hfind]

/-- After every run of calls on an empty handler that registers no descriptor twice: the vectors
have one length and are, position by position, the bindings of the map in the order of registration;
`count` and `empty` go by the size of the map; and a removal or a change of interest of a descriptor
that is not in the map changes nothing. -/
theorem run_refines (invalid : UShort) {calls : List (Call ρ)}
    (hallows : (new invalid).AllowsRun calls) :
    let h := (new invalid).run calls
    let m := Bindings.run .empty calls
    h.sockets.length = h.socketPtrs.length ∧
      h.sockets.zip h.socketPtrs = m.toList.map Binding.entry ∧
      h.count = m.map.keys.card ∧ (h.empty = true ↔ m.map = ∅) ∧
      ∀ (c : Call ρ) (socket : Int), c.target = some socket → socket ∉ m.map →
        (h.call c).toHandlerImpl = h.toHandlerImpl := by
  have hr := (refines_new invalid).run hallows
  refine ⟨hr.aligned, hr.entries, hr.count, hr.empty_iff, fun c socket hsocket hnone => ?_⟩
  exact call_of_absent hsocket fun hmem => hnone ((hr.mem_fds socket).mp hmem)

theorem run_refines_two :
    let h := (new 0).run [.addSocket 4 "a", .addSocket 5 "b", .socketWantWrite 5 true,
      .deleteSocket 4]
    let m := Bindings.run .empty [.addSocket 4 "a", .addSocket 5 "b", .socketWantWrite 5 true,
      .deleteSocket 4]
    h.sockets.length = h.socketPtrs.length ∧
      h.sockets.zip h.socketPtrs = m.toList.map Binding.entry ∧
      h.count = m.map.keys.card ∧ (h.empty = true ↔ m.map = ∅) ∧
      ∀ (c : Call String) (socket : Int), c.target = some socket → socket ∉ m.map →
        (h.call c).toHandlerImpl = h.toHandlerImpl :=
  run_refines 0 ⟨by decide, by decide, trivial, trivial, trivial⟩

end Handler

end Unisock.Events
