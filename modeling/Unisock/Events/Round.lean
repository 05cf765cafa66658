import Mathlib.Logic.Function.Iterate
import Unisock.Events.Poll

/-! One run of `poll_impl<POLL>` on a handler into which `::poll` has just written the `revents`,
with callbacks that make any calls to the handler: what a turn of the loop reads, and which of the
reported events it serves. -/

namespace Unisock.Events

/-- A call that a callback makes to the handler. -/
inductive HandlerCall (ρ : Type)
  | addSocket (socket : Int) (sptr : ρ)
  | deleteSocket (socket : Int)
  | wantRead (socket : Int) (active : Bool)
  | wantWrite (socket : Int) (active : Bool)

namespace HandlerCall

variable {ρ : Type}

/-- The handler after a call. -/
def apply (h : Handler ρ) : HandlerCall ρ → Handler ρ
  | .addSocket socket sptr => h.addSocket socket sptr
  | .deleteSocket socket => h.deleteSocket socket
  | .wantRead socket active => h.socketWantRead socket active
  | .wantWrite socket active => h.socketWantWrite socket active

def isChange : HandlerCall ρ → Bool
  | .addSocket .. | .deleteSocket .. => true
  | .wantRead .. | .wantWrite .. => false

end HandlerCall

variable {ρ : Type}

/-- The handler after a sequence of calls. -/
def Handler.calls (h : Handler ρ) (cs : List (HandlerCall ρ)) : Handler ρ :=
  cs.foldl HandlerCall.apply h

def changes (cs : List (HandlerCall ρ)) : Nat := cs.countP HandlerCall.isChange

/-- Which of the two virtual functions of a socket the loop calls. -/
inductive EventKind
  | readable
  | writeable
deriving DecidableEq, Repr

/-- A call of the loop: the function, the position of the entry and the object. -/
structure PollCall (ρ : Type) where
  kind : EventKind
  it : Nat
  sockobj : ρ
deriving DecidableEq, Repr

/-- Whether `poll_impl` is in its loop, has returned, or has read outside of the vectors. -/
inductive RoundStatus
  | running (l : PollLoop)
  | returned
  | wild
deriving DecidableEq, Repr

/-- A run of `poll_impl`: the handler, the loop, and the calls made so far. -/
structure Round (ρ : Type) where
  handler : Handler ρ
  status : RoundStatus
  made : List (PollCall ρ)

namespace Round

/-- `poll_impl` right after `::poll` has written to `h` and returned `nChanges`. -/
def start (h : Handler ρ) (nChanges : Int) : Round ρ where
  handler := h
  status := .running (.start nChanges)
  made := []

/-- One turn, where the `k`-th callback of the run makes the calls `behaviour k`. -/
def step (behaviour : Nat → List (HandlerCall ρ)) (r : Round ρ) : Round ρ :=
  match r.status with
  | .returned | .wild => r
  | .running l =>
    match pollStep r.handler l with
    | .leave => { r with status := .returned }
    | .wild => { r with status := .wild }
    | .goOn next => { r with status := .running next }
    | .readable sockobj next =>
      { handler := r.handler.calls (behaviour r.made.length)
        status := .running next
        made := r.made ++ [⟨.readable, l.it, sockobj⟩] }
    | .writeable sockobj next =>
      { handler := r.handler.calls (behaviour r.made.length)
        status := .running next
        made := r.made ++ [⟨.writeable, l.it, sockobj⟩] }

end Round

/-! ### Handlers with the same entries -/

/-- What the loop reads of an entry: its descriptor and what `::poll` reported. -/
def Pollfd.reported (s : Pollfd) : Int × UShort := (s.fd, s.revents)

/-- `h'` has the entries of `h`, but for their interest, and the same counter. -/
structure Handler.Same (h h' : Handler ρ) : Prop where
  entries : h'.sockets.map Pollfd.reported = h.sockets.map Pollfd.reported
  ptrs : h'.socketPtrs = h.socketPtrs
  invalid : h'.invalid = h.invalid

namespace Handler

theorem Same.refl (h : Handler ρ) : h.Same h := ⟨rfl, rfl, rfl⟩

theorem Same.trans {h₁ h₂ h₃ : Handler ρ} (h : h₁.Same h₂) (h' : h₂.Same h₃) : h₁.Same h₃ :=
  ⟨h'.entries.trans h.entries, h'.ptrs.trans h.ptrs, h'.invalid.trans h.invalid⟩

theorem Same.length {h h' : Handler ρ} (hs : h.Same h') :
    h'.sockets.length = h.sockets.length := by
  simpa using congrArg List.length hs.entries

theorem Same.fds {h h' : Handler ρ} (hs : h.Same h') : h'.fds = h.fds := by
  have := congrArg (List.map Prod.fst) hs.entries
  rwa [List.map_map, List.map_map] at this

theorem Same.registrations {h h' : Handler ρ} (hs : h.Same h') :
    h'.registrations = h.registrations := by
  rw [HandlerImpl.registrations, hs.fds, hs.ptrs, HandlerImpl.registrations]

/-- An entry of `h` is found in `h'` with the same descriptor and report. -/
theorem Same.getElem? {h h' : Handler ρ} (hs : h.Same h') {i : Nat} {s : Pollfd}
    (hi : h.sockets[i]? = some s) :
    ∃ s', h'.sockets[i]? = some s' ∧ s'.fd = s.fd ∧ s'.revents = s.revents := by
  have hmap := congrArg (fun l => l[i]?) hs.entries
  simp only [List.getElem?_map, hi, Option.map_some, Option.map_eq_some_iff] at hmap
  obtain ⟨s', hs', heq⟩ := hmap
  simp only [Pollfd.reported, Prod.mk.injEq] at heq
  exact ⟨s', hs', heq.1, heq.2⟩

theorem want_same (h : Handler ρ) (mask : UShort) (socket : Int) (active : Bool) :
    h.Same { h with toHandlerImpl := h.toHandlerImpl.socketWant mask socket active } :=
  ⟨HandlerImpl.socketWant_map Pollfd.reported (fun _ _ => rfl) _ _ _ _,
    HandlerImpl.socketWant_socketPtrs .., rfl⟩

theorem calls_same (h : Handler ρ) {cs : List (HandlerCall ρ)} (hcs : changes cs = 0) :
    h.Same (h.calls cs) := by
  induction cs generalizing h with
  | nil => exact .refl h
  | cons c cs ih =>
    simp only [changes, List.countP_cons] at hcs
    have hrest : changes cs = 0 := by unfold changes; omega
    have hc : c.isChange = false := by
      cases hch : c.isChange
      · rfl
      · simp [hch] at hcs
    refine Same.trans ?_ (ih (c.apply h) hrest)
    cases c with
    | addSocket socket sptr => simp [HandlerCall.isChange] at hc
    | deleteSocket socket => simp [HandlerCall.isChange] at hc
    | wantRead socket active => exact want_same h POLLIN socket active
    | wantWrite socket active => exact want_same h POLLOUT socket active

theorem calls_invalid (h : Handler ρ) (cs : List (HandlerCall ρ)) :
    (h.calls cs).invalid = h.invalid + BitVec.ofNat 16 (changes cs) := by
  induction cs generalizing h with
  | nil => simp [calls, changes]
  | cons c cs ih =>
    have hstep : (h.calls (c :: cs)).invalid = ((c.apply h).calls cs).invalid := rfl
    rw [hstep, ih, changes, changes, List.countP_cons]
    cases c with
    | addSocket socket sptr =>
      simp only [HandlerCall.apply, addSocket, HandlerCall.isChange, if_true,
        BitVec.ofNat_add, BitVec.add_assoc]
      rw [BitVec.add_comm 1]
      rfl
    | deleteSocket socket =>
      simp only [HandlerCall.apply, deleteSocket, HandlerCall.isChange, if_true,
        BitVec.ofNat_add, BitVec.add_assoc]
      rw [BitVec.add_comm 1]
      rfl
    | wantRead socket active => rfl
    | wantWrite socket active => rfl

/-- A number of changes that is no multiple of `2 ^ 16` shows in the counter. -/
theorem calls_invalid_ne (h : Handler ρ) {cs : List (HandlerCall ρ)}
    (hcs : changes cs % 65536 ≠ 0) : (h.calls cs).invalid ≠ h.invalid := by
  rw [calls_invalid]
  intro heq
  have hzero : BitVec.ofNat 16 (changes cs) = 0 := by
    rw [BitVec.add_comm] at heq
    have := congrArg (fun v => v - h.invalid) heq
    simpa [BitVec.add_sub_cancel] using this
  have := congrArg BitVec.toNat hzero
  simp at this
  omega

end Handler

end Unisock.Events
