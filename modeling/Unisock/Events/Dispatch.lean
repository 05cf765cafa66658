import Unisock.Events.Round

/-! What a run of `poll_impl<POLL>` does, whatever its callbacks call: it reads no position outside
of the vectors and calls registered objects only, and it serves the reported events in order up to
the first callback that adds or deletes a registration. -/

namespace Unisock.Events

variable {ρ : Type}

/-! ### The turns of the loop

Until a callback changes a registration, the loop runs on a handler with the entries that `::poll`
reported on; after one, it stands behind that callback with an outdated `handler_ref`. -/

section Turns

variable {h h' : Handler ρ} {l : PollLoop}

theorem getElem?_socketPtrs (ha : h.Aligned) (hs : h.Same h') {i : Nat} {s : Pollfd}
    (hi : h.sockets[i]? = some s) :
    ∃ p, h.socketPtrs[i]? = some p ∧ h'.socketPtrs[i]? = some p := by
  obtain ⟨hlt, -⟩ := List.getElem?_eq_some_iff.mp hi
  have hlt' : i < h.socketPtrs.length := by
    have halign : h.sockets.length = h.socketPtrs.length := ha
    omega
  exact ⟨h.socketPtrs[i], List.getElem?_eq_getElem hlt', by
    rw [hs.ptrs]; exact List.getElem?_eq_getElem hlt'⟩

theorem pollStep_end (hs : h.Same h') (hphase : l.phase = .entry)
    (hit : l.it = h.sockets.length) : pollStep h' l = .leave := by
  simp [pollStep, hphase, hit, hs.length]

theorem pollStep_entry (ha : h.Aligned) (hs : h.Same h') (hphase : l.phase = .entry) {s : Pollfd}
    (hi : h.sockets[l.it]? = some s) :
    (s.revents = 0 ∧ pollStep h' l = .goOn { l with it := l.it + 1, handlerRef := h.invalid }) ∨
    (s.revents ≠ 0 ∧ hasBit s.revents POLLIN = true ∧ ∃ p, h.socketPtrs[l.it]? = some p ∧
      pollStep h' l = .readable p { l with handlerRef := h.invalid, phase := .read }) ∨
    (s.revents ≠ 0 ∧ hasBit s.revents POLLIN = false ∧
      pollStep h' l = .goOn { l with handlerRef := h.invalid, phase := .read }) := by
  obtain ⟨hlt, -⟩ := List.getElem?_eq_some_iff.mp hi
  obtain ⟨s', hs', hfd, hrev⟩ := hs.getElem? hi
  obtain ⟨p, hp, hp'⟩ := getElem?_socketPtrs ha hs hi
  have hne : l.it ≠ h'.sockets.length := by
    have := hs.length
    omega
  have href : h'.getRef = h.invalid := hs.invalid
  by_cases hzero : s.revents = 0
  · exact .inl ⟨hzero, by simp [pollStep, hphase, hne, hs', hrev, hzero, href]⟩
  · cases hin : hasBit s.revents POLLIN with
    | true => exact .inr (.inl ⟨hzero, rfl, p, hp, by
        simpa [pollStep, hphase, hne, hs', hrev, hin, hp', href] using hzero⟩)
    | false => exact .inr (.inr ⟨hzero, rfl, by
        simpa [pollStep, hphase, hne, hs', hrev, hin, href] using hzero⟩)

theorem pollStep_read (ha : h.Aligned) (hs : h.Same h') (hphase : l.phase = .read)
    (href : l.handlerRef = h.invalid) {s : Pollfd} (hi : h.sockets[l.it]? = some s) :
    (hasBit s.revents POLLOUT = true ∧ ∃ p, h.socketPtrs[l.it]? = some p ∧
      pollStep h' l = .writeable p { l with phase := .written }) ∨
    (hasBit s.revents POLLOUT = false ∧ pollStep h' l = .goOn { l with phase := .written }) := by
  obtain ⟨s', hs', hfd, hrev⟩ := hs.getElem? hi
  obtain ⟨p, hp, hp'⟩ := getElem?_socketPtrs ha hs hi
  have hunchanged : h'.refHasChanged l.handlerRef = false := by
    simp [Handler.refHasChanged, Handler.getRef, href, hs.invalid]
  cases hout : hasBit s.revents POLLOUT with
  | true => exact .inl ⟨rfl, p, hp, by simp [pollStep, hphase, hunchanged, hs', hrev, hout, hp']⟩
  | false => exact .inr ⟨rfl, by simp [pollStep, hphase, hunchanged, hs', hrev, hout]⟩

theorem pollStep_written (hs : h.Same h') (hphase : l.phase = .written)
    (href : l.handlerRef = h.invalid) :
    (l.nChanges - 1 = 0 ∧ pollStep h' l = .leave) ∨
    (l.nChanges - 1 ≠ 0 ∧ pollStep h' l =
      .goOn { l with it := l.it + 1, nChanges := l.nChanges - 1, phase := .entry }) := by
  have hunchanged : h'.refHasChanged l.handlerRef = false := by
    simp [Handler.refHasChanged, Handler.getRef, href, hs.invalid]
  by_cases hzero : l.nChanges - 1 = 0
  · exact .inl ⟨hzero, by simp [pollStep, hphase, hzero]⟩
  · exact .inr ⟨hzero, by simp [pollStep, hphase, hzero, hunchanged]⟩

/-- Behind a callback, a counter that differs from `handler_ref` ends the loop. -/
theorem pollStep_changed (hphase : l.phase ≠ .entry) (href : h'.invalid ≠ l.handlerRef) :
    pollStep h' l = .leave := by
  have hchanged : h'.refHasChanged l.handlerRef = true := by
    simpa [Handler.refHasChanged, Handler.getRef] using fun heq => href heq.symm
  cases hp : l.phase with
  | entry => exact absurd hp hphase
  | read => simp [pollStep, hp, hchanged]
  | written => simp [pollStep, hp, hchanged]

end Turns

/-! ### Nothing stale is touched -/

/-- The entry at `i` has the descriptor for which `::poll` reported an event of `mask` when it wrote
to `h`, and is registered with `sockobj` in `h'`. -/
def Dispatches (h h' : Handler ρ) (mask : UShort) (i : Nat) (sockobj : ρ) : Prop :=
  ∃ s s', h.sockets[i]? = some s ∧ hasBit s.revents mask = true ∧
    h'.sockets[i]? = some s' ∧ s'.fd = s.fd ∧ h'.socketPtrs[i]? = some sockobj

/-- The run has read no position outside of the vectors, its next turn reads none either, and if
that turn calls an object back, it dispatches a reported event to it. -/
def Round.Safe (h : Handler ρ) (r : Round ρ) : Prop :=
  match r.status with
  | .returned => True
  | .wild => False
  | .running l =>
    match pollStep r.handler l with
    | .leave | .goOn _ => True
    | .wild => False
    | .readable sockobj _ => Dispatches h r.handler POLLIN l.it sockobj
    | .writeable sockobj _ => Dispatches h r.handler POLLOUT l.it sockobj

/-- The loop stands at a position of the reported entries, with `handler_ref` up to date behind a
callback; or it stands behind a callback with `handler_ref` outdated. -/
inductive LoopInv (h h' : Handler ρ) (l : PollLoop) : Prop
  | same : h.Same h' → l.it ≤ h.sockets.length →
      (l.phase ≠ .entry → l.it < h.sockets.length ∧ l.handlerRef = h.invalid) → LoopInv h h' l
  | changed : l.phase ≠ .entry → h'.invalid ≠ l.handlerRef → LoopInv h h' l

/-- `LoopInv` while the run is in its loop. -/
def Round.Inv (h : Handler ρ) (r : Round ρ) : Prop :=
  match r.status with
  | .returned => True
  | .wild => False
  | .running l => LoopInv h r.handler l

namespace Round

variable {h : Handler ρ}

theorem start_inv (h : Handler ρ) (nChanges : Int) : (start h nChanges).Inv h :=
  .same (.refl h) (Nat.zero_le _) fun hphase => absurd rfl hphase

/-- After a callback with fewer than `2 ^ 16` changes, either nothing changed or the counter shows
it. -/
theorem callback_inv {h' : Handler ρ} {l : PollLoop} {cs : List (HandlerCall ρ)} (hs : h.Same h')
    (hcs : changes cs < 65536) (hphase : l.phase ≠ .entry) (hit : l.it < h.sockets.length)
    (href : l.handlerRef = h.invalid) : LoopInv h (h'.calls cs) l := by
  by_cases hzero : changes cs = 0
  · exact .same (hs.trans (h'.calls_same hzero)) (Nat.le_of_lt hit) fun _ => ⟨hit, href⟩
  · refine .changed hphase ?_
    rw [href, ← hs.invalid]
    exact h'.calls_invalid_ne (by omega)

/-- A turn keeps the invariant, and what it does is safe. -/
theorem step_inv (ha : h.Aligned) {behaviour : Nat → List (HandlerCall ρ)}
    (hb : ∀ k, changes (behaviour k) < 65536) {r : Round ρ} (hr : r.Inv h) :
    r.Safe h ∧ (r.step behaviour).Inv h := by
  obtain ⟨h', status, made⟩ := r
  cases status with
  | returned => exact ⟨trivial, trivial⟩
  | wild => exact hr.elim
  | running l =>
    rcases (show LoopInv h h' l from hr) with ⟨hs, hle, hpos⟩ | ⟨hphase, href⟩
    · cases hphase : l.phase with
      | entry =>
        by_cases hend : l.it = h.sockets.length
        · have hturn := pollStep_end hs hphase hend
          simp only [Safe, step, hturn]
          exact ⟨trivial, trivial⟩
        · have hlt : l.it < h.sockets.length := by omega
          have hi := List.getElem?_eq_getElem hlt
          rcases pollStep_entry ha hs hphase hi with ⟨-, hturn⟩ | ⟨-, hin, p, hp, hturn⟩ |
            ⟨-, -, hturn⟩ <;> simp only [Safe, step, hturn]
          · exact ⟨trivial, .same hs hlt fun hne => absurd hphase hne⟩
          · obtain ⟨s', hs', hfd, -⟩ := hs.getElem? hi
            exact ⟨⟨_, s', hi, hin, hs', hfd, by rw [hs.ptrs]; exact hp⟩,
              callback_inv hs (hb _) (by simp) hlt rfl⟩
          · exact ⟨trivial, .same hs hle fun _ => ⟨hlt, rfl⟩⟩
      | read =>
        obtain ⟨hlt, href⟩ := hpos (by simp [hphase])
        have hi := List.getElem?_eq_getElem hlt
        rcases pollStep_read ha hs hphase href hi with ⟨hout, p, hp, hturn⟩ | ⟨-, hturn⟩ <;>
          simp only [Safe, step, hturn]
        · obtain ⟨s', hs', hfd, -⟩ := hs.getElem? hi
          exact ⟨⟨_, s', hi, hout, hs', hfd, by rw [hs.ptrs]; exact hp⟩,
            callback_inv hs (hb _) (by simp) hlt href⟩
        · exact ⟨trivial, .same hs hle fun _ => ⟨hlt, href⟩⟩
      | written =>
        obtain ⟨hlt, href⟩ := hpos (by simp [hphase])
        rcases pollStep_written hs hphase href with ⟨-, hturn⟩ | ⟨-, hturn⟩ <;>
          simp only [Safe, step, hturn]
        · exact ⟨trivial, trivial⟩
        · exact ⟨trivial, .same hs hlt fun hne => absurd rfl hne⟩
    · have hturn := pollStep_changed hphase href
      simp only [Safe, step, hturn]
      exact ⟨trivial, trivial⟩

theorem iterate_inv (ha : h.Aligned) {behaviour : Nat → List (HandlerCall ρ)}
    (hb : ∀ k, changes (behaviour k) < 65536) (nChanges : Int) (n : Nat) :
    ((step behaviour)^[n] (start h nChanges)).Inv h := by
  induction n with
  | zero => exact start_inv h nChanges
  | succ n ih =>
    rw [Function.iterate_succ_apply']
    exact (step_inv ha hb ih).2

/-- Whatever `::poll` reported and returned, and whatever the callbacks call, as long as each makes
fewer than `2 ^ 16` changes: at every turn of the run, the loop reads within the vectors and calls
objects that are registered where it reads them, for a descriptor with a reported event. -/
theorem dispatch_safe (ha : h.Aligned) {behaviour : Nat → List (HandlerCall ρ)}
    (hb : ∀ k, changes (behaviour k) < 65536) (nChanges : Int) (n : Nat) :
    ((step behaviour)^[n] (start h nChanges)).Safe h :=
  (step_inv ha hb (iterate_inv ha hb nChanges n)).1

end Round

/-- Two sockets, descriptors 3 and 4, that `::poll` reported as readable. -/
def twoReadable : Handler Nat where
  sockets := [⟨3, POLLIN, POLLIN⟩, ⟨4, POLLIN, POLLIN⟩]
  socketPtrs := [30, 40]
  invalid := 65535

/-- The callbacks of `twoReadable`: the first deletes both sockets and registers 3 again. -/
theorem dispatch_safe_twoReadable :
    ((Round.step fun _ => [.deleteSocket 4, .deleteSocket 3, .addSocket 3 31])^[3]
      (Round.start twoReadable 2)).Safe twoReadable :=
  Round.dispatch_safe (h := twoReadable) rfl (fun _ => by decide) 2 3

end Unisock.Events
