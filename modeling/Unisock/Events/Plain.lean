import Unisock.Events.Service

/-! The loop of `poll_impl<POLL>` against a plain loop over the entries, without the countdown of
`n_changes` and without the checks of the counter; and the entries that either loop passes without a
callback. -/

namespace Unisock.Events

variable {ρ : Type}

/-! ### The plain loop -/

/-- The call `c` is made, and its callback makes the next calls of `behaviour`. -/
def callBack (behaviour : Nat → List (HandlerCall ρ)) (r : Handler ρ × List (PollCall ρ))
    (c : PollCall ρ) : Handler ρ × List (PollCall ρ) :=
  (r.1.calls (behaviour r.2.length), r.2 ++ [c])

/-- The plain loop over `entries`, of which the first is at position `it`. -/
def plainLoop (behaviour : Nat → List (HandlerCall ρ)) :
    Nat → List (Pollfd × ρ) → Handler ρ × List (PollCall ρ) → Handler ρ × List (PollCall ρ)
  | _, [], r => r
  | it, (socket, sockobj) :: entries, r =>
    let read := if hasBit socket.revents POLLIN then callBack behaviour r ⟨.readable, it, sockobj⟩
      else r
    let written :=
      if hasBit socket.revents POLLOUT then callBack behaviour read ⟨.writeable, it, sockobj⟩
      else read
    plainLoop behaviour (it + 1) entries written

/-- The handler and the calls that the plain loop over all entries of `h` ends with. -/
def plain (behaviour : Nat → List (HandlerCall ρ)) (h : Handler ρ) :
    Handler ρ × List (PollCall ρ) :=
  plainLoop behaviour 0 (h.sockets.zip h.socketPtrs) (h, [])

section PlainLoop

variable {behaviour : Nat → List (HandlerCall ρ)} {h : Handler ρ}

theorem plainLoop_eq (ha : h.Aligned) {i : Nat} (hi : i ≤ h.sockets.length)
    (r : Handler ρ × List (PollCall ρ)) :
    plainLoop behaviour i ((h.sockets.zip h.socketPtrs).drop i) r =
      (dueFrom h i).foldl (callBack behaviour) r := by
  have hlen : (h.sockets.zip h.socketPtrs).length = h.sockets.length := by
    rw [List.length_zip, show h.sockets.length = h.socketPtrs.length from ha, Nat.min_self]
  induction hleft : h.sockets.length - i generalizing i r with
  | zero =>
    rw [List.drop_eq_nil_of_le (by omega), dueFrom_of_ge (by omega)]
    rfl
  | succ left ih =>
    have hlt : i < h.sockets.length := by omega
    have hs := List.getElem?_eq_getElem hlt
    obtain ⟨p, hp, -⟩ := getElem?_socketPtrs ha (.refl h) hs
    have hlt' : i < (h.sockets.zip h.socketPtrs).length := by omega
    have hhead : (h.sockets.zip h.socketPtrs)[i] = (h.sockets[i], p) := by
      obtain ⟨_, hget⟩ := List.getElem?_eq_some_iff.mp hp
      rw [List.getElem_zip, hget]
    rw [List.drop_eq_getElem_cons hlt', hhead, plainLoop, ih (by omega) _ (by omega),
      dueFrom_of_lt hlt, List.foldl_append, dueAt_eq hs hp]
    cases hasBit h.sockets[i].revents POLLIN <;> cases hasBit h.sockets[i].revents POLLOUT <;> rfl

theorem executed_succ (behaviour : Nat → List (HandlerCall ρ)) (n : Nat) :
    executed behaviour (n + 1) = executed behaviour n ++ behaviour n := by
  simp [executed, List.range_succ]

theorem Handler.calls_append (h : Handler ρ) (cs ds : List (HandlerCall ρ)) :
    h.calls (cs ++ ds) = (h.calls cs).calls ds := List.foldl_append

theorem foldl_callBack (h : Handler ρ) (made cs : List (PollCall ρ)) :
    cs.foldl (callBack behaviour) (h.calls (executed behaviour made.length), made) =
      (h.calls (executed behaviour (made ++ cs).length), made ++ cs) := by
  induction cs generalizing made with
  | nil => simp
  | cons c cs ih =>
    have hstep : callBack behaviour (h.calls (executed behaviour made.length), made) c =
        (h.calls (executed behaviour (made ++ [c]).length), made ++ [c]) := by
      rw [callBack, ← Handler.calls_append, List.length_append, List.length_singleton,
        executed_succ]
    rw [List.foldl_cons, hstep, ih]
    simp

/-- The plain loop makes the calls that are due. -/
theorem plain_eq (ha : h.Aligned) :
    plain behaviour h = (h.calls (executed behaviour (due h).length), due h) := by
  have hloop : plain behaviour h = (due h).foldl (callBack behaviour) (h, []) :=
    plainLoop_eq ha (Nat.zero_le _) (h, [])
  rw [hloop]
  exact foldl_callBack h [] (due h)

end PlainLoop

namespace Round

variable {behaviour : Nat → List (HandlerCall ρ)} {h : Handler ρ}

/-- A run has made the calls to the handler that its callbacks so far make. -/
def Executed (behaviour : Nat → List (HandlerCall ρ)) (h : Handler ρ) (r : Round ρ) : Prop :=
  r.handler = h.calls (executed behaviour r.made.length)

theorem Executed.called {h' : Handler ρ} {status : RoundStatus} {made : List (PollCall ρ)}
    (hr : Executed behaviour h ⟨h', status, made⟩) (status' : RoundStatus) (c : PollCall ρ) :
    Executed behaviour h ⟨h'.calls (behaviour made.length), status', made ++ [c]⟩ := by
  have hh : h' = h.calls (executed behaviour made.length) := hr
  show h'.calls (behaviour made.length) = h.calls (executed behaviour (made ++ [c]).length)
  rw [List.length_append, List.length_singleton, executed_succ, Handler.calls_append, ← hh]

theorem Executed.step {r : Round ρ} (hr : Executed behaviour h r) :
    Executed behaviour h (r.step behaviour) := by
  obtain ⟨h', status, made⟩ := r
  cases status with
  | returned => exact hr
  | wild => exact hr
  | running l =>
    simp only [Round.step]
    cases pollStep h' l with
    | leave => exact hr
    | wild => exact hr
    | goOn next => exact hr
    | readable sockobj next => exact hr.called _ _
    | writeable sockobj next => exact hr.called _ _

theorem Executed.iterate (h : Handler ρ) (nChanges : Int) (n : Nat) :
    Executed behaviour h ((Round.step behaviour)^[n] (start h nChanges)) := by
  induction n with
  | zero => rfl
  | succ n ih =>
    rw [Function.iterate_succ_apply']
    exact ih.step

/-- Where `::poll` returned the number of entries with an event and the callbacks change interest
only, the loop returns with the calls of the plain loop, in the same order, and with the handler
that the plain loop leaves. -/
theorem counted_eq_plain (ha : h.Aligned) (hb : ∀ k, changes (behaviour k) = 0) :
    ∃ n, ((Round.step behaviour)^[n] (start h (readyCount h))).status = .returned ∧
      (((Round.step behaviour)^[n] (start h (readyCount h))).handler,
        ((Round.step behaviour)^[n] (start h (readyCount h))).made) = plain behaviour h := by
  have hends : Ends behaviour (start h (readyCount h)) (due h) := by
    have hserved := ends_served ha fun k _ => hb k
    rwa [served_eq_self fun _ _ => hb _] at hserved
  obtain ⟨n, hreturned, hmade⟩ := hends
  have hexecuted : Executed behaviour h ((Round.step behaviour)^[n] (start h (readyCount h))) :=
    .iterate h _ n
  refine ⟨n, hreturned, ?_⟩
  rw [Executed, hmade] at hexecuted
  rw [plain_eq ha, hexecuted, hmade]

end Round

theorem counted_eq_plain_twoReadable :
    ∃ n, ((Round.step fun _ => [.wantWrite 4 true])^[n]
        (Round.start twoReadable (readyCount twoReadable))).status = .returned ∧
      (((Round.step fun _ => [.wantWrite 4 true])^[n]
          (Round.start twoReadable (readyCount twoReadable))).handler,
        ((Round.step fun _ => [.wantWrite 4 true])^[n]
          (Round.start twoReadable (readyCount twoReadable))).made) =
        plain (fun _ => [.wantWrite 4 true]) twoReadable :=
  Round.counted_eq_plain (h := twoReadable) rfl fun _ => rfl

/-! ### Entries without a callback -/

def POLLERR : UShort := 0x008#16

def POLLHUP : UShort := 0x010#16

def POLLNVAL : UShort := 0x020#16

/-- What `::poll` may report for an entry: events that were asked for, and errors. -/
def Pollfd.mayReport (s : Pollfd) (revents : UShort) : Bool :=
  revents &&& ~~~(s.events ||| POLLERR ||| POLLHUP ||| POLLNVAL) == 0

theorem Handler.calls_aligned {h : Handler ρ} (ha : h.Aligned) (cs : List (HandlerCall ρ)) :
    (h.calls cs).Aligned := by
  induction cs generalizing h with
  | nil => exact ha
  | cons c cs ih =>
    apply ih (h := c.apply h)
    cases c with
    | addSocket socket sptr => exact HandlerImpl.addSocket_aligned ha socket sptr
    | deleteSocket socket => exact HandlerImpl.delSocket_aligned ha socket
    | wantRead socket active => exact HandlerImpl.socketWant_aligned ha POLLIN socket active
    | wantWrite socket active => exact HandlerImpl.socketWant_aligned ha POLLOUT socket active

namespace Round

variable {behaviour : Nat → List (HandlerCall ρ)} {h : Handler ρ}

/-- The loop stands at its condition, in front of the entry `s` with an event. -/
def Meets (r : Round ρ) (l : PollLoop) (s : Pollfd) : Prop :=
  r.status = .running l ∧ l.phase = .entry ∧ r.handler.sockets[l.it]? = some s ∧ s.revents ≠ 0

/-- From `r` on, the run calls the object of the entry at `i`. -/
def Calls (behaviour : Nat → List (HandlerCall ρ)) (r : Round ρ) (i : Nat) : Prop :=
  ∃ n new, ((step behaviour)^[n] r).made = r.made ++ new ∧ ∃ c ∈ new, c.it = i

/-- The loop is behind the entry at `i`, and since `made` it has not called its object. -/
def Passed (made : List (PollCall ρ)) (i : Nat) (r : Round ρ) : Prop :=
  (∃ new, r.made = made ++ new ∧ ∀ c ∈ new, c.it ≠ i) ∧ ∀ l, r.status = .running l → i < l.it

end Round

/-- Where the loop goes on after a turn. -/
def PollAct.next? : PollAct ρ → Option PollLoop
  | .leave | .wild => none
  | .goOn next | .readable _ next | .writeable _ next => some next

/-- The iterator never moves back. -/
theorem pollStep_it_le {h : Handler ρ} {l next : PollLoop}
    (hnext : (pollStep h l).next? = some next) : l.it ≤ next.it := by
  unfold pollStep at hnext
  repeat' split at hnext
  all_goals simp only [PollAct.next?, Option.some.injEq, reduceCtorEq] at hnext
  all_goals
    subst hnext
    simp

namespace Round

variable {behaviour : Nat → List (HandlerCall ρ)} {h : Handler ρ}

theorem Passed.step {made : List (PollCall ρ)} {i : Nat} {r : Round ρ} (hr : r.Passed made i) :
    (r.step behaviour).Passed made i := by
  obtain ⟨h', status, made'⟩ := r
  obtain ⟨⟨new, hmade, hnew⟩, hbehind⟩ := hr
  cases status with
  | returned => exact ⟨⟨new, hmade, hnew⟩, hbehind⟩
  | wild => exact ⟨⟨new, hmade, hnew⟩, hbehind⟩
  | running l =>
    have hlt : i < l.it := hbehind l rfl
    -- a callback of this turn is one of the entry at the iterator
    have hcalled : ∀ kind sockobj, ∃ new', made' ++ [⟨kind, l.it, sockobj⟩] = made ++ new' ∧
        ∀ c ∈ new', c.it ≠ i := fun kind sockobj => by
      refine ⟨new ++ [⟨kind, l.it, sockobj⟩], ?_, fun c hc => ?_⟩
      · rw [← List.append_assoc, ← hmade]
      · rcases List.mem_append.mp hc with hc | hc
        · exact hnew c hc
        · obtain rfl := List.mem_singleton.mp hc
          exact Nat.ne_of_gt hlt
    simp only [Round.step]
    cases hturn : pollStep h' l with
    | leave => exact ⟨⟨new, hmade, hnew⟩, fun _ hstatus => absurd hstatus (by simp)⟩
    | wild => exact ⟨⟨new, hmade, hnew⟩, fun _ hstatus => absurd hstatus (by simp)⟩
    | goOn next =>
      refine ⟨⟨new, hmade, hnew⟩, fun l' hstatus => ?_⟩
      obtain rfl := RoundStatus.running.inj hstatus
      exact hlt.trans_le (pollStep_it_le (by rw [hturn]; rfl))
    | readable sockobj next =>
      refine ⟨hcalled _ _, fun l' hstatus => ?_⟩
      obtain rfl := RoundStatus.running.inj hstatus
      exact hlt.trans_le (pollStep_it_le (by rw [hturn]; rfl))
    | writeable sockobj next =>
      refine ⟨hcalled _ _, fun l' hstatus => ?_⟩
      obtain rfl := RoundStatus.running.inj hstatus
      exact hlt.trans_le (pollStep_it_le (by rw [hturn]; rfl))

theorem Passed.iterate {made : List (PollCall ρ)} {i : Nat} {r : Round ρ} (hr : r.Passed made i)
    (n : Nat) : ((Round.step behaviour)^[n] r).Passed made i := by
  induction n with
  | zero => exact hr
  | succ n ih =>
    rw [Function.iterate_succ_apply']
    exact ih.step

/-- A run that is past the entry calls its object no more. -/
theorem Passed.not_calls {r : Round ρ} {i : Nat} (hr : r.Passed r.made i) :
    ¬ r.Calls behaviour i := by
  rintro ⟨n, new, hmade, c, hc, hit⟩
  have hpassed : ((Round.step behaviour)^[n] r).Passed r.made i := hr.iterate n
  obtain ⟨⟨new', hmade', hnew⟩, -⟩ := hpassed
  have heq := List.append_cancel_left (hmade.symm.trans hmade')
  exact hnew c (heq ▸ hc) hit

theorem Calls.of_step {r : Round ρ} {i : Nat} (hr : (r.step behaviour).Calls behaviour i)
    (hmade : (r.step behaviour).made = r.made) : r.Calls behaviour i := by
  obtain ⟨n, new, hnew, hc⟩ := hr
  exact ⟨n + 1, new, by rw [Function.iterate_succ_apply, hnew, hmade], hc⟩

theorem calls_of_step {r : Round ρ} {c : PollCall ρ}
    (hmade : (r.step behaviour).made = r.made ++ [c]) : r.Calls behaviour c.it :=
  ⟨1, [c], hmade, c, List.mem_singleton_self c, rfl⟩

/-- What follows a turn without a callback. -/
theorem calls_step_iff {r : Round ρ} {i : Nat} (hmade : (r.step behaviour).made = r.made) :
    r.Calls behaviour i ↔ (r.step behaviour).Calls behaviour i := by
  refine ⟨fun hr => ?_, fun hr => hr.of_step hmade⟩
  obtain ⟨n, new, hnew, c, hc, hit⟩ := hr
  cases n with
  | zero =>
    have hnil : new = [] := by simpa using hnew
    exact absurd hc (by simp [hnil])
  | succ n => exact ⟨n, new, by rw [← Function.iterate_succ_apply, hnew, hmade], c, hc, hit⟩

/-- In front of an entry, the run calls its object exactly if the entry is readable or writeable. -/
theorem calls_entry_iff {r : Round ρ} (ha : r.handler.Aligned) {l : PollLoop} {s : Pollfd}
    (hmeets : r.Meets l s) :
    r.Calls behaviour l.it ↔ (hasBit s.revents POLLIN || hasBit s.revents POLLOUT) = true := by
  obtain ⟨h', status, made⟩ := r
  obtain ⟨hstatus, hphase, hs, hne⟩ := hmeets
  simp only at ha hstatus hs
  subst hstatus
  rcases pollStep_entry ha (.refl h') hphase hs with ⟨hzero, -⟩ | ⟨-, hin, p, -, hturn⟩ |
    ⟨-, hin, hturn⟩
  · exact absurd hzero hne
  · have hcalls : Calls behaviour ⟨h', .running l, made⟩ l.it :=
      calls_of_step (c := ⟨.readable, l.it, p⟩) (by simp only [Round.step, hturn])
    exact iff_of_true hcalls (by simp [hin])
  · have hread : Round.step behaviour ⟨h', .running l, made⟩ =
        ⟨h', .running { l with handlerRef := h'.invalid, phase := .read }, made⟩ := by
      simp only [Round.step, hturn]
    rw [calls_step_iff (by rw [hread]), hread]
    rcases pollStep_read (l := { l with handlerRef := h'.invalid, phase := .read }) ha (.refl h')
      rfl rfl hs with ⟨hout, p, -, hturn⟩ | ⟨hout, hturn⟩
    · have hcalls : Calls behaviour
          ⟨h', .running { l with handlerRef := h'.invalid, phase := .read }, made⟩ l.it :=
        calls_of_step (c := ⟨.writeable, l.it, p⟩) (by simp only [Round.step, hturn])
      exact iff_of_true hcalls (by simp [hout])
    · have hwritten : Round.step behaviour
          ⟨h', .running { l with handlerRef := h'.invalid, phase := .read }, made⟩ =
          ⟨h', .running { l with handlerRef := h'.invalid, phase := .written }, made⟩ := by
        simp only [Round.step, hturn]
      rw [calls_step_iff (by rw [hwritten]), hwritten]
      have hpassed : Passed made l.it (Round.step behaviour
          ⟨h', .running { l with handlerRef := h'.invalid, phase := .written }, made⟩) := by
        rcases pollStep_written (l := { l with handlerRef := h'.invalid, phase := .written })
          (.refl h') rfl rfl with ⟨-, hturn⟩ | ⟨-, hturn⟩ <;>
          simp only [Round.step, hturn]
        · exact ⟨⟨[], by simp, by simp⟩, fun _ hstatus => absurd hstatus (by simp)⟩
        · refine ⟨⟨[], by simp, by simp⟩, fun l' hstatus => ?_⟩
          obtain rfl := RoundStatus.running.inj hstatus
          exact Nat.lt_succ_self _
      have hmade : (Round.step behaviour
          ⟨h', .running { l with handlerRef := h'.invalid, phase := .written }, made⟩).made =
          made := by
        rcases pollStep_written (l := { l with handlerRef := h'.invalid, phase := .written })
          (.refl h') rfl rfl with ⟨-, hturn⟩ | ⟨-, hturn⟩ <;>
          simp only [Round.step, hturn]
      rw [calls_step_iff hmade]
      refine iff_of_false (Passed.not_calls (hmade.symm ▸ hpassed)) (by simp [hin, hout])

theorem step_aligned {r : Round ρ} (ha : r.handler.Aligned) :
    (r.step behaviour).handler.Aligned := by
  obtain ⟨h', status, made⟩ := r
  cases status with
  | returned => exact ha
  | wild => exact ha
  | running l =>
    simp only [Round.step]
    cases pollStep h' l with
    | leave => exact ha
    | wild => exact ha
    | goOn next => exact ha
    | readable sockobj next => exact Handler.calls_aligned ha _
    | writeable sockobj next => exact Handler.calls_aligned ha _

theorem iterate_aligned (ha : h.Aligned) (nChanges : Int) (n : Nat) :
    ((Round.step behaviour)^[n] (start h nChanges)).handler.Aligned := by
  induction n with
  | zero => exact ha
  | succ n ih =>
    rw [Function.iterate_succ_apply']
    exact step_aligned ih

/-- Whatever `::poll` reported and returned and whatever the callbacks call: an entry with an event
that the loop comes to gets a callback exactly if `POLLIN` or `POLLOUT` is among its events.  A callback
that adds and deletes a multiple of `2 ^ 16` sockets leaves the reference as it was and the loop with
invalid iterators, for which `step` goes on at the same position. -/
theorem told_iff (ha : h.Aligned) {nChanges : Int} {n : Nat} {l : PollLoop} {s : Pollfd}
    (hmeets : ((Round.step behaviour)^[n] (start h nChanges)).Meets l s) :
    ((Round.step behaviour)^[n] (start h nChanges)).Calls behaviour l.it ↔
      (hasBit s.revents POLLIN || hasBit s.revents POLLOUT) = true :=
  calls_entry_iff (iterate_aligned ha nChanges n) hmeets

end Round

theorem told_iff_twoReadable :
    (Round.start twoReadable 2).Calls (fun _ => []) 0 ↔
      (hasBit POLLIN POLLIN || hasBit POLLIN POLLOUT) = true :=
  Round.told_iff (n := 0) (s := ⟨3, POLLIN, POLLIN⟩) (h := twoReadable) rfl
    ⟨rfl, rfl, rfl, by decide⟩

/-- A socket whose owner has cleared its interest. -/
def unwatched : Handler Nat where
  sockets := [⟨3, 0, 0⟩]
  socketPtrs := [30]
  invalid := 1

/-- A hang-up on a socket without interest is reported in every round, and nobody is told. -/
theorem hangup_untold : ¬ ∀ (h : Handler Nat) (revents : List UShort)
    (behaviour : Nat → List (HandlerCall Nat)) (n : Nat) (l : PollLoop) (s : Pollfd), h.Aligned →
    (List.zipWith Pollfd.mayReport h.sockets revents).all id = true →
    revents.length = h.sockets.length →
    ((Round.step behaviour)^[n] (Round.start (h.report revents)
      (readyCount (h.report revents)))).Meets l s →
    ((Round.step behaviour)^[n] (Round.start (h.report revents)
      (readyCount (h.report revents)))).Calls behaviour l.it := by
  intro hall
  have hmeets : Round.Meets (Round.start (unwatched.report [POLLHUP]) 1) (.start 1)
      ⟨3, 0, POLLHUP⟩ := ⟨rfl, rfl, rfl, by decide⟩
  have hcalls := hall unwatched [POLLHUP] (fun _ => []) 0 (.start 1) ⟨3, 0, POLLHUP⟩ rfl
    (by decide) rfl hmeets
  have hbits := (Round.calls_entry_iff (r := Round.start (unwatched.report [POLLHUP]) 1) rfl
    hmeets).mp hcalls
  exact absurd hbits (by decide)

end Unisock.Events
