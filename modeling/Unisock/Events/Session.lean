import Unisock.Lib.Machine
import Unisock.Events.Plain

/-! A handler over many rounds of `events::poll`.  The library never clears `revents`: what a round
left there is what the next round finds, if its `::poll` fails. -/

namespace Unisock.Events

variable {ρ : Type}

/-- What the entries were last reported with: events and object. -/
def Handler.reports (h : Handler ρ) : List (UShort × ρ) :=
  (h.sockets.map Pollfd.revents).zip h.socketPtrs

/-- The event that a function of a socket is called for. -/
def EventKind.mask : EventKind → UShort
  | .readable => POLLIN
  | .writeable => POLLOUT

/-- Readable or writeable. -/
def isReady (revents : UShort) : Bool := hasBit revents POLLIN || hasBit revents POLLOUT

/-- A handler between and in its rounds: the round that runs or that ran last, and the handler as
its `::poll` left it, if that did not fail. -/
structure Session (ρ : Type) where
  round : Round ρ
  polled : Option (Handler ρ)

/-- What happens next. -/
inductive SessionInput (ρ : Type)
  /-- A call to the handler between two rounds. -/
  | call (c : HandlerCall ρ)
  /-- `events::poll`, where `::poll` reports these `revents`, or fails. -/
  | poll (result : Option (List UShort))
  /-- A turn of the loop, where the callback makes these calls, if one is called. -/
  | turn (calls : List (HandlerCall ρ))

namespace Session

def start (h : Handler ρ) : Session ρ where
  round := { handler := h, status := .returned, made := [] }
  polled := none

/-- A failing `::poll` returns -1 and leaves `revents` as they are. -/
def poll (h : Handler ρ) : Option (List UShort) → Option (Session ρ)
  | none => some { round := .start h (-1), polled := none }
  | some revents =>
    if revents.length = h.sockets.length then
      some { round := .start (h.report revents) (revents.countP (· != 0)),
             polled := some (h.report revents) }
    else none

def step (s : Session ρ) : SessionInput ρ → Option (Session ρ)
  | .call c =>
    match s.round.status with
    | .returned => some { s with round := { s.round with handler := c.apply s.round.handler } }
    | _ => none
  | .poll result =>
    match s.round.status with
    | .returned => if s.round.handler.empty then some s else poll s.round.handler result
    | _ => none
  | .turn calls =>
    match s.round.status with
    | .running _ => some { s with round := s.round.step fun _ => calls }
    | _ => none

/-- Every call of the round is for an event that the `::poll` of this round reported. -/
def Told (s : Session ρ) : Prop :=
  ∀ c ∈ s.round.made, ∃ h, s.polled = some h ∧
    ∃ revents, (revents, c.sockobj) ∈ h.reports ∧ hasBit revents c.kind.mask = true

/-- An entry still has an event of an earlier round. -/
def Stale (s : Session ρ) : Prop := ∃ e ∈ s.round.handler.reports, isReady e.1 = true

end Session

/-! ### What calls to the handler do to the reports -/

section Reports

variable {h : Handler ρ}

theorem length_revents (ha : h.Aligned) :
    (h.sockets.map Pollfd.revents).length = h.socketPtrs.length := by
  rw [List.length_map]
  exact ha

theorem reports_addSocket (ha : h.Aligned) (socket : Int) (sptr : ρ) :
    (h.addSocket socket sptr).reports = h.reports ++ [(0, sptr)] := by
  have hmap : (h.addSocket socket sptr).sockets.map Pollfd.revents =
      h.sockets.map Pollfd.revents ++ [0] := by
    simp [Handler.addSocket, HandlerImpl.addSocket]
  have hptrs : (h.addSocket socket sptr).socketPtrs = h.socketPtrs ++ [sptr] := rfl
  rw [Handler.reports, hmap, hptrs, List.zip_append (length_revents ha)]
  rfl

theorem reports_deleteSocket (socket : Int) {e : UShort × ρ}
    (he : e ∈ (h.deleteSocket socket).reports) : e ∈ h.reports := by
  unfold Handler.reports Handler.deleteSocket HandlerImpl.delSocket at he
  simp only at he
  split at he
  · exact he
  · rw [← List.eraseIdx_map, Parallel.zip_eraseIdx] at he
    exact List.mem_of_mem_eraseIdx he

theorem reports_want (mask : UShort) (socket : Int) (active : Bool) :
    Handler.reports { h with toHandlerImpl := h.toHandlerImpl.socketWant mask socket active } =
      h.reports := by
  rw [Handler.reports, HandlerImpl.socketWant_socketPtrs,
    HandlerImpl.socketWant_map Pollfd.revents fun _ _ => rfl, Handler.reports]

/-- A new entry has no event, and no other event is new. -/
theorem reports_apply (ha : h.Aligned) (c : HandlerCall ρ) {e : UShort × ρ}
    (he : e ∈ (c.apply h).reports) : e ∈ h.reports ∨ e.1 = 0 := by
  cases c with
  | addSocket socket sptr =>
    rw [HandlerCall.apply, reports_addSocket ha] at he
    rcases List.mem_append.mp he with he | he
    · exact .inl he
    · exact .inr (List.mem_singleton.mp he ▸ rfl)
  | deleteSocket socket => exact .inl (reports_deleteSocket socket he)
  | wantRead socket active => exact .inl (reports_want POLLIN socket active ▸ he)
  | wantWrite socket active => exact .inl (reports_want POLLOUT socket active ▸ he)

end Reports

theorem mem_reports {h : Handler ρ} {i : Nat} {s : Pollfd} {p : ρ} (hs : h.sockets[i]? = some s)
    (hp : h.socketPtrs[i]? = some p) : (s.revents, p) ∈ h.reports := by
  apply List.mem_of_getElem? (i := i)
  simp [Handler.reports, List.getElem?_zip_eq_some, hs, hp]

/-- A turn with a callback has read the event and the object at the iterator. -/
theorem pollStep_readable {h : Handler ρ} {l next : PollLoop} {p : ρ}
    (hturn : pollStep h l = .readable p next) :
    ∃ revents, (revents, p) ∈ h.reports ∧ hasBit revents POLLIN = true := by
  unfold pollStep at hturn
  repeat' split at hturn
  all_goals simp only [PollAct.readable.injEq, reduceCtorEq] at hturn
  next s hs _ hin _ _ hp =>
    obtain ⟨rfl, -⟩ := hturn
    exact ⟨s.revents, mem_reports hs hp, hin⟩

theorem pollStep_writeable {h : Handler ρ} {l next : PollLoop} {p : ρ}
    (hturn : pollStep h l = .writeable p next) :
    ∃ revents, (revents, p) ∈ h.reports ∧ hasBit revents POLLOUT = true := by
  unfold pollStep at hturn
  repeat' split at hturn
  all_goals simp only [PollAct.writeable.injEq, reduceCtorEq] at hturn
  next s hs hout _ _ hp =>
    obtain ⟨rfl, -⟩ := hturn
    exact ⟨s.revents, mem_reports hs hp, hout⟩

namespace Session

/-- The events in the handler were reported by the `::poll` of this round. -/
def Backed (polled : Option (Handler ρ)) (h : Handler ρ) : Prop :=
  ∀ e ∈ h.reports, isReady e.1 = true → ∃ h', polled = some h' ∧ e ∈ h'.reports

/-- The invariant of sessions. -/
structure Inv (s : Session ρ) : Prop where
  aligned : s.round.handler.Aligned
  told : s.Told
  backed : ∀ l, s.round.status = .running l → Backed s.polled s.round.handler

theorem Backed.calls {polled : Option (Handler ρ)} {h : Handler ρ} (hb : Backed polled h)
    (ha : h.Aligned) (cs : List (HandlerCall ρ)) : Backed polled (h.calls cs) := by
  induction cs generalizing h with
  | nil => exact hb
  | cons c cs ih =>
    apply ih (h := c.apply h)
    · intro e he hready
      rcases reports_apply ha c he with he | hzero
      · exact hb e he hready
      · rw [hzero] at hready
        exact absurd hready (by decide)
    · exact Handler.calls_aligned ha [c]

/-- A callback is called for an event of this round. -/
theorem Inv.called {s : Session ρ} (hs : s.Inv) {l next : PollLoop}
    (hrunning : s.round.status = .running l) {c : PollCall ρ} {revents : UShort}
    (hreport : (revents, c.sockobj) ∈ s.round.handler.reports)
    (hevent : hasBit revents c.kind.mask = true) (cs : List (HandlerCall ρ)) :
    Inv { s with round := ⟨s.round.handler.calls cs, .running next, s.round.made ++ [c]⟩ } where
  aligned := Handler.calls_aligned hs.aligned cs
  told := by
    intro d hd
    rcases List.mem_append.mp hd with hd | hd
    · exact hs.told d hd
    · obtain rfl := List.mem_singleton.mp hd
      have hready : isReady revents = true := by
        unfold isReady
        cases hkind : d.kind with
        | readable => rw [show hasBit revents POLLIN = true by rwa [hkind] at hevent]; rfl
        | writeable =>
          rw [show hasBit revents POLLOUT = true by rwa [hkind] at hevent, Bool.or_true]
      obtain ⟨h, hpolled, hmem⟩ := hs.backed l hrunning _ hreport hready
      exact ⟨h, hpolled, revents, hmem, hevent⟩
  backed _ _ := (hs.backed l hrunning).calls hs.aligned cs

theorem Inv.turn {s : Session ρ} (hs : s.Inv) {l : PollLoop}
    (hrunning : s.round.status = .running l) (cs : List (HandlerCall ρ)) :
    Inv { s with round := s.round.step fun _ => cs } := by
  obtain ⟨⟨h, status, made⟩, polled⟩ := s
  simp only at hrunning
  subst hrunning
  simp only [Round.step]
  cases hturn : pollStep h l with
  | leave => exact ⟨hs.aligned, hs.told, fun _ hstatus => absurd hstatus (by simp)⟩
  | wild => exact ⟨hs.aligned, hs.told, fun _ hstatus => absurd hstatus (by simp)⟩
  | goOn next => exact ⟨hs.aligned, hs.told, fun _ _ => hs.backed l rfl⟩
  | readable p next =>
    obtain ⟨revents, hreport, hevent⟩ := pollStep_readable hturn
    exact hs.called (c := ⟨.readable, l.it, p⟩) rfl hreport hevent cs
  | writeable p next =>
    obtain ⟨revents, hreport, hevent⟩ := pollStep_writeable hturn
    exact hs.called (c := ⟨.writeable, l.it, p⟩) rfl hreport hevent cs

theorem step_cases {s t : Session ρ} {i : SessionInput ρ} (h : s.step i = some t) :
    (∃ c, s.round.status = .returned ∧
      t = { s with round := { s.round with handler := s.round.handler.calls [c] } }) ∨
    t = s ∨
    (s.round.status = .returned ∧ ∃ result, i = .poll result ∧
      poll s.round.handler result = some t) ∨
    ∃ l cs, s.round.status = .running l ∧ t = { s with round := s.round.step fun _ => cs } := by
  unfold step at h
  cases i with
  | call c =>
    simp only at h
    split at h
    · next hstatus => exact .inl ⟨c, hstatus, (Option.some.inj h).symm⟩
    · exact absurd h (by simp)
  | turn cs =>
    simp only at h
    split at h
    · next l hstatus => exact .inr (.inr (.inr ⟨l, cs, hstatus, (Option.some.inj h).symm⟩))
    · exact absurd h (by simp)
  | poll result =>
    simp only at h
    split at h
    · next hstatus =>
      split at h
      · exact .inr (.inl (Option.some.inj h).symm)
      · exact .inr (.inr (.inl ⟨hstatus, result, rfl, h⟩))
    · exact absurd h (by simp)

theorem poll_cases {h : Handler ρ} {result : Option (List UShort)} {t : Session ρ}
    (ht : poll h result = some t) :
    (result = none ∧ t = { round := .start h (-1), polled := none }) ∨
    ∃ revents n, revents.length = h.sockets.length ∧
      t = { round := .start (h.report revents) n, polled := some (h.report revents) } := by
  cases result with
  | none => exact .inl ⟨rfl, (Option.some.inj ht).symm⟩
  | some revents =>
    obtain ⟨hlen, ht⟩ := Option.ite_none_right_eq_some.mp ht
    exact .inr ⟨revents, _, hlen, (Option.some.inj ht).symm⟩

theorem step_aligned {s t : Session ρ} {i : SessionInput ρ} (h : s.step i = some t)
    (ha : s.round.handler.Aligned) : t.round.handler.Aligned := by
  rcases step_cases h with ⟨c, -, rfl⟩ | rfl | ⟨-, result, -, hpoll⟩ | ⟨l, cs, -, rfl⟩
  · exact Handler.calls_aligned ha [c]
  · exact ha
  · rcases poll_cases hpoll with ⟨-, rfl⟩ | ⟨revents, n, hlen, rfl⟩
    · exact ha
    · exact HandlerImpl.report_aligned ha hlen
  · exact Round.step_aligned ha

theorem Inv.step {s t : Session ρ} (hs : s.Inv) {i : SessionInput ρ}
    (hfresh : i = .poll none → s.round.status = .returned → ¬ s.Stale)
    (h : s.step i = some t) : t.Inv := by
  rcases step_cases h with ⟨c, hstatus, rfl⟩ | rfl | ⟨hstatus, result, rfl, hpoll⟩ |
    ⟨l, cs, hrunning, rfl⟩
  · refine ⟨step_aligned h hs.aligned, hs.told, fun l hrunning => ?_⟩
    exact absurd (hstatus.symm.trans hrunning) (by simp)
  · exact hs
  · refine ⟨step_aligned h hs.aligned, ?_, ?_⟩
    · rcases poll_cases hpoll with ⟨-, rfl⟩ | ⟨revents, n, -, rfl⟩ <;>
        exact fun c hc => absurd hc (by simp [Round.start])
    · intro _ _ e he hready
      rcases poll_cases hpoll with ⟨rfl, rfl⟩ | ⟨revents, n, -, rfl⟩
      · exact absurd ⟨e, he, hready⟩ (hfresh rfl hstatus)
      · exact ⟨_, rfl, he⟩
  · exact hs.turn hrunning cs

theorem start_inv {h : Handler ρ} (ha : h.Aligned) : (start h).Inv :=
  ⟨ha, fun c hc => absurd hc (by simp [start]), fun l hl => absurd hl (by simp [start])⟩

/-! ### A failing `::poll` -/

/-- The run from `r`, with callbacks that call nothing, makes a call. -/
def CallsSome (r : Round ρ) : Prop := ∃ n, ((Round.step fun _ => [])^[n] r).made ≠ []

theorem CallsSome.of_step {r : Round ρ} (hr : CallsSome (r.step fun _ => [])) : CallsSome r := by
  obtain ⟨n, hn⟩ := hr
  exact ⟨n + 1, by rwa [Function.iterate_succ_apply]⟩

/-- An entry that is not ready leads on to the next one, if the countdown does not end there. -/
theorem CallsSome.of_next {h : Handler ρ} (ha : h.Aligned) {l : PollLoop} {s : Pollfd}
    (hphase : l.phase = .entry) (hs : h.sockets[l.it]? = some s)
    (hnot : isReady s.revents = false) (hcount : l.nChanges < 0)
    (hnext : ∀ l' : PollLoop, l'.phase = .entry → l'.it = l.it + 1 → l'.nChanges < 0 →
      CallsSome ⟨h, .running l', []⟩) : CallsSome ⟨h, .running l, []⟩ := by
  simp only [isReady, Bool.or_eq_false_iff] at hnot
  obtain ⟨hin, hout⟩ := hnot
  refine .of_step ?_
  rcases pollStep_entry ha (.refl h) hphase hs with ⟨-, hturn⟩ | ⟨-, hin', -⟩ | ⟨-, -, hturn⟩
  · simp only [Round.step, hturn]
    exact hnext _ hphase rfl hcount
  · exact absurd (hin'.symm.trans hin) (by simp)
  · simp only [Round.step, hturn]
    refine .of_step ?_
    rcases pollStep_read (l := { l with handlerRef := h.invalid, phase := .read }) ha (.refl h) rfl
      rfl hs with ⟨hout', -⟩ | ⟨-, hturn⟩
    · exact absurd (hout'.symm.trans hout) (by simp)
    · simp only [Round.step, hturn]
      refine .of_step ?_
      rcases pollStep_written (l := { l with handlerRef := h.invalid, phase := .written }) (.refl h)
        rfl rfl with ⟨hzero, -⟩ | ⟨-, hturn⟩
      · simp only at hzero
        omega
      · simp only [Round.step, hturn]
        exact hnext _ rfl rfl (by simp only; omega)

/-- A loop whose countdown has missed zero comes to every entry, and calls an object that is
ready. -/
theorem callsSome_of_ready {h : Handler ρ} (ha : h.Aligned) {l : PollLoop}
    (hphase : l.phase = .entry) (hcount : l.nChanges < 0)
    (hready : ∃ s ∈ h.sockets.drop l.it, isReady s.revents = true) :
    CallsSome ⟨h, .running l, []⟩ := by
  induction hleft : h.sockets.length - l.it generalizing l with
  | zero =>
    obtain ⟨s, hs, -⟩ := hready
    rw [List.drop_eq_nil_of_le (by omega)] at hs
    exact absurd hs (by simp)
  | succ left ih =>
    have hlt : l.it < h.sockets.length := by omega
    have hs := List.getElem?_eq_getElem hlt
    rw [List.drop_eq_getElem_cons hlt] at hready
    generalize h.sockets[l.it] = s at hs hready
    cases hbits : isReady s.revents with
    | true =>
      have hne : s.revents ≠ 0 := fun hzero => by
        rw [hzero] at hbits
        exact absurd hbits (by decide)
      have hcalls : Round.Calls (fun _ => []) ⟨h, .running l, []⟩ l.it :=
        (Round.calls_entry_iff ha ⟨rfl, hphase, hs, hne⟩).mpr hbits
      obtain ⟨n, new, hmade, c, hc, -⟩ := hcalls
      exact ⟨n, by rw [hmade]; exact List.append_ne_nil_of_right_ne_nil _ (List.ne_nil_of_mem hc)⟩
    | false =>
      refine .of_next ha hphase hs hbits hcount fun l' hphase' hit hcount' => ?_
      refine ih hphase' hcount' ?_ (by omega)
      obtain ⟨d, hd, hdready⟩ := hready
      rcases List.mem_cons.mp hd with rfl | hd
      · exact absurd (hbits.symm.trans hdready) (by simp)
      · exact ⟨d, by rwa [hit], hdready⟩

section Environment

variable {ok : Session ρ → SessionInput ρ → Prop}

theorem reach_turns (hturn : ∀ s calls, ok s (.turn calls)) (s : Session ρ) (n : Nat) :
    ∃ t, Machine.Reach step ok s t ∧ t.polled = s.polled ∧
      t.round = (Round.step fun _ => [])^[n] s.round := by
  induction n generalizing s with
  | zero => exact ⟨s, .refl, rfl, rfl⟩
  | succ n ih =>
    by_cases hrunning : ∃ l, s.round.status = .running l
    · obtain ⟨l, hl⟩ := hrunning
      have hstep : s.step (.turn []) = some { s with round := s.round.step fun _ => [] } := by
        simp only [step, hl]
      obtain ⟨t, hreach, hpolled, hround⟩ := ih { s with round := s.round.step fun _ => [] }
      exact ⟨t, hreach.head (hturn _ _) hstep, hpolled, hround⟩
    · -- the round is over, and stays so
      have hstop : s.round.step (fun _ => []) = s.round := by
        rw [Round.step]
        cases hstatus : s.round.status with
        | running l => exact absurd ⟨l, hstatus⟩ hrunning
        | returned => rfl
        | wild => rfl
      obtain ⟨t, hreach, hpolled, hround⟩ := ih s
      exact ⟨t, hreach, hpolled, by rw [hround, Function.iterate_succ_apply, hstop]⟩

/-- From a failing `::poll` with an event of an earlier round left, some run makes a call. -/
theorem untold_of_stale (hturn : ∀ s calls, ok s (.turn calls)) {s : Session ρ}
    (ha : s.round.handler.Aligned) (hstatus : s.round.status = .returned)
    (hok : ok s (.poll none)) (hstale : s.Stale) :
    ∃ t, Machine.Reach step ok s t ∧ ¬ t.Told := by
  obtain ⟨e, he, hready⟩ := hstale
  obtain ⟨d, hd, hdready⟩ : ∃ d ∈ s.round.handler.sockets, isReady d.revents = true := by
    obtain ⟨d, hd, hrevents⟩ := List.mem_map.mp (List.of_mem_zip he).1
    exact ⟨d, hd, hrevents ▸ hready⟩
  have hnonempty : s.round.handler.empty = false := by
    simpa [HandlerImpl.empty] using List.ne_nil_of_mem hd
  have hstep : s.step (.poll none) =
      some { round := .start s.round.handler (-1), polled := none } := by
    simp [step, hstatus, hnonempty, poll]
  have hcalls : CallsSome (Round.start s.round.handler (-1)) :=
    callsSome_of_ready ha rfl (by decide) ⟨d, by simpa [PollLoop.start] using hd, hdready⟩
  obtain ⟨n, hn⟩ := hcalls
  obtain ⟨t, hreach, hpolled, hround⟩ :=
    reach_turns hturn { round := .start s.round.handler (-1), polled := none } n
  refine ⟨t, hreach.head hok hstep, fun htold => ?_⟩
  rw [← hround] at hn
  obtain ⟨c, hc⟩ := List.exists_mem_of_ne_nil _ hn
  obtain ⟨h, hpolled', -⟩ := htold c hc
  exact absurd (hpolled.symm.trans hpolled') (by simp)

/-- In any environment, whatever it registers and whatever `::poll` does in it: the calls of every
round of every run are for events of that round, exactly if no `::poll` fails while the handler has
a readable or writeable entry from an earlier round.  As in a round, the iterators that a multiple of
`2 ^ 16` changes in one callback leaves invalid are followed by their positions. -/
theorem told_current_iff (hturn : ∀ s calls, ok s (.turn calls)) {h : Handler ρ}
    (ha : h.Aligned) :
    (∀ t, Machine.Reach step ok (start h) t → t.Told) ↔
      ∀ t, Machine.Reach step ok (start h) t → ok t (.poll none) →
        t.round.status = .returned → ¬ t.Stale := by
  constructor
  · intro htold t hreach hok hstatus hstale
    have haligned : t.round.handler.Aligned :=
      hreach.invariant (P := fun t => t.round.handler.Aligned) ha
        fun u i v hu _ hstep => step_aligned hstep hu
    obtain ⟨u, hu, hnot⟩ := untold_of_stale hturn haligned hstatus hok hstale
    exact hnot (htold u (hreach.trans hu))
  · intro hfresh t hreach
    have hinv : t.Inv := by
      induction hreach with
      | refl => exact start_inv ha
      | tail hreach hok hstep ih =>
        refine ih.step (fun hpoll hstatus => ?_) hstep
        exact hfresh _ hreach (hpoll ▸ hok) hstatus
    exact hinv.told

end Environment

def watched : Handler Nat where
  sockets := [⟨3, POLLIN, 0⟩]
  socketPtrs := [30]
  invalid := 1

/-- An environment in which `::poll` never fails. -/
theorem told_current_iff_watched :
    (∀ t, Machine.Reach step (fun _ i => i ≠ .poll none) (start watched) t → t.Told) ↔
      ∀ t, Machine.Reach step (fun _ i => i ≠ .poll none) (start watched) t →
        SessionInput.poll none ≠ (.poll none : SessionInput Nat) →
          t.round.status = .returned → ¬ t.Stale :=
  told_current_iff (fun _ _ => by simp) rfl

/-- The round that failed calls `on_readable` for the event of the round before. -/
theorem failed_poll_calls : ¬ ∀ (h : Handler Nat) (t : Session Nat), h.Aligned →
    Machine.Reach step (fun _ _ => True) (start h) t → t.Told := by
  intro hall
  have hend : (Machine.run step (start watched) [.poll (some [POLLIN]), .turn [], .turn [],
      .turn [], .poll none, .turn []]).map
        (fun t => (t.round.made, t.polled.isNone)) = some ([⟨.readable, 0, 30⟩], true) := by decide
  obtain ⟨t, ht, hend⟩ := Option.map_eq_some_iff.mp hend
  obtain ⟨hmade, hpolled⟩ := Prod.mk.inj hend
  have htold := hall watched t rfl (.of_run (fun _ _ => trivial) ht)
  obtain ⟨h, hsome, -⟩ := htold ⟨.readable, 0, 30⟩ (by rw [hmade]; simp)
  rw [hsome] at hpolled
  exact absurd hpolled (by simp)

end Session

end Unisock.Events
