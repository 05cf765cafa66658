import Unisock.Events.Service

/-! Runs of `poll_impl<POLL>` whose callbacks are found out one after the other: what the run has done
so far depends on the callbacks so far only. -/

namespace Unisock.Events

variable {ρ : Type}

/-- The callback that a turn at `it` makes, and the loop behind it. -/
def PollAct.call? (it : Nat) : PollAct ρ → Option (PollCall ρ × PollLoop)
  | .readable sockobj next => some (⟨.readable, it, sockobj⟩, next)
  | .writeable sockobj next => some (⟨.writeable, it, sockobj⟩, next)
  | .leave | .wild | .goOn _ => none

namespace Round

/-- The `k`-th callback makes the calls at position `k`, and later ones make none. -/
def replay (bs : List (List (HandlerCall ρ))) (k : Nat) : List (HandlerCall ρ) := bs[k]?.getD []

/-- The run in which `::poll` returned `nChanges` comes to `r`, where the callbacks so far made the
calls `bs`. -/
def Follows (h : Handler ρ) (nChanges : Int) (bs : List (List (HandlerCall ρ))) (r : Round ρ) : Prop :=
  r.made.length = bs.length ∧ ∃ n, (step (replay bs))^[n] (start h nChanges) = r

variable {b b' : Nat → List (HandlerCall ρ)} {h : Handler ρ} {nChanges : Int}
  {bs : List (List (HandlerCall ρ))} {r : Round ρ} {l next : PollLoop}

theorem step_called {call : PollCall ρ} (hstatus : r.status = .running l)
    (hturn : (pollStep r.handler l).call? l.it = some (call, next)) :
    r.step b = ⟨r.handler.calls (b r.made.length), .running next, r.made ++ [call]⟩ := by
  unfold step
  simp only [hstatus]
  cases hact : pollStep r.handler l <;> simp_all [PollAct.call?]

/-- A turn without a callback. -/
theorem step_silent (b b' : Nat → List (HandlerCall ρ)) (hstatus : r.status = .running l)
    (hturn : (pollStep r.handler l).call? l.it = none) :
    r.step b = { r with status := (r.step b).status } ∧ (r.step b).status = (r.step b').status := by
  unfold step
  simp only [hstatus]
  cases hact : pollStep r.handler l <;> simp_all [PollAct.call?]

theorem step_made (b : Nat → List (HandlerCall ρ)) (r : Round ρ) :
    r.made.length ≤ (r.step b).made.length := by
  unfold step
  split
  · exact le_rfl
  · exact le_rfl
  · split <;> simp

/-- A turn depends on the callback that it makes only. -/
theorem step_congr (hb : ∀ k < (r.step b).made.length, b k = b' k) : r.step b' = r.step b := by
  cases hstatus : r.status with
  | running l =>
    cases hturn : (pollStep r.handler l).call? l.it with
    | none =>
      rw [(step_silent b b' hstatus hturn).1, (step_silent b' b hstatus hturn).1,
        (step_silent b b' hstatus hturn).2]
    | some called =>
      obtain ⟨call, next⟩ := called
      rw [step_called hstatus hturn, step_called hstatus hturn, hb]
      rw [step_called hstatus hturn]
      simp
  | returned => simp only [step, hstatus]
  | wild => simp only [step, hstatus]

theorem iterate_congr {n : Nat} (hb : ∀ k < ((step b)^[n] r).made.length, b k = b' k) :
    (step b')^[n] r = (step b)^[n] r := by
  induction n with
  | zero => rfl
  | succ n ih =>
    rw [Function.iterate_succ_apply'] at hb ⊢
    rw [Function.iterate_succ_apply', ih fun k hk => hb k (hk.trans_le (step_made b _))]
    exact step_congr hb

namespace Follows

theorem start (h : Handler ρ) (nChanges : Int) : Follows h nChanges [] (start h nChanges) :=
  ⟨rfl, 0, rfl⟩

theorem silent (hr : Follows h nChanges bs r) (hstatus : r.status = .running l)
    (hturn : (pollStep r.handler l).call? l.it = none) :
    Follows h nChanges bs (r.step (replay bs)) := by
  obtain ⟨hlength, n, hn⟩ := hr
  refine ⟨?_, n + 1, by rw [Function.iterate_succ_apply', hn]⟩
  rw [(step_silent (replay bs) (replay bs) hstatus hturn).1]
  exact hlength

/-- A callback has made the calls `cs`. -/
theorem called (hr : Follows h nChanges bs r) {call : PollCall ρ} (hstatus : r.status = .running l)
    (hturn : (pollStep r.handler l).call? l.it = some (call, next)) (cs : List (HandlerCall ρ)) :
    Follows h nChanges (bs ++ [cs]) ⟨r.handler.calls cs, .running next, r.made ++ [call]⟩ := by
  obtain ⟨hlength, n, hn⟩ := hr
  have hsame : ∀ k < r.made.length, replay bs k = replay (bs ++ [cs]) k := by
    intro k hk
    rw [replay, replay, List.getElem?_append_left (hlength ▸ hk)]
  have hprev : (step (replay (bs ++ [cs])))^[n] (Round.start h nChanges) = r := by
    rw [iterate_congr (b := replay bs), hn]
    rw [hn]
    exact hsame
  have hlast : replay (bs ++ [cs]) r.made.length = cs := by
    simp [replay, hlength]
  refine ⟨by simp [hlength], n + 1, ?_⟩
  rw [Function.iterate_succ_apply', hprev, step_called hstatus hturn, hlast]

end Follows

/-! ### Rounds that have returned -/

end Round

end Unisock.Events
