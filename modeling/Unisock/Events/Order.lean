import Unisock.Events.Action

/-! The order in which `execute` calls what `add_callback` has put into an action: `add_callback`
keeps the list split into the callbacks without `QUEUE_END` and, behind them, those with it, the last
one first. -/

namespace Unisock.Events

variable {F σ : Type}

/-- Up to and including the first element that satisfies `p`. -/
def cutAfter {α : Type} (p : α → Bool) (l : List α) : List α :=
  l.takeWhile (fun a => !p a) ++ (l.find? p).toList

/-- The scan of `add_callback` stops at the callbacks without `QUEUE_END`. -/
theorem ActionCallback.isNormal_eq (cb : ActionCallback F) :
    cb.isNormal = !cb.has ActionFlag.queueEnd := by
  have hbit : ActionFlag.queueEnd = BitVec.twoPow 16 2 := by decide
  have hnot : (~~~cb.flags).getLsbD 2 = !cb.flags.getLsbD 2 := by simp
  rw [isNormal, has, hbit, BitVec.and_twoPow, BitVec.and_twoPow, hnot]
  cases cb.flags.getLsbD 2 <;> decide

namespace Action

/-- A sequence of calls of `add_callback` on an action. -/
def register (executors : Action F) (calls : List (F × UShort)) : Action F :=
  calls.foldl (fun executors call => executors.addCallback call.1 call.2) executors

/-- `action::execute`, where `call exec` is what the callback does to the state of the program; no
callback changes the list. -/
def execute (call : F → σ → σ) : Action F → σ → σ
  | [], s => s
  | executor :: executors, s =>
    match executor.turn with
    | .skip => execute call executors s
    | .last exec => call exec s
    | .call exec => execute call executors (call exec s)

/-! ### Where `add_callback` puts a callback -/

/-- The callbacks that the calls register. -/
def made (calls : List (F × UShort)) : List (ActionCallback F) :=
  calls.map fun call => ⟨call.1, call.2⟩

/-- The callbacks without `QUEUE_END`, as they were registered. -/
def front (calls : List (F × UShort)) : Action F :=
  (made calls).filter fun cb => !cb.has ActionFlag.queueEnd

/-- The callbacks with `QUEUE_END`, the last one first. -/
def back (calls : List (F × UShort)) : Action F :=
  ((made calls).filter fun cb => cb.has ActionFlag.queueEnd).reverse

theorem front_append (calls later : List (F × UShort)) :
    front (calls ++ later) = front calls ++ front later := by
  simp [front, made]

theorem back_append (calls later : List (F × UShort)) :
    back (calls ++ later) = back later ++ back calls := by
  simp [back, made]

theorem normal_of_mem_front {calls : List (F × UShort)} {cb : ActionCallback F}
    (h : cb ∈ front calls) : cb.isNormal = true := by
  rw [ActionCallback.isNormal_eq]
  exact (List.mem_filter.mp h).2

theorem queued_of_mem_back {calls : List (F × UShort)} {cb : ActionCallback F}
    (h : cb ∈ back calls) : cb.isNormal = false := by
  have hqueued := (List.mem_filter.mp (List.mem_reverse.mp h)).2
  rw [ActionCallback.isNormal_eq, hqueued]
  rfl

theorem mem_front_or_back {calls : List (F × UShort)} {cb : ActionCallback F}
    (h : cb ∈ made calls) : cb ∈ front calls ∨ cb ∈ back calls := by
  cases hqueued : cb.has ActionFlag.queueEnd with
  | true => exact .inr (List.mem_reverse.mpr (List.mem_filter.mpr ⟨h, hqueued⟩))
  | false => exact .inl (List.mem_filter.mpr ⟨h, by simp [hqueued]⟩)

/-- In a list that is split, the new callback goes between the two parts. -/
theorem addCallback_split {normal queued : Action F} (hnormal : ∀ cb ∈ normal, cb.isNormal = true)
    (hqueued : ∀ cb ∈ queued, cb.isNormal = false) (func : F) (flags : UShort) :
    addCallback (normal ++ queued) func flags = normal ++ ⟨func, flags⟩ :: queued := by
  induction queued using List.reverseRecOn with
  | nil =>
    rw [List.append_nil]
    cases normal using List.reverseRecOn with
    | nil => rfl
    | append_singleton normal last =>
      have hlast : last.isNormal = true := hnormal last (by simp)
      simp [addCallback, hlast]
  | append_singleton queued last ih =>
    have hlast : last.isNormal = false := hqueued last (by simp)
    rw [← List.append_assoc, addCallback_concat _ hlast,
      ih fun cb hcb => hqueued cb (by simp [hcb])]
    simp

/-- Any sequence of calls on a list that is split leaves it split. -/
theorem register_split {normal queued : Action F} (hnormal : ∀ cb ∈ normal, cb.isNormal = true)
    (hqueued : ∀ cb ∈ queued, cb.isNormal = false) (calls : List (F × UShort)) :
    register (normal ++ queued) calls = (normal ++ front calls) ++ (back calls ++ queued) := by
  induction calls using List.reverseRecOn with
  | nil => simp [register, front, back, made]
  | append_singleton calls call ih =>
    have hstep : register (normal ++ queued) (calls ++ [call]) =
        (register (normal ++ queued) calls).addCallback call.1 call.2 := by
      simp [register]
    have hfront : ∀ cb ∈ normal ++ front calls, cb.isNormal = true := fun cb hcb =>
      (List.mem_append.mp hcb).elim (hnormal cb) normal_of_mem_front
    have hback : ∀ cb ∈ back calls ++ queued, cb.isNormal = false := fun cb hcb =>
      (List.mem_append.mp hcb).elim queued_of_mem_back (hqueued cb)
    rw [hstep, ih, addCallback_split hfront hback, front_append, back_append]
    cases hend : (⟨call.1, call.2⟩ : ActionCallback F).has ActionFlag.queueEnd with
    | true => simp [front, back, made, hend]
    | false => simp [front, back, made, hend]

theorem register_nil (calls : List (F × UShort)) : register [] calls = front calls ++ back calls := by
  have hsplit : register ([] ++ []) calls = ([] ++ front calls) ++ (back calls ++ []) :=
    register_split (by simp) (by simp) calls
  simpa using hsplit

/-! ### What `execute` calls -/

/-- The callbacks of a list that are called: those without `SKIP`, up to the first with
`STOP_AFTER`. -/
def runs (executors : Action F) : List F :=
  (cutAfter (fun cb => cb.has ActionFlag.stopAfter)
    (executors.filter fun cb => !cb.has ActionFlag.skip)).map ActionCallback.exec

section Runs

variable {cb : ActionCallback F}

theorem runs_cons_of_skip (hskip : cb.has ActionFlag.skip = true) (executors : Action F) :
    runs (cb :: executors) = runs executors := by
  simp [runs, hskip]

theorem runs_cons_of_stop (hskip : cb.has ActionFlag.skip = false)
    (hstop : cb.has ActionFlag.stopAfter = true) (executors : Action F) :
    runs (cb :: executors) = [cb.exec] := by
  simp [runs, hskip, cutAfter, hstop]

theorem runs_cons_of_call (hskip : cb.has ActionFlag.skip = false)
    (hstop : cb.has ActionFlag.stopAfter = false) (executors : Action F) :
    runs (cb :: executors) = cb.exec :: runs executors := by
  simp [runs, hskip, cutAfter, hstop]

end Runs

theorem execute_eq_foldl (call : F → σ → σ) (executors : Action F) (s : σ) :
    executors.execute call s = executors.runs.foldl (fun s exec => call exec s) s := by
  induction executors generalizing s with
  | nil => rfl
  | cons cb executors ih =>
    cases hskip : cb.has ActionFlag.skip with
    | true =>
      rw [runs_cons_of_skip hskip, ← ih]
      simp [execute, ActionCallback.turn, hskip]
    | false =>
      cases hstop : cb.has ActionFlag.stopAfter with
      | true =>
        rw [runs_cons_of_stop hskip hstop]
        simp [execute, ActionCallback.turn, hskip, hstop]
      | false =>
        rw [runs_cons_of_call hskip hstop, List.foldl_cons, ← ih]
        simp [execute, ActionCallback.turn, hskip, hstop]

/-- After any sequence of calls of `add_callback` on an action, `execute` calls the callbacks without
`QUEUE_END` in their order, then those with it in reverse order, but none with `SKIP` and none behind
the first other one with `STOP_AFTER`; and what is queued at the end stays behind all that later
calls register. -/
theorem execute_in_order (call : F → σ → σ) (calls : List (F × UShort)) (s : σ) :
    (register [] calls).execute call s =
        (runs (front calls ++ back calls)).foldl (fun s exec => call exec s) s ∧
      ∀ later, ∃ before, register [] (calls ++ later) = before ++ back calls ∧
        ∀ cb ∈ made later, cb ∈ before := by
  refine ⟨by rw [execute_eq_foldl, register_nil], fun later => ?_⟩
  refine ⟨front calls ++ front later ++ back later, ?_, fun cb hcb => ?_⟩
  · rw [register_nil, front_append, back_append]
    simp
  · rcases mem_front_or_back hcb with h | h <;> simp [h]

end Action

end Unisock.Events
