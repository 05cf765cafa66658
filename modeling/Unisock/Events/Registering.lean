import Unisock.Events.Order

/-! `execute` on an action while the callbacks that it calls register others for the same action.  The
executor list is a vector of positions, of which the loop visits those below the length that the list
had when `execute` began. -/

namespace Unisock.Events

/-- A callback with its position when `execute` began, or `none` if it has been registered since. -/
abbrev Placed (F : Type) := Option Nat × F

/-- What a callback registers, by the number of callbacks that have been called before it. -/
abbrev Registering (F : Type) := Nat → Placed F → List (F × UShort)

/-- The executor list in the middle of `execute`, and the callbacks called so far. -/
structure Execution (F : Type) where
  executors : Action (Placed F)
  called : List (Placed F)

def ActionCallback.placedAt {F : Type} (cb : ActionCallback F) (p : Nat) :
    ActionCallback (Placed F) :=
  ⟨(some p, cb.exec), cb.flags⟩

@[simp] theorem ActionCallback.has_placedAt {F : Type} (cb : ActionCallback F) (p : Nat)
    (flag : UShort) : (cb.placedAt p).has flag = cb.has flag := rfl

@[simp] theorem ActionCallback.exec_placedAt {F : Type} (cb : ActionCallback F) (p : Nat) :
    (cb.placedAt p).exec = (some p, cb.exec) := rfl

namespace Execution

variable {F : Type}

/-- A callback runs. -/
def call (registering : Registering F) (e : Execution F) (exec : Placed F) : Execution F where
  executors := e.executors.register
    ((registering e.called.length exec).map fun call => ((none, call.1), call.2))
  called := e.called ++ [exec]

/-- The loop of `execute` from the position `it`, with the number of positions that it has still to
visit. -/
def loop (registering : Registering F) : Nat → Nat → Execution F → Execution F
  | 0, _, e => e
  | todo + 1, it, e =>
    match e.executors[it]? with
    | none => e
    | some executor =>
      match executor.turn with
      | .skip => loop registering todo (it + 1) e
      | .last exec => e.call registering exec
      | .call exec => loop registering todo (it + 1) (e.call registering exec)

/-- The callbacks called so far that were in the list when `execute` began. -/
def originals (e : Execution F) : List (Placed F) := e.called.filter fun exec => exec.1.isSome

end Execution

namespace Action

variable {F : Type}

/-- The callbacks with their positions. -/
def placed (executors : Action F) : Action (Placed F) := executors.mapIdx fun p cb => cb.placedAt p

/-- `action::execute`. -/
def executeRegistering (registering : Registering F) (executors : Action F) : Execution F :=
  Execution.loop registering executors.length 0 ⟨executors.placed, []⟩

/-- Some callback without `SKIP` has `STOP_AFTER`. -/
def stops (executors : Action F) : Bool :=
  executors.any fun cb => !cb.has ActionFlag.skip && cb.has ActionFlag.stopAfter

theorem runs_append (executors more : Action F) :
    runs (executors ++ more) =
      if stops executors then runs executors else runs executors ++ runs more := by
  induction executors with
  | nil => rfl
  | cons cb executors ih =>
    rw [List.cons_append]
    cases hskip : cb.has ActionFlag.skip with
    | true =>
      rw [runs_cons_of_skip hskip, runs_cons_of_skip hskip, ih]
      simp [stops, hskip]
    | false =>
      cases hstop : cb.has ActionFlag.stopAfter with
      | true =>
        rw [runs_cons_of_stop hskip hstop, runs_cons_of_stop hskip hstop]
        simp [stops, hskip, hstop]
      | false =>
        rw [runs_cons_of_call hskip hstop, runs_cons_of_call hskip hstop, ih]
        have hsame : stops (cb :: executors) = stops executors := by simp [stops, hskip, hstop]
        rw [hsame]
        split <;> rfl

theorem mem_of_mem_runs {executors : Action F} {exec : F} (h : exec ∈ runs executors) :
    ∃ cb ∈ executors, cb.exec = exec ∧ cb.has ActionFlag.skip = false := by
  induction executors with
  | nil => simp [runs, cutAfter] at h
  | cons cb executors ih =>
    cases hskip : cb.has ActionFlag.skip with
    | true =>
      rw [runs_cons_of_skip hskip] at h
      obtain ⟨cb', hmem, hrest⟩ := ih h
      exact ⟨cb', List.mem_cons_of_mem _ hmem, hrest⟩
    | false =>
      have hhead : exec = cb.exec ∨ exec ∈ runs executors := by
        cases hstop : cb.has ActionFlag.stopAfter with
        | true =>
          rw [runs_cons_of_stop hskip hstop, List.mem_singleton] at h
          exact .inl h
        | false =>
          rw [runs_cons_of_call hskip hstop, List.mem_cons] at h
          exact h
      rcases hhead with rfl | hrest
      · exact ⟨cb, List.mem_cons_self, rfl, hskip⟩
      · obtain ⟨cb', hmem, hrest⟩ := ih hrest
        exact ⟨cb', List.mem_cons_of_mem _ hmem, hrest⟩

theorem exists_mem_runs {executors : Action F} {cb : ActionCallback F} (hmem : cb ∈ executors)
    (hskip : cb.has ActionFlag.skip = false) : ∃ cb' ∈ executors, cb'.exec ∈ runs executors := by
  induction executors with
  | nil => cases hmem
  | cons first executors ih =>
    cases hfirst : first.has ActionFlag.skip with
    | true =>
      have hrest : cb ∈ executors := (List.mem_cons.mp hmem).resolve_left fun heq => by
        rw [heq, hfirst] at hskip
        cases hskip
      obtain ⟨cb', hmem', hruns⟩ := ih hrest
      rw [runs_cons_of_skip hfirst]
      exact ⟨cb', List.mem_cons_of_mem _ hmem', hruns⟩
    | false =>
      refine ⟨first, List.mem_cons_self, ?_⟩
      cases hstop : first.has ActionFlag.stopAfter with
      | true => simp [runs_cons_of_stop hfirst hstop]
      | false => simp [runs_cons_of_call hfirst hstop]

end Action

namespace Execution

variable {F : Type} {registering : Registering F}

def callAll (registering : Registering F) (e : Execution F) (execs : List (Placed F)) :
    Execution F :=
  execs.foldl (call registering) e

theorem called_callAll (e : Execution F) (execs : List (Placed F)) :
    (e.callAll registering execs).called = e.called ++ execs := by
  induction execs generalizing e with
  | nil => simp [callAll]
  | cons exec execs ih =>
    have hrest : (e.callAll registering (exec :: execs)).called =
        (e.call registering exec).called ++ execs := ih (e.call registering exec)
    rw [hrest, call]
    simp

theorem callAll_silent {e : Execution F} {execs : List (Placed F)}
    (hsilent : ∀ exec ∈ execs, ∀ n, registering n exec = []) :
    e.callAll registering execs = { e with called := e.called ++ execs } := by
  induction execs generalizing e with
  | nil => simp [callAll]
  | cons exec execs ih =>
    have hcall : e.call registering exec = { e with called := e.called ++ [exec] } := by
      rw [call, hsilent exec List.mem_cons_self]
      rfl
    have hrest : e.callAll registering (exec :: execs) =
        (e.call registering exec).callAll registering execs := rfl
    rw [hrest, ih fun exec' hmem => hsilent exec' (List.mem_cons_of_mem _ hmem), hcall]
    simp

theorem called_prefix_loop (todo it : Nat) (e : Execution F) :
    e.called <+: (loop registering todo it e).called := by
  induction todo generalizing it e with
  | zero => exact List.prefix_rfl
  | succ todo ih =>
    have hcall : ∀ exec, e.called <+: (e.call registering exec).called := fun exec =>
      List.prefix_append _ _
    simp only [loop]
    split
    · exact List.prefix_rfl
    · split
      · exact ih _ _
      · exact hcall _
      · exact (hcall _).trans (ih _ _)

/-- A part of the list that the loop keeps finding where it was is run as if nothing were
registered.  `I` is what holds as long as it does; the last callback that runs may break it. -/
theorem loop_eq {I : Execution F → Prop} {part : Action (Placed F)} {it : Nat}
    (hread : ∀ e, I e → ∀ j < part.length, e.executors[it + j]? = part[j]?)
    (hcall : ∀ before cb behind, part = before ++ cb :: behind → cb.exec ∈ part.runs →
      cb.has ActionFlag.stopAfter = false → behind ≠ [] → ∀ e, I e → I (e.call registering cb.exec))
    {e : Execution F} (he : I e) (todo : Nat) :
    loop registering (part.length + todo) it e =
      if part.stops then e.callAll registering part.runs
      else loop registering todo (it + part.length) (e.callAll registering part.runs) := by
  induction part generalizing it e with
  | nil => simp [Action.stops, Action.runs, cutAfter, callAll]
  | cons cb rest ih =>
    have hcb : e.executors[it]? = some cb := hread e he 0 (by simp)
    have hlength : (cb :: rest).length + todo = (rest.length + todo) + 1 := by
      rw [List.length_cons]
      omega
    have hend : it + (cb :: rest).length = it + 1 + rest.length := by
      rw [List.length_cons]
      omega
    have hread' : ∀ e, I e → ∀ j < rest.length, e.executors[it + 1 + j]? = rest[j]? := by
      intro e he j hj
      have := hread e he (j + 1) (by simpa using hj)
      rwa [List.getElem?_cons_succ, ← Nat.add_assoc, Nat.add_right_comm] at this
    rw [hlength, hend]
    simp only [loop, hcb, ActionCallback.turn]
    cases hskip : cb.has ActionFlag.skip with
    | true =>
      have hruns := Action.runs_cons_of_skip hskip rest
      have hsame : Action.stops (cb :: rest) = Action.stops rest := by simp [Action.stops, hskip]
      rw [hruns, hsame]
      refine ih hread' (fun before cb' behind hpart hmem => ?_) he
      exact hcall (cb :: before) cb' behind (by rw [hpart]; rfl) (hruns ▸ hmem)
    | false =>
      cases hstop : cb.has ActionFlag.stopAfter with
      | true =>
        have hstops : Action.stops (cb :: rest) = true := by simp [Action.stops, hskip, hstop]
        rw [hstops, Action.runs_cons_of_stop hskip hstop]
        rfl
      | false =>
        have hruns := Action.runs_cons_of_call hskip hstop rest
        have hsame : Action.stops (cb :: rest) = Action.stops rest := by
          simp [Action.stops, hskip, hstop]
        rw [hruns, hsame]
        by_cases hrest : rest = []
        · subst hrest
          simp [Action.stops, Action.runs, cutAfter, callAll]
        · have he' : I (e.call registering cb.exec) :=
            hcall [] cb rest rfl (hruns ▸ List.mem_cons_self) hstop hrest e he
          refine ih hread' (fun before cb' behind hpart hmem => ?_) he'
          exact hcall (cb :: before) cb' behind (by rw [hpart]; rfl)
            (hruns ▸ List.mem_cons_of_mem _ hmem)

theorem originals_callAll {e : Execution F} {execs : List (Placed F)}
    (hplaced : ∀ exec ∈ execs, exec.1.isSome = true) :
    (e.callAll registering execs).originals = e.originals ++ execs := by
  rw [originals, called_callAll, List.filter_append, List.filter_eq_self.mpr hplaced]
  rfl

/-- A loop over callbacks that register nothing. -/
theorem called_loop_of_silent {part : Action (Placed F)} {it : Nat} {e : Execution F}
    (hread : ∀ j < part.length, e.executors[it + j]? = part[j]?)
    (hsilent : ∀ cb ∈ part, ∀ n, registering n cb.exec = []) :
    (loop registering part.length it e).called = e.called ++ part.runs := by
  have hcall : ∀ before cb behind, part = before ++ cb :: behind → cb.exec ∈ part.runs →
      cb.has ActionFlag.stopAfter = false → behind ≠ [] → ∀ e' : Execution F,
        e'.executors = e.executors → (e'.call registering cb.exec).executors = e.executors := by
    intro before cb behind hat _ _ _ e' he'
    rw [call, hsilent cb (by rw [hat]; simp)]
    exact he'
  have hloop := loop_eq (fun e' (he' : e'.executors = e.executors) j hj => by rw [he', hread j hj])
    hcall rfl 0
  rw [← Nat.add_zero part.length, hloop]
  simp only [loop, ite_self, called_callAll]

/-- The original callbacks are where they were up to `normal`, and the others are at the end. -/
structure Shape (normal queued : Action (Placed F)) (e : Execution F) : Prop where
  split : ∃ front back, e.executors = (normal ++ front) ++ (back ++ queued) ∧
    (∀ cb ∈ front, cb.isNormal = true) ∧ (∀ cb ∈ back, cb.isNormal = false) ∧
    ∀ cb ∈ front ++ back, cb.exec.1 = none

section Shape

variable {normal queued : Action (Placed F)} {e : Execution F}

/-- The registrations go between the two parts. -/
theorem executors_call {front back : Action (Placed F)} (hnormal : ∀ cb ∈ normal, cb.isNormal = true)
    (hqueued : ∀ cb ∈ queued, cb.isNormal = false)
    (hfront : ∀ cb ∈ front, cb.isNormal = true) (hback : ∀ cb ∈ back, cb.isNormal = false)
    (he : e.executors = (normal ++ front) ++ (back ++ queued)) (exec : Placed F) :
    (e.call registering exec).executors =
      (normal ++ (front ++ Action.front ((registering e.called.length exec).map
        fun call => ((none, call.1), call.2)))) ++
      ((Action.back ((registering e.called.length exec).map
        fun call => ((none, call.1), call.2)) ++ back) ++ queued) := by
  rw [call, he, Action.register_split
    (fun cb hcb => (List.mem_append.mp hcb).elim (hnormal cb) (hfront cb))
    (fun cb hcb => (List.mem_append.mp hcb).elim (hback cb) (hqueued cb))]
  simp

theorem new_of_mem_made {calls : List (F × UShort)} {cb : ActionCallback (Placed F)}
    (h : cb ∈ Action.made (calls.map fun call => ((none, call.1), call.2))) : cb.exec.1 = none := by
  obtain ⟨call, hcall, rfl⟩ := List.mem_map.mp h
  obtain ⟨original, -, rfl⟩ := List.mem_map.mp hcall
  rfl

theorem Shape.call (h : Shape normal queued e) (hnormal : ∀ cb ∈ normal, cb.isNormal = true)
    (hqueued : ∀ cb ∈ queued, cb.isNormal = false) (exec : Placed F) :
    Shape normal queued (e.call registering exec) := by
  obtain ⟨front, back, he, hfront, hback, hnew⟩ := h.split
  refine ⟨_, _, executors_call hnormal hqueued hfront hback he exec, ?_, ?_, ?_⟩
  · exact fun cb hcb => (List.mem_append.mp hcb).elim (hfront cb) Action.normal_of_mem_front
  · exact fun cb hcb => (List.mem_append.mp hcb).elim Action.queued_of_mem_back (hback cb)
  · intro cb hcb
    simp only [List.mem_append] at hcb
    rcases hcb with (hold | hmade) | hmade | hold
    · exact hnew cb (List.mem_append_left _ hold)
    · exact new_of_mem_made (List.mem_filter.mp hmade).1
    · exact new_of_mem_made (List.mem_filter.mp (List.mem_reverse.mp hmade)).1
    · exact hnew cb (List.mem_append_right _ hold)

theorem Shape.callAll (h : Shape normal queued e) (hnormal : ∀ cb ∈ normal, cb.isNormal = true)
    (hqueued : ∀ cb ∈ queued, cb.isNormal = false) (execs : List (Placed F)) :
    Shape normal queued (e.callAll registering execs) := by
  induction execs generalizing e with
  | nil => exact h
  | cons exec execs ih => exact ih (h.call hnormal hqueued exec)

theorem Shape.getElem? (h : Shape normal queued e) {j : Nat} (hj : j < normal.length) :
    e.executors[0 + j]? = normal[j]? := by
  obtain ⟨front, back, he, -⟩ := h.split
  rw [he, Nat.zero_add, List.append_assoc, List.getElem?_append_left hj]

/-- Behind the callbacks without `QUEUE_END`, the loop calls no original one if all others have
`SKIP`. -/
theorem Shape.originals_loop (h : Shape normal queued e)
    (hnormal : ∀ cb ∈ normal, cb.isNormal = true) (hqueued : ∀ cb ∈ queued, cb.isNormal = false)
    (hskip : ∀ cb ∈ queued, cb.has ActionFlag.skip = true) (todo : Nat) {it : Nat}
    (hit : normal.length ≤ it) : (loop registering todo it e).originals = e.originals := by
  induction todo generalizing it e with
  | zero => rfl
  | succ todo ih =>
    cases hget : e.executors[it]? with
    | none => simp [loop, hget]
    | some cb =>
      obtain ⟨front, back, he, -, -, hnew⟩ := h.split
      have hmem : cb ∈ front ++ back ∨ cb ∈ queued := by
        rw [he, List.append_assoc, List.getElem?_append_right hit] at hget
        simpa [or_assoc] using List.mem_of_getElem? hget
      have hcalled : cb.has ActionFlag.skip = false →
          (e.call registering cb.exec).originals = e.originals := by
        intro hrun
        rcases hmem with hmem | hmem
        · simp [Execution.call, originals, hnew cb hmem]
        · simp [hskip cb hmem] at hrun
      simp only [loop, hget, ActionCallback.turn]
      cases hrun : cb.has ActionFlag.skip with
      | true => exact ih h (by omega)
      | false =>
        cases cb.has ActionFlag.stopAfter with
        | true => exact hcalled hrun
        | false =>
          exact (ih (h.call hnormal hqueued cb.exec) (by omega)).trans (hcalled hrun)

end Shape

end Execution

namespace Action

variable {F : Type}

theorem getElem?_placed (executors : Action F) (p : Nat) :
    executors.placed[p]? = executors[p]?.map fun cb => cb.placedAt p := by
  simp [placed]

@[simp] theorem length_placed (executors : Action F) :
    executors.placed.length = executors.length := by
  simp [placed]

theorem isSome_of_mem_placed {executors : Action F} {cb : ActionCallback (Placed F)}
    (h : cb ∈ executors.placed) : cb.exec.1.isSome = true := by
  obtain ⟨p, hp⟩ := List.getElem?_of_mem h
  rw [getElem?_placed] at hp
  obtain ⟨original, -, rfl⟩ := Option.map_eq_some_iff.mp hp
  rfl

theorem isSome_of_mem_runs {executors : Action F} {exec : Placed F}
    (h : exec ∈ executors.placed.runs) : exec.1.isSome = true := by
  obtain ⟨cb, hcb, rfl, -⟩ := mem_of_mem_runs h
  exact isSome_of_mem_placed hcb

/-- The callbacks that registrations have made are those without `QUEUE_END` and then the others. -/
theorem placed_register (calls : List (F × UShort)) : ∃ normal queued,
    (register [] calls).placed = normal ++ queued ∧
    (∀ cb ∈ normal, cb.isNormal = true) ∧ ∀ cb ∈ queued, cb.isNormal = false := by
  rw [register_nil, placed, List.mapIdx_append]
  refine ⟨_, _, rfl, fun cb hcb => ?_, fun cb hcb => ?_⟩
  · obtain ⟨p, hp, rfl⟩ := List.mem_mapIdx.mp hcb
    have hflags : ((front calls)[p]).isNormal = true := normal_of_mem_front (List.getElem_mem hp)
    exact hflags
  · obtain ⟨p, hp, rfl⟩ := List.mem_mapIdx.mp hcb
    have hflags : ((back calls)[p]).isNormal = false := queued_of_mem_back (List.getElem_mem hp)
    exact hflags

/-- Only callbacks at positions in `may` register others, with `DEFAULT` or `QUEUE_END`; so may
those registered since `execute` began. -/
structure Admits (may : Nat → Prop) (registering : Registering F) : Prop where
  flags : ∀ n source call, call ∈ registering n source →
    call.2 = ActionFlag.default ∨ call.2 = ActionFlag.queueEnd
  silent : ∀ n p exec, ¬ may p → registering n (some p, exec) = []

/-- The callback `cb` at the position `p` is one that `execute` reaches. -/
def Reached (executors : Action F) (p : Nat) (cb : ActionCallback F) : Prop :=
  executors[p]? = some cb ∧ (some p, cb.exec) ∈ executors.placed.runs

/-- The callbacks that `execute` reaches run once each, in the order of the list. -/
def KeepsOrder (registering : Registering F) (executors : Action F) : Prop :=
  (executors.executeRegistering registering).originals = executors.placed.runs

theorem reached_of_mem_placed {executors : Action F}
    {placedBefore placedBehind : Action (Placed F)} {cb : ActionCallback (Placed F)}
    (hsplit : executors.placed = placedBefore ++ cb :: placedBehind)
    (hruns : cb.exec ∈ executors.placed.runs) :
    ∃ original, Reached executors placedBefore.length original ∧
      cb = original.placedAt placedBefore.length := by
  have hget : executors.placed[placedBefore.length]? = some cb := by simp [hsplit]
  have hplaced := hget
  rw [getElem?_placed] at hplaced
  obtain ⟨original, horiginal, rfl⟩ := Option.map_eq_some_iff.mp hplaced
  exact ⟨original, ⟨horiginal, hruns⟩, rfl⟩

theorem Reached.get_placed {executors : Action F} {p : Nat} {cb : ActionCallback F}
    (h : Reached executors p cb) : executors.placed[p]? = some (cb.placedAt p) := by
  rw [getElem?_placed, h.1, Option.map_some]

section Keeps

variable {registering : Registering F} {calls : List (F × UShort)}

/-- Where only the last callback that runs registers others, and nothing behind it can run. -/
theorem keepsOrder_of_last {executors : Action F}
    (hlast : ∀ p cb, Reached executors p cb → cb.has ActionFlag.stopAfter = true ∨
      p + 1 = executors.length ∨ ∀ n, registering n (some p, cb.exec) = []) :
    KeepsOrder registering executors := by
  have hread : ∀ e : Execution F, e.executors = executors.placed →
      ∀ j < executors.placed.length, e.executors[0 + j]? = executors.placed[j]? :=
    fun e he j _ => by rw [he, Nat.zero_add]
  have hcall : ∀ before cb behind, executors.placed = before ++ cb :: behind →
      cb.exec ∈ executors.placed.runs → cb.has ActionFlag.stopAfter = false → behind ≠ [] →
      ∀ e : Execution F, e.executors = executors.placed →
        (e.call registering cb.exec).executors = executors.placed := by
    intro before cb behind hsplit hruns hstop hbehind e he
    obtain ⟨original, hreached, rfl⟩ := reached_of_mem_placed hsplit hruns
    rcases hlast _ _ hreached with h | h | hsilent
    · have hstop' : original.has ActionFlag.stopAfter = false := hstop
      exact absurd h (by simp [hstop'])
    · have hlength := congrArg List.length hsplit
      rw [length_placed, List.length_append, List.length_cons, ← h] at hlength
      exact absurd (List.length_eq_zero_iff.mp (by omega)) hbehind
    · rw [Execution.call, ActionCallback.exec_placedAt, hsilent]
      exact he
  have hloop : Execution.loop registering (executors.placed.length + 0) 0 ⟨executors.placed, []⟩ =
      if executors.placed.stops then _ else _ := Execution.loop_eq hread hcall rfl 0
  have hresult : executeRegistering registering executors =
      Execution.callAll registering ⟨executors.placed, []⟩ executors.placed.runs := by
    rw [executeRegistering, ← length_placed, ← Nat.add_zero executors.placed.length, hloop]
    exact ite_self _
  rw [KeepsOrder, hresult, Execution.originals_callAll fun exec => isSome_of_mem_runs]
  rfl

/-- If nothing stops before the callbacks with `QUEUE_END` and none of them is reached, all of them
have `SKIP`. -/
theorem queued_skip {executors : Action F} {normal queued : Action (Placed F)}
    (hplaced : executors.placed = normal ++ queued)
    (hqueued : ∀ cb ∈ queued, cb.isNormal = false) (hstops : normal.stops = false)
    (hnone : ∀ p cb, Reached executors p cb → cb.has ActionFlag.queueEnd = false) :
    ∀ cb ∈ queued, cb.has ActionFlag.skip = true := by
  intro cb hcb
  by_contra hrun
  obtain ⟨cb', hmem, hcb'⟩ := exists_mem_runs hcb (Bool.not_eq_true _ ▸ hrun)
  obtain ⟨before, behind, hsplit⟩ := List.append_of_mem hmem
  have hreach : cb'.exec ∈ executors.placed.runs := by
    rw [hplaced, runs_append, hstops]
    exact List.mem_append_right _ hcb'
  have hat : executors.placed = (normal ++ before) ++ cb' :: behind := by
    rw [hplaced, hsplit, List.append_assoc]
  obtain ⟨original, hreached, heq⟩ := reached_of_mem_placed hat hreach
  have hend : cb'.has ActionFlag.queueEnd = false := by
    rw [heq]
    exact hnone _ _ hreached
  have hqueue := hqueued cb' hmem
  rw [ActionCallback.isNormal_eq, hend] at hqueue
  cases hqueue

/-- Where no callback with `QUEUE_END` is reached: what is registered goes behind all that runs. -/
theorem keepsOrder_of_normal
    (hnone : ∀ p cb, Reached (register [] calls) p cb → cb.has ActionFlag.queueEnd = false) :
    KeepsOrder registering (register [] calls) := by
  obtain ⟨normal, queued, hplaced, hnormal, hqueued⟩ := placed_register calls
  have hstart : Execution.Shape normal queued ⟨normal ++ queued, []⟩ :=
    ⟨[], [], by simp, by simp, by simp, by simp⟩
  have hloop : Execution.loop registering (normal.length + queued.length) 0
      ⟨normal ++ queued, []⟩ = if normal.stops then _ else _ :=
    Execution.loop_eq (fun e he j => he.getElem?)
      (fun _ cb _ _ _ _ _ e he => he.call hnormal hqueued cb.exec) hstart queued.length
  have hresult : executeRegistering registering (register [] calls) =
      Execution.loop registering (normal.length + queued.length) 0 ⟨normal ++ queued, []⟩ := by
    rw [executeRegistering, ← length_placed, hplaced, List.length_append]
  have hruns : ∀ exec ∈ normal.runs, exec.1.isSome = true := by
    intro exec hexec
    obtain ⟨cb, hcb, rfl, -⟩ := mem_of_mem_runs hexec
    have hmem : cb ∈ (register [] calls).placed := by simp [hplaced, hcb]
    exact isSome_of_mem_placed hmem
  rw [KeepsOrder, hresult, hloop, hplaced, runs_append]
  cases hstops : normal.stops with
  | true => exact Execution.originals_callAll hruns
  | false =>
    have hskip := queued_skip hplaced hqueued hstops hnone
    have hnil : queued.runs = [] := by
      rw [List.eq_nil_iff_forall_not_mem]
      intro exec hexec
      obtain ⟨cb, hcb, -, hrun⟩ := mem_of_mem_runs hexec
      rw [hskip cb hcb] at hrun
      cases hrun
    have hshape : Execution.Shape normal queued
        (Execution.callAll registering ⟨normal ++ queued, []⟩ normal.runs) :=
      hstart.callAll hnormal hqueued _
    rw [hnil, List.append_nil]
    exact (hshape.originals_loop hnormal hqueued hskip _ (by omega)).trans
      (Execution.originals_callAll hruns)

end Keeps

/-! ### Callbacks that register others too early -/

/-- The callback that was at the position `p` registers `n` others, and no other callback does. -/
def registerAt (p n : Nat) (func : F) : Registering F := fun _ source =>
  if source.1 = some p then List.replicate n (func, ActionFlag.default) else []

theorem registerAt_of_ne (p n : Nat) (func : F) (k : Nat) (source : Placed F)
    (hne : source.1 ≠ some p) : registerAt p n func k source = [] :=
  if_neg hne

theorem registerAt_admits {may : Nat → Prop} {p : Nat} (hmay : may p) (n : Nat) (func : F) :
    Admits may (registerAt p n func) where
  flags k source call hcall := by
    unfold registerAt at hcall
    split at hcall
    · rw [List.eq_of_mem_replicate hcall]
      exact .inl rfl
    · cases hcall
  silent k q exec hq := by
    have hne : q ≠ p := fun heq => hq (heq ▸ hmay)
    exact registerAt_of_ne p n func k _ (by simpa using hne)

theorem position_of_getElem? {executors : Action F} {p : Nat} {cb : ActionCallback (Placed F)}
    (h : executors.placed[p]? = some cb) : cb.exec.1 = some p := by
  rw [getElem?_placed] at h
  obtain ⟨original, -, rfl⟩ := Option.map_eq_some_iff.mp h
  rfl

/-- Only the callback at a position carries it. -/
theorem split_placed {executors : Action F} {p : Nat} {cb : ActionCallback F}
    (hget : executors.placed[p]? = some (cb.placedAt p)) : ∃ before behind : Action (Placed F),
      executors.placed = before ++ cb.placedAt p :: behind ∧ before.length = p ∧
      ∀ cb' ∈ before ++ behind, cb'.exec.1 ≠ some p := by
  have hlt : p < executors.placed.length := (List.getElem?_eq_some_iff.mp hget).1
  have hat : executors.placed[p] = cb.placedAt p := (List.getElem?_eq_some_iff.mp hget).2
  refine ⟨executors.placed.take p, executors.placed.drop (p + 1), ?_, ?_, ?_⟩
  · rw [← hat, List.getElem_cons_drop, List.take_append_drop]
  · rw [List.length_take]
    exact Nat.min_eq_left hlt.le
  · intro cb' hmem heq
    rcases List.mem_append.mp hmem with hmem | hmem
    · obtain ⟨j, hj⟩ := List.getElem?_of_mem hmem
      rw [List.getElem?_take] at hj
      split at hj
      · next hjp =>
        have hpos := position_of_getElem? hj
        rw [heq, Option.some.injEq] at hpos
        omega
      · cases hj
    · obtain ⟨j, hj⟩ := List.getElem?_of_mem hmem
      rw [List.getElem?_drop] at hj
      have hpos := position_of_getElem? hj
      rw [heq, Option.some.injEq] at hpos
      omega

/-- The list at a callback that is reached. -/
theorem Reached.split {executors : Action F} {p : Nat} {cb : ActionCallback F}
    (h : Reached executors p cb) : ∃ before behind : Action (Placed F),
      executors.placed = before ++ cb.placedAt p :: behind ∧ before.length = p ∧
      before.stops = false ∧ cb.has ActionFlag.skip = false ∧
      ∀ cb' ∈ before ++ behind, cb'.exec.1 ≠ some p := by
  obtain ⟨before, behind, hsplit, hlength, hother⟩ := split_placed h.get_placed
  have hnot : ∀ part : Action (Placed F), (∀ cb' ∈ part, cb'.exec.1 ≠ some p) →
      (some p, cb.exec) ∉ part.runs := by
    intro part hpart hmem
    obtain ⟨cb', hcb', heq, -⟩ := mem_of_mem_runs hmem
    exact hpart cb' hcb' (by rw [heq])
  have hruns := h.2
  rw [hsplit, runs_append] at hruns
  refine ⟨before, behind, hsplit, hlength, ?_, ?_, hother⟩
  · by_contra hstops
    rw [Bool.not_eq_false] at hstops
    rw [if_pos hstops] at hruns
    exact hnot _ (fun cb' hcb' => hother cb' (List.mem_append_left _ hcb')) hruns
  · by_contra hskip
    rw [Bool.not_eq_false] at hskip
    rw [runs_cons_of_skip ((cb.has_placedAt p _).trans hskip)] at hruns
    refine hnot (before ++ behind) hother ?_
    rw [runs_append]
    exact hruns

theorem Reached.turn {executors : Action F} {p : Nat} {cb : ActionCallback F}
    (h : Reached executors p cb) (hstop : cb.has ActionFlag.stopAfter = false) :
    (cb.placedAt p).turn = .call (some p, cb.exec) := by
  obtain ⟨-, -, -, -, -, hskip, -⟩ := h.split
  simp [ActionCallback.turn, hskip, hstop]

/-- The execution right after a callback that is the first to register others. -/
theorem Reached.execution {executors : Action F} {p : Nat} {cb : ActionCallback F}
    {registering : Registering F} (h : Reached executors p cb)
    (hstop : cb.has ActionFlag.stopAfter = false)
    (hsilent : ∀ n source, source.1 ≠ some p → registering n source = []) :
    ∃ before behind : Action (Placed F),
      executors.placed = before ++ cb.placedAt p :: behind ∧ before.length = p ∧
      (∀ cb' ∈ before ++ behind, cb'.exec.1 ≠ some p) ∧
      executors.placed.runs = before.runs ++ (some p, cb.exec) :: behind.runs ∧
      executors.executeRegistering registering =
        Execution.loop registering behind.length (p + 1)
          (Execution.call registering ⟨executors.placed, before.runs⟩ (some p, cb.exec)) := by
  obtain ⟨before, behind, hsplit, hlength, hstops, hskip, hother⟩ := h.split
  have hquiet : ∀ exec ∈ before.runs, ∀ n, registering n exec = [] := by
    intro exec hexec n
    obtain ⟨cb', hcb', rfl, -⟩ := mem_of_mem_runs hexec
    exact hsilent n _ (hother cb' (List.mem_append_left _ hcb'))
  have hread : ∀ e : Execution F, e.executors = executors.placed → ∀ j < before.length,
      e.executors[0 + j]? = before[j]? := by
    intro e he j hj
    rw [he, Nat.zero_add, hsplit, List.getElem?_append_left hj]
  have hloop : Execution.loop registering (before.length + (behind.length + 1)) 0
      ⟨executors.placed, []⟩ = if before.stops then _ else _ :=
    Execution.loop_eq hread (fun _ cb' _ _ hruns _ _ e he => by
      rw [Execution.call, hquiet _ hruns]
      exact he) rfl (behind.length + 1)
  have hcb : executors.placed[p]? = some (cb.placedAt p) := by
    rw [hsplit, ← hlength, List.getElem?_append_right le_rfl, Nat.sub_self, List.getElem?_cons_zero]
  have hruns : executors.placed.runs = before.runs ++ (some p, cb.exec) :: behind.runs := by
    rw [hsplit, runs_append, hstops, if_neg Bool.false_ne_true,
      runs_cons_of_call ((cb.has_placedAt p _).trans hskip) ((cb.has_placedAt p _).trans hstop),
      ActionCallback.exec_placedAt]
  refine ⟨before, behind, hsplit, hlength, hother, hruns, ?_⟩
  have hall : executors.length = before.length + (behind.length + 1) := by
    rw [← length_placed, hsplit, List.length_append, List.length_cons]
  rw [executeRegistering, hall, hloop, hstops, if_neg Bool.false_ne_true,
    Execution.callAll_silent hquiet, Nat.zero_add, hlength]
  simp only [Execution.loop, hcb, h.turn hstop, List.nil_append]

/-- What is registered by `registerAt` goes between the two parts of the list. -/
theorem executors_registerAt {normal queued : Action (Placed F)}
    (hnormal : ∀ cb ∈ normal, cb.isNormal = true) (hqueued : ∀ cb ∈ queued, cb.isNormal = false)
    (p n : Nat) (func exec : F) (called : List (Placed F)) :
    (Execution.call (registerAt p n func) ⟨normal ++ queued, called⟩ (some p, exec)).executors =
      normal ++ (List.replicate n ⟨(none, func), ActionFlag.default⟩ ++ queued) := by
  have hflags : (⟨((none : Option Nat), func), ActionFlag.default⟩ : ActionCallback (Placed F)).has
    ActionFlag.queueEnd = false := by simp [ActionCallback.has, ActionFlag.default]
  rw [Execution.call, register_split hnormal hqueued]
  simp [registerAt, front, back, made, hflags]

section Positions

variable {executors : Action F} {normal queued : Action (Placed F)} {p : Nat} {cb : ActionCallback F}

theorem Reached.queued_position (h : Reached executors p cb)
    (hplaced : executors.placed = normal ++ queued) (hnormal : ∀ cb ∈ normal, cb.isNormal = true)
    (hqueue : cb.has ActionFlag.queueEnd = true) : normal.length ≤ p := by
  by_contra hlt
  have hget := h.get_placed
  rw [hplaced, List.getElem?_append_left (by omega)] at hget
  have hnot := hnormal _ (List.mem_of_getElem? hget)
  rw [ActionCallback.isNormal_eq, ActionCallback.has_placedAt, hqueue] at hnot
  cases hnot

theorem Reached.normal_position (h : Reached executors p cb)
    (hplaced : executors.placed = normal ++ queued) (hqueued : ∀ cb ∈ queued, cb.isNormal = false)
    (hqueue : cb.has ActionFlag.queueEnd = false) : p < normal.length := by
  by_contra hle
  have hget := h.get_placed
  rw [hplaced, List.getElem?_append_right (by omega)] at hget
  have hnot := hqueued _ (List.mem_of_getElem? hget)
  rw [ActionCallback.isNormal_eq, ActionCallback.has_placedAt, hqueue] at hnot
  cases hnot

/-- With as many new callbacks as the list had before them, the loop ends among these. -/
theorem position_or_new {i : Nat} (hplaced : executors.placed = normal ++ queued) {func : F}
    {cb' : ActionCallback (Placed F)} (hi : i < executors.length)
    (hget : (normal ++ (List.replicate executors.length ⟨(none, func), ActionFlag.default⟩ ++
      queued))[i]? = some cb') :
    (i < normal.length ∧ cb'.exec.1 = some i) ∨ cb'.exec.1 = none := by
  rcases Nat.lt_or_ge i normal.length with hlt | hge
  · rw [List.getElem?_append_left hlt] at hget
    have hplacedAt : executors.placed[i]? = some cb' := by
      rw [hplaced, List.getElem?_append_left hlt, hget]
    exact .inl ⟨hlt, position_of_getElem? hplacedAt⟩
  · rw [List.getElem?_append_right hge, List.getElem?_append_left (by simp; omega)] at hget
    have hnew := List.eq_of_mem_replicate (List.mem_of_getElem? hget)
    exact .inr (by rw [hnew])

/-- The callbacks behind the position `p` up to the end of the loop. -/
theorem position_of_mem_visited {todo : Nat} (hplaced : executors.placed = normal ++ queued)
    {func : F} (hall : executors.length = p + (todo + 1)) {cb' : ActionCallback (Placed F)}
    {list : Action (Placed F)} (hlist : normal ++ (List.replicate executors.length
      ⟨(none, func), ActionFlag.default⟩ ++ queued) = list)
    (hcb' : cb' ∈ (list.drop (p + 1)).take todo) :
    (∃ i, p < i ∧ i < normal.length ∧ cb'.exec.1 = some i) ∨ cb'.exec.1 = none := by
  obtain ⟨j, hj⟩ := List.getElem?_of_mem hcb'
  rw [List.getElem?_take] at hj
  split at hj
  · next hjlt =>
    rw [List.getElem?_drop, ← hlist] at hj
    rcases position_or_new hplaced (by omega) hj with ⟨hi, hpos⟩ | hnew
    · exact .inl ⟨p + 1 + j, by omega, hi, hpos⟩
    · exact .inr hnew
  · cases hj

theorem position_of_mem_runs {part : Action (Placed F)} {q : Nat} {exec : F}
    (hpart : ∀ cb' ∈ part,
      (∃ i, p < i ∧ i < normal.length ∧ cb'.exec.1 = some i) ∨ cb'.exec.1 = none)
    (hmem : (some q, exec) ∈ part.runs) : p < q ∧ q < normal.length := by
  obtain ⟨cb', hcb', heq, -⟩ := mem_of_mem_runs hmem
  rcases hpart cb' hcb' with ⟨i, hlow, hhigh, hpos⟩ | hnew
  · rw [heq, Option.some.injEq] at hpos
    exact hpos ▸ ⟨hlow, hhigh⟩
  · rw [heq] at hnew
    cases hnew

theorem position_lt_of_mem_runs {before behind : Action (Placed F)} {q : Nat} {exec : F}
    (hsplit : executors.placed = before ++ behind) (hmem : (some q, exec) ∈ before.runs) :
    q < before.length := by
  obtain ⟨cb', hcb', heq, -⟩ := mem_of_mem_runs hmem
  obtain ⟨j, hj⟩ := List.getElem?_of_mem hcb'
  have hlt : j < before.length := (List.getElem?_eq_some_iff.mp hj).1
  have hpos : cb'.exec.1 = some j := by
    apply position_of_getElem?
    rw [hsplit, List.getElem?_append_left hlt, hj]
  rw [heq, Option.some.injEq] at hpos
  exact hpos ▸ hlt

end Positions

/-- A callback with `QUEUE_END` that registers another finds itself at the next position. -/
theorem not_keepsOrder_of_queued {calls : List (F × UShort)} {p : Nat} {cb : ActionCallback F}
    (h : Reached (register [] calls) p cb) (hstop : cb.has ActionFlag.stopAfter = false)
    (hqueue : cb.has ActionFlag.queueEnd = true) (hnext : p + 1 ≠ (register [] calls).length) :
    ¬ KeepsOrder (registerAt p 1 cb.exec) (register [] calls) := by
  obtain ⟨normal, queued, hplaced, hnormal, hqueued⟩ := placed_register calls
  obtain ⟨before, behind, hsplit, hlength, hother, hruns, hresult⟩ :=
    h.execution hstop (registerAt_of_ne p 1 cb.exec)
  intro hkeeps
  have hqueuedp : normal.length ≤ p := h.queued_position hplaced hnormal hqueue
  have hexecutors := executors_registerAt hnormal hqueued p 1 cb.exec cb.exec before.runs
  rw [← hplaced] at hexecutors
  have hagain : (Execution.call (registerAt p 1 cb.exec)
      ⟨(register [] calls).placed, before.runs⟩ (some p, cb.exec)).executors[p + 1]? =
      some (cb.placedAt p) := by
    have hget := h.get_placed
    rw [hplaced, List.getElem?_append_right hqueuedp] at hget
    rw [hexecutors, List.getElem?_append_right (by omega), List.getElem?_append_right (by simp; omega),
      ← hget]
    congr 1
    simp
    omega
  obtain ⟨todo, htodo⟩ : ∃ todo, behind.length = todo + 1 := by
    have hall := congrArg List.length hsplit
    rw [length_placed, List.length_append, List.length_cons] at hall
    exact Nat.exists_eq_succ_of_ne_zero (by omega)
  -- the second call of the callback
  obtain ⟨more, hmore⟩ : before.runs ++ [(some p, cb.exec)] ++ [(some p, cb.exec)] <+:
      (executeRegistering (registerAt p 1 cb.exec) (register [] calls)).called := by
    have hcalled : ((Execution.call (registerAt p 1 cb.exec)
        ⟨(register [] calls).placed, before.runs⟩ (some p, cb.exec)).call (registerAt p 1 cb.exec)
        (some p, cb.exec)).called = before.runs ++ [(some p, cb.exec)] ++ [(some p, cb.exec)] := rfl
    rw [hresult, htodo, ← hcalled]
    simp only [Execution.loop, hagain, h.turn hstop]
    exact Execution.called_prefix_loop _ _ _
  have hbefore : ∀ exec ∈ before.runs, exec.1.isSome = true := fun exec hexec =>
    isSome_of_mem_runs (hruns ▸ List.mem_append_left _ hexec)
  rw [KeepsOrder, Execution.originals, ← hmore, hruns] at hkeeps
  simp only [List.filter_append, List.filter_eq_self.mpr hbefore, List.append_assoc,
    List.append_cancel_left_eq] at hkeeps
  have htwice : (some p, cb.exec) ∈ behind.runs := by
    simp only [List.filter_cons_of_pos, Option.isSome_some, List.filter_nil, List.cons_append,
      List.nil_append, List.cons.injEq, true_and] at hkeeps
    rw [← hkeeps]
    exact List.mem_cons_self
  obtain ⟨cb', hcb', heq, -⟩ := mem_of_mem_runs htwice
  exact hother cb' (List.mem_append_right _ hcb') (by rw [heq])

/-- A callback without `QUEUE_END` can push those with it out of the range of the loop. -/
theorem not_keepsOrder_of_normal {calls : List (F × UShort)} {p q : Nat}
    {cb queuedCb : ActionCallback F} (h : Reached (register [] calls) p cb)
    (hstop : cb.has ActionFlag.stopAfter = false) (hfront : cb.has ActionFlag.queueEnd = false)
    (hq : Reached (register [] calls) q queuedCb)
    (hqueue : queuedCb.has ActionFlag.queueEnd = true) :
    ¬ KeepsOrder (registerAt p (register [] calls).length cb.exec) (register [] calls) := by
  obtain ⟨normal, queued, hplaced, hnormal, hqueued⟩ := placed_register calls
  obtain ⟨before, behind, hsplit, hlength, hother, -, hresult⟩ :=
    h.execution hstop (registerAt_of_ne p (register [] calls).length cb.exec)
  have hp := h.normal_position hplaced hqueued hfront
  have hqpos := hq.queued_position hplaced hnormal hqueue
  have hall : (register [] calls).length = p + (behind.length + 1) := by
    rw [← length_placed, hsplit, List.length_append, List.length_cons, hlength]
  have hexecutors := executors_registerAt hnormal hqueued p (register [] calls).length cb.exec
    cb.exec before.runs
  rw [← hplaced] at hexecutors
  generalize hlist : normal ++ (List.replicate (register [] calls).length
    ⟨(none, cb.exec), ActionFlag.default⟩ ++ queued) = list at hexecutors
  -- what the loop still visits
  have hpart : ∀ cb' ∈ (list.drop (p + 1)).take behind.length,
      (∃ i, p < i ∧ i < normal.length ∧ cb'.exec.1 = some i) ∨ cb'.exec.1 = none :=
    fun cb' => position_of_mem_visited hplaced hall hlist
  have hpartlen : ((list.drop (p + 1)).take behind.length).length = behind.length := by
    rw [List.length_take, List.length_drop, ← hlist]
    simp
    omega
  generalize hvisited : (list.drop (p + 1)).take behind.length = part at hpart hpartlen
  have hsilent : ∀ cb' ∈ part, ∀ k,
      registerAt p (register [] calls).length cb.exec k cb'.exec = [] := by
    refine fun cb' hcb' k => registerAt_of_ne p _ _ k _ fun heq => ?_
    rcases hpart cb' hcb' with ⟨i, hpi, -, hi⟩ | hnew
    · rw [hi, Option.some.injEq] at heq
      omega
    · rw [hnew] at heq
      cases heq
  have hcalled : (executeRegistering (registerAt p (register [] calls).length cb.exec)
      (register [] calls)).called = before.runs ++ [(some p, cb.exec)] ++ runs part := by
    rw [hresult, ← hpartlen, Execution.called_loop_of_silent (fun j hj => ?_) hsilent]
    · rfl
    · rw [hexecutors, ← hvisited, List.getElem?_take_of_lt (by omega), List.getElem?_drop]
  intro hkeeps
  have hmem : (some q, queuedCb.exec) ∈ before.runs ++ [(some p, cb.exec)] ++ runs part := by
    rw [← hcalled]
    exact (List.mem_filter.mp (hkeeps ▸ hq.2)).1
  simp only [List.mem_append, List.mem_singleton, Prod.mk.injEq, Option.some.injEq] at hmem
  rcases hmem with (hmem | ⟨hpq, -⟩) | hmem
  · have hlt := position_lt_of_mem_runs hsplit hmem
    omega
  · omega
  · have hlt := (position_of_mem_runs hpart hmem).2
    omega

/-- For every list that registrations have made, and every choice of the callbacks in it that may
register others: in all executions the callbacks that are reached run once each and in order, exactly
if none of them has `QUEUE_END`, or each of them that may register has `STOP_AFTER` or is the last of
the list. -/
theorem keepsOrder_iff (calls : List (F × UShort)) (may : Nat → Prop) :
    (∀ registering, Admits may registering → KeepsOrder registering (register [] calls)) ↔
      (∀ p cb, Reached (register [] calls) p cb → cb.has ActionFlag.queueEnd = false) ∨
      ∀ p cb, Reached (register [] calls) p cb → may p →
        cb.has ActionFlag.stopAfter = true ∨ p + 1 = (register [] calls).length := by
  constructor
  · intro hall
    by_contra hnot
    push Not at hnot
    obtain ⟨⟨q, queuedCb, hq, hqueue⟩, p, cb, hp, hmay, hstop, hnext⟩ := hnot
    rw [ne_eq, Bool.not_eq_true] at hstop
    rw [ne_eq, Bool.not_eq_false] at hqueue
    cases hcb : cb.has ActionFlag.queueEnd with
    | true =>
      exact not_keepsOrder_of_queued hp hstop hcb hnext (hall _ (registerAt_admits hmay _ _))
    | false =>
      exact not_keepsOrder_of_normal hp hstop hcb hq hqueue (hall _ (registerAt_admits hmay _ _))
  · rintro (hnone | hlast) registering hadmits
    · exact keepsOrder_of_normal hnone
    · refine keepsOrder_of_last fun p cb hreached => ?_
      by_cases hmay : may p
      · exact (hlast p cb hreached hmay).imp_right .inl
      · exact .inr (.inr fun n => hadmits.silent n p cb.exec hmay)

/-- The `CLOSED` list of an element with one hook, which registers another one when it runs: the
callback that erases the element is not called. -/
theorem erase_lost : ¬ ∀ (calls : List (String × UShort)) (registering : Registering String),
    Admits (fun _ => True) registering → KeepsOrder registering (register [] calls) := by
  intro hall
  have hkeeps := hall [("erase", ActionFlag.queueEnd ||| ActionFlag.stopAfter),
    ("hook", ActionFlag.default)] (registerAt 0 1 "later") (registerAt_admits trivial 1 "later")
  revert hkeeps
  unfold KeepsOrder
  decide

end Action

end Unisock.Events
