import Mathlib.Data.List.DropRight
import Mathlib.Data.List.Basic

/-! The action lists of `events::action_handler`: callbacks with flags, where `add_callback` puts a
new one, and what one turn of the loop of `execute` does with the callback it meets. -/

namespace Unisock.Events

/-- `ushort`. -/
abbrev UShort := BitVec 16

namespace ActionFlag

/-- No flag: the callback is executed. -/
def default : UShort := 0b0000#16

/-- The callback is passed over. -/
def skip : UShort := 0b0001#16

/-- The execution of the whole list stops after this callback. -/
def stopAfter : UShort := 0b0010#16

/-- The callback stays at the end of the list, before those already queued there. -/
def queueEnd : UShort := 0b0100#16

end ActionFlag

/-- `action::action_callback`: a function and its flags. -/
structure ActionCallback (F : Type) where
  exec : F
  flags : UShort
deriving DecidableEq, Repr

namespace ActionCallback

variable {F : Type}

/-- The test that ends the reverse scan of `add_callback`: `~it->flags & QUEUE_END`. -/
def isNormal (cb : ActionCallback F) : Bool := (~~~cb.flags &&& ActionFlag.queueEnd) != 0

/-- `executor.flags & flag`, as a condition. -/
def has (cb : ActionCallback F) (flag : UShort) : Bool := (cb.flags &&& flag) != 0

end ActionCallback

/-- `action::executor_list`. -/
abbrev Action (F : Type) := List (ActionCallback F)

namespace Action

variable {F : Type}

/-- `action::add_callback`: the reverse scan passes the callbacks queued at the end, and the new
one is inserted right after the last callback that is not among them. -/
def addCallback (executors : Action F) (func : F) (flags : UShort) : Action F :=
  executors.rdropWhile (fun it => !it.isNormal) ++
    ⟨func, flags⟩ :: executors.rtakeWhile (fun it => !it.isNormal)

/-- The scan splits the list. -/
theorem rdrop_append_rtake (executors : Action F) :
    executors.rdropWhile (fun it => !it.isNormal) ++
      executors.rtakeWhile (fun it => !it.isNormal) = executors :=
  List.rdropWhile_append_rtakeWhile

theorem mem_addCallback {executors : Action F} {func : F} {flags : UShort}
    {cb : ActionCallback F} :
    cb ∈ executors.addCallback func flags ↔ cb = ⟨func, flags⟩ ∨ cb ∈ executors := by
  rw [addCallback, List.mem_append, List.mem_cons]
  conv_rhs => rw [← rdrop_append_rtake executors, List.mem_append]
  tauto

theorem length_addCallback (executors : Action F) (func : F) (flags : UShort) :
    (executors.addCallback func flags).length = executors.length + 1 := by
  have hsplit := congrArg List.length (rdrop_append_rtake executors)
  rw [List.length_append] at hsplit
  rw [addCallback, List.length_append, List.length_cons]
  omega

/-- The scan passes a callback that is queued at the end. -/
theorem addCallback_concat (executors : Action F) {last : ActionCallback F}
    (hlast : last.isNormal = false) (func : F) (flags : UShort) :
    addCallback (executors ++ [last]) func flags = addCallback executors func flags ++ [last] := by
  simp [addCallback, hlast]

end Action

/-- What one turn of the loop of `execute` does with the callback at the iterator. -/
inductive Turn (F : Type)
  /-- `continue`: the callback has `SKIP`. -/
  | skip
  /-- The callback has `STOP_AFTER`: it runs, and `execute` returns after it. -/
  | last (exec : F)
  /-- The callback runs, and the loop goes on. -/
  | call (exec : F)

/-- The body of the loop of `action::execute`. -/
def ActionCallback.turn {F : Type} (executor : ActionCallback F) : Turn F :=
  if executor.has ActionFlag.skip then .skip
  else if executor.has ActionFlag.stopAfter then .last executor.exec
  else .call executor.exec

end Unisock.Events
