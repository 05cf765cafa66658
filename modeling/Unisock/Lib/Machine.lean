import Mathlib.Logic.Relation

/-! Machines that take one input at a time: runs, the states that runs with admitted inputs reach,
invariants of these states, and goals that every such run reaches in finitely many steps. -/

namespace Machine

variable {σ ι : Type*}

/-- The state after all of `inputs`, if the machine accepts each of them in turn. -/
def run (step : σ → ι → Option σ) : σ → List ι → Option σ
  | s, [] => some s
  | s, i :: inputs => (step s i).bind fun t => run step t inputs

/-- `Reach step ok s t`: from `s`, inputs that `ok` admits in the state they meet lead to `t`. -/
inductive Reach (step : σ → ι → Option σ) (ok : σ → ι → Prop) (s : σ) : σ → Prop
  | refl : Reach step ok s s
  | tail {t u : σ} {i : ι} : Reach step ok s t → ok t i → step t i = some u → Reach step ok s u

/-- Every run from `s` whose inputs `ok` admits meets `goal` in finitely many steps: it is there
already, or some admitted step exists and every admitted step leads on to it. -/
inductive Inevitable (step : σ → ι → Option σ) (ok : σ → ι → Prop) (goal : σ → Prop) : σ → Prop
  | now {s : σ} : goal s → Inevitable step ok goal s
  | later {s : σ} : (∃ i t, ok s i ∧ step s i = some t) →
      (∀ i t, ok s i → step s i = some t → Inevitable step ok goal t) → Inevitable step ok goal s

/-- `Q` holds in `s` and in every state that the run over the inputs goes through. -/
def Always (step : σ → ι → Option σ) (Q : σ → Prop) : σ → List ι → Prop
  | s, [] => Q s
  | s, i :: inputs => Q s ∧ ∀ t, step s i = some t → Always step Q t inputs

/-- Every input of the run satisfies `P` in the state that it meets. -/
def Along (step : σ → ι → Option σ) (P : σ → ι → Prop) : σ → List ι → Prop
  | _, [] => True
  | s, i :: inputs => P s i ∧ ∀ t, step s i = some t → Along step P t inputs

/-- `check` accepts every input of the run in the state that it meets. -/
def checked (step : σ → ι → Option σ) (check : σ → ι → Bool) : σ → List ι → Bool
  | _, [] => true
  | s, i :: inputs => check s i && (step s i).all fun t => checked step check t inputs

variable {step : σ → ι → Option σ} {ok ok' : σ → ι → Prop} {s t u : σ}

@[simp] theorem run_nil (s : σ) : run step s [] = some s := rfl

@[simp] theorem run_cons (s : σ) (i : ι) (inputs : List ι) :
    run step s (i :: inputs) = (step s i).bind fun t => run step t inputs := rfl

theorem run_append (s : σ) (xs ys : List ι) :
    run step s (xs ++ ys) = (run step s xs).bind fun t => run step t ys := by
  induction xs generalizing s with
  | nil => simp
  | cons i xs ih =>
    simp only [List.cons_append, run_cons]
    cases h : step s i with
    | none => simp
    | some t => simpa using ih t

namespace Reach

theorem trans (h : Reach step ok s t) (h' : Reach step ok t u) : Reach step ok s u := by
  induction h' with
  | refl => exact h
  | tail _ hok hs ih => exact ih.tail hok hs

theorem mono (h : Reach step ok s t) (hle : ∀ u i, ok u i → ok' u i) : Reach step ok' s t := by
  induction h with
  | refl => exact .refl
  | tail _ hok hs ih => exact ih.tail (hle _ _ hok) hs

theorem head {i : ι} (hok : ok s i) (hs : step s i = some t) (h : Reach step ok t u) :
    Reach step ok s u :=
  (Reach.tail .refl hok hs).trans h

/-- The end of a run is reached, when a check accepts every input of the run. -/
theorem of_checked {check : σ → ι → Bool} (hok : ∀ u i, check u i = true → ok u i)
    {inputs : List ι} (hc : checked step check s inputs = true)
    (h : run step s inputs = some t) : Reach step ok s t := by
  induction inputs generalizing s with
  | nil => exact (Option.some.inj h) ▸ .refl
  | cons i inputs ih =>
    obtain ⟨u, hu, hrest⟩ := Option.bind_eq_some_iff.mp h
    simp only [checked, hu, Option.all_some, Bool.and_eq_true] at hc
    exact head (hok _ _ hc.1) hu (ih hc.2 hrest)

theorem of_run {inputs : List ι} (hok : ∀ u i, ok u i) (h : run step s inputs = some t) :
    Reach step ok s t := by
  induction inputs generalizing s with
  | nil => exact (Option.some.inj h) ▸ .refl
  | cons i inputs ih =>
    obtain ⟨u, hu, hrest⟩ := Option.bind_eq_some_iff.mp h
    exact head (hok _ _) hu (ih hrest)

/-- What holds at the start and after every admitted step holds in every state reached. -/
theorem invariant {P : σ → Prop} (h : Reach step ok s t) (h0 : P s)
    (hstep : ∀ u i v, P u → ok u i → step u i = some v → P v) : P t := by
  induction h with
  | refl => exact h0
  | tail _ hok hs ih => exact hstep _ _ _ ih hok hs

end Reach

theorem Along.of_checked {P : σ → ι → Prop} {check : σ → ι → Bool}
    (hP : ∀ u i, check u i = true → P u i) {inputs : List ι}
    (hc : checked step check s inputs = true) : Along step P s inputs := by
  induction inputs generalizing s with
  | nil => trivial
  | cons i inputs ih =>
    simp only [checked, Bool.and_eq_true, Option.all_eq_true] at hc
    exact ⟨hP s i hc.1, fun t ht => ih (hc.2 t ht)⟩

theorem Along.mono {P Q : σ → ι → Prop} (hle : ∀ u i, P u i → Q u i) {inputs : List ι}
    (h : Along step P s inputs) : Along step Q s inputs := by
  induction inputs generalizing s with
  | nil => trivial
  | cons i inputs ih => exact ⟨hle s i h.1, fun t ht => ih (h.2 t ht)⟩

theorem Always.head {Q : σ → Prop} {inputs : List ι} (h : Always step Q s inputs) : Q s := by
  cases inputs with
  | nil => exact h
  | cons i inputs => exact h.1

/-- In runs with legal inputs, which keep `I`: where a step from a state with `Q` leads to a state
with `Q` exactly if its input satisfies `P`, a run from a state with `Q` keeps `Q` throughout exactly
if all its inputs satisfy `P`. -/
theorem always_iff_along_legal {I Q : σ → Prop} {legal P : σ → ι → Prop}
    (total : ∀ s i, ∃ t, step s i = some t)
    (hinv : ∀ s i t, I s → legal s i → step s i = some t → I t)
    (hstep : ∀ s i t, I s → legal s i → Q s → step s i = some t → (Q t ↔ P s i))
    (hI : I s) (hs : Q s) {inputs : List ι} (hlegal : Along step legal s inputs) :
    Always step Q s inputs ↔ Along step P s inputs := by
  induction inputs generalizing s with
  | nil => exact ⟨fun _ => trivial, fun _ => hs⟩
  | cons i inputs ih =>
    obtain ⟨t, ht⟩ := total s i
    obtain ⟨hi, hlegal⟩ := hlegal
    have hIt : I t := hinv s i t hI hi ht
    constructor
    · rintro ⟨-, hrest⟩
      have hQ : Q t := (hrest t ht).head
      refine ⟨(hstep s i t hI hi hs ht).mp hQ, fun u hu => ?_⟩
      obtain rfl : t = u := Option.some.inj (ht.symm.trans hu)
      exact (ih hIt hQ (hlegal t ht)).mp (hrest t ht)
    · rintro ⟨hP, hrest⟩
      have hQ : Q t := (hstep s i t hI hi hs ht).mpr hP
      refine ⟨hs, fun u hu => ?_⟩
      obtain rfl : t = u := Option.some.inj (ht.symm.trans hu)
      exact (ih hIt hQ (hlegal t ht)).mpr (hrest t ht)

theorem Along.of_forall {P : σ → ι → Prop} (h : ∀ s i, P s i) (inputs : List ι) :
    Along step P s inputs := by
  induction inputs generalizing s with
  | nil => trivial
  | cons i inputs ih => exact ⟨h s i, fun _ _ => ih⟩

theorem always_iff_along {Q : σ → Prop} {P : σ → ι → Prop}
    (total : ∀ s i, ∃ t, step s i = some t)
    (hstep : ∀ s i t, Q s → step s i = some t → (Q t ↔ P s i)) (hs : Q s) (inputs : List ι) :
    Always step Q s inputs ↔ Along step P s inputs :=
  always_iff_along_legal (I := fun _ => True) total (fun _ _ _ _ _ _ => trivial)
    (fun s i t _ _ => hstep s i t) trivial hs (.of_forall (fun _ _ => trivial) inputs)

namespace Inevitable

variable {goal goal' : σ → Prop}

theorem exists_reach (h : Inevitable step ok goal s) : ∃ t, Reach step ok s t ∧ goal t := by
  induction h with
  | now hg => exact ⟨_, .refl, hg⟩
  | later hex _ ih =>
    obtain ⟨i, t, hok, hs⟩ := hex
    obtain ⟨u, hu, hg⟩ := ih i t hok hs
    exact ⟨u, hu.head hok hs, hg⟩

theorem mono (h : Inevitable step ok goal s) (hle : ∀ t, goal t → goal' t) :
    Inevitable step ok goal' s := by
  induction h with
  | now hg => exact .now (hle _ hg)
  | later hex _ ih => exact .later hex ih

/-- What holds at the goal in every run that stops there holds with the goal that is inevitable. -/
theorem and_of_first {Q : σ → Prop} (h : Inevitable step ok goal s)
    (hQ : ∀ t, Reach step (fun u i => ok u i ∧ ¬ goal u) s t → goal t → Q t) :
    Inevitable step ok (fun t => goal t ∧ Q t) s := by
  induction h with
  | now hg => exact .now ⟨hg, hQ _ .refl hg⟩
  | @later s hex hall ih =>
    by_cases hg : goal s
    · exact .now ⟨hg, hQ _ .refl hg⟩
    · refine .later hex fun i t hok hs => ih i t hok hs fun u hreach hu => ?_
      exact hQ u (hreach.head ⟨hok, hg⟩ hs) hu

/-- Goals one after the other: where the second is inevitable from the first, it is inevitable. -/
theorem bind (h : Inevitable step ok goal s)
    (hnext : ∀ t, goal t → Inevitable step ok goal' t) : Inevitable step ok goal' s := by
  induction h with
  | now hg => exact hnext _ hg
  | later hex _ ih => exact .later hex ih

end Inevitable

end Machine
