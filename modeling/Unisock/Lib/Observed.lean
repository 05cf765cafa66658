import Unisock.Lib.Machine

/-! What is seen of the runs of a machine, where each step shows something of the state and the input
that it meets: invariants over what has been seen, more abstract machines that follow a run, and two
machines between which a queue carries what the first one shows. -/

namespace Machine

variable {σ τ ι κ β ε : Type*}

/-- A run from `s` with inputs that `ok` admits: what is seen of it, and the state that it reaches. -/
inductive Seen (step : σ → ι → Option σ) (ok : σ → ι → Prop) (shows : σ → ι → List β) (s : σ) :
    List β → σ → Prop
  | refl : Seen step ok shows s [] s
  | tail {seen : List β} {t u : σ} {i : ι} : Seen step ok shows s seen t → ok t i →
      step t i = some u → Seen step ok shows s (seen ++ shows t i) u

/-- What is seen of the run over the inputs. -/
def shown (step : σ → ι → Option σ) (shows : σ → ι → List β) : σ → List ι → List β
  | _, [] => []
  | s, i :: inputs => shows s i ++ (step s i).elim [] fun t => shown step shows t inputs

section Runs

variable {step : σ → ι → Option σ} {ok : σ → ι → Prop} {shows : σ → ι → List β} {s t u : σ}
  {seen more : List β}

namespace Seen

theorem reach (h : Seen step ok shows s seen t) : Reach step ok s t := by
  induction h with
  | refl => exact .refl
  | tail _ hok hs ih => exact ih.tail hok hs

theorem trans (h : Seen step ok shows s seen t) (h' : Seen step ok shows t more u) :
    Seen step ok shows s (seen ++ more) u := by
  induction h' with
  | refl => simpa using h
  | tail _ hok hs ih =>
    rw [← List.append_assoc]
    exact ih.tail hok hs

theorem head {i : ι} (hok : ok s i) (hs : step s i = some t) (h : Seen step ok shows t seen u) :
    Seen step ok shows s (shows s i ++ seen) u :=
  (Seen.tail .refl hok hs).trans h

/-- What is seen of a run over inputs that a check accepts. -/
theorem of_checked {check : σ → ι → Bool} (hok : ∀ u i, check u i = true → ok u i)
    {inputs : List ι} (hc : checked step check s inputs = true)
    (h : run step s inputs = some t) : Seen step ok shows s (shown step shows s inputs) t := by
  induction inputs generalizing s with
  | nil => exact (Option.some.inj h) ▸ .refl
  | cons i inputs ih =>
    obtain ⟨u, hu, hrest⟩ := Option.bind_eq_some_iff.mp h
    simp only [checked, hu, Option.all_some, Bool.and_eq_true] at hc
    have hseen : Seen step ok shows s (shows s i ++ shown step shows u inputs) t :=
      head (hok _ _ hc.1) hu (ih hc.2 hrest)
    simpa [shown, hu] using hseen

theorem of_run {inputs : List ι} (hok : ∀ u i, ok u i) (h : run step s inputs = some t) :
    Seen step ok shows s (shown step shows s inputs) t := by
  induction inputs generalizing s with
  | nil => exact (Option.some.inj h) ▸ .refl
  | cons i inputs ih =>
    obtain ⟨u, hu, hrest⟩ := Option.bind_eq_some_iff.mp h
    have hseen : Seen step ok shows s (shows s i ++ shown step shows u inputs) t :=
      head (hok _ _) hu (ih hrest)
    simpa [shown, hu] using hseen

/-- What holds at the start and after every step, of what has been seen and of the state. -/
theorem invariant {P : List β → σ → Prop} (h : Seen step ok shows s seen t) (h0 : P [] s)
    (hstep : ∀ seen u i v, Seen step ok shows s seen u → P seen u → ok u i → step u i = some v →
      P (seen ++ shows u i) v) : P seen t := by
  induction h with
  | refl => exact h0
  | tail hprev hok hs ih => exact hstep _ _ _ _ hprev ih hok hs

/-- An abstract machine follows a run: each step is answered by a run of the abstract machine, which
may be empty, and the relation also speaks of what has been seen. -/
theorem simulates {step' : τ → κ → Option τ} {ok' : τ → κ → Prop} {R : List β → σ → τ → Prop}
    {a : τ} (h : Seen step ok shows s seen t) (h0 : R [] s a)
    (hstep : ∀ seen u i v b, Seen step ok shows s seen u → R seen u b → ok u i →
      step u i = some v → ∃ c, Reach step' ok' b c ∧ R (seen ++ shows u i) v c) :
    ∃ b, Reach step' ok' a b ∧ R seen t b := by
  refine h.invariant (P := fun seen t => ∃ b, Reach step' ok' a b ∧ R seen t b)
    ⟨a, .refl, h0⟩ ?_
  rintro seen u i v hprev ⟨b, hb, hR⟩ hok hs
  obtain ⟨c, hc, hR⟩ := hstep seen u i v b hprev hR hok hs
  exact ⟨c, hb.trans hc, hR⟩

/-- What is seen of a run is made up of what is seen of it in chunks. -/
theorem exists_flatten {chunks : σ → ι → List (List β)}
    (h : Seen step ok (fun s i => (chunks s i).flatten) s seen t) :
    ∃ parts, Seen step ok chunks s parts t ∧ seen = parts.flatten := by
  induction h with
  | refl => exact ⟨[], .refl, rfl⟩
  | @tail seen u v i _ hok hs ih =>
    obtain ⟨parts, hparts, rfl⟩ := ih
    exact ⟨parts ++ chunks u i, hparts.tail hok hs, List.flatten_append.symm⟩

end Seen

end Runs

/-! ### Two machines with a queue between them -/

/-- Two machines, and what the first one has handed over and the second one has not taken yet. -/
structure Joined (σ τ ε : Type*) where
  left : σ
  right : τ
  queue : List ε

section Joined

variable [DecidableEq ε] (stepL : σ → ι → Option σ) (stepR : τ → κ → Option τ)
  (shows : σ → ι → List β) (hands : β → List ε) (takes : τ → κ → List ε)

/-- A step of one of the machines.  The second one can take only what is at the front of the queue. -/
def joined (s : Joined σ τ ε) : ι ⊕ κ → Option (Joined σ τ ε)
  | .inl i => (stepL s.left i).map fun t =>
    { s with left := t, queue := s.queue ++ (shows s.left i).flatMap hands }
  | .inr k =>
    if takes s.right k <+: s.queue then
      (stepR s.right k).map fun t =>
        { s with right := t, queue := s.queue.drop (takes s.right k).length }
    else none

/-- What is seen of the first machine. -/
def shownLeft (s : Joined σ τ ε) : ι ⊕ κ → List β
  | .inl i => shows s.left i
  | .inr _ => []

/-- Each machine gets inputs that are admitted for it. -/
def Joined.ok (okL : σ → ι → Prop) (okR : τ → κ → Prop) (s : Joined σ τ ε) : ι ⊕ κ → Prop
  | .inl i => okL s.left i
  | .inr k => okR s.right k

variable {stepL stepR shows hands takes} {okL : σ → ι → Prop} {okR : τ → κ → Prop}
  {s t : Joined σ τ ε} {seen : List β}

/-- In a run of both, each machine makes a run of its own, and what the first one has handed over is
what the second one has taken, followed by what is in the queue. -/
theorem Seen.joined
    (h : Seen (joined stepL stepR shows hands takes) (Joined.ok okL okR) (shownLeft shows) s seen t) :
    ∃ taken, Seen stepL okL shows s.left seen t.left ∧
      Seen stepR okR takes s.right taken t.right ∧
      s.queue ++ seen.flatMap hands = taken ++ t.queue := by
  induction h with
  | refl => exact ⟨[], .refl, .refl, by simp⟩
  | @tail seen t u i _ hok hs ih =>
    obtain ⟨taken, hleft, hright, hqueue⟩ := ih
    cases i with
    | inl i =>
      obtain ⟨v, hv, rfl⟩ := Option.map_eq_some_iff.mp hs
      refine ⟨taken, hleft.tail hok hv, hright, ?_⟩
      rw [shownLeft, List.flatMap_append, ← List.append_assoc, hqueue, List.append_assoc]
    | inr k =>
      obtain ⟨hfront, hs⟩ := Option.ite_none_right_eq_some.mp hs
      obtain ⟨v, hv, rfl⟩ := Option.map_eq_some_iff.mp hs
      refine ⟨taken ++ takes t.right k, by simpa [shownLeft] using hleft, hright.tail hok hv, ?_⟩
      obtain ⟨rest, hrest⟩ := hfront
      simp [shownLeft, hqueue, ← hrest, List.append_assoc]

end Joined

end Machine
