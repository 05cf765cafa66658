import Mathlib.Data.List.Flatten
import Mathlib.Data.Nat.Find
import Unisock.Events.Dispatch

/-! Which of the reported events one run of `poll_impl<POLL>` serves: those that are due up to the
first callback that adds or deletes a registration, and no other. -/

namespace Unisock.Events

variable {ρ : Type}

/-! ### What is due -/

/-- The calls due to the entry at `i`: `on_readable`, then `on_writeable`. -/
def dueAt (h : Handler ρ) (i : Nat) : List (PollCall ρ) :=
  match h.sockets[i]?, h.socketPtrs[i]? with
  | some s, some p =>
    (if hasBit s.revents POLLIN then [⟨.readable, i, p⟩] else []) ++
      if hasBit s.revents POLLOUT then [⟨.writeable, i, p⟩] else []
  | _, _ => []

/-- The calls due to the entries from `i` on, in the order of the vector. -/
def dueFrom (h : Handler ρ) (i : Nat) : List (PollCall ρ) :=
  (List.range' i (h.sockets.length - i)).flatMap (dueAt h)

/-- All the calls due in the round. -/
def due (h : Handler ρ) : List (PollCall ρ) := dueFrom h 0

/-- The number of entries from `i` on with an event. -/
def readyFrom (h : Handler ρ) (i : Nat) : Nat :=
  (h.sockets.drop i).countP fun s => s.revents != 0

/-- What `::poll` returns: the number of entries with an event. -/
def readyCount (h : Handler ρ) : Nat := readyFrom h 0

section Due

variable {h : Handler ρ} {i : Nat}

theorem dueFrom_of_lt (hi : i < h.sockets.length) :
    dueFrom h i = dueAt h i ++ dueFrom h (i + 1) := by
  rw [dueFrom, show h.sockets.length - i = (h.sockets.length - (i + 1)) + 1 by omega,
    List.range'_succ, List.flatMap_cons]
  rfl

theorem dueFrom_of_ge (hi : h.sockets.length ≤ i) : dueFrom h i = [] := by
  rw [dueFrom, show h.sockets.length - i = 0 by omega]
  rfl

theorem dueAt_it {c : PollCall ρ} (hc : c ∈ dueAt h i) : c.it = i := by
  unfold dueAt at hc
  split at hc
  · next s p _ _ =>
    simp only [List.mem_append] at hc
    rcases hc with hc | hc <;> split at hc <;> simp_all
  · simp at hc

theorem dueAt_eq {s : Pollfd} {p : ρ} (hi : h.sockets[i]? = some s)
    (hp : h.socketPtrs[i]? = some p) :
    dueAt h i = (if hasBit s.revents POLLIN then [⟨.readable, i, p⟩] else []) ++
      if hasBit s.revents POLLOUT then [⟨.writeable, i, p⟩] else [] := by
  simp only [dueAt, hi, hp]

theorem dueAt_nodup (h : Handler ρ) (i : Nat) : (dueAt h i).Nodup := by
  unfold dueAt
  split
  · split <;> split <;> simp
  · exact List.nodup_nil

/-- No call is due twice. -/
theorem due_nodup (h : Handler ρ) : (due h).Nodup := by
  rw [due, dueFrom, List.nodup_flatMap]
  refine ⟨fun i _ => dueAt_nodup h i, ?_⟩
  refine (List.nodup_range' 1).imp fun {i j} hij => ?_
  intro c hi hj
  exact hij ((dueAt_it hi).symm.trans (dueAt_it hj))

theorem dueAt_of_no_event {s : Pollfd} (hi : h.sockets[i]? = some s) (hzero : s.revents = 0) :
    dueAt h i = [] := by
  unfold dueAt
  split
  · next s' p hs' _ =>
    obtain rfl := Option.some.inj (hi.symm.trans hs')
    simp [hasBit, hzero]
  · rfl

theorem readyFrom_of_lt {s : Pollfd} (hi : h.sockets[i]? = some s) :
    readyFrom h i = (if s.revents = 0 then 0 else 1) + readyFrom h (i + 1) := by
  obtain ⟨hlt, hs⟩ := List.getElem?_eq_some_iff.mp hi
  rw [readyFrom, List.drop_eq_getElem_cons hlt, hs, List.countP_cons, readyFrom]
  by_cases hzero : s.revents = 0
  · simp [hzero]
  · simp only [bne_iff_ne, ne_eq, hzero, not_false_eq_true, if_true, if_false]
    omega

end Due

theorem dueFrom_of_none_ready {h : Handler ρ} {i : Nat} (hready : readyFrom h i = 0) :
    dueFrom h i = [] := by
  induction hleft : h.sockets.length - i generalizing i with
  | zero => exact dueFrom_of_ge (by omega)
  | succ left ih =>
    have hlt : i < h.sockets.length := by omega
    have hi := List.getElem?_eq_getElem hlt
    have hcount := readyFrom_of_lt hi
    have hzero : h.sockets[i].revents = 0 := by
      by_contra hne
      rw [if_neg hne] at hcount
      omega
    rw [if_pos hzero] at hcount
    rw [dueFrom_of_lt hlt, dueAt_of_no_event hi hzero, List.nil_append]
    exact ih (by omega) (by omega)

/-! ### What is served -/

/-- The calls served of those due, where the next callback is the `k`-th: all up to the first
callback that changes a registration. -/
def served (behaviour : Nat → List (HandlerCall ρ)) : Nat → List (PollCall ρ) → List (PollCall ρ)
  | _, [] => []
  | k, c :: cs => c :: if changes (behaviour k) = 0 then served behaviour (k + 1) cs else []

theorem served_eq_self {behaviour : Nat → List (HandlerCall ρ)} {k : Nat} {cs : List (PollCall ρ)}
    (hquiet : ∀ j < cs.length, changes (behaviour (k + j)) = 0) : served behaviour k cs = cs := by
  induction cs generalizing k with
  | nil => rfl
  | cons c cs ih =>
    have hhead : changes (behaviour k) = 0 := hquiet 0 (by simp)
    rw [served, if_pos hhead, ih]
    intro j hj
    rw [Nat.add_right_comm]
    exact hquiet (j + 1) (by simpa using hj)

theorem served_eq_take {behaviour : Nat → List (HandlerCall ρ)} {k j : Nat}
    {cs : List (PollCall ρ)} (hquiet : ∀ i < j, changes (behaviour (k + i)) = 0)
    (hchange : changes (behaviour (k + j)) ≠ 0) : served behaviour k cs = cs.take (j + 1) := by
  induction cs generalizing k j with
  | nil => rfl
  | cons c cs ih =>
    cases j with
    | zero =>
      have hhead : changes (behaviour k) ≠ 0 := hchange
      rw [served, if_neg hhead]
      simp
    | succ j =>
      have hhead : changes (behaviour k) = 0 := hquiet 0 (by omega)
      rw [served, if_pos hhead, List.take_succ_cons,
        ih (k := k + 1) (j := j) (fun i hi => ?_) (by rwa [Nat.add_right_comm])]
      rw [Nat.add_right_comm]
      exact hquiet (i + 1) (by omega)

/-- The run from `r` returns with the calls `made`. -/
def Round.Ends (behaviour : Nat → List (HandlerCall ρ)) (r : Round ρ) (made : List (PollCall ρ)) :
    Prop :=
  ∃ n, ((step behaviour)^[n] r).status = .returned ∧ ((step behaviour)^[n] r).made = made

namespace Round

variable {behaviour : Nat → List (HandlerCall ρ)} {h : Handler ρ}

theorem Ends.of_step {r : Round ρ} {made : List (PollCall ρ)}
    (hr : (r.step behaviour).Ends behaviour made) : r.Ends behaviour made := by
  obtain ⟨n, hn⟩ := hr
  exact ⟨n + 1, by simpa only [Function.iterate_succ_apply] using hn⟩

theorem Ends.of_leave {h' : Handler ρ} {l : PollLoop} {made : List (PollCall ρ)}
    (hturn : pollStep h' l = .leave) : Ends behaviour ⟨h', .running l, made⟩ made :=
  ⟨1, by simp [step, hturn], by simp [step, hturn]⟩

/-- Behind a callback, the loop goes on with what is due after it, or leaves if the callback changed
a registration. -/
theorem Ends.callback (hb : ∀ k, changes (behaviour k) % 65536 = 0 → changes (behaviour k) = 0)
    {h' : Handler ρ} (hs : h.Same h') {l : PollLoop} (hphase : l.phase ≠ .entry)
    (href : l.handlerRef = h.invalid) {rest : List (PollCall ρ)}
    (hrest : ∀ h'' made', h.Same h'' → Ends behaviour ⟨h'', .running l, made'⟩
      (made' ++ served behaviour made'.length rest))
    (made : List (PollCall ρ)) (c : PollCall ρ) :
    Ends behaviour ⟨h'.calls (behaviour made.length), .running l, made ++ [c]⟩
      (made ++ served behaviour made.length (c :: rest)) := by
  by_cases hzero : changes (behaviour made.length) = 0
  · have hnext := hrest _ (made ++ [c]) (hs.trans (h'.calls_same hzero))
    simpa [served, hzero] using hnext
  · have hturn : pollStep (h'.calls (behaviour made.length)) l = .leave := pollStep_changed hphase
      (by rw [href, ← hs.invalid]; exact h'.calls_invalid_ne fun hmod => hzero (hb _ hmod))
    have hleave : Ends behaviour ⟨_, .running l, made ++ [c]⟩ (made ++ [c]) := .of_leave hturn
    simpa [served, hzero] using hleave

/-- The run from the loop condition at entry `i` serves what is due from `i` on up to the first
callback that changes a registration, where `n_changes` is the number of entries with an event. -/
def EndsFrom (behaviour : Nat → List (HandlerCall ρ)) (h : Handler ρ) (i : Nat) : Prop :=
  ∀ (h' : Handler ρ) (l : PollLoop) (made : List (PollCall ρ)), h.Same h' → l.phase = .entry →
    l.it = i → l.nChanges = readyFrom h i →
    Ends behaviour ⟨h', .running l, made⟩ (made ++ served behaviour made.length (dueFrom h i))

/-- The countdown leaves at the end of the body only if nothing is due behind the entry. -/
theorem ends_written {i : Nat} (hnext : EndsFrom behaviour h (i + 1)) {h' : Handler ρ}
    (hs : h.Same h') {l : PollLoop} (hphase : l.phase = .written) (hit : l.it = i)
    (href : l.handlerRef = h.invalid) (hn : l.nChanges = 1 + readyFrom h (i + 1))
    (made : List (PollCall ρ)) :
    Ends behaviour ⟨h', .running l, made⟩
      (made ++ served behaviour made.length (dueFrom h (i + 1))) := by
  rcases pollStep_written hs hphase href with ⟨hzero, hturn⟩ | ⟨-, hturn⟩
  · rw [dueFrom_of_none_ready (by omega), served, List.append_nil]
    exact .of_leave hturn
  · refine .of_step ?_
    simp only [step, hturn]
    exact hnext _ _ _ hs rfl (by simp [hit]) (by simp only; omega)

theorem ends_read (ha : h.Aligned)
    (hb : ∀ k, changes (behaviour k) % 65536 = 0 → changes (behaviour k) = 0) {i : Nat}
    (hnext : EndsFrom behaviour h (i + 1)) {h' : Handler ρ} (hs : h.Same h') {l : PollLoop}
    (hphase : l.phase = .read) (hit : l.it = i) (href : l.handlerRef = h.invalid)
    (hn : l.nChanges = 1 + readyFrom h (i + 1)) {s : Pollfd} {p : ρ}
    (hi : h.sockets[i]? = some s) (hp : h.socketPtrs[i]? = some p) (made : List (PollCall ρ)) :
    Ends behaviour ⟨h', .running l, made⟩ (made ++ served behaviour made.length
      ((if hasBit s.revents POLLOUT then [⟨.writeable, i, p⟩] else []) ++ dueFrom h (i + 1))) := by
  subst hit
  rcases pollStep_read ha hs hphase href hi with ⟨hout, p', hp', hturn⟩ | ⟨hout, hturn⟩
  · obtain rfl : p' = p := Option.some.inj (hp'.symm.trans hp)
    refine .of_step ?_
    simp only [step, hturn, hout, if_true, List.singleton_append]
    exact .callback (l := { l with phase := .written }) hb hs (by simp) href
      (fun h'' made' hs' =>
        ends_written (l := { l with phase := .written }) hnext hs' rfl rfl href hn made') made _
  · refine .of_step ?_
    simp only [step, hturn, hout, Bool.false_eq_true, if_false, List.nil_append]
    exact ends_written (l := { l with phase := .written }) hnext hs rfl rfl href hn made

theorem ends_entry (ha : h.Aligned)
    (hb : ∀ k, changes (behaviour k) % 65536 = 0 → changes (behaviour k) = 0) {i : Nat}
    (hlt : i < h.sockets.length) (hnext : EndsFrom behaviour h (i + 1)) :
    EndsFrom behaviour h i := by
  intro h' l made hs hphase hit hn
  subst hit
  have hi := List.getElem?_eq_getElem hlt
  obtain ⟨p, hp, -⟩ := getElem?_socketPtrs ha hs hi
  have hcount := readyFrom_of_lt hi
  rcases pollStep_entry ha hs hphase hi with ⟨hzero, hturn⟩ | ⟨hne, hin, p', hp', hturn⟩ |
    ⟨hne, hin, hturn⟩ <;> refine .of_step ?_ <;> rw [dueFrom_of_lt hlt]
  · rw [dueAt_of_no_event hi hzero, List.nil_append]
    rw [if_pos hzero] at hcount
    simp only [step, hturn]
    exact hnext _ _ _ hs hphase rfl (by simp only; omega)
  · obtain rfl : p' = p := Option.some.inj (hp'.symm.trans hp)
    rw [if_neg hne] at hcount
    simp only [step, hturn, dueAt_eq hi hp, hin, if_true, List.nil_append, List.cons_append]
    exact .callback (l := { l with handlerRef := h.invalid, phase := .read }) hb hs (by simp) rfl
      (fun h'' made' hs' =>
        ends_read (l := { l with handlerRef := h.invalid, phase := .read }) ha hb hnext hs' rfl rfl
          rfl (hn.trans (by omega)) hi hp made')
      made _
  · rw [if_neg hne] at hcount
    simp only [step, hturn, dueAt_eq hi hp, hin, Bool.false_eq_true, if_false, List.nil_append]
    exact ends_read (l := { l with handlerRef := h.invalid, phase := .read }) ha hb hnext hs rfl rfl
      rfl (hn.trans (by omega)) hi hp made

theorem endsFrom (ha : h.Aligned)
    (hb : ∀ k, changes (behaviour k) % 65536 = 0 → changes (behaviour k) = 0) {i : Nat}
    (hle : i ≤ h.sockets.length) : EndsFrom behaviour h i := by
  induction hleft : h.sockets.length - i generalizing i with
  | zero =>
    intro h' l made hs hphase hit hn
    rw [dueFrom_of_ge (by omega), served, List.append_nil]
    exact .of_leave (pollStep_end hs hphase (by omega))
  | succ left ih => exact ends_entry ha hb (by omega) (ih (by omega) (by omega))

/-- A run in which `::poll` returned the number of entries with an event serves what is due up to
the first callback that changes a registration. -/
theorem ends_served (ha : h.Aligned)
    (hb : ∀ k, changes (behaviour k) % 65536 = 0 → changes (behaviour k) = 0) :
    Ends behaviour (start h (readyCount h)) (served behaviour 0 (due h)) := by
  exact endsFrom ha hb (Nat.zero_le _) h (.start (readyCount h)) [] (.refl h) rfl rfl rfl

end Round

/-! ### Ready sockets that are not served -/

/-- The calls that the first `n` callbacks make to the handler. -/
def executed (behaviour : Nat → List (HandlerCall ρ)) (n : Nat) : List (HandlerCall ρ) :=
  (List.range n).flatMap behaviour

/-- The registration `e` is in the handler before, between and after the calls. -/
def Survives (h : Handler ρ) (cs : List (HandlerCall ρ)) (e : Int × ρ) : Prop :=
  ∀ n, e ∈ (h.calls (cs.take n)).registrations

/-- Every call due to a socket whose registration survives the round, in which the calls `made` were
made, is among them. -/
def AllServed (h : Handler ρ) (behaviour : Nat → List (HandlerCall ρ)) (made : List (PollCall ρ)) :
    Prop :=
  ∀ c ∈ due h, ∀ e, h.registrations[c.it]? = some e →
    Survives h (executed behaviour made.length) e → c ∈ made

/-- The first callback that changes a registration leaves no ready socket waiting: it deletes the
registration of every socket with a call still due. -/
def NoneWaiting (h : Handler ρ) (behaviour : Nat → List (HandlerCall ρ)) : Prop :=
  ∀ j < (due h).length, (∀ k < j, changes (behaviour k) = 0) → changes (behaviour j) ≠ 0 →
    ∀ c ∈ (due h).drop (j + 1), ∀ e, h.registrations[c.it]? = some e →
      ¬ Survives h (executed behaviour (j + 1)) e

theorem allServed_iff (h : Handler ρ) (behaviour : Nat → List (HandlerCall ρ)) :
    AllServed h behaviour (served behaviour 0 (due h)) ↔ NoneWaiting h behaviour := by
  by_cases hquiet : ∀ j < (due h).length, changes (behaviour j) = 0
  · have hall : served behaviour 0 (due h) = due h :=
      served_eq_self fun j hj => by simpa using hquiet j hj
    rw [hall]
    exact ⟨fun _ j hj _ hchange => absurd (hquiet j hj) hchange, fun _ c hc _ _ _ => hc⟩
  · push Not at hquiet
    classical
    -- `j` is the first callback that changes a registration
    let j := Nat.find hquiet
    obtain ⟨hj, hchange⟩ : j < (due h).length ∧ changes (behaviour j) ≠ 0 := Nat.find_spec hquiet
    have hbefore : ∀ k < j, changes (behaviour k) = 0 := fun k hk => by
      have hmin := Nat.find_min hquiet hk
      simp only [not_and, not_not] at hmin
      exact hmin (by omega)
    have htake : served behaviour 0 (due h) = (due h).take (j + 1) :=
      served_eq_take (fun i hi => by simpa using hbefore i hi) (by simpa using hchange)
    have hlen : ((due h).take (j + 1)).length = j + 1 := by
      rw [List.length_take]
      omega
    have hsplit := List.take_append_drop (j + 1) (due h)
    rw [AllServed, htake, hlen]
    constructor
    · intro hserved k hk hquietk hchangek c hc e he hsurv
      have hkj : k = j := by
        by_contra hne
        rcases Nat.lt_or_gt_of_ne hne with hlt | hgt
        · exact hchangek (hbefore k hlt)
        · exact hchange (hquietk j hgt)
      subst hkj
      have hmem : c ∈ due h := List.mem_of_mem_drop hc
      have hdisj := List.disjoint_of_nodup_append (hsplit ▸ due_nodup h)
      exact hdisj (hserved c hmem e he hsurv) hc
    · intro hnone c hc e he hsurv
      rw [← hsplit, List.mem_append] at hc
      rcases hc with hc | hc
      · exact hc
      · exact absurd hsurv (hnone j hj hbefore hchange c hc e he)

/-- A run of `poll_impl` returns, and it has served every ready socket whose registration survives
it exactly if no callback that changes a registration left such a socket waiting.  The changes of
one callback are assumed to show in the counter, as its comment asks. -/
theorem serves_all_iff {h : Handler ρ} (ha : h.Aligned)
    {behaviour : Nat → List (HandlerCall ρ)}
    (hb : ∀ k, changes (behaviour k) % 65536 = 0 → changes (behaviour k) = 0) :
    ∃ made, (Round.start h (readyCount h)).Ends behaviour made ∧
      (AllServed h behaviour made ↔ NoneWaiting h behaviour) :=
  ⟨_, Round.ends_served ha hb, allServed_iff h behaviour⟩

theorem serves_all_iff_twoReadable : ∃ made,
    (Round.start twoReadable (readyCount twoReadable)).Ends (fun _ => []) made ∧
      (AllServed twoReadable (fun _ => []) made ↔ NoneWaiting twoReadable fun _ => []) :=
  serves_all_iff (h := twoReadable) rfl (fun _ _ => rfl)

/-- A listener that accepts a connection, which adds a registration, hides the second socket. -/
theorem accept_hides_ready : ¬ ∀ (h : Handler Nat) (behaviour : Nat → List (HandlerCall Nat))
    (made : List (PollCall Nat)), h.Aligned →
    (Round.start h (readyCount h)).Ends behaviour made → AllServed h behaviour made := by
  intro hall
  have hends : (Round.start twoReadable (readyCount twoReadable)).Ends
      (fun _ => [.addSocket 5 50]) [⟨.readable, 0, 30⟩] := ⟨2, by decide, by decide⟩
  have hserved := hall twoReadable _ _ rfl hends ⟨.readable, 1, 40⟩ (by decide) (4, 40) (by decide)
  refine absurd (hserved fun n => ?_) (by decide)
  rcases n with _ | n
  · decide
  · have htake : (executed (fun _ => [HandlerCall.addSocket 5 50]) 1).take (n + 1) =
        [HandlerCall.addSocket 5 50] := List.take_of_length_le (by simp [executed])
    simp only [List.length_singleton, htake]
    decide

end Unisock.Events
