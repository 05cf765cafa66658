import Unisock.Tcp.Registry

/-! The descriptors that the system returns: how often each of them is closed, and that each of them
gets an element as long as the key that it needs is free. -/

namespace Unisock.Tcp

open Unisock.Events

namespace World

def isShut (fd : Int) : Event → Bool
  | .shut _ fd' => fd' == fd
  | _ => false

def isObtained (fd : Int) : Event → Bool
  | .obtained _ fd' _ => fd' == fd
  | _ => false

/-- What is counted in a log that is known up to order and up to events that are not counted. -/
theorem countP_of_perm_filter {new events : List Event} {drop q : Event → Bool}
    (hperm : (new.filter fun e => !drop e).Perm events)
    (hq : ∀ e, q e = true → drop e = false) : new.countP q = events.countP q := by
  rw [← hperm.countP_eq q, List.countP_filter]
  refine List.countP_congr fun e _ => ?_
  simp only [Bool.and_eq_true, Bool.not_eq_true', iff_self_and]
  exact hq e

/-- Each return of a descriptor has been answered by a `::close`, but for the last one of a
descriptor that is open. -/
def Counted (w : World) : Prop :=
  ∀ fd, w.log.countP (isShut fd) + (if fd ∈ w.mem.descriptors then 1 else 0) =
    w.log.countP (isObtained fd)

variable {w w' : World} {i : Input} {p : SockPtr}

theorem Counted.noted (hw : w.Counted) {e : Event} (hshut : ∀ fd, isShut fd e = false)
    (hobtained : ∀ fd, isObtained fd e = false) (hmem : w'.mem.descriptors = w.mem.descriptors)
    (hlog : w'.log = e :: w.log) : w'.Counted := by
  intro fd
  rw [hmem, hlog, List.countP_cons, List.countP_cons, hshut, hobtained]
  exact hw fd

theorem Counted.opened (hw : w.Counted) {container : Container} {fd : Int}
    {made : Option SockPtr} (hopens : w.Opens i fd)
    (hmem : w'.mem.descriptors = fd :: w.mem.descriptors)
    (hlog : w'.log = .obtained container fd made :: w.log) : w'.Counted := by
  intro fd'
  have hold := hw fd'
  rw [hmem, hlog, List.countP_cons, List.countP_cons]
  by_cases hfd : fd' = fd
  · subst hfd
    rw [if_neg hopens.2.2] at hold
    simpa [isShut, isObtained] using hold
  · have hne : (fd == fd') = false := by simpa using Ne.symm hfd
    simpa [isShut, isObtained, hfd, hne] using hold

theorem Counted.closed (hw : w.Counted) (hs : w.Sound) {c : Connection}
    (hp : w.mem.deref p = some c) (hsock : 0 ≤ c.sock)
    (hmem : w'.mem.descriptors = w.mem.descriptors.filter fun d => d != c.sock)
    (hlog : w'.log = .shut p c.sock :: .removed p c.sock :: w.log) : w'.Counted := by
  intro fd
  have hold := hw fd
  rw [hmem, hlog, List.countP_cons, List.countP_cons, List.countP_cons, List.countP_cons]
  by_cases hfd : fd = c.sock
  · subst hfd
    have hin : c.sock ∈ w.mem.descriptors := by
      have hreg := hs.mem.element p c hp hsock
      rw [← hs.mem.sock_eq hp hsock] at hreg
      apply hs.mem.opened
      rw [← hs.mem.aligned.map_fst_registrations]
      exact List.mem_map_of_mem hreg
    rw [if_pos hin] at hold
    simpa [isShut, isObtained] using hold
  · have hne : (c.sock == fd) = false := by simpa using Ne.symm hfd
    simpa [isShut, isObtained, hfd, hne] using hold

theorem Move.counted (hs : w.Sound) (hw : w.Counted) (h : Move w i w') : w'.Counted := by
  cases h with
  | notify _ _ _ _ _ => exact hw.noted (fun _ => rfl) (fun _ => rfl) rfl rfl
  | receive _ _ _ _ _ => exact hw.noted (fun _ => rfl) (fun _ => rfl) rfl rfl
  | erase _ _ _ _ _ => exact hw.noted (fun _ => rfl) (fun _ => rfl) rfl rfl
  | closed _ _ _ hp hsock _ => exact hw.closed hs hp hsock rfl rfl
  | failed _ _ _ _ => exact hw.noted (fun _ => rfl) (fun _ => rfl) rfl rfl
  | made _ _ _ hopens _ => exact hw.opened hopens rfl rfl
  | @accepted f server fd rest _ _ hopens _ =>
    have hmade : World.Counted { w with
        mem := w.mem.openFd fd
        log := .obtained (.clients server) fd (some (w.mem.newPtr (.clients server) fd)) :: w.log } :=
      hw.opened hopens rfl rfl
    exact hmade.noted (fun _ => rfl) (fun _ => rfl) rfl rfl
  | @leaked f container fd _ _ rest _ _ hopens _ _ hw' =>
    have hlost : World.Counted { w with
        mem := w.mem.openFd fd, log := .obtained container fd none :: w.log } :=
      hw.opened hopens rfl rfl
    rcases hw' with ⟨k, rfl⟩ | ⟨o, arg, -, rfl⟩
    · exact hlost
    · exact hlost.noted (fun _ => rfl) (fun _ => rfl) rfl rfl
  | finished _ _ _ => exact hw.noted (fun _ => rfl) (fun _ => rfl) rfl rfl
  | wrote _ _ _ _ => exact hw.noted (fun _ => rfl) (fun _ => rfl) rfl rfl
  | _ => exact hw

theorem start_counted (owners : Owner → OwnerAction → Action Unit) (invalid : UShort) :
    (start owners invalid).Counted := fun fd => by simp [start, Memory.empty]

theorem counted_of_reach {owners : Owner → OwnerAction → Action Unit} {invalid : UShort}
    {ok : World → Input → Prop} (h : Machine.Reach step ok (start owners invalid) w) :
    w.Counted := by
  have hinv : w.Sound ∧ w.Counted := by
    apply h.invariant ⟨start_sound owners invalid, start_counted owners invalid⟩
    intro u i v hu _ hstep
    exact ⟨(step_move hstep).sound hu.1, (step_move hstep).counted hu.1 hu.2⟩
  exact hinv.2

/-! ### Where the descriptors go -/

/-- Every open descriptor is that of an element. -/
def Owned (m : Memory) : Prop :=
  ∀ fd ∈ m.descriptors, 0 ≤ fd ∧ ∃ p c, m.deref p = some c ∧ c.sock = fd

theorem owned_change {m m' : Memory} (hm : Owned m) (h : Memory.Change m m') : Owned m' := by
  cases h with
  | @wired p c f hp hnode hsock _ _ =>
    intro fd hfd
    obtain ⟨hnonneg, q, d, hq, hd⟩ := hm fd hfd
    refine ⟨hnonneg, q, ?_⟩
    rw [Memory.deref_modify hp hnode]
    by_cases hqp : q = p
    · obtain rfl : c = d := Option.some.inj (hp.symm.trans (hqp ▸ hq))
      exact ⟨f c, if_pos hqp, hsock.trans hd⟩
    · exact ⟨d, (if_neg hqp).trans hq, hd⟩
  | retuned _ _ _ => exact hm
  | @added container fd hnonneg _ hfree =>
    intro fd' hfd'
    have hderef := Memory.deref_addElement (m := m.openFd fd) hfree
    rcases List.mem_cons.mp hfd' with rfl | hold
    · exact ⟨hnonneg, _, _, (hderef _).trans (if_pos rfl), rfl⟩
    · obtain ⟨hnonneg', q, d, hq, hd⟩ := hm fd' hold
      refine ⟨hnonneg', q, ?_⟩
      rw [hderef]
      by_cases hnew : q = (m.openFd fd).newPtr container fd
      · have hdead : (m.openFd fd).deref q = none := by
          have hnone := Std.ExtTreeMap.getElem?_eq_none_of_contains_eq_false hfree
          rw [hnew, Memory.deref_openFd, Memory.deref, Option.filter_eq_none_iff]
          intro c hc
          exact absurd (hnone.symm.trans hc) (by simp)
        exact absurd (hdead.symm.trans hq) (by simp)
      · exact ⟨d, (if_neg hnew).trans hq, hd⟩
  | @closed p c hp _ =>
    intro fd hfd
    obtain ⟨hold, hne⟩ := List.mem_filter.mp hfd
    obtain ⟨hnonneg, q, d, hq, hd⟩ := hm fd hold
    refine ⟨hnonneg, q, d, ?_, hd⟩
    rw [Memory.deref_closeSocket hp, if_neg, hq]
    rintro rfl
    obtain rfl : c = d := Option.some.inj (hp.symm.trans hq)
    simp [hd] at hne
  | @erased p c hp hsock =>
    intro fd hfd
    obtain ⟨hnonneg, q, d, hq, hd⟩ := hm fd hfd
    refine ⟨hnonneg, q, d, ?_, hd⟩
    rw [Memory.deref_eraseSocket hp, if_neg, hq]
    rintro rfl
    obtain rfl : c = d := Option.some.inj (hp.symm.trans hq)
    omega

theorem owned_changes {m m' : Memory} (hm : Owned m) (h : Memory.Changes m m') : Owned m' := by
  induction h with
  | refl => exact hm
  | tail _ hc ih => exact owned_change ih hc

/-- Every descriptor that the step gets from the system becomes an element of its container, with an
entry in the handler. -/
def MakesSockets (w w' : World) : Prop :=
  ∀ events container fd made, w'.log = events ++ w.log → .obtained container fd made ∈ events →
    ∃ p c, made = some p ∧ p.container = container ∧ p.key = fd ∧ w'.mem.deref p = some c ∧
      c.sock = fd ∧ (fd, p) ∈ w'.mem.handler.registrations

/-- A step whose events concern no new descriptor. -/
theorem MakesSockets.of_events (events : List Event) (hlog : w'.log = events ++ w.log)
    (hnone : ∀ container fd made, .obtained container fd made ∉ events) : w.MakesSockets w' := by
  intro events' container fd made hlog' hin
  obtain rfl := List.append_cancel_right (hlog.symm.trans hlog')
  exact absurd hin (hnone container fd made)

theorem MakesSockets.of_made (hs : w'.Sound) (events : List Event) {c : Connection}
    (hlog : w'.log = events ++ w.log)
    (honly : ∀ container fd made, .obtained container fd made ∈ events →
      container = p.container ∧ fd = p.key ∧ made = some p)
    (hp : w'.mem.deref p = some c) (hsock : c.sock = p.key) (hnonneg : 0 ≤ p.key) :
    w.MakesSockets w' := by
  intro events' container fd made hlog' hin
  obtain rfl := List.append_cancel_right (hlog.symm.trans hlog')
  obtain ⟨rfl, rfl, rfl⟩ := honly container fd made hin
  exact ⟨p, c, rfl, rfl, rfl, hp, hsock, hs.mem.element p c hp (hsock.symm ▸ hnonneg)⟩

theorem Move.makesSockets (hs : w.Sound) (hleak : ¬ w.Leaks i) (h : Move w i w') :
    w.MakesSockets w' := by
  have hs' := h.sound hs
  cases h with
  | notify _ _ _ _ _ => exact .of_events [_] rfl (by simp)
  | receive _ _ _ _ _ => exact .of_events [_] rfl (by simp)
  | erase _ _ _ _ _ => exact .of_events [_] rfl (by simp)
  | closed _ _ _ _ _ _ => exact .of_events [_, _] rfl (by simp)
  | failed _ _ _ _ => exact .of_events [_] rfl (by simp)
  | @made f container fd setUp rest _ _ _ hopens hfree =>
    have hderef := Memory.deref_added (f := Connection.setUpWiring) hfree (fun _ => rfl)
      (w.mem.newPtr container fd)
    refine .of_made hs' [_] rfl ?_ (hderef.trans (if_pos rfl)) rfl hopens.2.1
    rintro _ _ _ hin
    obtain ⟨rfl, rfl, rfl⟩ := Event.obtained.inj (List.mem_singleton.mp hin)
    exact ⟨rfl, rfl, rfl⟩
  | @accepted f server fd rest _ _ hopens hfree =>
    have hderef := Memory.deref_added (f := Connection.acceptWiring) hfree (fun _ => rfl)
      (w.mem.newPtr (.clients server) fd)
    refine .of_made hs' [_, _] rfl ?_ (hderef.trans (if_pos rfl)) rfl hopens.2.1
    rintro _ _ _ hin
    rcases List.mem_cons.mp hin with hin | hin
    · exact absurd hin (by simp)
    · obtain ⟨rfl, rfl, rfl⟩ := Event.obtained.inj (List.mem_singleton.mp hin)
      exact ⟨rfl, rfl, rfl⟩
  | leaked hstack htarget hopens htaken _ _ =>
    exact absurd ⟨_, _, _, _, hstack, htarget, hopens, htaken⟩ hleak
  | finished _ _ _ => exact .of_events [_] rfl (by simp)
  | wrote _ _ _ _ => exact .of_events [_] rfl (by simp)
  | _ => exact .of_events [] rfl (by simp)

/-- Each return of a descriptor has been answered by a `::close`, but for at most one, and then the
descriptor is `get_socket()` of an element. -/
def NothingLost (w : World) : Prop :=
  ∀ fd, w.log.countP (isObtained fd) = w.log.countP (isShut fd) ∨
    (w.log.countP (isObtained fd) = w.log.countP (isShut fd) + 1 ∧
      ∃ p c, w.mem.deref p = some c ∧ c.sock = fd)

/-- In every run in which no descriptor from the system meets a taken key, every `make_socket` makes
its socket, and no descriptor is lost. -/
theorem descriptors_kept {owners : Owner → OwnerAction → Action Unit} {invalid : UShort}
    (h : Machine.Reach step (fun u i => ¬ u.Leaks i) (start owners invalid) w) :
    (∀ i w', ¬ w.Leaks i → w.step i = some w' → w.MakesSockets w') ∧ w.NothingLost := by
  have hinv : w.Sound ∧ Owned w.mem := by
    have hstart : Owned (start owners invalid).mem := fun fd hfd => by
      simp [start, Memory.empty] at hfd
    apply h.invariant ⟨start_sound owners invalid, hstart⟩
    rintro u i v ⟨hs, howned⟩ hleak hstep
    refine ⟨(step_move hstep).sound hs, ?_⟩
    rcases (step_move hstep).changes hs with hchanges | ⟨hleaks, -⟩
    · exact owned_changes howned hchanges
    · exact absurd hleaks hleak
  obtain ⟨hs, howned⟩ := hinv
  refine ⟨fun i w' hleak hstep => (step_move hstep).makesSockets hs hleak, fun fd => ?_⟩
  have hcount := counted_of_reach h fd
  by_cases hfd : fd ∈ w.mem.descriptors
  · rw [if_pos hfd] at hcount
    exact .inr ⟨hcount.symm, (howned fd hfd).2⟩
  · rw [if_neg hfd] at hcount
    exact .inl hcount.symm

/-- The descriptor that the step gets, if any, is not 0 and its key is free. -/
def leaksNothing (w : World) : Input → Bool
  | .opened (.ok fd) =>
    ((w.stack.head?.bind Frame.target).all fun container =>
      !(w.mem.sockets container).contains fd) && fd != 0
  | _ => true

theorem not_leaks {u : World} {i : Input} (h : u.leaksNothing i = true) : ¬ u.Leaks i := by
  rintro ⟨f, rest, container, fd, hstack, htarget, ⟨rfl, -, -⟩, htaken⟩
  simp only [leaksNothing, hstack, List.head?_cons, Option.bind_some, htarget, Option.all_some,
    Bool.and_eq_true, Bool.not_eq_true', bne_iff_ne, ne_eq] at h
  rcases htaken with htaken | ⟨rfl, -⟩
  · exact absurd htaken (by simp [h.1])
  · exact h.2 rfl

theorem descriptors_kept_accept : ∃ w,
    Machine.run step (start (fun _ _ => []) 0) acceptRun = some w ∧
      (∀ i w', ¬ w.Leaks i → w.step i = some w' → w.MakesSockets w') ∧ w.NothingLost := by
  have hsome : (Machine.run step (start (fun _ _ => []) 0) acceptRun).isSome := by decide
  obtain ⟨w, hw⟩ := Option.isSome_iff_exists.mp hsome
  exact ⟨w, hw, descriptors_kept (.of_checked (fun _ _ => not_leaks) (by decide) hw)⟩

def oneClosed : Owner → OwnerAction → Action Unit
  | .client 0, .closed => [⟨(), ActionFlag.default⟩]
  | _, _ => []

/-- The hook of a connection that is being closed connects again, up to the system's answer. -/
def reconnect : List Input :=
  [.call (.connect 0), .opened (.ok 3), .setUp none, .go, .go, .call (.closeOwner (.client 0)), .go,
    .closed 0, .go, .enter 1, .call (.connect 0)]

/-- The system returns the descriptor that was just closed, whose key is still taken: `make_socket`
makes no socket. -/
theorem reconnect_leaks : ¬ ∀ (owners : Owner → OwnerAction → Action Unit) (invalid : UShort)
    (w : World), Machine.Reach step Any (start owners invalid) w →
    ∀ i w', w.step i = some w' → w.MakesSockets w' := by
  intro hall
  have hlogs : (Machine.run step (start oneClosed 0) reconnect).bind (fun w =>
      (w.step (.opened (.ok 3))).map fun w' =>
        decide (w'.log = [.started (.client 0) .error (.errno "socket"),
          .obtained (.connections 0) 3 none] ++ w.log)) = some true := by decide
  obtain ⟨w, hw, hlogs⟩ := Option.bind_eq_some_iff.mp hlogs
  obtain ⟨w', hw', hlog⟩ := Option.map_eq_some_iff.mp hlogs
  have hmakes := hall oneClosed 0 w (.of_run (fun _ _ => trivial) hw) _ w' hw'
  obtain ⟨p, c, hmade, -⟩ := hmakes _ (.connections 0) 3 none (of_decide_eq_true hlog) (by simp)
  exact absurd hmade (by simp)

end World

end Unisock.Tcp
