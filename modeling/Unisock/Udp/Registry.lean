import Unisock.Udp.Step

/-! Who has the descriptors of the program: in every run, each open descriptor is that of one object,
under which the handler has its only entry for it. -/

namespace Unisock.Udp.World

open Unisock.Events
open Unisock.Raw (SocketCall SocketEvent)

/-- Every object is registered as long as it is open, and has closed what it does not use any more;
and every open descriptor is that of an object. -/
structure Owned (w : World) : Prop where
  sane : ∀ s, (w.base s).Sane
  registered : ∀ s, (w.base s).Registered s
  sock : ∀ s, (w.objects s).sock = -1 ∨ 0 ≤ (w.objects s).sock
  owner : ∀ fd ∈ w.descriptors, ∃ s, 0 ≤ fd ∧ (w.objects s).sock = fd

/-- What a step does to the descriptors: nothing, or what `open` or `close` of one object does, and
`open` of a closed object only. -/
inductive Turned (w w' : World) : Prop
  | same (hobjects : ∀ s, (w'.objects s).sock = (w.objects s).sock ∧
      (w'.objects s).log = (w.objects s).log)
      (hhandler : w'.handler.registrations = w.handler.registrations)
      (hfds : w'.handler.fds = w.handler.fds)
      (haligned : w.handler.Aligned → w'.handler.Aligned)
      (hdescriptors : w'.descriptors = w.descriptors)
  | called {s : Nat} {c : SocketCall} {b : Raw.Socket Nat} (hlegal : (w.base s).Legal c)
      (hclosed : (w.base s).OpensClosed c) (hstep : (w.base s).step s c = some b)
      (hw' : w'.base = (w.withBase s b).base)

section Steps

variable {w w' : World} {i : Input} {s : Nat} {o : ByteOrder}

theorem Turned.refl_of (hobjects : ∀ s, (w'.objects s).sock = (w.objects s).sock ∧
    (w'.objects s).log = (w.objects s).log) (hhandler : w'.handler = w.handler)
    (hdescriptors : w'.descriptors = w.descriptors) : Turned w w' :=
  .same hobjects (by rw [hhandler]) (by rw [hhandler]) (fun ha => hhandler ▸ ha) hdescriptors

theorem setObject_kept {x : Object} (hsock : x.sock = (w.objects s).sock)
    (hlog : x.log = (w.objects s).log) (r : Nat) :
    ((w.setObject s x).objects r).sock = (w.objects r).sock ∧
      ((w.setObject s x).objects r).log = (w.objects r).log := by
  by_cases hr : r = s
  · subst hr
    simpa [setObject] using ⟨hsock, hlog⟩
  · simp [setObject, hr]

theorem Move.turned (h : Move w i w') : Turned w w' := by
  cases h with
  | called | quiet | skipped | entered | relayed | read | polled =>
    exact .refl_of (fun _ => ⟨rfl, rfl⟩) rfl rfl
  | told address errno hstack _ _ _ => exact .refl_of (setObject_kept rfl rfl) rfl rfl
  | hooked hstack | assigned hstack => exact .refl_of (setObject_kept rfl rfl) rfl rfl
  | reported hstack hlen =>
    exact .same (fun _ => ⟨rfl, rfl⟩) (HandlerImpl.report_registrations _ hlen)
      (HandlerImpl.report_fds _ hlen) (fun ha => HandlerImpl.report_aligned ha hlen) rfl
  | @opened _ s fd _ _ hstack _ _ _ hclosed hfd hfresh _ =>
    exact @Turned.called w _ s (.opened (.ok fd)) _ ⟨hfd, hfresh⟩ hclosed rfl rfl
  | @refused _ s errno _ _ hstack _ _ hclosed _ =>
    exact @Turned.called w _ s (.opened (.error errno)) _ trivial hclosed rfl rfl
  | @shut s _ errno hstack hopen => exact @Turned.called w _ s .close _ trivial trivial rfl rfl

/-- An open object is registered under its descriptor. -/
theorem Owned.entry (hw : w.Owned) (hopen : 0 ≤ (w.objects s).sock) :
    ((w.objects s).sock, s) ∈ w.handler.registrations := by
  have hentry := (hw.registered s).entry
  rw [if_pos (show 0 ≤ (w.base s).sock from hopen)] at hentry
  exact (List.mem_filter.mp (hentry ▸ List.mem_singleton_self _)).1

/-- A registered object is open. -/
theorem Owned.open_of_mem (hw : w.Owned) (hs : s ∈ w.handler.socketPtrs) :
    0 ≤ (w.objects s).sock := by
  have hsnd : w.handler.registrations.map Prod.snd = w.handler.socketPtrs :=
    (hw.sane s).aligned.map_snd_registrations
  rw [← hsnd] at hs
  obtain ⟨e, he, heq⟩ := List.mem_map.mp hs
  have hmem : e ∈ w.handler.registrations.filter fun e => e.2 == s :=
    List.mem_filter.mpr ⟨he, by simpa using heq⟩
  by_contra hclosed
  have hentry := (hw.registered s).entry
  rw [if_neg (show ¬ 0 ≤ (w.base s).sock from hclosed)] at hentry
  exact absurd (hentry ▸ hmem) (by simp)

theorem registered_congr {a b : Raw.Socket Nat} (ha : a.Registered s) (hsock : b.sock = a.sock)
    (hlog : b.log = a.log) (hregs : (b.handler.registrations.filter fun e => e.2 == s) =
      a.handler.registrations.filter fun e => e.2 == s) : b.Registered s := by
  refine ⟨?_, fun fd => ?_⟩
  · rw [hregs, ha.entry, hsock]
  · rw [hlog, hsock]
    exact ha.kept fd

/-- The handler has the entries of the other objects as before. -/
theorem registrations_others {b : Raw.Socket Nat} {c : SocketCall} (hw : w.Owned)
    (hstep : (w.base s).step s c = some b) {r : Nat} (hr : r ≠ s) :
    (b.handler.registrations.filter fun e => e.2 == r) =
      w.handler.registrations.filter fun e => e.2 == r := by
  cases c with
  | opened result =>
    obtain rfl := Option.some.inj hstep
    cases result with
    | error errno => rfl
    | ok fd =>
      have hregs : ((w.base s).openSocket s (.ok fd)).1.handler.registrations =
          w.handler.registrations ++ [(fd, s)] :=
        HandlerImpl.addSocket_registrations (hw.sane s).aligned fd s
      rw [hregs, List.filter_append]
      simp [Ne.symm hr]
  | close =>
    obtain rfl := Option.some.inj hstep
    by_cases hclosed : (w.base s).sock < 0
    · rw [Raw.Socket.closeSocket_closed hclosed]
      rfl
    · have hopen : 0 ≤ (w.base s).sock := by omega
      have hregs : (w.base s).closeSocket.handler.registrations =
          w.handler.registrations.eraseP fun e => e.1 == (w.base s).sock := by
        rw [Raw.Socket.closeSocket_open hopen]
        exact Raw.Socket.registrations_close (hw.sane s)
      rw [hregs]
      refine Parallel.filter_eraseP fun e he hkey => ?_
      -- the only entry with the descriptor of `s` is that of `s`
      have heq : e = ((w.base s).sock, s) :=
        List.inj_on_of_nodup_map (hw.sane s).registrations_keys he (hw.entry hopen)
          (by simpa using hkey)
      simpa [heq] using Ne.symm hr

theorem sock_step {b : Raw.Socket Nat} {c : SocketCall} (hlegal : (w.base s).Legal c)
    (hs : (w.base s).sock = -1 ∨ 0 ≤ (w.base s).sock) (hstep : (w.base s).step s c = some b) :
    b.sock = -1 ∨ 0 ≤ b.sock := by
  cases c with
  | opened result =>
    obtain rfl := Option.some.inj hstep
    cases result with
    | error errno => exact .inl rfl
    | ok fd => exact .inr hlegal.1
  | close =>
    obtain rfl := Option.some.inj hstep
    by_cases hclosed : (w.base s).sock < 0
    · rw [Raw.Socket.closeSocket_closed hclosed]
      exact hs
    · rw [Raw.Socket.closeSocket_open (by omega)]
      exact .inl rfl

/-- A descriptor that is open afterwards is that of the object, or was open before and is not the one
that the object had. -/
theorem descriptors_step {b : Raw.Socket Nat} {c : SocketCall} (hw : w.Owned)
    (hclosed : (w.base s).OpensClosed c) (hlegal : (w.base s).Legal c)
    (hstep : (w.base s).step s c = some b) {fd : Int} (hmem : fd ∈ b.descriptors) :
    (0 ≤ fd ∧ b.sock = fd) ∨ (fd ∈ w.descriptors ∧ (w.objects s).sock ≠ fd) := by
  cases c with
  | opened result =>
    obtain rfl := Option.some.inj hstep
    have other : fd ∈ w.descriptors → (w.objects s).sock ≠ fd := by
      rintro hfd rfl
      obtain ⟨_, hnonneg, -⟩ := hw.owner _ hfd
      exact absurd hclosed (Int.not_lt.mpr hnonneg)
    cases result with
    | error errno => exact .inr ⟨hmem, other hmem⟩
    | ok d =>
      rcases List.mem_cons.mp hmem with rfl | hold
      · exact .inl ⟨hlegal.1, rfl⟩
      · exact .inr ⟨hold, other hold⟩
  | close =>
    obtain rfl := Option.some.inj hstep
    by_cases hneg : (w.base s).sock < 0
    · rw [Raw.Socket.closeSocket_closed hneg] at hmem
      refine .inr ⟨hmem, ?_⟩
      rintro rfl
      obtain ⟨_, hnonneg, -⟩ := hw.owner _ hmem
      exact absurd hneg (Int.not_lt.mpr hnonneg)
    · rw [Raw.Socket.closeSocket_open (by omega)] at hmem
      obtain ⟨hold, hother⟩ := List.mem_filter.mp hmem
      exact .inr ⟨hold, fun heq => by simp [base, heq] at hother⟩

@[simp] theorem base_withBase_self (b : Raw.Socket Nat) : (w.withBase s b).base s = b := by
  simp [base, withBase]

theorem base_withBase_ne (b : Raw.Socket Nat) {r : Nat} (hr : r ≠ s) : (w.withBase s b).base r =
    { w.base r with handler := b.handler, descriptors := b.descriptors } := by
  simp [base, withBase, hr]

theorem Owned.called {c : SocketCall} {b : Raw.Socket Nat} (hw : w.Owned)
    (hlegal : (w.base s).Legal c) (hclosed : (w.base s).OpensClosed c)
    (hstep : (w.base s).step s c = some b) (hw' : w'.base = (w.withBase s b).base) : w'.Owned := by
  have hsane : b.Sane := Raw.Socket.step_sane (hw.sane s) hlegal hstep
  have hself : w'.base s = b := (congrFun hw' s).trans (base_withBase_self b)
  have hother : ∀ r, r ≠ s → w'.base r =
      { w.base r with handler := b.handler, descriptors := b.descriptors } := fun r hr =>
    (congrFun hw' r).trans (base_withBase_ne b hr)
  have hsock : ∀ r, r ≠ s → (w'.objects r).sock = (w.objects r).sock := fun r hr =>
    congrArg Raw.Socket.sock (hother r hr)
  have hown : (w'.objects s).sock = b.sock := congrArg Raw.Socket.sock hself
  refine ⟨fun r => ?_, fun r => ?_, fun r => ?_, fun fd hfd => ?_⟩
  · by_cases hr : r = s
    · exact hr ▸ hself ▸ hsane
    · rw [hother r hr]
      exact ⟨hsane.aligned, hsane.nodup, hsane.opened⟩
  · by_cases hr : r = s
    · subst hr
      rw [hself]
      exact (Raw.Socket.step_registered_iff (hw.sane r) hlegal (hw.registered r) hstep).mpr hclosed
    · rw [hother r hr]
      exact registered_congr (hw.registered r) rfl rfl (registrations_others hw hstep hr)
  · by_cases hr : r = s
    · subst hr
      rw [hown]
      exact sock_step hlegal (hw.sock r) hstep
    · rw [hsock r hr]
      exact hw.sock r
  · have hmem : fd ∈ b.descriptors := by
      rw [← congrArg Raw.Socket.descriptors hself]
      exact hfd
    rcases descriptors_step hw hclosed hlegal hstep hmem with ⟨hnonneg, hb⟩ | ⟨hold, hne⟩
    · exact ⟨s, hnonneg, hown.trans hb⟩
    · obtain ⟨r, hnonneg, hr⟩ := hw.owner fd hold
      exact ⟨r, hnonneg, (hsock r (fun hrs => hne (hrs ▸ hr))).trans hr⟩

theorem Owned.step (hw : w.Owned) (h : w.step o i = some w') : w'.Owned := by
  cases (step_move h).turned with
  | called hlegal hclosed hstep hw' => exact hw.called hlegal hclosed hstep hw'
  | same hobjects hhandler hfds haligned hdescriptors =>
    have hsane : w'.handler.Aligned ∧ w'.handler.fds.Nodup ∧
        ∀ fd ∈ w'.handler.fds, fd ∈ w'.descriptors := by
      rw [hfds, hdescriptors]
      exact ⟨haligned (hw.sane 0).aligned, (hw.sane 0).nodup, (hw.sane 0).opened⟩
    refine ⟨fun s => ⟨hsane.1, hsane.2.1, hsane.2.2⟩, fun s => ?_, fun s => ?_, ?_⟩
    · have hregs := congrArg (List.filter fun e => e.2 == s) hhandler
      exact registered_congr (hw.registered s) (hobjects s).1 (hobjects s).2 hregs
    · rw [(hobjects s).1]
      exact hw.sock s
    · intro fd hfd
      obtain ⟨s, hs, hsock⟩ := hw.owner fd (hdescriptors ▸ hfd)
      exact ⟨s, hs, (hobjects s).1.trans hsock⟩

theorem owned_start (invalid : UShort) : (start invalid).Owned where
  sane _ := ⟨rfl, List.nodup_nil, by simp [base, start, HandlerImpl.fds]⟩
  registered s := ⟨rfl, fun fd => by simp [base, start, Object.new, Object.on]⟩
  sock _ := .inl rfl
  owner fd hfd := absurd hfd (by simp [start])

/-- An open object has its descriptor among those of the program. -/
theorem Owned.mem_descriptors (hw : w.Owned) (hopen : 0 ≤ (w.objects s).sock) :
    (w.objects s).sock ∈ w.descriptors := by
  refine (hw.sane s).opened _ ?_
  rw [← (hw.sane s).aligned.map_fst_registrations]
  exact List.mem_map_of_mem (hw.entry hopen)

end Steps

end Unisock.Udp.World
