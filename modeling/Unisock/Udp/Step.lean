import Unisock.Udp.World

/-! What one step of the program can do. -/

namespace Unisock.Udp

open Unisock.Address Unisock.Events
open Unisock.Raw (SocketEvent)

def Execution.next (e : Execution) : Execution := { e with pos := e.pos + 1 }

/-- What is left of an execution once it has called a callback. -/
def Execution.after (e : Execution) (cb : ActionCallback Callback) : List Frame :=
  if cb.has ActionFlag.stopAfter then [] else [.execute e.next]

/-- Frames that no callback of the library has to do with. -/
def Frame.plain : Frame → Bool
  | .hook .. | .binding .. | .polling _ | .crash _ => true
  | .call _ | .recvfrom _ | .execute _ => false

/-- What the system does at a socket that the program has to be told about. -/
inductive Notice
  | datagram (s : Nat) (sender : SocketAddress) (message : List UInt8)
  /-- `::close`, while the object has this address. -/
  | closed (s : Nat) (address : SocketAddress)
deriving DecidableEq

namespace World

/-- The callback that the next turn of an execution meets, if the list is as long as it was. -/
def current (w : World) (e : Execution) : Option (ActionCallback Callback) :=
  let executors := (w.objects e.object).actions e.tag
  if e.pos < e.stop ∧ executors.length = e.stop then executors[e.pos]? else none

/-- What the system does in the next step. -/
def notices (w : World) (i : Input) : List Notice :=
  match w.stack, i with
  | .recvfrom s :: _, .received (.ok sender) payload =>
    if 0 < (w.objects s).sock then
      [.datagram s (SocketAddress.empty.copy sender) (payload.take Raw.RECV_BUFFER_SIZE)]
    else []
  | .call (.close s) :: _, _ =>
    if (w.objects s).sock < 0 then [] else [.closed s (w.objects s).address]
  | _, _ => []

/-- The object with another address. -/
def setAddress (w : World) (s : Nat) (address : SocketAddress) : World :=
  w.setObject s { w.objects s with address := address }

/-- The steps of the program, by what they do to the objects, the handler and the stack. -/
inductive Move (w : World) (i : Input) : World → Prop
  /-- User code calls `c`. -/
  | called {c : Call} {old new rest : List Frame} (hstack : w.stack = old ++ rest)
      (hold : (old = [] ∧ rest = []) ∨ ∃ arg n, old = [.hook arg n]) (hnew : ∀ f ∈ new, f.plain) :
      Move w i { w with stack := .call c :: (new ++ rest) }
  /-- The topmost function goes on or returns. -/
  | quiet {f : Frame} {new rest : List Frame} (errno : Int) (hstack : w.stack = f :: rest)
      (hf : ∀ e, f = .execute e → w.current e = none) (hnone : w.notices i = [])
      (hnew : ∀ f ∈ new, f.plain) :
      Move w i { w with errno := errno, stack := new ++ rest }
  | skipped {e : Execution} {cb : ActionCallback Callback} {rest : List Frame}
      (hstack : w.stack = .execute e :: rest) (hcb : w.current e = some cb)
      (hskip : cb.has ActionFlag.skip = true) :
      Move w i { w with stack := .execute e.next :: rest }
  /-- An execution calls a hook, or `recvfrom`. -/
  | entered {e : Execution} {cb : ActionCallback Callback} {f : Frame} {rest : List Frame}
      (hstack : w.stack = .execute e :: rest) (hcb : w.current e = some cb)
      (hskip : cb.has ActionFlag.skip = false)
      (hf : (cb.exec = .user ∧ ∃ n, f = .hook (w.passed e.object e.arg) n) ∨
        (cb.exec = .recvfrom ∧ f = .recvfrom e.object)) :
      Move w i { w with stack := f :: (e.after cb ++ rest) }
  /-- An execution of `RECVFROM` starts `RECEIVE`, or one of `CLOSED` starts `udp::CLOSED`. -/
  | relayed {e : Execution} {cb : ActionCallback Callback} {tag : Tag} {arg : Arg}
      {rest : List Frame} (hstack : w.stack = .execute e :: rest) (hcb : w.current e = some cb)
      (hskip : cb.has ActionFlag.skip = false)
      (htag : (cb.exec = .receive ∧ tag = .receive ∧ arg = e.arg ∧
          ∃ sender message, e.arg = .datagram sender message) ∨
        (cb.exec = .closed ∧ tag = .udpClosed ∧ arg = .ownAddress)) :
      Move w i ({ w with stack := e.after cb ++ rest }.execute e.object tag arg)
  /-- `ERROR` or `BIND` is executed, also after the address has been looked up. -/
  | told {f : Frame} {s : Nat} {tag : Tag} {arg : Arg} {rest : List Frame}
      (address : SocketAddress) (errno : Int) (hstack : w.stack = f :: rest)
      (hf : ∀ e, f ≠ .execute e) (hnone : w.notices i = []) (htag : tag = .error ∨ tag = .bind) :
      Move w i ((({ w with stack := rest }.setAddress s address).setErrno errno).execute s tag arg)
  /-- `::recvfrom` has taken a datagram. -/
  | read {s : Nat} {sender payload : List UInt8} {rest : List Frame}
      (hstack : w.stack = .recvfrom s :: rest) (hi : i = .received (.ok sender) payload)
      (hopen : 0 < (w.objects s).sock) :
      Move w i ({ w with stack := rest }.execute s .recvfrom
        (.datagram (SocketAddress.empty.copy sender) (payload.take Raw.RECV_BUFFER_SIZE)))
  /-- `poll_impl` calls an object back. -/
  | polled {s : Nat} {tag : Tag} {l : PollLoop} {f : Frame} {rest : List Frame}
      (hstack : w.stack = f :: rest) (hf : ∃ l, f = .polling l)
      (htag : tag = .readable ∨ tag = .writeable) (hs : s ∈ w.handler.socketPtrs) :
      Move w i ({ w with stack := .polling l :: rest }.execute s tag .none)
  /-- `open`, where `::socket` returns a descriptor. -/
  | opened {f : Frame} {s : Nat} {fd : Int} {new rest : List Frame} (hstack : w.stack = f :: rest)
      (hf : ∃ c, f = .call c) (hi : i = .opened (.ok fd)) (hnone : w.notices i = [])
      (hclosed : (w.objects s).sock < 0) (hfd : 0 ≤ fd) (hfresh : fd ∉ w.descriptors)
      (hnew : ∀ f ∈ new, f.plain) :
      Move w i { w.withBase s ((w.base s).openSocket s (.ok fd)).1 with stack := new ++ rest }
  /-- `open`, where `::socket` fails. -/
  | refused {f : Frame} {s : Nat} {errno : Int} {new rest : List Frame}
      (hstack : w.stack = f :: rest) (hf : ∃ c, f = .call c) (hnone : w.notices i = [])
      (hclosed : (w.objects s).sock < 0) (hnew : ∀ f ∈ new, f.plain) :
      Move w i ({ w.withBase s ((w.base s).openSocket s (.error errno)).1 with
        stack := new ++ rest }.error s "socket" errno)
  | shut {s : Nat} {rest : List Frame} (errno : Int) (hstack : w.stack = .call (.close s) :: rest)
      (hopen : ¬ (w.objects s).sock < 0) :
      Move w i (({ w.withBase s (w.base s).closeSocket with stack := rest }.setErrno errno).execute s
        .closed .none)
  | hooked {s : Nat} {tag : Tag} {flags : UShort} {rest : List Frame}
      (hstack : w.stack = .call (.on s tag flags) :: rest) :
      Move w i ({ w with stack := rest }.setObject s ((w.objects s).on tag .user flags))
  | assigned {s : Nat} {address : SocketAddress} {rest : List Frame}
      (hstack : w.stack = .call (.assign s address) :: rest) :
      Move w i ({ w with stack := rest }.setAddress s address)
  | reported {revents : List UShort} {l : PollLoop} {rest : List Frame}
      (hstack : w.stack = .call .poll :: rest)
      (hlen : revents.length = w.handler.sockets.length) :
      Move w i { w with handler := w.handler.report revents, stack := .polling l :: rest }

section Cases

variable {w w' : World} {i : Input} {f : Frame} {rest : List Frame} {o : ByteOrder}

theorem Move.replace {k : Frame} (hstack : w.stack = f :: rest)
    (hf : ∀ e, f = .execute e → w.current e = none) (hnone : w.notices i = [])
    (hk : k.plain = true) : Move w i ({ w with stack := rest }.push k) :=
  @Move.quiet w i f [k] rest w.errno hstack hf hnone (by simpa using hk)

theorem Move.pop (hstack : w.stack = f :: rest) (hf : ∀ e, f = .execute e → w.current e = none)
    (hnone : w.notices i = []) : Move w i { w with stack := rest } :=
  @Move.quiet w i f [] rest w.errno hstack hf hnone (by simp)

/-- Only `recvfrom` and `close` are concerned with what the program has to be told. -/
theorem notices_nil (hstack : w.stack = f :: rest) (hread : ∀ s, f ≠ .recvfrom s)
    (hclose : ∀ s, f ≠ .call (.close s)) : w.notices i = [] := by
  unfold notices
  rw [hstack]
  split
  · next s _ _ _ hs => exact absurd (List.cons.inj hs).1 (hread s)
  · next _ s _ hs => exact absurd (List.cons.inj hs).1 (hclose s)
  · rfl

theorem error_told {s : Nat} {fn : String} {errno : Int} (hstack : w.stack = f :: rest)
    (hf : ∀ e, f ≠ .execute e) (hnone : w.notices i = []) :
    Move w i ({ w with stack := rest }.error s fn errno) := by
  have hmove : Move w i (({ w with stack := rest }.setAddress s (w.objects s).address).error s fn
      errno) := .told (w.objects s).address errno hstack hf hnone (.inl rfl)
  have hself : { w with stack := rest }.setAddress s (w.objects s).address =
      { w with stack := rest } := by
    simp [setAddress, setObject]
  rwa [hself] at hmove

/-- A turn of `execute` ends the execution, or takes the current callback. -/
theorem resume_cases {below : World} {e : Execution} (h : below.resume e i = some w') :
    (below.current e = none ∧ (w' = below ∨ ∃ k, w' = below.push (.crash k))) ∨
    ∃ cb, below.current e = some cb ∧
      ((cb.has ActionFlag.skip = true ∧ w' = below.push (.execute e.next)) ∨
        (cb.has ActionFlag.skip = false ∧
          { below with stack := e.after cb ++ below.stack }.invoke e cb.exec i = some w')) := by
  unfold resume at h
  split at h
  · next hend =>
    exact .inl ⟨by simp [current, Nat.not_lt.mpr hend], .inl (Option.some.inj h).symm⟩
  · next hend =>
    have hlt : e.pos < e.stop := Nat.lt_of_not_le hend
    simp only at h
    split at h
    · next hlen => exact .inl ⟨by simp [current, hlen], .inr ⟨_, (Option.some.inj h).symm⟩⟩
    · next hlen =>
      have hcurrent : below.current e = ((below.objects e.object).actions e.tag)[e.pos]? :=
        if_pos ⟨hlt, by simpa using hlen⟩
      cases hcb : ((below.objects e.object).actions e.tag)[e.pos]? with
      | none => simp [hcb] at h
      | some cb =>
        refine .inr ⟨cb, hcurrent.trans hcb, ?_⟩
        simp only [hcb, Option.map_some, ActionCallback.turn] at h
        cases hskip : cb.has ActionFlag.skip with
        | true => exact .inl ⟨rfl, by simpa [hskip, Execution.next] using h.symm⟩
        | false =>
          refine .inr ⟨rfl, ?_⟩
          cases hstop : cb.has ActionFlag.stopAfter with
          | true => simpa [hskip, hstop, Execution.after] using h
          | false => simpa [hskip, hstop, Execution.after, Execution.next, push] using h

theorem invoke_move {e : Execution} {cb : ActionCallback Callback}
    (hstack : w.stack = .execute e :: rest) (hcb : w.current e = some cb)
    (hskip : cb.has ActionFlag.skip = false)
    (h : { w with stack := e.after cb ++ rest }.invoke e cb.exec i = some w') : Move w i w' := by
  unfold invoke at h
  split at h
  · next calls hexec =>
    obtain rfl := Option.some.inj h
    exact .entered hstack hcb hskip (.inl ⟨hexec, calls, rfl⟩)
  · next hexec =>
    obtain rfl := Option.some.inj h
    exact .entered hstack hcb hskip (.inr ⟨hexec, rfl⟩)
  · next sender message hexec harg =>
    obtain rfl := Option.some.inj h
    exact .relayed hstack hcb hskip (.inl ⟨hexec, rfl, harg.symm, sender, message, harg⟩)
  · next hexec =>
    obtain rfl := Option.some.inj h
    exact .relayed hstack hcb hskip (.inr ⟨hexec, rfl, rfl⟩)
  · exact absurd h (by simp)

theorem resume_move {e : Execution} (hstack : w.stack = .execute e :: rest)
    (h : { w with stack := rest }.resume e i = some w') : Move w i w' := by
  have hnone : w.current e = none → ∀ e', Frame.execute e = .execute e' → w.current e' = none :=
    fun hn e' he => by
      obtain rfl := Frame.execute.inj he
      exact hn
  have hsilent : w.notices i = [] := notices_nil hstack (by simp) (by simp)
  rcases resume_cases h with ⟨hn, rfl | ⟨k, rfl⟩⟩ | ⟨cb, hcb, ⟨hskip, rfl⟩ | ⟨hskip, hturn⟩⟩
  · exact .pop hstack (hnone hn) hsilent
  · exact .replace hstack (hnone hn) hsilent rfl
  · exact .skipped hstack hcb hskip
  · exact invoke_move hstack hcb hskip hturn

/-- `open`, of which `new` is left to do. -/
theorem openSocket_move {c : Call} {s : Nat} {result : Except Int Int} (new : List Frame)
    (hstack : w.stack = .call c :: rest) (hclose : ∀ s, c ≠ .close s)
    (hcan : w.canOpen result = true) (hnew : ∀ f ∈ new, f.plain) :
    Move w (.opened result) ({ w with stack := new ++ rest }.openSocket s result) := by
  have hsilent : w.notices (.opened result) = [] := notices_nil hstack (by simp) (by simpa using hclose)
  unfold openSocket
  split
  · next hclosed =>
    cases result with
    | error errno => exact .refused hstack ⟨c, rfl⟩ hsilent hclosed hnew
    | ok fd =>
      obtain ⟨hfd, hfresh⟩ := Bool.and_eq_true_iff.mp hcan
      exact .opened hstack ⟨c, rfl⟩ rfl hsilent hclosed (by simpa using hfd)
        (by simpa using hfresh) hnew
  · exact .quiet w.errno hstack (by simp) hsilent hnew

theorem close_move {s : Nat} {errno : Int} (hstack : w.stack = .call (.close s) :: rest) :
    Move w i ({ w with stack := rest }.close s errno) := by
  unfold close
  split
  · next hclosed =>
    refine .pop hstack (by simp) ?_
    simp only at hclosed
    simp [notices, hstack, hclosed]
  · next hopen => exact .shut errno hstack hopen

theorem sendTo_move {s : Nat} {address : SocketAddress} {message : List UInt8}
    {result : Except Int (List UInt8)}
    (hstack : w.stack = .call (.sendTo s address message) :: rest) :
    Move w i ({ w with stack := rest }.sendTo s result) := by
  have hsilent : w.notices i = [] := notices_nil hstack (by simp) (by simp)
  unfold sendTo
  split
  · exact .replace hstack (by simp) hsilent rfl
  · split
    · exact .pop hstack (by simp) hsilent
    · exact error_told hstack (by simp) hsilent

theorem perform_move {c : Call} (hstack : w.stack = .call c :: rest)
    (h : { w with stack := rest }.perform c i = some w') : Move w i w' := by
  unfold perform at h
  split at h
  · obtain ⟨hcan, h⟩ := Option.ite_none_right_eq_some.mp h
    obtain rfl := Option.some.inj h
    exact openSocket_move [] hstack (by simp) hcan (by simp)
  · next s port useIPv6 result =>
    split at h
    · obtain rfl := Option.some.inj h
      exact .replace hstack (by simp) (notices_nil hstack (by simp) (by simp)) rfl
    · obtain ⟨hcan, h⟩ := Option.ite_none_right_eq_some.mp h
      obtain rfl := Option.some.inj h
      exact openSocket_move [.binding s port useIPv6] hstack (by simp) hcan
        (by simp [Frame.plain])
  · obtain rfl := Option.some.inj h
    exact close_move hstack
  · obtain rfl := Option.some.inj h
    exact sendTo_move hstack
  · obtain rfl := Option.some.inj h
    exact .hooked hstack
  · obtain rfl := Option.some.inj h
    exact .assigned hstack
  · next n revents =>
    have hsilent : w.notices (.polled n revents) = [] := notices_nil hstack (by simp) (by simp)
    split at h
    · obtain rfl := Option.some.inj h
      exact .pop hstack (by simp) hsilent
    · obtain ⟨hpoll, h⟩ := Option.ite_none_right_eq_some.mp h
      obtain rfl := Option.some.inj h
      by_cases hn : n < 0
      · simp only [hn, if_true]
        exact .replace hstack (by simp) hsilent rfl
      · simp only [hn, if_false]
        refine .reported hstack ?_
        simp only [Bool.or_eq_true, beq_iff_eq, Bool.and_eq_true] at hpoll
        rcases hpoll with rfl | ⟨hlen, -⟩
        · exact absurd (by decide) hn
        · exact hlen
  · exact absurd h (by simp)

/-- The object that `poll_impl` calls back is registered. -/
theorem polled_mem {h : Handler Nat} {l next : PollLoop} {s : Nat}
    (hact : pollStep h l = .readable s next ∨ pollStep h l = .writeable s next) :
    s ∈ h.socketPtrs := by
  have hget : h.socketPtrs[l.it]? = some s := by
    unfold pollStep at hact
    grind
  exact List.mem_of_getElem? hget

theorem take_received (payload : List UInt8) :
    (Raw.copyInto Raw.zeroBuffer payload).take (min payload.length Raw.zeroBuffer.length) =
      payload.take Raw.RECV_BUFFER_SIZE := by
  rw [Raw.take_copyInto, Raw.zeroBuffer, List.length_replicate]

theorem recvfrom_move {s : Nat} {result : Except Int (List UInt8)} {payload : List UInt8}
    (hstack : w.stack = .recvfrom s :: rest) :
    Move w (.received result payload) ({ w with stack := rest }.recvfrom s result payload) := by
  have hsock : ({ w with stack := rest }.objects s).sock = (w.objects s).sock := rfl
  unfold recvfrom Raw.recvfrom
  rw [hsock]
  by_cases hopen : (w.objects s).sock > 0
  · rw [if_neg (not_not.mpr hopen)]
    cases result with
    | error errno =>
      have hsilent : w.notices (.received (.error errno) payload) = [] := by
        simp [notices, hstack]
      exact error_told hstack (by simp) hsilent
    | ok sender =>
      have hread : Move w (.received (.ok sender) payload) _ := .read hstack rfl hopen
      rwa [← take_received] at hread
  · have hsilent : w.notices (.received result payload) = [] := by
      cases result <;> simp [notices, hstack, show ¬ 0 < (w.objects s).sock from hopen]
    rw [if_pos hopen]
    exact .replace hstack (by simp) hsilent rfl

theorem bindRest_move {s : Nat} {port : Int} {useIPv6 : Bool} {resolver : Resolver} {errno : Int}
    {bound : Except Int Unit} (hstack : w.stack = .binding s port useIPv6 :: rest) :
    Move w i (bindRest o { w with stack := rest } s port useIPv6 resolver errno bound) := by
  have hsilent : w.notices i = [] := notices_nil hstack (by simp) (by simp)
  unfold bindRest
  split
  · exact error_told hstack (by simp) hsilent
  · next address _ =>
    simp only
    split
    · exact .told address _ hstack (by simp) hsilent (.inl rfl)
    · exact .told address w.errno hstack (by simp) hsilent (.inr rfl)
  · exact .replace hstack (by simp) hsilent rfl
  · exact .replace hstack (by simp) hsilent rfl

theorem pollNext_move {l : PollLoop} (hstack : w.stack = .polling l :: rest) :
    Move w i ({ w with stack := rest }.pollNext l) := by
  have hsilent : w.notices i = [] := notices_nil hstack (by simp) (by simp)
  unfold pollNext
  split
  · exact .pop hstack (by simp) hsilent
  · exact .replace hstack (by simp) hsilent rfl
  · exact .replace hstack (by simp) hsilent rfl
  · next s next hact => exact .polled hstack ⟨l, rfl⟩ (.inl rfl) (polled_mem (.inl hact))
  · next s next hact => exact .polled hstack ⟨l, rfl⟩ (.inr rfl) (polled_mem (.inr hact))

/-- Every step is one of the moves. -/
theorem step_move (h : w.step o i = some w') : Move w i w' := by
  unfold step at h
  cases hstack : w.stack with
  | nil =>
    simp only [hstack] at h
    split at h
    · next c =>
      obtain rfl := Option.some.inj h
      have hmove := @Move.called w (.call c) c [] [] [] hstack (.inl ⟨rfl, rfl⟩) (by simp)
      simpa [push, hstack] using hmove
    · exact absurd h (by simp)
  | cons f rest =>
    simp only [hstack] at h
    split at h
    · next arg calls c =>
      obtain rfl := Option.some.inj h
      exact @Move.called w (.call c) c [.hook arg (calls + 1)] [.hook arg calls] rest hstack
        (.inr ⟨_, _, rfl⟩) (by simp [Frame.plain])
    · next errno =>
      obtain rfl := Option.some.inj h
      exact @Move.quiet w (.ret errno) _ [] rest errno hstack (by simp)
        (notices_nil hstack (by simp) (by simp)) (by simp)
    · exact perform_move hstack h
    · obtain rfl := Option.some.inj h
      exact recvfrom_move hstack
    · obtain rfl := Option.some.inj h
      exact bindRest_move hstack
    · exact resume_move hstack h
    · obtain rfl := Option.some.inj h
      exact pollNext_move hstack
    · exact absurd h (by simp)

end Cases

end World

end Unisock.Udp
