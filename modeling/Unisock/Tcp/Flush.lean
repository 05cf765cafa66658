import Mathlib.Algebra.GroupWithZero.Nat
import Unisock.Tcp.Connection

/-! Repeated calls of `connection_base::send_flush` on one connection, with any results of `::send`:
how many bytes are still pending after each call. -/

namespace Unisock.Tcp

open Unisock.Events

variable {ρ : Type}

/-- A quantity that goes down as long as it is not zero gets to zero. -/
theorem exists_zero_of_descent {f : Nat → Nat} (h : ∀ k, f k ≠ 0 → f (k + 1) < f k) :
    ∃ k ≤ f 0, f k = 0 := by
  by_contra hnever
  push Not at hnever
  have hbound : ∀ k, k ≤ f 0 → f k + k ≤ f 0 := by
    intro k hk
    induction k with
    | zero => omega
    | succ k ih =>
      have := h k (hnever k (by omega))
      have := ih (by omega)
      omega
  have := hbound (f 0) le_rfl
  exact hnever (f 0) le_rfl (by omega)

namespace Connection

/-- The bytes that wait in the send buffer. -/
def pending (c : Connection) : Nat := (c.sendBuffer.map List.length).sum

/-- The bytes that `::send` accepts in a call of `send_flush`, which calls it only where a message
waits. -/
def accepted (c : Connection) (result : Int) : Nat :=
  match c.sendBuffer with
  | [] => 0
  | _ :: _ => result.toNat

/-- `::send` accepts a number of bytes between 0 and the length of the front message. -/
def Accepts (c : Connection) (result : Int) : Prop :=
  ∀ front rest, c.sendBuffer = front :: rest → 0 ≤ result ∧ result ≤ front.length

/-- `::send` takes the front message whole or not at all, and an `int` holds its length. -/
def AcceptsWhole (c : Connection) (result : Int) : Prop :=
  ∀ front rest, c.sendBuffer = front :: rest →
    result = 0 ∨ (result = front.length ∧ result < 2 ^ 31)

/-- `send_flush` loses as many pending bytes as `::send` accepted. -/
def Progresses (c : Connection) (handler : Handler ρ) (result : Int) : Prop :=
  (c.sendFlush handler result).connection.pending + c.accepted result = c.pending

theorem progresses_iff {c : Connection} {result : Int} (haccepts : c.Accepts result)
    (handler : Handler ρ) : c.Progresses handler result ↔ c.AcceptsWhole result := by
  unfold Progresses
  cases hbuf : c.sendBuffer with
  | nil =>
    rw [sendFlush_nil hbuf]
    simp [accepted, AcceptsWhole, hbuf]
  | cons front rest =>
    obtain ⟨hlow, hhigh⟩ := haccepts front rest hbuf
    have hwhole : c.AcceptsWhole result ↔
        result = 0 ∨ (result = front.length ∧ result < 2 ^ 31) := by
      refine ⟨fun h => h front rest hbuf, fun h front' rest' hbuf' => ?_⟩
      obtain ⟨rfl, rfl⟩ := List.cons.inj (hbuf.symm.trans hbuf')
      exact h
    have haccepted : c.accepted result = result.toNat := by simp [accepted, hbuf]
    have hpending : c.pending = front.length + (rest.map List.length).sum := by
      simp [pending, hbuf]
    rw [hwhole, haccepted]
    by_cases hint : result < 2 ^ 31
    · have htoInt : toInt result = result := toInt_of_range (by omega) hint
      rcases sendFlush_cases hbuf handler result with ⟨hneg, -⟩ | ⟨-, hlt, h⟩ | ⟨-, hge, h⟩
      · omega
      · rw [h]
        simp only
        omega
      · have hrest : ({ c with sendBuffer := rest } : Connection).pending =
            (rest.map List.length).sum := rfl
        rw [h]
        simp only
        rw [hrest, hpending]
        omega
    · -- the number does not fit an `int`, and the message stays queued
      have htoInt : toInt result < 2 ^ 31 := by
        have := Int.bmod_lt (x := result) (m := 2 ^ 32) (by decide)
        unfold toInt
        omega
      have hconn : (c.sendFlush handler result).connection = c := by
        rcases sendFlush_cases hbuf handler result with ⟨-, h⟩ | ⟨-, -, h⟩ | ⟨-, hge, -⟩
        · rw [h]
        · rw [h]
        · omega
      rw [hconn]
      omega

/-- The connection and the handler after `k` calls of `send_flush`, where `::send` returns
`results i` in the `i`-th. -/
def flushed (c : Connection) (handler : Handler ρ) (results : Nat → Int) :
    Nat → Connection × Handler ρ
  | 0 => (c, handler)
  | k + 1 =>
    let before := flushed c handler results k
    let s := before.1.sendFlush before.2 (results k)
    (s.connection, s.handler)

section Flushed

variable {c : Connection} {handler : Handler ρ} {results : Nat → Int}

/-- `send_flush` leaves the buffer or drops its front message. -/
theorem sendFlush_suffix (c : Connection) (handler : Handler ρ) (result : Int) :
    (c.sendFlush handler result).connection.sendBuffer <:+ c.sendBuffer := by
  cases hbuf : c.sendBuffer with
  | nil =>
    rw [sendFlush_nil hbuf]
    exact hbuf ▸ List.suffix_rfl
  | cons front rest =>
    rcases sendFlush_cases hbuf handler result with ⟨-, h⟩ | ⟨-, -, h⟩ | ⟨-, -, h⟩ <;> rw [h]
    · exact hbuf ▸ List.suffix_rfl
    · exact hbuf ▸ List.suffix_rfl
    · exact List.suffix_cons front rest

theorem flushed_suffix (k : Nat) :
    (flushed c handler results k).1.sendBuffer <:+ c.sendBuffer := by
  induction k with
  | zero => exact List.suffix_rfl
  | succ k ih => exact (sendFlush_suffix _ _ _).trans ih

theorem pending_eq_zero (hfull : ∀ message ∈ c.sendBuffer, message ≠ []) (h : c.pending = 0) :
    c.sendBuffer = [] := by
  cases hbuf : c.sendBuffer with
  | nil => rfl
  | cons front rest =>
    have hfront : front ≠ [] := hfull front (by rw [hbuf]; exact List.mem_cons_self)
    have hpos := List.length_pos_of_ne_nil hfront
    simp only [pending, hbuf, List.map_cons, List.sum_cons] at h
    omega

/-- If each call that finds a message gets a byte accepted and makes progress, the buffer is empty
after as many calls as there were bytes, at most. -/
theorem drains (hfull : ∀ message ∈ c.sendBuffer, message ≠ [])
    (heager : ∀ k, (flushed c handler results k).1.sendBuffer ≠ [] → 0 < results k)
    (hprogress : ∀ k, (flushed c handler results k).1.Progresses
      (flushed c handler results k).2 (results k)) :
    ∃ k ≤ c.pending, (flushed c handler results k).1.sendBuffer = [] := by
  have hdescent : ∀ k, (flushed c handler results k).1.pending ≠ 0 →
      (flushed c handler results (k + 1)).1.pending < (flushed c handler results k).1.pending := by
    intro k hne
    have hbuf : (flushed c handler results k).1.sendBuffer ≠ [] := fun hnil =>
      hne (by simp [pending, hnil])
    have hstep : (flushed c handler results (k + 1)).1.pending +
        (flushed c handler results k).1.accepted (results k) =
          (flushed c handler results k).1.pending := hprogress k
    have haccepted : (flushed c handler results k).1.accepted (results k) =
        (results k).toNat := by
      obtain ⟨front, rest, hcons⟩ := List.exists_cons_of_ne_nil hbuf
      simp [accepted, hcons]
    have := heager k hbuf
    omega
  obtain ⟨k, hle, hzero⟩ := exists_zero_of_descent hdescent
  refine ⟨k, hle, pending_eq_zero (fun message hmem => ?_) hzero⟩
  exact hfull message ((flushed_suffix k).subset hmem)

/-- Whatever `::send` accepts in the calls: each call takes off the pending bytes what was accepted
in it, and a kernel that accepts something in every call empties any buffer of non-empty messages
within as many calls as bytes, exactly if every call has its front message accepted whole or not at
all. -/
theorem flush_progress_iff
    (haccepts : ∀ k, (flushed c handler results k).1.Accepts (results k)) :
    ((∀ k, (flushed c handler results k).1.Progresses (flushed c handler results k).2
        (results k)) ∧
      ((∀ message ∈ c.sendBuffer, message ≠ []) →
        (∀ k, (flushed c handler results k).1.sendBuffer ≠ [] → 0 < results k) →
          ∃ k ≤ c.pending, (flushed c handler results k).1.sendBuffer = [])) ↔
      ∀ k, (flushed c handler results k).1.AcceptsWhole (results k) := by
  constructor
  · rintro ⟨hprogress, -⟩ k
    exact (progresses_iff (haccepts k) _).mp (hprogress k)
  · intro hwhole
    have hprogress : ∀ k, (flushed c handler results k).1.Progresses
        (flushed c handler results k).2 (results k) := fun k =>
      (progresses_iff (haccepts k) _).mpr (hwhole k)
    exact ⟨hprogress, fun hfull heager => drains hfull heager hprogress⟩

end Flushed

def waiting : Connection where
  node := 0
  sock := 3
  sendBuffer := [[1, 2], [3]]
  actions _ := []

/-- The results with which `::send` takes both messages of `waiting` whole. -/
def wholeResults : Nat → Int
  | 0 => 2
  | 1 => 1
  | _ => 0

def handler3 : Handler Unit where
  sockets := [⟨3, POLLIN ||| POLLOUT, 0⟩]
  socketPtrs := [()]
  invalid := 0

theorem flushed_waiting (k : Nat) :
    (flushed waiting handler3 wholeResults (k + 2)).1.sendBuffer = [] := by
  induction k with
  | zero => decide
  | succ k ih =>
    have hsuffix := sendFlush_suffix (flushed waiting handler3 wholeResults (k + 2)).1
      (flushed waiting handler3 wholeResults (k + 2)).2 (wholeResults (k + 2))
    rw [ih] at hsuffix
    exact List.suffix_nil.mp hsuffix

theorem flush_progress_iff_waiting :
    ((∀ k, (flushed waiting handler3 wholeResults k).1.Progresses
        (flushed waiting handler3 wholeResults k).2 (wholeResults k)) ∧
      ((∀ message ∈ waiting.sendBuffer, message ≠ []) →
        (∀ k, (flushed waiting handler3 wholeResults k).1.sendBuffer ≠ [] → 0 < wholeResults k) →
          ∃ k ≤ waiting.pending, (flushed waiting handler3 wholeResults k).1.sendBuffer = [])) ↔
      ∀ k, (flushed waiting handler3 wholeResults k).1.AcceptsWhole (wholeResults k) := by
  refine flush_progress_iff fun k front rest hbuf => ?_
  rcases k with _ | _ | k
  · obtain ⟨rfl, -⟩ := List.cons.inj hbuf
    decide
  · obtain ⟨rfl, -⟩ := List.cons.inj hbuf
    decide
  · exact absurd (hbuf.symm.trans (flushed_waiting k)) (by simp)

/-- A kernel that takes one byte of the first message in every call never empties the buffer. -/
theorem flush_repeats : ¬ ∀ (c : Connection) (handler : Handler Unit) (results : Nat → Int),
    (∀ k, (flushed c handler results k).1.Accepts (results k)) →
    (∀ message ∈ c.sendBuffer, message ≠ []) →
    (∀ k, (flushed c handler results k).1.sendBuffer ≠ [] → 0 < results k) →
    (∀ k, (flushed c handler results k).1.Progresses (flushed c handler results k).2
      (results k)) ∧ ∃ k ≤ c.pending, (flushed c handler results k).1.sendBuffer = [] := by
  intro hall
  have hsame : ∀ k, (flushed waiting handler3 (fun _ => 1) k).1 = waiting := by
    intro k
    induction k with
    | zero => rfl
    | succ k ih =>
      have hstep : (flushed waiting handler3 (fun _ => 1) (k + 1)).1 =
          ((flushed waiting handler3 (fun _ => 1) k).1.sendFlush
            (flushed waiting handler3 (fun _ => 1) k).2 1).connection := rfl
      rw [hstep, ih]
      rfl
  obtain ⟨-, k, -, hempty⟩ := hall waiting handler3 (fun _ => 1)
    (fun k front rest hbuf => by
      rw [hsame k] at hbuf
      obtain ⟨rfl, -⟩ := List.cons.inj hbuf
      decide)
    (by decide) (fun _ _ => by decide)
  rw [hsame k] at hempty
  exact absurd hempty (by decide)

end Connection

end Unisock.Tcp
