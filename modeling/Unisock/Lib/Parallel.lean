import Mathlib.Data.List.Basic
import Mathlib.Data.List.Nodup
import Mathlib.Data.List.Zip

/-! Two lists that are read position by position as one association list: how a removal at one
position of both, an append to both and a change of one element act on the pairs. -/

namespace Parallel

variable {α β γ : Type*}

theorem zip_eraseIdx (xs : List α) (ys : List β) (i : Nat) :
    (xs.eraseIdx i).zip (ys.eraseIdx i) = (xs.zip ys).eraseIdx i := by
  induction xs generalizing ys i with
  | nil => simp
  | cons x xs ih =>
    cases ys with
    | nil => simp
    | cons y ys =>
      cases i with
      | zero => simp
      | succ i => simp [ih]

theorem findIdx?_zip {xs : List α} {ys : List β} (h : xs.length = ys.length) (p : α → Bool) :
    (xs.zip ys).findIdx? (fun e => p e.1) = xs.findIdx? p := by
  induction xs generalizing ys with
  | nil => simp
  | cons x xs ih =>
    cases ys with
    | nil => simp at h
    | cons y ys => simp [List.findIdx?_cons, ih (by simpa using h)]

/-- Removing position `i` from both lists, where `i` is the first position whose key satisfies `p`,
removes the first such pair. -/
theorem zip_eraseIdx_findIdx? {xs : List α} {ys : List β} (h : xs.length = ys.length)
    {p : α → Bool} {i : Nat} (hi : xs.findIdx? p = some i) :
    (xs.eraseIdx i).zip (ys.eraseIdx i) = (xs.zip ys).eraseP fun e => p e.1 := by
  rw [zip_eraseIdx, List.eraseP_eq_eraseIdx, findIdx?_zip h, hi]

theorem eraseP_of_findIdx?_eq_none {xs : List α} {ys : List β} {p : α → Bool}
    (h : xs.length = ys.length) (hi : xs.findIdx? p = none) :
    ((xs.zip ys).eraseP fun e => p e.1) = xs.zip ys := by
  rw [List.eraseP_eq_eraseIdx, findIdx?_zip h, hi]

theorem zip_modify (f : α → α) (xs : List α) (ys : List β) (i : Nat) :
    (xs.modify i f).zip ys = (xs.zip ys).modify i (Prod.map f id) := by
  induction xs generalizing ys i with
  | nil => simp
  | cons x xs ih =>
    cases ys with
    | nil => simp
    | cons y ys =>
      cases i with
      | zero => simp
      | succ i => simp [ih]

/-- A filter that drops the element does not see its removal. -/
theorem filter_eraseP {l : List α} {p q : α → Bool} (h : ∀ a ∈ l, p a = true → q a = false) :
    (l.eraseP p).filter q = l.filter q := by
  induction l with
  | nil => rfl
  | cons a l ih =>
    have hrest := ih fun b hb => h b (List.mem_cons_of_mem _ hb)
    cases hp : p a with
    | true =>
      have hq := h a List.mem_cons_self hp
      rw [List.eraseP_cons_of_pos hp, List.filter_cons_of_neg (by simp [hq])]
    | false =>
      rw [List.eraseP_cons_of_neg (by simp [hp]), List.filter_cons, List.filter_cons, hrest]

theorem filter_modify {f : α → α} {q : α → Bool} {l : List α} {i : Nat}
    (h : ∀ a, l[i]? = some a → q a = false ∧ q (f a) = false) :
    (l.modify i f).filter q = l.filter q := by
  induction l generalizing i with
  | nil => simp
  | cons a l ih =>
    cases i with
    | zero =>
      obtain ⟨hq, hq'⟩ := h a rfl
      simp [hq, hq']
    | succ i =>
      rw [List.modify_succ_cons, List.filter_cons, List.filter_cons, ih fun b hb => h b hb]

/-- Where at most one element satisfies `p`, a change of the first one is a change of all of them. -/
theorem modify_findIdx? {f : α → α} {p : α → Bool} {l : List α} {i : Nat}
    (hone : l.Pairwise fun a b => p a = true → p b = false) (hi : l.findIdx? p = some i) :
    l.modify i f = l.map fun a => if p a then f a else a := by
  induction l generalizing i with
  | nil => simp at hi
  | cons a l ih =>
    obtain ⟨ha, hl⟩ := List.pairwise_cons.mp hone
    rw [List.findIdx?_cons] at hi
    cases hp : p a with
    | true =>
      have hzero : 0 = i := by simpa [hp] using hi
      have hrest : (l.map fun b => if p b then f b else b) = l :=
        (List.map_congr_left fun b hb => by simp [ha b hb hp]).trans (List.map_id l)
      subst hzero
      simp [hp, hrest]
    | false =>
      obtain ⟨j, hj, rfl⟩ : ∃ j, l.findIdx? p = some j ∧ j + 1 = i := by simpa [hp] using hi
      simp [hp, ih hl hj]

theorem map_fst_zip_of_length {xs : List α} {ys : List β} (h : xs.length = ys.length) :
    (xs.zip ys).map Prod.fst = xs :=
  List.map_fst_zip (Nat.le_of_eq h)

/-- Where the keys are distinct, a removal leaves the pairs with another key. -/
theorem eraseP_key [DecidableEq α] {l : List (α × β)} (hnd : (l.map Prod.fst).Nodup) {k : α} :
    (l.eraseP fun e => e.1 == k) = l.filter fun e => ¬ e.1 = k := by
  induction l with
  | nil => rfl
  | cons x l ih =>
    obtain ⟨hx, hl⟩ := List.nodup_cons.mp (List.map_cons ▸ hnd)
    by_cases hk : x.1 = k
    · have hrest : ∀ e ∈ l, ¬ e.1 = k := fun e he hek => hx (by
        rw [hk, ← hek]
        exact List.mem_map_of_mem he)
      rw [List.eraseP_cons_of_pos (by simpa using hk), List.filter_cons_of_neg (by simpa using hk)]
      exact (List.filter_eq_self.mpr (by simpa using hrest)).symm
    · rw [List.eraseP_cons_of_neg (by simpa using hk), List.filter_cons_of_pos (by simpa using hk),
        ih hl]

theorem mem_eraseP_key [DecidableEq α] {l : List (α × β)} (hnd : (l.map Prod.fst).Nodup)
    {k : α} {e : α × β} : (e ∈ l.eraseP fun e => e.1 == k) ↔ e ∈ l ∧ e.1 ≠ k := by
  rw [eraseP_key hnd, List.mem_filter]
  simp

end Parallel
