import Mathlib

/-! Texts that are put together from parts with delimiters between them: parts that do not contain
the delimiter can be told from the text.  Decimal numbers contain none. -/

namespace Delimited

variable {α β : Type*} {d : α} {xs xs' ys ys' : List α}

/-- The part in front of the first delimiter, and what is behind it. -/
theorem first_inj (h : xs ++ d :: ys = xs' ++ d :: ys') (hx : d ∉ xs) (hx' : d ∉ xs') :
    xs = xs' ∧ ys = ys' := by
  induction xs generalizing xs' with
  | nil =>
    cases xs' with
    | nil => exact ⟨rfl, (List.cons.inj h).2⟩
    | cons x xs' =>
      obtain rfl := (List.cons.inj h).1
      exact absurd List.mem_cons_self hx'
  | cons x xs ih =>
    cases xs' with
    | nil =>
      obtain rfl := (List.cons.inj h).1
      exact absurd List.mem_cons_self hx
    | cons x' xs' =>
      obtain ⟨rfl, hrest⟩ := List.cons.inj h
      obtain ⟨rfl, hys⟩ := ih hrest (List.not_mem_of_not_mem_cons hx)
        (List.not_mem_of_not_mem_cons hx')
      exact ⟨rfl, hys⟩

/-- The part behind the last delimiter, and what is in front of it. -/
theorem last_inj (h : xs ++ d :: ys = xs' ++ d :: ys') (hy : d ∉ ys) (hy' : d ∉ ys') :
    xs = xs' ∧ ys = ys' := by
  have hreverse : ys.reverse ++ d :: xs.reverse = ys'.reverse ++ d :: xs'.reverse := by
    simpa using congrArg List.reverse h
  obtain ⟨hys, hxs⟩ := first_inj hreverse (by simpa using hy) (by simpa using hy')
  exact ⟨List.reverse_inj.mp hxs, List.reverse_inj.mp hys⟩

/-- Parts that are each followed by the delimiter. -/
theorem flatMap_inj {f : β → List α} (hf : Function.Injective f) (hd : ∀ b, d ∉ f b) :
    Function.Injective fun bs : List β => bs.flatMap fun b => f b ++ [d] := by
  intro bs bs' h
  induction bs generalizing bs' with
  | nil =>
    cases bs' with
    | nil => rfl
    | cons b bs' => simp at h
  | cons b bs ih =>
    cases bs' with
    | nil => simp at h
    | cons b' bs' =>
      simp only [List.flatMap_cons, List.append_assoc, List.singleton_append] at h
      obtain ⟨hfirst, hrest⟩ := first_inj h (hd b) (hd b')
      rw [hf hfirst, ih hrest]

/-! ### Decimal numbers -/

theorem not_mem_decimal {c : Char} (hc : c.isDigit = false) (n : Nat) :
    c ∉ (toString n).toList := by
  rw [Nat.toString_eq_ofList_toDigits, String.toList_ofList]
  intro hmem
  have hdigit := Nat.isDigit_of_mem_toDigits (by decide) (by decide) hmem
  exact absurd (hc.symm.trans hdigit) (by decide)

theorem not_mem_integer {c : Char} (hc : c.isDigit = false) (hsign : c ≠ '-') (z : Int) :
    c ∉ (toString z).toList := by
  cases z with
  | ofNat n => exact not_mem_decimal hc n
  | negSucc n =>
    have htext : (toString (Int.negSucc n)).toList = '-' :: (toString (n + 1)).toList := by
      rw [show toString (Int.negSucc n) = "-" ++ toString (n + 1) from rfl, String.toList_append]
      rfl
    rw [htext, List.mem_cons, not_or]
    exact ⟨hsign, not_mem_decimal hc _⟩

theorem decimal_inj {m n : Nat} (h : (toString m).toList = (toString n).toList) : m = n :=
  Nat.repr_inj.mp (String.toList_inj.mp h)

theorem integer_inj {y z : Int} (h : (toString y).toList = (toString z).toList) : y = z :=
  Int.repr_injective (String.toList_inj.mp h)

end Delimited
