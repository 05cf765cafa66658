import Mathlib.Data.UInt
import Mathlib.Data.List.Basic

/-! The canonical text of internet addresses, as `inet_ntop` writes it: four decimal numbers for
IPv4; for IPv6 eight hexadecimal numbers, with the first longest run of at least two zeros left out,
and the last four bytes in the form of IPv4 where the address is a mapped or compatible one. -/

namespace InetText

def text4 (a b c d : UInt8) : String :=
  toString a.toNat ++ "." ++ toString b.toNat ++ "." ++ toString c.toNat ++ "." ++
    toString d.toNat

def hex (w : UInt16) : String := String.ofList (Nat.toDigits 16 w.toNat)

def zeroRun (words : List UInt16) : Nat := (words.takeWhile fun w => w == 0).length

/-- The start and the length of the first longest run of zeros. -/
def longestRun (words : List UInt16) : Nat × Nat :=
  (List.range words.length).foldl
    (fun best i => if best.2 < zeroRun (words.drop i) then (i, zeroRun (words.drop i)) else best)
    (0, 0)

/-- What is written at the word number `i`, where the run `best` is left out. -/
def piece (words : List UInt16) (best : Nat × Nat) (i : Nat) : String :=
  if 2 ≤ best.2 ∧ best.1 ≤ i ∧ i < best.1 + best.2 then
    if i = best.1 then ":" else ""
  else (if i = 0 then "" else ":") ++ hex (words[i]?.getD 0)

/-- What is written for the first `n` words. -/
def pieces (words : List UInt16) (best : Nat × Nat) : Nat → String
  | 0 => ""
  | n + 1 => pieces words best n ++ piece words best n

/-- The address is a compatible or a mapped one. -/
def embeds (words : List UInt16) (best : Nat × Nat) : Bool :=
  best.1 == 0 && (best.2 == 6 || (best.2 == 5 && words[5]? == some 0xffff))

/-- The text of the address with these words, whose last four bytes are `a`, `b`, `c` and `d`. -/
def text6 (words : List UInt16) (a b c d : UInt8) : String :=
  let best := longestRun words
  if embeds words best then pieces words best 6 ++ ":" ++ text4 a b c d
  else pieces words best 8 ++ if 2 ≤ best.2 ∧ best.1 + best.2 = 8 then ":" else ""

/-! ### How long the texts are -/

theorem length_toString_byte (a : UInt8) : (toString a.toNat).length ≤ 3 := by
  have hlt : a.toNat < 10 ^ 3 := a.toNat_lt.trans (by decide)
  have hdigits : (Nat.toDigits 10 a.toNat).length ≤ 3 :=
    (Nat.length_toDigits_le_iff (by decide) (by decide)).mpr hlt
  rwa [Nat.toString_eq_ofList_toDigits, String.length_ofList]

theorem length_text4 (a b c d : UInt8) : (text4 a b c d).length ≤ 15 := by
  have ha := length_toString_byte a
  have hb := length_toString_byte b
  have hc := length_toString_byte c
  have hd := length_toString_byte d
  have hdot : ".".length = 1 := by decide
  simp only [text4, String.length_append, hdot]
  omega

theorem length_hex (w : UInt16) : (hex w).length ≤ 4 := by
  have hlt : w.toNat < 16 ^ 4 := w.toNat_lt
  rw [hex, String.length_ofList]
  exact (Nat.length_toDigits_le_iff (by decide) (by decide)).mpr hlt

theorem length_piece (words : List UInt16) (best : Nat × Nat) (i : Nat) :
    (piece words best i).length ≤ 5 := by
  have hhex := length_hex (words[i]?.getD 0)
  have hcolon : ":".length = 1 := by decide
  have hempty : "".length = 0 := by decide
  unfold piece
  split
  · split <;> omega
  · rw [String.length_append]
    split <;> omega

theorem length_pieces (words : List UInt16) (best : Nat × Nat) (n : Nat) :
    (pieces words best n).length ≤ 5 * n := by
  induction n with
  | zero => simp [pieces]
  | succ n ih =>
    have hlast := length_piece words best n
    rw [pieces, String.length_append]
    omega

theorem length_text6 (words : List UInt16) (a b c d : UInt8) :
    (text6 words a b c d).length ≤ 46 := by
  have h6 := length_pieces words (longestRun words) 6
  have h8 := length_pieces words (longestRun words) 8
  have h4 := length_text4 a b c d
  have hcolon : ":".length = 1 := by decide
  have hempty : "".length = 0 := by decide
  simp only [text6]
  split
  · rw [String.length_append, String.length_append]
    omega
  · rw [String.length_append]
    split <;> omega

/-! ### A character that no text has -/

theorem not_mem_toDigits {b : Nat} (hb : 1 < b) (n : Nat) : '[' ∉ Nat.toDigits b n := by
  induction n using Nat.strong_induction_on with
  | _ n ih =>
    rcases Nat.lt_or_ge n b with hlt | hge
    · rw [Nat.toDigits_of_lt_base hlt, List.mem_singleton]
      exact (Nat.digitChar_ne '[' (by decide)).symm
    · rw [Nat.toDigits_of_base_le hb hge, List.mem_append, List.mem_singleton, not_or]
      exact ⟨ih _ (Nat.div_lt_self (by omega) hb), (Nat.digitChar_ne '[' (by decide)).symm⟩

theorem not_mem_toString (n : Nat) : '[' ∉ (toString n).toList := by
  rw [Nat.toString_eq_ofList_toDigits, String.toList_ofList]
  exact not_mem_toDigits (by decide) n

theorem not_mem_text4 (a b c d : UInt8) : '[' ∉ (text4 a b c d).toList := by
  have hdot : '[' ∉ ".".toList := by decide
  simp only [text4, String.toList_append, List.mem_append, not_or]
  refine ⟨⟨⟨⟨⟨⟨?_, hdot⟩, ?_⟩, hdot⟩, ?_⟩, hdot⟩, ?_⟩ <;> exact not_mem_toString _

theorem not_mem_piece (words : List UInt16) (best : Nat × Nat) (i : Nat) :
    '[' ∉ (piece words best i).toList := by
  have hhex : '[' ∉ (hex (words[i]?.getD 0)).toList := by
    rw [hex, String.toList_ofList]
    exact not_mem_toDigits (by decide) _
  have hcolon : '[' ∉ ":".toList := by decide
  have hempty : '[' ∉ "".toList := by decide
  unfold piece
  split
  · split <;> assumption
  · rw [String.toList_append, List.mem_append, not_or]
    refine ⟨?_, hhex⟩
    split <;> assumption

theorem not_mem_pieces (words : List UInt16) (best : Nat × Nat) (n : Nat) :
    '[' ∉ (pieces words best n).toList := by
  induction n with
  | zero => simp [pieces]
  | succ n ih =>
    rw [pieces, String.toList_append, List.mem_append, not_or]
    exact ⟨ih, not_mem_piece words best n⟩

theorem not_mem_text6 (words : List UInt16) (a b c d : UInt8) :
    '[' ∉ (text6 words a b c d).toList := by
  have hcolon : '[' ∉ ":".toList := by decide
  have hempty : '[' ∉ "".toList := by decide
  simp only [text6]
  split
  · simp only [String.toList_append, List.mem_append, not_or]
    exact ⟨⟨not_mem_pieces _ _ _, hcolon⟩, not_mem_text4 a b c d⟩
  · rw [String.toList_append, List.mem_append, not_or]
    refine ⟨not_mem_pieces _ _ _, ?_⟩
    split <;> assumption

end InetText
