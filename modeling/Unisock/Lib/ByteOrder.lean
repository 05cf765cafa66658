import Mathlib.Data.UInt

/-! 16-bit words in memory: the two bytes of a word in the order of the host, and the conversion
between the order of the host and the order of the network, which has the high byte first. -/

/-- Which byte of a word is at its lower address. -/
inductive ByteOrder
  | little
  | big
deriving DecidableEq, Repr

namespace ByteOrder

def high (v : UInt16) : UInt8 := (v >>> 8).toUInt8

def low (v : UInt16) : UInt8 := v.toUInt8

/-- The word with these bytes. -/
def word (high low : UInt8) : UInt16 := UInt16.ofNat (high.toNat * 256 + low.toNat)

def swap (v : UInt16) : UInt16 := word (low v) (high v)

/-- The bytes that a host stores for a word, the one at the lower address first. -/
def store : ByteOrder → UInt16 → UInt8 × UInt8
  | little, v => (low v, high v)
  | big, v => (high v, low v)

/-- The word that a host loads from two bytes. -/
def load : ByteOrder → UInt8 × UInt8 → UInt16
  | little, bytes => word bytes.2 bytes.1
  | big, bytes => word bytes.1 bytes.2

/-- `htons`. -/
def htons : ByteOrder → UInt16 → UInt16
  | little, v => swap v
  | big, v => v

/-- `ntohs`. -/
def ntohs : ByteOrder → UInt16 → UInt16 := htons

theorem toNat_high (v : UInt16) : (high v).toNat = v.toNat / 256 := by
  have hlt := v.toNat_lt
  have hshift : 2 ^ ((8 : UInt16).toNat % 16) = 256 := by decide
  simp only [high, UInt16.toNat_toUInt8, UInt16.toNat_shiftRight, Nat.shiftRight_eq_div_pow, hshift]
  omega

theorem toNat_low (v : UInt16) : (low v).toNat = v.toNat % 256 := UInt16.toNat_toUInt8 v

theorem toNat_word (high low : UInt8) : (word high low).toNat = high.toNat * 256 + low.toNat := by
  have hhigh := high.toNat_lt
  have hlow := low.toNat_lt
  rw [word, UInt16.toNat_ofNat']
  omega

@[simp] theorem word_high_low (v : UInt16) : word (high v) (low v) = v := by
  apply UInt16.toNat_inj.mp
  rw [toNat_word, toNat_high, toNat_low]
  omega

@[simp] theorem high_word (a b : UInt8) : high (word a b) = a := by
  apply UInt8.toNat_inj.mp
  have hb := b.toNat_lt
  rw [toNat_high, toNat_word]
  omega

@[simp] theorem low_word (a b : UInt8) : low (word a b) = b := by
  apply UInt8.toNat_inj.mp
  have hb := b.toNat_lt
  rw [toNat_low, toNat_word]
  omega

@[simp] theorem swap_swap (v : UInt16) : swap (swap v) = v := by simp [swap]

@[simp] theorem load_store (o : ByteOrder) (v : UInt16) : o.load (o.store v) = v := by
  cases o <;> simp [load, store]

@[simp] theorem ntohs_htons (o : ByteOrder) (v : UInt16) : o.ntohs (o.htons v) = v := by
  cases o <;> simp [ntohs, htons]

theorem swap_eq_self_iff (v : UInt16) : swap v = v ↔ high v = low v := by
  constructor
  · intro h
    have hhigh := congrArg high h
    rw [swap, high_word] at hhigh
    exact hhigh.symm
  · intro h
    rw [swap, ← h]
    nth_rewrite 2 [h]
    exact word_high_low v

theorem high_eq_low_iff (v : UInt16) : high v = low v ↔ v.toNat % 257 = 0 := by
  have hlt := v.toNat_lt
  rw [← UInt8.toNat_inj, toNat_high, toNat_low]
  omega

end ByteOrder
