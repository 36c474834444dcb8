import Mathlib

/-!
# Byte buffers

A buffer is a function from indices to bytes; `load` and `store` check that
they stay below its size, `slice` and `write` are what they do there. Numbers
are stored little endian.

* `slice_write_self`, `slice_write_disjoint`: what a read finds after a write.
* `leNat_toLe`: reading back a stored number.
* `decimal_induction`: numbers as decimal text.
-/
namespace FlashDriver.Core.Bytes

open List Option

abbrev Buffer := Nat → UInt8

def slice (m : Buffer) (off n : Nat) : List UInt8 := (range n).map fun i => m (off + i)

def write (m : Buffer) (off : Nat) (bs : List UInt8) : Buffer := fun i =>
  if off ≤ i ∧ i < off + bs.length then bs.getD (i - off) 0 else m i

def load (size : Nat) (m : Buffer) (off n : Nat) : Option (List UInt8) :=
  if off + n ≤ size then some (slice m off n) else none

def store (size : Nat) (m : Buffer) (off : Nat) (bs : List UInt8) : Option Buffer :=
  if off + bs.length ≤ size then some (write m off bs) else none

/-- The little-endian bytes of a number, the low `n` of them. -/
def toLe : Nat → Nat → List UInt8
  | 0, _ => []
  | n + 1, v => UInt8.ofNat v :: toLe n (v / 256)

def leNat : List UInt8 → Nat
  | [] => 0
  | b :: bs => b.toNat + 256 * leNat bs

/-! ## Reading after writing -/

@[simp] theorem length_slice (m : Buffer) (off n : Nat) : (slice m off n).length = n := by
  simp [slice]

theorem slice_write_self (m : Buffer) (off : Nat) (bs : List UInt8) :
    slice (write m off bs) off bs.length = bs := by
  refine ext_getElem (by simp) fun i _ hi => ?_
  simp [slice, write, hi]

theorem slice_write_disjoint {m : Buffer} {off n o : Nat} {bs : List UInt8}
    (h : off + n ≤ o ∨ o + bs.length ≤ off) : slice (write m o bs) off n = slice m off n := by
  refine map_congr_left fun i hi => ?_
  have hi := mem_range.mp hi
  rw [write, if_neg (by omega)]

theorem slice_add (m : Buffer) (off a b : Nat) :
    slice m off (a + b) = slice m off a ++ slice m (off + a) b := by
  simp [slice, range_add, add_assoc]

theorem getLast?_slice (m : Buffer) (off : Nat) {n : Nat} (h : 0 < n) :
    (slice m off n).getLast? = some (m (off + (n - 1))) := by
  rw [slice, getLast?_eq_getElem?, length_map, length_range, getElem?_map,
    getElem?_range (by omega), map_some]

theorem slice_mid {m : Buffer} {off n : Nat} {a b c : List UInt8}
    (h : slice m off n = a ++ (b ++ c)) : slice m (off + a.length) b.length = b := by
  have hn : n = a.length + (b.length + c.length) := by
    have := congrArg length h
    simpa using this
  rw [hn, slice_add, slice_add] at h
  have h1 := (append_inj h (by simp)).2
  exact (append_inj h1 (by simp)).1

theorem load_eq {size : Nat} {m : Buffer} {off n : Nat} (h : off + n ≤ size) :
    load size m off n = some (slice m off n) := if_pos h

theorem store_eq {size : Nat} {m : Buffer} {off : Nat} {bs : List UInt8}
    (h : off + bs.length ≤ size) : store size m off bs = some (write m off bs) := if_pos h

/-! ## Little-endian numbers -/

@[simp] theorem length_toLe (n v : Nat) : (toLe n v).length = n := by
  induction n generalizing v with
  | zero => rfl
  | succ n ih => simp [toLe, ih]

theorem leNat_toLe (n v : Nat) : leNat (toLe n v) = v % 256 ^ n := by
  induction n generalizing v with
  | zero => simp [toLe, leNat, Nat.mod_one]
  | succ n ih =>
    have h : v % 256 ^ (n + 1) = v % 256 + 256 * (v / 256 % 256 ^ n) := by
      rw [Nat.pow_succ', Nat.mod_mul]
    rw [toLe, leNat, ih, h, UInt8.toNat_ofNat']

/-! ## Decimal numbers -/

def isDigit (c : UInt8) : Bool := 48 ≤ c && c ≤ 57

/-- The digits of a number as text, the highest first. -/
def decimal (n : Nat) : List UInt8 :=
  if n = 0 then [48] else (Nat.digits 10 n).reverse.map fun d => UInt8.ofNat (48 + d)

theorem decimal_small {n : Nat} (h : n < 10) : decimal n = [UInt8.ofNat (48 + n)] := by
  rw [decimal]
  split
  · rename_i h0
    subst h0
    rfl
  · rename_i h0
    rw [Nat.digits_of_lt 10 n h0 h]
    rfl

theorem decimal_large {n : Nat} (h : 10 ≤ n) :
    decimal n = decimal (n / 10) ++ [UInt8.ofNat (48 + n % 10)] := by
  rw [decimal, if_neg (by omega), decimal, if_neg (by omega),
    Nat.digits_def' (by decide) (by omega)]
  simp

theorem decimal_induction {P : Nat → List UInt8 → Prop}
    (small : ∀ n, n < 10 → P n [UInt8.ofNat (48 + n)])
    (large : ∀ n ds, 10 ≤ n → P (n / 10) ds → P n (ds ++ [UInt8.ofNat (48 + n % 10)])) (n : Nat) :
    P n (decimal n) := by
  induction n using Nat.strongRecOn with
  | ind n ih =>
    rcases lt_or_ge n 10 with h | h
    · rw [decimal_small h]
      exact small n h
    · rw [decimal_large h]
      exact large n _ h (ih (n / 10) (by omega))

theorem isDigit_ofNat {d : Nat} (h : d < 10) : isDigit (UInt8.ofNat (48 + d)) = true := by
  have hd : (UInt8.ofNat (48 + d)).toNat = 48 + d := by
    rw [UInt8.toNat_ofNat']
    omega
  simp only [isDigit, Bool.and_eq_true, decide_eq_true_eq, UInt8.le_iff_toNat_le, hd]
  constructor
  · exact Nat.le_add_right 48 d
  · change 48 + d ≤ 57
    omega

theorem isDigit_decimal {n : Nat} {c : UInt8} (h : c ∈ decimal n) : isDigit c = true := by
  revert c
  refine decimal_induction (P := fun _ ds => ∀ {c}, c ∈ ds → isDigit c = true) ?_ ?_ n
  · intro n hn c hc
    rw [mem_singleton.mp hc]
    exact isDigit_ofNat hn
  · intro n ds hn ih c hc
    rcases mem_append.mp hc with h | h
    · exact ih h
    · rw [mem_singleton.mp h]
      exact isDigit_ofNat (Nat.mod_lt _ (by decide))

end FlashDriver.Core.Bytes
