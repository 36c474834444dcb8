import Mathlib

/-!
# Keys and sizes (`include/settings.h`)

A `KEYT` is a length byte and that many bytes; here it is the list of its
bytes. `KEYCMP` compares the common length with `memcmp` and then the
lengths.

* `keycmp_eq_compare`: `KEYCMP` is the lexicographic order of the byte
  strings, a proper prefix first, so it is a total order (`keycmp_eq_iff`,
  `keycmp_swap`, `keycmp_trans`).
-/
namespace FlashDriver.Lsmtree

/-- mirrors include/settings.h (`NPCINPAGE`): the pieces of a page -/
def npc : Nat := 16

/-- mirrors include/settings.h (`PIECE`), in bytes -/
def piece : Nat := 512

/-- mirrors include/settings.h (`_PPS`) -/
def pps : Nat := 16384

/-- mirrors include/settings.h:97-100 -/
abbrev Key := List UInt8

/-- The bytes that `memcmp` reads, at most `n` from each side. -/
def memcmp : Nat → Key → Key → Ordering
  | n + 1, x :: xs, y :: ys => (compare x y).then (memcmp n xs ys)
  | _, _, _ => .eq

/-- mirrors include/settings.h:103-113 (`KEYCMP`, by its sign) -/
def keycmp (a b : Key) : Ordering :=
  if a.length = 0 ∧ b.length = 0 then .eq
  else if a.length = 0 then .lt
  else if b.length = 0 then .gt
  else
    let r := memcmp (if a.length > b.length then b.length else a.length) a b
    if r ≠ .eq ∨ a.length = b.length then r
    else if a.length < b.length then .lt else .gt

/-- mirrors include/settings.h:134-140 (`KEYVALCHECK`; `char` is signed) -/
def keyvalcheck (a : Key) : Bool :=
  match a with
  | [] => false
  | b :: _ => b < 0x80

theorem memcmp_then : ∀ a b : Key,
    (memcmp (min a.length b.length) a b).then (compare a.length b.length) = compare a b
  | [], [] => rfl
  | [], _ :: _ => by simp [memcmp, Nat.compare_eq_lt]
  | _ :: _, [] => by simp [memcmp, Nat.compare_eq_gt]
  | x :: xs, y :: ys => by
    have ih := memcmp_then xs ys
    have hl : compare (x :: xs).length (y :: ys).length = compare xs.length ys.length := by
      simp [Nat.compare_eq_ite_lt]
    rw [List.compare_cons_cons, ← ih, hl, ← Ordering.then_assoc]
    simp only [List.length_cons, Nat.add_min_add_right, memcmp]

theorem keycmp_eq_compare (a b : Key) : keycmp a b = compare a b := by
  have h := memcmp_then a b
  have hm : (if a.length > b.length then b.length else a.length) = min a.length b.length := by
    split <;> omega
  simp only [keycmp, hm]
  cases a with
  | nil => cases b <;> simp
  | cons x xs =>
    cases b with
    | nil => simp
    | cons y ys =>
      rw [if_neg (by simp), if_neg (by simp), if_neg (by simp), ← h]
      generalize memcmp _ (x :: xs) (y :: ys) = r
      generalize (x :: xs).length = m
      generalize (y :: ys).length = n
      cases r <;> simp [Nat.compare_eq_ite_lt]
      split
      · subst m; simp
      · split
        · rfl
        · rw [if_pos (by omega)]

@[simp]
theorem keycmp_eq_iff {a b : Key} : keycmp a b = .eq ↔ a = b := by
  rw [keycmp_eq_compare]
  exact Std.LawfulEqCmp.compare_eq_iff_eq

theorem keycmp_swap (a b : Key) : keycmp a b = (keycmp b a).swap := by
  rw [keycmp_eq_compare, keycmp_eq_compare]
  exact Std.OrientedCmp.eq_swap

theorem keycmp_gt_iff {a b : Key} : keycmp a b = .gt ↔ keycmp b a = .lt := by
  rw [keycmp_swap a b]
  cases keycmp b a <;> simp

theorem keycmp_trans {a b c : Key} (h1 : keycmp a b = .lt) (h2 : keycmp b c = .lt) :
    keycmp a c = .lt := by
  rw [keycmp_eq_compare] at *
  exact Std.TransCmp.lt_trans h1 h2

theorem keycmp_lt_of_le {a b c : Key} (h : keycmp a b ≠ .gt) (h' : keycmp b c = .lt) :
    keycmp a c = .lt := by
  cases hc : keycmp a b with
  | lt => exact keycmp_trans hc h'
  | eq => rwa [keycmp_eq_iff.mp hc]
  | gt => exact absurd hc h

theorem keycmp_irrefl (a : Key) : keycmp a a ≠ .lt := by
  rw [keycmp_eq_iff.mpr rfl]
  decide

/-! ## Counted keys -/

/-- The keys 0, 1, 2, … in three bytes, the high one first. -/
def countKey (i : Nat) : Key := [UInt8.ofNat (i / 65536), UInt8.ofNat (i / 256), UInt8.ofNat i]

theorem keycmp_three (a b c a' b' c' : UInt8) : keycmp [a, b, c] [a', b', c'] =
    (compare a a').then ((compare b b').then (compare c c')) := by
  simp [keycmp, memcmp]

theorem compare_ofNat_lt {m n : Nat} (h : m % 256 < n % 256) :
    compare (UInt8.ofNat m) (UInt8.ofNat n) = .lt := by
  change compareOfLessAndEq _ _ = _
  rw [compareOfLessAndEq_eq_lt, UInt8.lt_iff_toNat_lt]
  simpa using h

theorem compare_ofNat_eq {m n : Nat} (h : m % 256 = n % 256) :
    compare (UInt8.ofNat m) (UInt8.ofNat n) = .eq := by
  have : UInt8.ofNat m = UInt8.ofNat n := UInt8.toNat_inj.mp (by simpa using h)
  rw [this]
  change compareOfLessAndEq _ _ = _
  simp [compareOfLessAndEq]

theorem countKey_lt {i j : Nat} (hij : i < j) (hj : j < 2 ^ 23) :
    keycmp (countKey i) (countKey j) = .lt := by
  rw [countKey, countKey, keycmp_three]
  by_cases h1 : i / 65536 < j / 65536
  · rw [compare_ofNat_lt (by omega)]
    rfl
  · rw [compare_ofNat_eq (by omega)]
    by_cases h2 : i / 256 < j / 256
    · rw [compare_ofNat_lt (by omega)]
      rfl
    · rw [compare_ofNat_eq (by omega), compare_ofNat_lt (by omega)]
      rfl

end FlashDriver.Lsmtree
