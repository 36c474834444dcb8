import Mathlib

/-!
# Cutting a sequence into groups of bounded load

A sequence is cut, in order, into groups whose load stays within a capacity:
the current group takes each item that still fits, the first one that does
not starts the next group.

* `cut_flatten`, `cut_load`: the groups are the sequence and stay within the
  capacity.
* `cut_length_le_iff`: no way to cut the sequence takes fewer groups.
* `cut_block`: a part that the next item does not fit behind is a group.
-/
namespace FlashDriver.Core.NextFit

open List

variable {α : Type}

def load (w : α → Nat) (xs : List α) : Nat := (xs.map w).sum

@[simp] theorem load_nil (w : α → Nat) : load w [] = 0 := rfl

@[simp] theorem load_cons (w : α → Nat) (x : α) (xs : List α) :
    load w (x :: xs) = w x + load w xs := by
  simp [load]

@[simp] theorem load_append (w : α → Nat) (xs ys : List α) :
    load w (xs ++ ys) = load w xs + load w ys := by
  simp [load]

/-- The groups, where `now` is already in the first one. -/
def cutFrom (w : α → Nat) (cap : Nat) (now : List α) : List α → List (List α)
  | [] => [now]
  | x :: xs =>
    if load w now + w x > cap then now :: cutFrom w cap [x] xs
    else cutFrom w cap (now ++ [x]) xs

def cut (w : α → Nat) (cap : Nat) : List α → List (List α)
  | [] => []
  | x :: xs => cutFrom w cap [x] xs

variable {w : α → Nat} {cap : Nat}

theorem cutFrom_flatten (now xs : List α) : (cutFrom w cap now xs).flatten = now ++ xs := by
  induction xs generalizing now with
  | nil => simp [cutFrom]
  | cons x xs ih =>
    rw [cutFrom]
    split
    · rw [flatten_cons, ih]
      rfl
    · rw [ih]
      simp

theorem cut_flatten (xs : List α) : (cut w cap xs).flatten = xs := by
  cases xs with
  | nil => rfl
  | cons x xs => exact cutFrom_flatten [x] xs

theorem cutFrom_load {now xs : List α} (hn : load w now ≤ cap) (hw : ∀ x ∈ xs, w x ≤ cap) :
    ∀ g ∈ cutFrom w cap now xs, load w g ≤ cap := by
  induction xs generalizing now with
  | nil =>
    intro g hg
    rwa [mem_singleton.mp hg]
  | cons x xs ih =>
    have hx := hw x mem_cons_self
    have hxs : ∀ y ∈ xs, w y ≤ cap := fun y hy => hw y (.tail _ hy)
    rw [cutFrom]
    split
    · intro g hg
      rcases mem_cons.mp hg with rfl | hg
      · exact hn
      · exact ih (by simpa using hx) hxs g hg
    · rename_i hfit
      apply ih _ hxs
      simp only [load_append, load_cons, load_nil]
      omega

theorem cut_load {xs : List α} (hw : ∀ x ∈ xs, w x ≤ cap) : ∀ g ∈ cut w cap xs, load w g ≤ cap := by
  cases xs with
  | nil => simp [cut]
  | cons x xs =>
    apply cutFrom_load
    · simpa using hw x mem_cons_self
    · exact fun y hy => hw y (.tail _ hy)

/-! ## No cut takes fewer groups -/

/-- The groups that a cut is ahead of another one, when the current groups are compared. -/
def ahead (w : α → Nat) (now t : List α) : Nat := if load w now ≤ load w t then 0 else 1

theorem cutFrom_length_append {ys g t : List α} {n : Nat}
    (h : ∀ now, (cutFrom w cap now ys).length ≤ n + ahead w now (t ++ g))
    (ht : load w t + load w g ≤ cap) (now : List α) :
    (cutFrom w cap now (g ++ ys)).length ≤ n + ahead w now t := by
  induction g generalizing now t with
  | nil => simpa using h now
  | cons x g ih =>
    rw [load_cons] at ht
    have hih := fun now' => ih (t := t ++ [x]) (by simpa using h)
      (by simp only [load_append, load_cons, load_nil]; omega) now'
    rw [cons_append, cutFrom]
    split
    · -- the other group takes the item, so it is the lighter one
      rename_i hgt
      have h1 := hih [x]
      have h2 : ahead w [x] (t ++ [x]) = 0 := if_pos (by simp)
      have h3 : ahead w now t = 1 := if_neg (by omega)
      rw [length_cons]
      omega
    · have h1 := hih (now ++ [x])
      have h2 : ahead w (now ++ [x]) (t ++ [x]) = ahead w now t := by simp [ahead]
      omega

theorem cutFrom_length_le {gs : List (List α)} (hgs : ∀ g ∈ gs, load w g ≤ cap) {g : List α}
    (hg : load w g ≤ cap) (now : List α) :
    (cutFrom w cap now (g ++ gs.flatten)).length ≤ gs.length + 1 + ahead w now [] := by
  induction gs generalizing g now with
  | nil =>
    apply cutFrom_length_append _ (by simpa using hg)
    intro now
    simp [cutFrom]
  | cons g' gs ih =>
    apply cutFrom_length_append _ (by simpa using hg)
    -- the other cut starts a group, which gives up what it was behind
    intro now
    have h := ih (fun x hx => hgs x (.tail _ hx)) (hgs g' (.head _)) now
    have h1 : ahead w now [] ≤ 1 := by
      unfold ahead
      split <;> omega
    rw [flatten_cons, length_cons]
    omega

theorem cut_eq_cutFrom {xs : List α} (hne : xs ≠ []) (hw : ∀ x ∈ xs, w x ≤ cap) :
    cut w cap xs = cutFrom w cap [] xs := by
  cases xs with
  | nil => exact absurd rfl hne
  | cons x xs =>
    have hx := hw x mem_cons_self
    rw [cutFrom, if_neg (by simpa using hx)]
    rfl

theorem cut_length_le_iff {xs : List α} (hw : ∀ x ∈ xs, w x ≤ cap) {n : Nat} :
    (cut w cap xs).length ≤ n ↔
      ∃ gs : List (List α), gs.flatten = xs ∧ (∀ g ∈ gs, load w g ≤ cap) ∧ gs.length ≤ n := by
  constructor
  · intro h
    exact ⟨cut w cap xs, cut_flatten xs, cut_load hw, h⟩
  · rintro ⟨gs, rfl, hgs, hn⟩
    by_cases hne : gs.flatten = []
    · rw [hne]
      exact Nat.zero_le n
    · cases gs with
      | nil => exact absurd rfl hne
      | cons g gs =>
        have h := cutFrom_length_le (fun x hx => hgs x (.tail _ hx)) (hgs g mem_cons_self) []
        have h0 : ahead w ([] : List α) [] = 0 := if_pos (le_rfl)
        rw [cut_eq_cutFrom hne hw, flatten_cons]
        rw [length_cons] at hn
        omega

/-! ## Parts that fill a group -/

theorem cutFrom_append {now xs ys : List α} (h : load w now + load w xs ≤ cap) :
    cutFrom w cap now (xs ++ ys) = cutFrom w cap (now ++ xs) ys := by
  induction xs generalizing now with
  | nil => simp
  | cons x xs ih =>
    rw [load_cons] at h
    rw [cons_append, cutFrom, if_neg (by omega), ih]
    · simp
    · simp only [load_append, load_cons, load_nil]
      omega

theorem cut_block {xs ys : List α} {y : α} (hne : xs ≠ []) (hfit : load w xs ≤ cap)
    (hfull : load w xs + w y > cap) : cut w cap (xs ++ y :: ys) = xs :: cut w cap (y :: ys) := by
  cases xs with
  | nil => exact absurd rfl hne
  | cons x xs =>
    rw [load_cons] at hfit
    rw [cons_append, cut, cutFrom_append (by simpa using hfit), cutFrom, singleton_append,
      if_pos hfull]
    rfl

end FlashDriver.Core.NextFit
