import Mathlib

/-!
# Open addressing

A key `k` may be kept in any of the slots `slot k 0`, `slot k 1`, ...; it goes
to the first of them that is free. `owner l` is the key kept in slot `l`.

* `FoundAt k c`: a search for `k` meets other keys in its first `c` slots and
  finds `k` in the next.
* `Table n`: a search finds every key that is kept, after at most `n` other
  slots. `Table.unique`, `Table.absent` and `Table.absent_of_lt` say what a
  search may conclude.
* `Table.claim`: a key that has passed `c` slots may take the next, if it is
  free. Slots only ever gain owners (`Grows`), so those searching at the same
  time keep what they have passed (`Passed.mono`).
-/
namespace FlashDriver.Core.Probing

open Option Function

variable {K L : Type*} {slot : K → Nat → L} {owner owner' : L → Option K} {k k' : K} {l l' : L}
  {c c' n : Nat}

/-- The first `c` slots of `k` hold other keys. -/
def Passed (slot : K → Nat → L) (owner : L → Option K) (k : K) (c : Nat) : Prop :=
  ∀ j, j < c → ∃ k', owner (slot k j) = some k' ∧ k' ≠ k

structure FoundAt (slot : K → Nat → L) (owner : L → Option K) (k : K) (c : Nat) : Prop where
  here : owner (slot k c) = some k
  passed : Passed slot owner k c

def Table (slot : K → Nat → L) (owner : L → Option K) (n : Nat) : Prop :=
  ∀ l k, owner l = some k → ∃ c, c ≤ n ∧ slot k c = l ∧ FoundAt slot owner k c

/-- Slots change from free to owned only. -/
def Grows (owner owner' : L → Option K) : Prop := ∀ l k, owner l = some k → owner' l = some k

/-! ## Searching -/

theorem passed_zero : Passed slot owner k 0 := fun _ hj => absurd hj (Nat.not_lt_zero _)

theorem Passed.succ (h : Passed slot owner k c) (ho : owner (slot k c) = some k') (hne : k' ≠ k) :
    Passed slot owner k (c + 1) := by
  intro j hj
  rcases Nat.lt_succ_iff_lt_or_eq.mp hj with hj | rfl
  · exact h j hj
  · exact ⟨k', ho, hne⟩

theorem FoundAt.not_before (h : FoundAt slot owner k c) (hp : Passed slot owner k c') : c' ≤ c := by
  apply le_of_not_gt
  intro hlt
  obtain ⟨k', ho, hne⟩ := hp c hlt
  exact hne (some.inj (ho.symm.trans h.here))

theorem FoundAt.owned (h : FoundAt slot owner k c) (hc : c' ≤ c) : owner (slot k c') ≠ none := by
  intro hn
  rcases Nat.lt_or_eq_of_le hc with hlt | rfl
  · obtain ⟨k', ho, -⟩ := h.passed c' hlt
    cases hn.symm.trans ho
  · cases hn.symm.trans h.here

theorem Table.found (h : Table slot owner n) (ho : owner l = some k) :
    ∃ c, c ≤ n ∧ FoundAt slot owner k c ∧ ∀ l', owner l' = some k → l' = slot k c := by
  obtain ⟨c, hc, -, hf⟩ := h l k ho
  refine ⟨c, hc, hf, fun l' ho' => ?_⟩
  obtain ⟨c', -, rfl, hf'⟩ := h l' k ho'
  rw [le_antisymm (hf.not_before hf'.passed) (hf'.not_before hf.passed)]

theorem Table.unique (h : Table slot owner n) (ho : owner l = some k) (ho' : owner l' = some k) :
    l = l' := by
  obtain ⟨c, -, -, hu⟩ := h.found ho
  rw [hu l ho, hu l' ho']

theorem Table.absent (h : Table slot owner n) (hp : Passed slot owner k c)
    (hn : owner (slot k c) = none) : owner l ≠ some k := by
  intro ho
  obtain ⟨c', -, -, hf⟩ := h l k ho
  exact hf.owned (hf.not_before hp) hn

theorem Table.absent_of_lt (h : Table slot owner n) (hp : Passed slot owner k c) (hc : n < c) :
    owner l ≠ some k := by
  intro ho
  obtain ⟨c', hn, -, hf⟩ := h l k ho
  exact absurd (hf.not_before hp) (Nat.not_le_of_lt (lt_of_le_of_lt hn hc))

/-! ## Claiming a slot -/

theorem Passed.mono (hg : Grows owner owner') (h : Passed slot owner k c) :
    Passed slot owner' k c := by
  intro j hj
  obtain ⟨k', ho, hne⟩ := h j hj
  exact ⟨k', hg _ _ ho, hne⟩

theorem Table.mono (h : Table slot owner n) {m : Nat} (hm : n ≤ m) : Table slot owner m := by
  intro l k ho
  obtain ⟨c, hc, hs, hf⟩ := h l k ho
  exact ⟨c, le_trans hc hm, hs, hf⟩

variable [DecidableEq L]

theorem grows_update (hn : owner l = none) (k : K) :
    Grows owner (update owner l (some k)) := by
  intro l' k' ho
  have hl : l' ≠ l := by
    rintro rfl
    cases hn.symm.trans ho
  rw [update_of_ne hl]
  exact ho

theorem Table.claim (h : Table slot owner n) (hp : Passed slot owner k c)
    (hn : owner (slot k c) = none) :
    Table slot (update owner (slot k c) (some k)) (max c n) := by
  have hg := grows_update hn k
  intro l k' ho
  by_cases hl : l = slot k c
  · subst hl
    rw [update_self] at ho
    cases ho
    exact ⟨c, Nat.le_max_left c n, rfl, update_self .., hp.mono hg⟩
  · rw [update_of_ne hl] at ho
    obtain ⟨c', hc, hs, hf⟩ := h l k' ho
    exact ⟨c', le_trans hc (Nat.le_max_right c n), hs, hg _ _ hf.here, hf.passed.mono hg⟩

end FlashDriver.Core.Probing
