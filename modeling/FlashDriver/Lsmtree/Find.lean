import FlashDriver.Lsmtree.Leveling

/-!
# Finding the run of a key (`array_find_run`, `lsm_find_run`)

The runs of a level are sorted by their first keys and do not overlap.
`array_find_run` searches for the last run that starts at or below the key,
and returns the first run for a key below all of them; so a level that is not
empty always yields a run, whether or not the run has the key.

`lsm_find_run` goes through the levels from a given one on. It passes over a
level whose filter rejects the key. A level below `LEVELCACHING` is in memory
and is looked up at once; at any other level the search stops with the run,
whose header page is yet to be read.

* `findRun_spec`: the search returns a run.
* `lookup_findRun`: a key of the level is in the run that is found.
* `firstMapping`: what a search through the levels in order finds first.
-/
namespace FlashDriver.Lsmtree

open List Option

variable {π : Type}

/-! ## One level -/

def runAt (runs : List (Run π)) (i : Nat) : Run π := runs[i]?.getD []

/-- The loop of `array_find_run`; `int` division truncates. -/
def findRunFrom (runs : List (Run π)) (lpa : Key) : Nat → Int → Int → Option Nat
  | 0, _, _ => none
  | fuel + 1, s, e =>
    let mid := (s + e).tdiv 2
    match keycmp (runKey (runAt runs mid.toNat)) lpa with
    | .eq => some mid.toNat
    | .gt =>
      if s > mid - 1 then some ((s + (mid - 1)).tdiv 2).toNat
      else findRunFrom runs lpa fuel s (mid - 1)
    | .lt =>
      if mid + 1 > e then some ((mid + 1 + e).tdiv 2).toNat
      else findRunFrom runs lpa fuel (mid + 1) e

/-- mirrors array.c:255-280; the index of the run -/
def findRun (l : Level π) (lpa : Key) : Option Nat :=
  if l.runs = [] then none else findRunFrom l.runs lpa l.runs.length 0 (l.runs.length - 1)

/-- Runs that are not empty, sorted, and do not overlap. -/
structure Level.Ordered (l : Level π) : Prop where
  ne_nil : ∀ r ∈ l.runs, r ≠ []
  sorted : Sorted l.runs.flatten

/-! ## All levels -/

/-- What `lsm_find_run` returns: `CACHING` with the entry's address, `FOUND` with the run. -/
inductive Found (π : Type) where
  | caching (level : Nat) (ppa : π)
  | found (level run : Nat)
  | notFound
  deriving DecidableEq, Repr

/-- The loop of `lsm_find_run` over the next `n` levels. -/
def findLevel (cfg : Cfg π) (disk : Disk π) (key : Key) : Nat → Nat → Found π
  | 0, _ => .notFound
  | n + 1, i =>
    if filterSkips cfg disk i key then findLevel cfg disk key n (i + 1)
    else match findRun (disk i) key with
      | none => findLevel cfg disk key n (i + 1)
      | some r =>
        if i < cfg.levelCaching then
          match lookup (runAt (disk i).runs r) key with
          | some p => .caching i p
          | none => findLevel cfg disk key n (i + 1)
        else .found i r

/-- mirrors algorithm/Lsmtree/lsmtree.c:844-878 -/
def lsmFindRun (cfg : Cfg π) (disk : Disk π) (key : Key) (level run : Nat) : Found π :=
  let i := if run = 0 then level else level + 1
  findLevel cfg disk key (cfg.levelN - i) i

/-- The mapping that a search of all levels in order finds first. -/
def firstMapping (cfg : Cfg π) (disk : Disk π) (key : Key) : Option π :=
  (range cfg.levelN).findSome? fun i => lookup (disk i).runs.flatten key

/-! ## The search in a level -/

section
variable {runs : List (Run π)} {lpa : Key}

/-- The run that `array_find_run` is after. -/
structure IsRunOf (runs : List (Run π)) (lpa : Key) (r : Nat) : Prop where
  lt : r < runs.length
  starts : r = 0 ∨ keycmp (runKey (runAt runs r)) lpa ≠ .gt
  after : ∀ j, r < j → j < runs.length → keycmp (runKey (runAt runs j)) lpa = .gt

/-- The runs outside the window are settled. -/
structure Window (runs : List (Run π)) (lpa : Key) (s e : Int) : Prop where
  nonneg : 0 ≤ s
  le : s ≤ e
  lt : e < runs.length
  below : ∀ j : Nat, (j : Int) < s → keycmp (runKey (runAt runs j)) lpa = .lt
  above : ∀ j : Nat, e < j → j < runs.length → keycmp (runKey (runAt runs j)) lpa = .gt

/-- The run keys increase along the level. -/
def Increasing (runs : List (Run π)) : Prop :=
  ∀ i j, i < j → j < runs.length → keycmp (runKey (runAt runs i)) (runKey (runAt runs j)) = .lt

theorem findRunFrom_spec (hinc : Increasing runs) {fuel : Nat} {s e : Int}
    (W : Window runs lpa s e) (hf : e - s < fuel) :
    ∃ r, findRunFrom runs lpa fuel s e = some r ∧ IsRunOf runs lpa r := by
  induction fuel generalizing s e with
  | zero => have := W.le; omega
  | succ fuel ih =>
    obtain ⟨hs, hse, he, hbelow, habove⟩ := W
    have hmid : (s + e).tdiv 2 = (s + e) / 2 := Int.tdiv_eq_ediv_of_nonneg (by omega)
    obtain ⟨m, hm⟩ : ∃ m : Nat, (s + e) / 2 = m := ⟨((s + e) / 2).toNat, by omega⟩
    simp only [findRunFrom, hmid, hm, Int.toNat_natCast]
    cases hc : keycmp (runKey (runAt runs m)) lpa with
    | eq =>
      refine ⟨m, rfl, by omega, .inr (by simp [hc]), fun j hj hl => ?_⟩
      rw [keycmp_eq_iff] at hc
      rw [← hc, keycmp_gt_iff]
      exact hinc m j hj hl
    | gt =>
      have habove' : ∀ j : Nat, (m : Int) - 1 < j → j < runs.length →
          keycmp (runKey (runAt runs j)) lpa = .gt := by
        intro j hj hl
        rcases Nat.eq_or_lt_of_le (show m ≤ j by omega) with h | h
        · rw [← h]; exact hc
        · rw [keycmp_gt_iff] at hc ⊢
          exact keycmp_trans hc (hinc m j h hl)
      dsimp only
      split
      · -- the window is empty: its upper end, or the first run
        have hms : (m : Int) = s := by omega
        refine ⟨_, rfl, ?_⟩
        rcases Nat.eq_zero_or_pos m with h0 | hpos
        · have hz : ((s + ((m : Int) - 1)).tdiv 2).toNat = 0 := by
            rw [← hms, h0]; rfl
          rw [hz]
          exact ⟨by omega, .inl rfl, fun j hj hl => habove' j (by omega) hl⟩
        · have hz : ((s + ((m : Int) - 1)).tdiv 2).toNat = m - 1 := by
            rw [Int.tdiv_eq_ediv_of_nonneg (by omega)]; omega
          rw [hz]
          refine ⟨by omega, .inr ?_, fun j hj hl => habove' j (by omega) hl⟩
          rw [hbelow (m - 1) (by omega)]; simp
      · exact ih ⟨hs, by omega, by omega, hbelow, habove'⟩ (by omega)
    | lt =>
      have hbelow' : ∀ j : Nat, (j : Int) < (m : Int) + 1 →
          keycmp (runKey (runAt runs j)) lpa = .lt := by
        intro j hj
        rcases Nat.eq_or_lt_of_le (show j ≤ m by omega) with h | h
        · rw [h]; exact hc
        · exact keycmp_trans (hinc j m h (by omega)) hc
      dsimp only
      split
      · have hz : (((m : Int) + 1 + e).tdiv 2).toNat = m := by
          rw [Int.tdiv_eq_ediv_of_nonneg (by omega)]; omega
        rw [hz]
        exact ⟨m, rfl, by omega, .inr (by simp [hc]), fun j hj hl => habove j (by omega) hl⟩
      · exact ih ⟨by omega, by omega, he, hbelow', habove⟩ (by omega)

end

section
variable {l : Level π} {lpa : Key}

theorem runKey_mem {r : Run π} (h : r ≠ []) : ∃ e ∈ r, e.key = runKey r := by
  cases r with
  | nil => exact absurd rfl h
  | cons e es => exact ⟨e, (.head _), rfl⟩

theorem runAt_eq {runs : List (Run π)} {i : Nat} (h : i < runs.length) :
    runs[i]? = some (runAt runs i) := by
  simp [runAt, h]

theorem runAt_mem {runs : List (Run π)} {i : Nat} (h : i < runs.length) : runAt runs i ∈ runs :=
  mem_of_getElem? (runAt_eq h)

theorem Level.Ordered.run_lt (h : l.Ordered) {i j : Nat} (hij : i < j) (hj : j < l.runs.length)
    {a b : Keyset π} (ha : a ∈ runAt l.runs i) (hb : b ∈ runAt l.runs j) :
    keycmp a.key b.key = .lt := by
  have hp := (pairwise_flatten.mp h.sorted).2
  have hi := lt_trans hij hj
  have := pairwise_iff_getElem.mp hp i j hi hj hij
  refine this a ?_ b ?_
  · simpa [runAt, hi] using ha
  · simpa [runAt, hj] using hb

theorem Level.Ordered.increasing (h : l.Ordered) : Increasing l.runs := by
  intro i j hij hj
  obtain ⟨a, ha, hka⟩ := runKey_mem (h.ne_nil _ (runAt_mem (lt_trans hij hj)))
  obtain ⟨b, hb, hkb⟩ := runKey_mem (h.ne_nil _ (runAt_mem hj))
  rw [← hka, ← hkb]
  exact h.run_lt hij hj ha hb

theorem Level.Ordered.runKey_le (h : l.Ordered) {i : Nat} (hi : i < l.runs.length) {e : Keyset π}
    (he : e ∈ runAt l.runs i) : keycmp (runKey (runAt l.runs i)) e.key ≠ .gt := by
  have hs : Sorted (runAt l.runs i) := (pairwise_flatten.mp h.sorted).1 _ (runAt_mem hi)
  cases hr : runAt l.runs i with
  | nil => rw [hr] at he; cases he
  | cons a as =>
    rw [hr] at he hs
    change keycmp a.key e.key ≠ .gt
    rcases mem_cons.mp he with rfl | he
    · rw [keycmp_eq_iff.mpr rfl]; simp
    · rw [(pairwise_cons.mp hs).1 e he]; simp

theorem findRun_nil (h : l.runs = []) : findRun l lpa = none := if_pos h

theorem findRun_spec (h : l.Ordered) (hne : l.runs ≠ []) (lpa : Key) :
    ∃ r, findRun l lpa = some r ∧ IsRunOf l.runs lpa r := by
  have hlen := length_pos_of_ne_nil hne
  unfold findRun
  rw [if_neg hne]
  exact findRunFrom_spec h.increasing
    ⟨by omega, by omega, by omega, fun j hj => by omega, fun j h1 h2 => by omega⟩ (by omega)

theorem findRun_isRunOf (h : l.Ordered) {r : Nat} (hr : findRun l lpa = some r) :
    IsRunOf l.runs lpa r := by
  by_cases hne : l.runs = []
  · rw [findRun_nil hne] at hr; cases hr
  · obtain ⟨r', hr', h'⟩ := findRun_spec h hne lpa
    rw [hr] at hr'
    cases hr'
    exact h'

theorem IsRunOf.unique (h : l.Ordered) {r j : Nat} (hr : IsRunOf l.runs lpa r)
    (hj : j < l.runs.length) {e : Keyset π} (he : e ∈ runAt l.runs j) (hk : e.key = lpa) : j = r := by
  rcases Nat.lt_trichotomy j r with hlt | heq | hgt
  · -- an earlier run ends below the key that run `r` starts with
    exfalso
    obtain ⟨a, ha, hka⟩ := runKey_mem (h.ne_nil _ (runAt_mem hr.lt))
    have hea : keycmp lpa (runKey (runAt l.runs r)) = .lt := by
      rw [← hk, ← hka]; exact h.run_lt hlt hr.lt he ha
    rcases hr.starts with h0 | hns
    · omega
    · exact hns (keycmp_gt_iff.mpr hea)
  · exact heq
  · exfalso
    have hgt' := hr.after j hgt hj
    rw [← hk] at hgt'
    exact h.runKey_le hj he hgt'

theorem lookup_findRun (h : l.Ordered) {r : Nat} (hr : findRun l lpa = some r) :
    lookup (runAt l.runs r) lpa = lookup l.runs.flatten lpa := by
  have hrun := findRun_isRunOf h hr
  cases hl : lookup (runAt l.runs r) lpa with
  | none =>
    symm
    rw [lookup_eq_none] at hl ⊢
    intro hm
    obtain ⟨e, he, hk⟩ := mem_map.mp hm
    obtain ⟨run, hrm, her⟩ := mem_flatten.mp he
    obtain ⟨j, hj, rfl⟩ := mem_iff_getElem.mp hrm
    have hej : e ∈ runAt l.runs j := by simpa [runAt, hj] using her
    have := hrun.unique h hj hej hk
    subst this
    exact hl (mem_map.mpr ⟨e, hej, hk⟩)
  | some p =>
    obtain ⟨e, he, hp⟩ := map_eq_some_iff.mp hl
    have hmem := mem_of_find?_eq_some he
    have hkey : e.key = lpa := by simpa using find?_some he
    have hflat : e ∈ l.runs.flatten := mem_flatten.mpr ⟨_, runAt_mem hrun.lt, hmem⟩
    rw [← hkey, lookup_of_mem h.sorted hflat, hp]

end

end FlashDriver.Lsmtree
