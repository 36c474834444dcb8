import FlashDriver.Lsmtree.Key

/-!
# The runs of a level for a compaction (`level_target/array/array.c`)

`array_bound_search` looks for the first run that ends at or behind a key. It
halves a window of the array and takes its answer from the last run it looked
at. `array_range_find_compaction` returns the runs from that one on, and all
of them when there is none; `array_unmatch_find` returns the runs that end
before the key. `partial_leveling` asks for the runs from `key_min` on, a key
of 255 zero bytes, and means all of them.

A run is anything with a first and a last key; a pointer to it is its index.
`none` is an access outside the array or a loop that does not end.

* `boundSearch_eq`: the search finds the first run that does not end before
  the key.
* `below_keyMin_iff`: the keys below `key_min`.
* `run_selection`: when the selection is what its callers expect.
-/
namespace FlashDriver.Lsmtree

open List Option

/-- mirrors algorithm/Lsmtree/lsmtree.c:182-184 -/
def keyMin : Key := replicate 255 0

section
variable {ρ : Type} (key stop : ρ → Key)

/-! ## The functions -/

/-- `body[i]` -/
def bodyAt (body : List ρ) (i : Int) : Option ρ := if 0 ≤ i then body[i.toNat]? else none

/-- What `array_bound_search` returns behind its loop. -/
def lastProbe (body : List ρ) (mid : Int) (res1 res2 : Ordering) : Int :=
  if res1 = .gt then mid
  else if res2 = .lt ∧ mid < body.length - 1 then mid + 1
  else -1

/-- The loop of `array_bound_search`; `mid`, `res1` and `res2` are those of the round before. -/
def boundSearchFrom (body : List ρ) (lpa : Key) (islower : Bool) :
    Nat → Int → Int → Int → Ordering → Ordering → Option Int
  | 0, _, _, _, _, _ => none
  | fuel + 1, start, last, mid, res1, res2 =>
    if start ≤ last then
      let mid := (start + last).tdiv 2
      (bodyAt body mid).bind fun r =>
        let res1 := keycmp (key r) lpa
        let res2 := keycmp (stop r) lpa
        if res1 ≠ .gt ∧ res2 ≠ .lt then some (if islower then mid else mid + 1)
        else if res1 = .gt then boundSearchFrom body lpa islower fuel start (mid - 1) mid res1 res2
        else if res2 = .lt then boundSearchFrom body lpa islower fuel (mid + 1) last mid res1 res2
        else boundSearchFrom body lpa islower fuel start last mid res1 res2
    else some (lastProbe body mid res1 res2)

/-- mirrors array.c:552-573 -/
def boundSearch (body : List ρ) (lpa : Key) (islower : Bool) : Option Int :=
  boundSearchFrom key stop body lpa islower (body.length + 1) 0 (body.length - 1) 0 .eq .eq

/-- mirrors array.c:340-356; `e` is not used. -/
def rangeFindCompaction (body : List ρ) (s _e : Key) : Option (List Nat) :=
  (boundSearch key stop body s true).map fun idx =>
    let target := if idx = -1 then 0 else idx.toNat
    range' target (body.length - target)

/-- `KEYCMP(ptr->end,s)<0`, for the run at an index -/
def endsBefore (body : List ρ) (s : Key) (i : Nat) : Bool :=
  body[i]?.any fun r => keycmp (stop r) s = .lt

/-- mirrors array.c:358-379 -/
def unmatchFind (body : List ρ) (s _e : Key) : List Nat :=
  (range body.length).filter (endsBefore stop body s)

/-- Runs in order whose ranges are disjoint. -/
structure Apart (body : List ρ) : Prop where
  range : ∀ r ∈ body, keycmp (key r) (stop r) ≠ .gt
  apart : body.Pairwise fun a b => keycmp (stop a) (key b) = .lt

/-- The first run that does not end before the key, or the number of runs. -/
def bound (body : List ρ) (s : Key) : Nat := body.findIdx fun r => keycmp (stop r) s ≠ .lt

end

/-! ## The search -/

section
variable {ρ : Type} {key stop : ρ → Key} {body : List ρ} {s : Key}

theorem bound_le (stop : ρ → Key) (body : List ρ) (s : Key) : bound stop body s ≤ body.length :=
  findIdx_le_length

theorem Apart.stop_of_key (A : Apart key stop body) {i : Nat} (hi : i < body.length)
    (h : keycmp (key body[i]) s = .gt) : keycmp (stop body[i]) s ≠ .lt := by
  intro hlt
  have hle := keycmp_lt_of_le (A.range _ (getElem_mem hi)) hlt
  rw [hle] at h
  cases h

theorem bound_eq {n : Nat} (hn : n ≤ body.length)
    (hbelow : ∀ (i : Nat) (hi : i < body.length), i < n → keycmp (stop body[i]) s = .lt)
    (hat : ∀ hn : n < body.length, keycmp (stop body[n]) s ≠ .lt) : bound stop body s = n := by
  rcases lt_or_ge n body.length with h | h
  · refine (findIdx_eq h).mpr ⟨by simpa using hat h, fun j hj => ?_⟩
    simpa using hbelow j (by omega) hj
  · have hlen : n = body.length := by omega
    rw [bound, hlen, findIdx_eq_length]
    intro r hr
    obtain ⟨i, hi, rfl⟩ := mem_iff_getElem.mp hr
    simpa using hbelow i hi (by omega)

/-- `-1` stands for no such run. -/
def boundInt (stop : ρ → Key) (body : List ρ) (s : Key) : Int :=
  if bound stop body s < body.length then bound stop body s else -1

/-- What the last round says about the window: it lies just before the run looked at, or just
behind it. -/
structure Probed (key stop : ρ → Key) (body : List ρ) (s : Key) (start last mid : Int)
    (res1 res2 : Ordering) : Prop where
  pos : 0 ≤ start
  lt : last < body.length
  le : start ≤ last + 1
  below : ∀ (i : Nat) (hi : i < body.length), (i : Int) < start → keycmp (stop body[i]) s = .lt
  above : ∀ (i : Nat) (hi : i < body.length), last < i → keycmp (key body[i]) s = .gt
  probe : (res1 = .gt ∧ mid = last + 1 ∧ mid < body.length) ∨
    (res1 ≠ .gt ∧ res2 = .lt ∧ mid = start - 1) ∨ (res1 = .eq ∧ res2 = .eq ∧ last = body.length - 1 ∧
      start = 0)

theorem Probed.lastProbe_eq (A : Apart key stop body) {start last mid : Int} {res1 res2 : Ordering}
    (P : Probed key stop body s start last mid res1 res2) (h : ¬ start ≤ last) :
    lastProbe body mid res1 res2 = boundInt stop body s := by
  obtain ⟨n, rfl⟩ : ∃ n : Nat, start = n := ⟨start.toNat, by have := P.pos; omega⟩
  have hle := P.le
  have hlt := P.lt
  have hb : bound stop body s = n := by
    refine bound_eq (by omega) (fun i hi hin => P.below i hi (by omega)) fun hn => ?_
    exact A.stop_of_key hn (P.above n hn (by omega))
  rw [boundInt, hb, lastProbe]
  rcases P.probe with ⟨h1, hm, hml⟩ | ⟨h1, h2, hm⟩ | ⟨h1, h2, hl, hs⟩
  · rw [if_pos h1, if_pos (by omega)]
    omega
  · rw [if_neg h1]
    by_cases hn : n < body.length
    · rw [if_pos ⟨h2, by omega⟩, if_pos hn]
      omega
    · rw [if_neg (by omega), if_neg hn]
  · rw [if_neg (by rw [h1]; decide), if_neg (by rw [h2]; simp), if_neg (by omega)]

theorem boundSearchFrom_spec (A : Apart key stop body) {fuel : Nat} {start last mid : Int}
    {res1 res2 : Ordering} (P : Probed key stop body s start last mid res1 res2)
    (hf : last + 1 - start < fuel) :
    boundSearchFrom key stop body s true fuel start last mid res1 res2 =
      some (boundInt stop body s) := by
  induction fuel generalizing start last mid res1 res2 with
  | zero =>
    have := P.le
    omega
  | succ fuel ih =>
    rw [boundSearchFrom]
    split
    · rename_i hse
      have hpos := P.pos
      have hlt := P.lt
      have hmid : (start + last).tdiv 2 = (start + last) / 2 :=
        Int.tdiv_eq_ediv_of_nonneg (by omega)
      obtain ⟨m, hm⟩ : ∃ m : Nat, (start + last) / 2 = m := ⟨((start + last) / 2).toNat, by omega⟩
      have hml : m < body.length := by omega
      have hat : bodyAt body (m : Int) = some body[m] := by simp [bodyAt, hml]
      have hapart := pairwise_iff_getElem.mp A.apart
      simp only [hmid, hm, hat, bind_some, if_true]
      split
      · -- the key lies in run `m`; the runs before it end before it starts
        rename_i hin
        have hb : bound stop body s = m := by
          refine bound_eq hml.le (fun i hi him => ?_) fun _ => hin.2
          have hlt' := hapart i m hi hml him
          cases hc : keycmp (key body[m]) s with
          | lt => exact keycmp_trans hlt' hc
          | eq => rwa [← keycmp_eq_iff.mp hc]
          | gt => exact absurd hc hin.1
        rw [boundInt, hb, if_pos hml]
      · rename_i hout
        split
        · rename_i hgt
          refine ih ⟨hpos, by omega, by omega, P.below, fun i hi him => ?_, .inl ⟨hgt, by omega, ?_⟩⟩
            (by omega)
          · rcases Nat.eq_or_lt_of_le (show m ≤ i by omega) with rfl | hmi
            · exact hgt
            · have h1 := keycmp_lt_of_le (A.range _ (getElem_mem hml)) (hapart m i hml hi hmi)
              exact keycmp_gt_iff.mpr (keycmp_trans (keycmp_gt_iff.mp hgt) h1)
          · omega
        · rename_i hgt
          have hlt' : keycmp (stop body[m]) s = .lt := by
            by_contra hne
            exact hout ⟨hgt, hne⟩
          rw [if_pos hlt']
          refine ih ⟨by omega, hlt, by omega, fun i hi him => ?_, P.above, .inr (.inl ⟨hgt, hlt', ?_⟩)⟩
            (by omega)
          · rcases Nat.eq_or_lt_of_le (show i ≤ m by omega) with rfl | him
            · exact hlt'
            · have h1 := keycmp_lt_of_le (A.range _ (getElem_mem hml)) hlt'
              exact keycmp_trans (hapart i m hi hml him) h1
          · omega
    · rename_i hse
      rw [P.lastProbe_eq A hse]

theorem boundSearch_eq (A : Apart key stop body) (s : Key) :
    boundSearch key stop body s true = some (boundInt stop body s) := by
  refine boundSearchFrom_spec A ⟨by omega, by omega, by omega, ?_, ?_, .inr (.inr ?_)⟩ (by omega)
  · intro i hi h
    omega
  · intro i hi h
    omega
  · exact ⟨rfl, rfl, rfl, rfl⟩

end

/-! ## The selection -/

section
variable {ρ : Type} {key stop : ρ → Key} {body : List ρ} {s : Key}

theorem boundInt_eq : boundInt stop body s =
    (body.findIdx? fun r => keycmp (stop r) s ≠ .lt).elim (-1) Nat.cast := by
  rw [boundInt, bound, findIdx?_eq_guard_findIdx_lt]
  generalize body.findIdx (fun r => keycmp (stop r) s ≠ .lt) = n
  by_cases h : n < body.length
  · rw [if_pos h, Option.guard, if_pos (decide_eq_true h)]
    rfl
  · rw [if_neg h, Option.guard, if_neg (by simpa using h)]
    rfl

theorem Apart.endsBefore_iff (A : Apart key stop body) {i : Nat} (hi : i < body.length) :
    endsBefore stop body s i = true ↔ i < bound stop body s := by
  have hat : endsBefore stop body s i = true ↔ keycmp (stop body[i]) s = .lt := by
    simp [endsBefore, hi]
  rw [hat]
  constructor
  · intro hlt
    by_contra hge
    have hb : bound stop body s < body.length := by omega
    have hstop : keycmp (stop body[bound stop body s]) s ≠ .lt := by
      exact of_decide_eq_true (findIdx_getElem (w := hb))
    rcases Nat.eq_or_lt_of_le (not_lt.mp hge) with heq | hbi
    · simp only [heq] at hstop
      exact hstop hlt
    · have h1 := pairwise_iff_getElem.mp A.apart _ i hb hi hbi
      have h2 := keycmp_lt_of_le (A.range _ (getElem_mem hi)) hlt
      exact hstop (keycmp_trans h1 h2)
  · intro h
    simpa using not_of_lt_findIdx h

theorem Apart.filter_range (A : Apart key stop body) (e : Key) :
    ((List.range body.length).filter fun i => !endsBefore stop body s i) =
      range' (bound stop body s) (body.length - bound stop body s) ∧
    unmatchFind stop body s e = List.range (bound stop body s) := by
  have hle := bound_le stop body s
  have hsplit : List.range body.length = List.range (bound stop body s) ++
      range' (bound stop body s) (body.length - bound stop body s) := by
    rw [range_eq_range', range_eq_range']
    have happ := range'_append_1 (s := 0) (m := bound stop body s)
      (n := body.length - bound stop body s)
    rw [zero_add, Nat.add_sub_cancel' hle] at happ
    exact happ.symm
  have hfirst : ∀ i ∈ List.range (bound stop body s), endsBefore stop body s i = true := by
    intro i hi
    have hi := mem_range.mp hi
    exact (A.endsBefore_iff (by omega)).mpr hi
  have hrest : ∀ i ∈ range' (bound stop body s) (body.length - bound stop body s),
      endsBefore stop body s i = false := by
    intro i hi
    rw [mem_range'_1] at hi
    rw [← Bool.not_eq_true, A.endsBefore_iff (by omega)]
    omega
  rw [unmatchFind, hsplit, filter_append, filter_append]
  constructor
  · rw [filter_eq_nil_iff.mpr (by simpa using hfirst), filter_eq_self.mpr (by simpa using hrest)]
    rfl
  · rw [filter_eq_self.mpr hfirst, filter_eq_nil_iff.mpr (by simpa using hrest), append_nil]

theorem rangeFindCompaction_eq (A : Apart key stop body) (s e : Key) :
    rangeFindCompaction key stop body s e = some (if bound stop body s < body.length then
      range' (bound stop body s) (body.length - bound stop body s)
      else range body.length) := by
  rw [rangeFindCompaction, boundSearch_eq A, map_some, boundInt]
  by_cases h : bound stop body s < body.length
  · rw [if_pos h, if_pos h]
    have hne : ((bound stop body s : Nat) : Int) ≠ -1 := by omega
    simp only [hne, if_false, Int.toNat_natCast]
  · rw [if_neg h, if_neg h]
    simp only [if_true, Nat.sub_zero, range_eq_range']

theorem bound_lt_iff : bound stop body s < body.length ↔ ∃ r ∈ body, keycmp (stop r) s ≠ .lt := by
  rw [bound, findIdx_lt_length]
  simp only [decide_eq_true_eq]

theorem bound_eq_length (h : ¬ ∃ r ∈ body, keycmp (stop r) s ≠ .lt) :
    bound stop body s = body.length := by
  rw [← bound_lt_iff] at h
  have := bound_le stop body s
  omega

theorem rangeFindCompaction_iff (A : Apart key stop body) (s e : Key) :
    rangeFindCompaction key stop body s e =
        some ((List.range body.length).filter fun i => !endsBefore stop body s i) ↔
      body = [] ∨ ∃ r ∈ body, keycmp (stop r) s ≠ .lt := by
  rw [rangeFindCompaction_eq A, Option.some_inj, (A.filter_range e).1]
  by_cases h : ∃ r ∈ body, keycmp (stop r) s ≠ .lt
  · rw [if_pos (bound_lt_iff.mpr h)]
    exact ⟨fun _ => .inr h, fun _ => rfl⟩
  · rw [if_neg (mt bound_lt_iff.mp h), bound_eq_length h, tsub_self]
    constructor
    · intro heq
      have hlen := congrArg length heq
      rw [length_range, length_range'] at hlen
      exact .inl (eq_nil_of_length_eq_zero hlen)
    · intro hor
      obtain rfl := hor.resolve_right h
      rfl

theorem each_run_once_iff (A : Apart key stop body) (s e : Key) :
    (∃ found, rangeFindCompaction key stop body s e = some found ∧
      (found ++ unmatchFind stop body s e).Perm (List.range body.length)) ↔
      body = [] ∨ ∃ r ∈ body, keycmp (stop r) s ≠ .lt := by
  rw [← rangeFindCompaction_iff A s e, (A.filter_range e).1]
  constructor
  · intro hex
    obtain ⟨found, hfound, hperm⟩ := hex
    have hlen := hperm.length_eq
    rw [length_append, (A.filter_range e).2, length_range, length_range] at hlen
    rw [rangeFindCompaction_eq A, some_inj] at hfound ⊢
    split at hfound
    · rename_i h
      rw [if_pos h]
    · -- both functions return every run
      rename_i h
      have hb := bound_le stop body s
      have hz : bound stop body s = 0 ∧ body.length = 0 := by
        rw [← hfound, length_range] at hlen
        omega
      rw [if_neg h, hz.1, hz.2]
      rfl
  · intro heq
    refine ⟨_, heq, ?_⟩
    rw [← (A.filter_range e).1, unmatchFind]
    exact perm_append_comm.trans (filter_append_perm _ _)

/-! ## `key_min` -/

/-- The keys that are shorter than `key_min` and have no other bytes. -/
def Zeros (k : Key) : Prop := k.length < 255 ∧ ∀ b ∈ k, b = 0

theorem keycmp_replicate_zero {k : Key} {n : Nat} :
    keycmp k (replicate n 0) = .lt ↔ k.length < n ∧ ∀ b ∈ k, b = 0 := by
  rw [keycmp_eq_compare]
  induction k generalizing n with
  | nil => cases n <;> simp [replicate_succ]
  | cons b k ih =>
    cases n with
    | zero => simp
    | succ n =>
      rw [List.replicate_succ, List.compare_cons_cons, Ordering.then_eq_lt, ih]
      have hlt : compare b 0 ≠ .lt := by
        simp only [compare, compareOfLessAndEq, UInt8.not_lt_zero, if_false]
        split <;> simp
      have heq : compare b 0 = .eq ↔ b = 0 := by
        simp only [compare, compareOfLessAndEq, UInt8.not_lt_zero, if_false]
        split <;> simp_all
      rw [heq]
      simp only [hlt, false_or, length_cons, mem_cons, forall_eq_or_imp]
      constructor
      · intro h
        exact ⟨by omega, h.1, h.2.2⟩
      · intro h
        exact ⟨h.2.1, by omega, h.2.2⟩

theorem below_keyMin_iff {k : Key} : keycmp k keyMin = .lt ↔ Zeros k := keycmp_replicate_zero

theorem rangeFindCompaction_keyMin (A : Apart key stop body) (e : Key) :
    rangeFindCompaction key stop body keyMin e = some (range body.length) ↔
      (∀ r ∈ body.head?, ¬ Zeros (stop r)) ∨ ∀ r ∈ body, Zeros (stop r) := by
  rw [rangeFindCompaction_eq A, some_inj]
  by_cases h : ∃ r ∈ body, keycmp (stop r) keyMin ≠ .lt
  · have hnot : ¬ ∀ r ∈ body, Zeros (stop r) := by
      obtain ⟨r, hr, hne⟩ := h
      exact fun hall => hne (below_keyMin_iff.mpr (hall r hr))
    rw [if_pos (bound_lt_iff.mpr h), or_iff_left hnot]
    cases body with
    | nil =>
      obtain ⟨r, hr, -⟩ := h
      cases hr
    | cons r rs =>
      have hfirst : bound stop (r :: rs) keyMin = 0 ↔ ¬ Zeros (stop r) := by
        rw [← below_keyMin_iff, bound, findIdx_cons]
        by_cases hr : keycmp (stop r) keyMin = .lt <;> simp [hr]
      simp only [head?_cons, mem_def, some.injEq, forall_eq']
      rw [← hfirst]
      constructor
      · intro heq
        have hlen := congrArg length heq
        rw [length_range', length_range] at hlen
        have := bound_lt_iff.mpr h
        omega
      · intro hz
        rw [hz, Nat.sub_zero, range_eq_range']
  · rw [if_neg (mt bound_lt_iff.mp h)]
    have hall : ∀ r ∈ body, Zeros (stop r) := by
      intro r hr
      by_contra hz
      exact h ⟨r, hr, mt below_keyMin_iff.mp hz⟩
    exact ⟨fun _ => .inr hall, fun _ => rfl⟩

end

/-- The search for the bound is right for all levels and keys. What is returned from it on are
the runs that end at or behind the key, each run once together with the unmatched ones, exactly
if there is such a run or no run at all; and from `key_min` on it is every run, exactly if no run
is passed over that ends with a key of zero bytes. -/
theorem run_selection {ρ : Type} {key stop : ρ → Key} {body : List ρ} (A : Apart key stop body)
    (s e : Key) :
    boundSearch key stop body s true =
      some ((body.findIdx? fun r => keycmp (stop r) s ≠ .lt).elim (-1) Nat.cast) ∧
    (rangeFindCompaction key stop body s e =
        some ((range body.length).filter fun i => !endsBefore stop body s i) ↔
      body = [] ∨ ∃ r ∈ body, keycmp (stop r) s ≠ .lt) ∧
    ((∃ found, rangeFindCompaction key stop body s e = some found ∧
        (found ++ unmatchFind stop body s e).Perm (range body.length)) ↔
      body = [] ∨ ∃ r ∈ body, keycmp (stop r) s ≠ .lt) ∧
    (rangeFindCompaction key stop body keyMin e = some (range body.length) ↔
      (∀ r ∈ body.head?, ¬ Zeros (stop r)) ∨ ∀ r ∈ body, Zeros (stop r)) :=
  ⟨by rw [boundSearch_eq A, boundInt_eq], rangeFindCompaction_iff A s e, each_run_once_iff A s e,
    rangeFindCompaction_keyMin A e⟩

def threeRuns : List (Key × Key) := [([1], [2]), ([4], [5]), ([6], [8])]

theorem run_selection_three :
    boundSearch Prod.fst Prod.snd threeRuns [3] true = some 1 ∧
    rangeFindCompaction Prod.fst Prod.snd threeRuns [3] [] = some [1, 2] ∧
    (∃ found, rangeFindCompaction Prod.fst Prod.snd threeRuns [3] [] = some found ∧
      (found ++ unmatchFind Prod.snd threeRuns [3] []).Perm [0, 1, 2]) ∧
    rangeFindCompaction Prod.fst Prod.snd threeRuns keyMin [] = some [0, 1, 2] := by
  have A : Apart Prod.fst Prod.snd threeRuns := ⟨by decide, by decide⟩
  obtain ⟨hbound, hfound, honce, hall⟩ := run_selection A [3] []
  exact ⟨hbound, hfound.mpr (by decide), honce.mpr (by decide), hall.mpr (.inl (by simp [threeRuns, Zeros]))⟩

/-- A run that ends with the key of one zero byte is not among those from `key_min` on; and a key
behind all runs gives all of them, which do not match it either. -/
theorem first_run_passed :
    rangeFindCompaction Prod.fst Prod.snd [(([0] : Key), ([0] : Key)), ([1], [1])] keyMin [] =
      some [1] ∧
    rangeFindCompaction Prod.fst Prod.snd [(([1] : Key), ([2] : Key))] [3] [] = some [0] ∧
    unmatchFind Prod.snd [(([1] : Key), ([2] : Key))] [3] [] = [0] := by
  decide +kernel

end FlashDriver.Lsmtree
