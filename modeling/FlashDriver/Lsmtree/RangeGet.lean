import FlashDriver.Lsmtree.PageSearch
import FlashDriver.Lsmtree.Skiplist

/-!
# Range queries (`lsmtree_multi.c`)

A range query first gets up to two header pages of each level that is not kept in
memory (`__lsm_range_get`). When they are there it takes, once for each key it is asked
for, the smallest of the keys that the memtable and the iterators of the levels stand at
(`__lsm_range_get_after_header`).

* `mappingRead_spec`: which header pages the second part is given. A level that has no run
  for the start key clears the entry of `mapping_data` with its own number, which belongs to
  a page of another level.
* `pickLevel_spec`: what the iterator of a level shows is the first of the entries that are
  to come on its one or two pages.
-/
namespace FlashDriver.Lsmtree.RangeGet

open List Option

variable {δ : Type}

/-! ## The tree -/

/-- mirrors include/lsm_settings.h:24 -/
def rangeGetNum : Nat := 2

/-- `UINT_MAX` -/
def noPpa : UInt32 := 0xFFFFFFFF

/-- A run and whether its header page is in the cache (`c_entry`). -/
structure RangeRun extends ArrRun where
  cached : Bool

/-- mirrors algorithm/Lsmtree/level.h (`level`): the range of its keys and its runs -/
structure RangeLevel where
  start : Key
  stop : Key                    -- end
  arrs : List RangeRun

def RangeLevel.runs (l : RangeLevel) : List ArrRun := l.arrs.map (·.toArrRun)

structure Lsm (δ : Type) where
  mem : Skip.Mem δ
  memtable : Skip.Skiplist
  disk : List RangeLevel
  levelCaching : Nat

/-! ## Finding the runs -/

/-- The loop of `array_binary_search`; `some none` is -1. -/
def binarySearchFrom (arrs : List ArrRun) (lpa : Key) : Nat → Int → Int → Option (Option Nat)
  | 0, _, _ => none
  | fuel + 1, start, stop =>
    if start ≤ stop then
      let mid := (start + stop).tdiv 2
      (arrAt arrs mid).bind fun r =>
        if keycmp r.key lpa ≠ .gt ∧ keycmp r.stop lpa ≠ .lt then some (some mid.toNat)
        else if keycmp r.key lpa = .gt then binarySearchFrom arrs lpa fuel start (mid - 1)
        else if keycmp r.stop lpa = .lt then binarySearchFrom arrs lpa fuel (mid + 1) stop
        else binarySearchFrom arrs lpa fuel start stop
    else some none

/-- mirrors array.c:533-549 -/
def arrayBinarySearch (arrs : List ArrRun) (lpa : Key) : Option (Option Nat) :=
  binarySearchFrom arrs lpa (arrs.length + 1) 0 (arrs.length - 1)

/-- mirrors array.c:282-306, for a level that is not
tiered; `some none` is NULL -/
def findRunNum (l : RangeLevel) (lpa : Key) (num : Nat) : Option (Option (List RangeRun)) :=
  if l.arrs.isEmpty then some none
  else if keycmp l.start lpa = .gt ∨ keycmp l.stop lpa = .lt then some none
  else (arrayBinarySearch l.runs lpa).map fun target =>
    target.map fun i => (l.arrs.drop i).take num

/-! ## The header pages -/

/-- `mapping_data` and `max` of `lsm_range_params`, and `use_valueset_cnt`, the number of
header pages to read. -/
structure Params where
  mapping : Nat → Option Page
  max : Int
  reads : Nat

/-- mirrors algorithm/Lsmtree/lsmtree_multi.c:272-291: run `j` of the `num` that were found -/
def addRun (i num : Nat) (p : Params) (r : RangeRun × Nat) : Params where
  mapping := Function.update p.mapping (i * rangeGetNum + r.2) (some r.1.page)
  max := p.max - (if r.1.cached then 1 else 0) -
    (if r.2 + 1 = num ∧ r.2 + 1 < rangeGetNum then rangeGetNum - (r.2 + 1) else 0)
  reads := if r.1.cached then p.reads else p.reads + 1

/-- mirrors algorithm/Lsmtree/lsmtree_multi.c:262-293: for a level without a run the code
clears entry `i`, not `i*RANGEGETNUM` -/
def readLevel (s : Key) (p : Params) (l : RangeLevel × Nat) : Option Params :=
  (findRunNum l.1 s rangeGetNum).map fun rs =>
    match rs with
    | none => { p with mapping := Function.update p.mapping l.2 none, max := p.max - rangeGetNum }
    | some rs => rs.zipIdx.foldl (addRun l.2 rs.length) p

/-- mirrors algorithm/Lsmtree/lsmtree_multi.c:252-293 -/
def mappingRead (σ : Lsm δ) (s : Key) : Option Params :=
  (σ.disk.zipIdx.drop σ.levelCaching).foldlM (readLevel s)
    ⟨fun _ => none, ((σ.disk.length - σ.levelCaching) * rangeGetNum : Nat), 0⟩

/-! ## The iterators -/

/-- `level_iter[i]` and `level_mapping_cnt[i]` -/
structure LevelIter where
  iter : Option HeaderIter
  cnt : Nat

/-- mirrors algorithm/Lsmtree/lsmtree_multi.c:125-132 and array_level.c:174-198 -/
def levelIter (σ : Lsm δ) (p : Params) (s : Key) (l : RangeLevel × Nat) : Option LevelIter :=
  if l.2 < σ.levelCaching then
    (arrayBinarySearch l.1.runs s).bind fun target =>
      match target with
      | none => some ⟨none, 1⟩
      | some t => (l.1.runs[t]?).bind fun r =>
        (headerGetKeyiter r.page s).map fun h => ⟨some h, 1⟩
  else
    match p.mapping (l.2 * rangeGetNum) with
    | none => some ⟨none, 1⟩
    | some page => (headerGetKeyiter page s).map fun h => ⟨some h, 1⟩

/-- mirrors algorithm/Lsmtree/lsmtree_multi.c:154-171: the key that level `i` stands at,
after changing to its next page where this one has ended; an address `UINT_MAX` is
taken for the end -/
def pickLevel (caching : Bool) (mapping : Nat → Option Page) (s : Key) (i : Nat) :
    Nat → LevelIter → Option (Option Ent × LevelIter)
  | 0, _ => none
  | fuel + 1, it =>
    match it.iter with
    | none => some (none, it)
    | some h => (headerNextKeyPick h).bind fun e =>
      match e.filter (·.ppa ≠ noPpa) with
      | some e => some (some e, it)
      | none =>
        if caching ∨ it.cnt ≥ rangeGetNum then some (none, it)
        else
          match mapping (i * rangeGetNum + it.cnt) with
          | none => some (none, it)
          | some page => (headerGetKeyiter page s).bind fun h =>
            pickLevel caching mapping s i fuel ⟨some h, it.cnt + 1⟩

/-! ## Taking the keys -/

/-- A key that is taken: from the memtable (`target` is -1), or with its address from a
level. -/
inductive Hit where
  | mem (key : Key)
  | disk (level : Nat) (e : Ent)
  deriving DecidableEq, Repr

def Hit.key : Hit → Key
  | mem k => k
  | disk _ e => e.key

def Hit.src : Hit → Nat
  | mem _ => 0
  | disk i _ => i + 1

/-- `mem_node`, `no_memtable` and the iterators. -/
structure Cursor where
  node : Option Nat
  noMemtable : Bool
  iters : List LevelIter

/-- mirrors algorithm/Lsmtree/lsmtree_multi.c:141-150 -/
def memMin (σ : Lsm δ) (c : Cursor) : Option Hit × Bool :=
  if c.noMemtable then (none, true)
  else
    match c.node with
    | none => (none, true)
    | some n => (if n = σ.memtable.header then none else some (.mem (σ.mem.node n).key), false)

/-- mirrors algorithm/Lsmtree/lsmtree_multi.c:173-180 -/
def newMin (i : Nat) (m : Option Hit) (e : Option Ent) : Option Hit :=
  match e, m with
  | none, m => m
  | some e, none => some (.disk i e)
  | some e, some m => if keycmp m.key e.key = .gt then some (.disk i e) else some m

/-- mirrors algorithm/Lsmtree/lsmtree_multi.c:151-181: the levels from `i` on -/
def scanLevels (σ : Lsm δ) (p : Params) (s : Key) :
    Nat → Option Hit → List LevelIter → Option (Option Hit × List LevelIter)
  | _, m, [] => some (m, [])
  | i, m, it :: its => do
    let (e, it) ← pickLevel (i < σ.levelCaching) p.mapping s i rangeGetNum it
    let (m, its) ← scanLevels σ p s (i + 1) (newMin i m e) its
    some (m, it :: its)

/-- mirrors algorithm/Lsmtree/lsmtree_multi.c:184-196: the source that is taken from moves on -/
def advance (σ : Lsm δ) (c : Cursor) : Option Hit → Option (Option Hit × Cursor)
  | none => some (none, c)
  | some (.mem k) => do
    let n ← c.node
    let n ← σ.mem.list n 1
    some (some (.mem k), { c with node := some n })
  | some (.disk t _) => do
    let it ← c.iters[t]?
    let (e, iter) ← headerNextKey it.iter
    some (e.map (.disk t), { c with iters := c.iters.set t { it with iter := iter } })

/-- mirrors algorithm/Lsmtree/lsmtree_multi.c:136-197: one round -/
def round (σ : Lsm δ) (p : Params) (s : Key) (c : Cursor) : Option (Option Hit × Cursor) := do
  let (m, noMemtable) := memMin σ c
  let (m, iters) ← scanLevels σ p s 0 m c.iters
  advance σ ⟨c.node, noMemtable, iters⟩ m

def rounds (σ : Lsm δ) (p : Params) (s : Key) : Nat → Cursor → Option (List (Option Hit))
  | 0, _ => some []
  | n + 1, c => do
    let (h, c) ← round σ p s c
    let hs ← rounds σ p s n c
    some (h :: hs)

/-- mirrors algorithm/Lsmtree/lsmtree_multi.c:116-197: the hits in the memtable and
`target_keys`, one for each key that is asked for -/
def rangeHits (σ : Lsm δ) (p : Params) (s : Key) (num : Nat) : Option (List (Option Hit)) := do
  let node ← Skip.skiplistFindLowerbound σ.mem σ.memtable s
  let iters ← σ.disk.zipIdx.mapM (levelIter σ p s)
  rounds σ p s num ⟨node, false, iters⟩

/-- `params->max--`, for a key that needs no data page. -/
def countDown (max : Int) : Option Hit → Int
  | some (.disk _ _) => max
  | _ => max - 1

/-- `max` after the rounds. -/
def dataMax (num : Nat) (hs : List (Option Hit)) : Int := hs.foldl countDown num

/-- mirrors algorithm/Lsmtree/lsmtree_multi.c:211-220: the data pages that are read -/
def dataRead : Option Hit → Option Nat
  | some (.disk _ e) => if e.ppa = noPpa then none else some (e.ppa.toNat / 16)
  | _ => none

def dataReads (hs : List (Option Hit)) : List Nat := hs.filterMap dataRead

/-! ## Runs for a key -/

/-- The range of the run has the key. -/
def Contains (r : ArrRun) (s : Key) : Prop := keycmp r.key s ≠ .gt ∧ keycmp r.stop s ≠ .lt

instance (r : ArrRun) (s : Key) : Decidable (Contains r s) := inferInstanceAs (Decidable (_ ∧ _))

/-- The run whose range has the key. -/
def foundRun (arrs : List ArrRun) (s : Key) : Option Nat := arrs.findIdx? fun r => Contains r s

section
variable {arrs : List ArrRun} {ess : List (List Ent)} {s : Key} {l : RangeLevel}

theorem contains_unique (A : Arranged arrs ess) {i j : Nat} (hi : i < arrs.length)
    (hj : j < arrs.length) (h : Contains arrs[i] s) (h' : Contains arrs[j] s) : i = j := by
  have before : ∀ a b (ha : a < arrs.length) (hb : b < arrs.length), Contains arrs[a] s →
      Contains arrs[b] s → ¬ a < b := by
    intro a b ha hb h h' hab
    have hlt := pairwise_iff_getElem.mp A.apart a b ha hb hab
    have hge : keycmp s (arrs[a]).stop ≠ .gt := by
      rw [Ne, keycmp_gt_iff]
      exact h.2
    exact h'.1 (keycmp_gt_iff.mpr (keycmp_lt_of_le hge hlt))
  have h1 := before i j hi hj h h'
  have h2 := before j i hj hi h' h
  omega

theorem foundRun_eq (A : Arranged arrs ess) {i : Nat} (hi : i < arrs.length)
    (h : Contains arrs[i] s) : foundRun arrs s = some i := by
  apply findIdx?_eq_some_iff_getElem.mpr
  refine ⟨hi, by simpa using h, fun j hj hc => ?_⟩
  have := contains_unique A (i := j) (j := i) (by omega) hi (by simpa using hc) h
  omega

theorem binarySearchFrom_spec (A : Arranged arrs ess) {fuel : Nat} {start stop : Int}
    (h0 : 0 ≤ start) (hlt : stop < arrs.length) (hle : start ≤ stop + 1)
    (hf : stop + 1 - start < fuel)
    (hout : ∀ (i : Nat) (hi : i < arrs.length), (i : Int) < start ∨ stop < i →
      ¬ Contains arrs[i] s) :
    binarySearchFrom arrs s fuel start stop = some (foundRun arrs s) := by
  induction fuel generalizing start stop with
  | zero => omega
  | succ fuel ih =>
    rw [binarySearchFrom]
    split
    · rename_i hse
      have hmid : (start + stop).tdiv 2 = (start + stop) / 2 :=
        Int.tdiv_eq_ediv_of_nonneg (by omega)
      obtain ⟨m, hm⟩ : ∃ m : Nat, (start + stop) / 2 = m := ⟨((start + stop) / 2).toNat, by omega⟩
      have hml : m < arrs.length := by omega
      have hat : arrAt arrs (m : Int) = some arrs[m] := by simp [arrAt, hml]
      simp only [hmid, hm, hat, bind_some, Int.toNat_natCast]
      have hapart := pairwise_iff_getElem.mp A.apart
      split
      · rename_i hc
        rw [foundRun_eq A hml hc]
      · rename_i hc
        split
        · rename_i hgt
          refine ih h0 (by omega) (by omega) (by omega) fun i hi hio hci => ?_
          rcases hio with hio | hio
          · exact hout i hi (.inl hio) hci
          · rcases Nat.eq_or_lt_of_le (show m ≤ i by omega) with rfl | hmi
            · exact hci.1 hgt
            · -- the key is below run `m`, so below run `i`
              have h1 := keycmp_lt_of_le (A.range _ (getElem_mem hml)) (hapart m i hml hi hmi)
              exact hci.1 (keycmp_gt_iff.mpr (keycmp_trans (keycmp_gt_iff.mp hgt) h1))
        · rename_i hgt
          have hlt' : keycmp (arrs[m]).stop s = .lt := by
            by_contra hne
            exact hc ⟨hgt, hne⟩
          rw [if_pos hlt']
          refine ih (by omega) hlt (by omega) (by omega) fun i hi hio hci => ?_
          rcases hio with hio | hio
          · rcases Nat.eq_or_lt_of_le (show i ≤ m by omega) with rfl | him
            · exact hci.2 hlt'
            · have h1 := keycmp_lt_of_le (A.range _ (getElem_mem hml)) hlt'
              exact hci.2 (keycmp_trans (hapart i m hi hml him) h1)
          · exact hout i hi (.inr hio) hci
    · symm
      rw [some_inj, foundRun, findIdx?_eq_none_iff]
      intro r hr
      obtain ⟨i, hi, rfl⟩ := mem_iff_getElem.mp hr
      exact decide_eq_false (hout i hi (by omega))

theorem arrayBinarySearch_eq (A : Arranged arrs ess) (s : Key) :
    arrayBinarySearch arrs s = some (foundRun arrs s) := by
  apply binarySearchFrom_spec A
  · omega
  · omega
  · omega
  · omega
  · intro i hi h
    omega

/-- A level whose runs have the entries `ess`, within its range. -/
structure LevelWf (l : RangeLevel) (ess : List (List Ent)) : Prop where
  arranged : Arranged l.runs ess
  nonempty : ∀ es ∈ ess, es ≠ []
  low : ∀ r ∈ l.runs, keycmp l.start r.key ≠ .gt
  high : ∀ r ∈ l.runs, keycmp r.stop l.stop ≠ .gt

theorem findRunNum_eq (L : LevelWf l ess) (s : Key) (num : Nat) :
    findRunNum l s num = some ((foundRun l.runs s).map fun i => (l.arrs.drop i).take num) := by
  rw [findRunNum]
  by_cases hempty : l.arrs.isEmpty = true
  · have hnil : l.runs = [] := by simp [RangeLevel.runs, isEmpty_iff.mp hempty]
    rw [if_pos hempty, hnil]
    rfl
  · rw [if_neg hempty]
    split
    · -- outside the range of the level there is no run
      rename_i hout
      suffices hnone : foundRun l.runs s = none by rw [hnone]; rfl
      rw [foundRun, findIdx?_eq_none_iff]
      intro r hr
      refine decide_eq_false fun hc => ?_
      rcases hout with hgt | hlt
      · apply hc.1
        rw [keycmp_gt_iff] at hgt ⊢
        cases hk : keycmp l.start r.key with
        | lt => exact keycmp_trans hgt hk
        | eq => rwa [← keycmp_eq_iff.mp hk]
        | gt => exact absurd hk (L.low r hr)
      · exact hc.2 (keycmp_lt_of_le (L.high r hr) hlt)
    · rw [arrayBinarySearch_eq L.arranged]
      rfl

end

/-! ## The header pages that are at hand -/

section
variable {σ : Lsm δ} {s : Key} {n : Nat} {p : Params} {l : RangeLevel} {ess : List (List Ent)}

/-- Entry `j` of `mapping_data` is cleared for level `j`. -/
def erased (σ : Lsm δ) (s : Key) (j : Nat) : Bool :=
  decide (σ.levelCaching ≤ j) && (σ.disk[j]?).any fun l => (foundRun l.runs s).isNone

/-- Header page `j`, counted from the run that has the start key, of level `i`. -/
def pageOf (σ : Lsm δ) (s : Key) (i j : Nat) : Option Page :=
  if σ.levelCaching ≤ i then
    (σ.disk[i]?).bind fun l => (foundRun l.runs s).bind fun r => (l.runs[r + j]?).map (·.page)
  else none

/-- Entry `x` of `mapping_data` when the levels below `n` have been looked at. -/
def entryAt (σ : Lsm δ) (s : Key) (n x : Nat) : Option Page :=
  if erased σ s x && decide (x < n) then none
  else if x / 2 < n then pageOf σ s (x / 2) (x % 2) else none

structure Mapped (σ : Lsm δ) (s : Key) (n : Nat) (p : Params) : Prop where
  mapping : ∀ x, p.mapping x = entryAt σ s n x
  count : p.max = p.reads + ((σ.disk.length - n) * 2 : Nat)

theorem erased_eq (hl : σ.disk[n]? = some l) (hc : σ.levelCaching ≤ n) :
    erased σ s n = (foundRun l.runs s).isNone := by
  simp [erased, hl, hc]

theorem pageOf_eq (hl : σ.disk[n]? = some l) (hc : σ.levelCaching ≤ n) (j : Nat) :
    pageOf σ s n j = (foundRun l.runs s).bind fun r => (l.runs[r + j]?).map (·.page) := by
  simp [pageOf, hl, hc]

theorem entryAt_succ {x : Nat} (h : x / 2 ≠ n) (h' : x ≠ n ∨ erased σ s n = false) :
    entryAt σ s (n + 1) x = entryAt σ s n x := by
  have hlt : (erased σ s x && decide (x < n + 1)) = (erased σ s x && decide (x < n)) := by
    rcases h' with hx | he
    · have hiff : x < n + 1 ↔ x < n := by omega
      simp only [hiff]
    · by_cases hx : x = n
      · rw [hx, he, Bool.false_and, Bool.false_and]
      · have hiff : x < n + 1 ↔ x < n := by omega
        simp only [hiff]
  have hiff : x / 2 < n + 1 ↔ x / 2 < n := by omega
  simp only [entryAt, hlt, hiff]

theorem entryAt_none {x : Nat} (h : x / 2 = n) : entryAt σ s n x = none := by
  rw [entryAt]
  split
  · rfl
  · rw [if_neg (by omega)]

theorem entryAt_own {x : Nat} (h : x / 2 = n) (he : erased σ s n = false) :
    entryAt σ s (n + 1) x = pageOf σ s n (x % 2) := by
  have hno : (erased σ s x && decide (x < n + 1)) = false := by
    by_cases hx : x = n
    · rw [hx, he, Bool.false_and]
    · rw [decide_eq_false (by omega), Bool.and_false]
  rw [entryAt, hno, h, if_neg (by simp), if_pos (Nat.lt_succ_self n)]

theorem Mapped.skip (M : Mapped σ s n p) (hl : σ.disk[n]? = some l) (hc : σ.levelCaching ≤ n)
    (hnone : foundRun l.runs s = none) :
    Mapped σ s (n + 1) ⟨Function.update p.mapping n none, p.max - 2, p.reads⟩ := by
  have hlt : n < σ.disk.length := (List.getElem?_eq_some_iff.mp hl).1
  have her : erased σ s n = true := by rw [erased_eq hl hc, hnone]; rfl
  constructor
  · intro x
    dsimp only
    rw [Function.update_apply]
    split
    · rename_i hx
      rw [entryAt, hx, her]
      simp
    · rename_i hx
      rw [M.mapping]
      by_cases hown : x / 2 = n
      · rw [entryAt_none hown, entryAt, hown, pageOf_eq hl hc, hnone]
        simp
      · rw [entryAt_succ hown (.inl hx)]
  · have := M.count
    dsimp only
    omega

theorem Mapped.add (M : Mapped σ s n p) (hl : σ.disk[n]? = some l) (hc : σ.levelCaching ≤ n)
    {r : Nat} (hfound : foundRun l.runs s = some r) {p' : Params}
    (hmap : ∀ x, p'.mapping x =
      if x / 2 = n then ((l.runs[r + x % 2]?).map (·.page)).or (p.mapping x) else p.mapping x)
    (hmax : p'.max - p'.reads = p.max - p.reads - 2) : Mapped σ s (n + 1) p' := by
  have hlt : n < σ.disk.length := (List.getElem?_eq_some_iff.mp hl).1
  have her : erased σ s n = false := by rw [erased_eq hl hc, hfound]; rfl
  constructor
  · intro x
    rw [hmap, M.mapping]
    split
    · rename_i hown
      rw [entryAt_own hown her, pageOf_eq hl hc, hfound, entryAt_none hown, or_none]
      rfl
    · rename_i hown
      rw [entryAt_succ hown (.inr her)]
  · have := M.count
    omega

theorem foldl_addRun {rs : List RangeRun} {r : Nat} (hr : r < l.arrs.length)
    (hrs : rs = (l.arrs.drop r).take 2) (p : Params) :
    (∀ x, (rs.zipIdx.foldl (addRun n rs.length) p).mapping x =
      if x / 2 = n then ((l.runs[r + x % 2]?).map (·.page)).or (p.mapping x) else p.mapping x) ∧
    (rs.zipIdx.foldl (addRun n rs.length) p).max -
      (rs.zipIdx.foldl (addRun n rs.length) p).reads = p.max - p.reads - 2 := by
  have hrun : ∀ j (h : r + j < l.arrs.length),
      l.runs[r + j]? = some (l.arrs.get ⟨r + j, h⟩).toArrRun := by
    intro j h
    simp [RangeLevel.runs, h]
  have hzero := hrun 0 hr
  by_cases hr1 : r + 1 < l.arrs.length
  · have hone := hrun 1 hr1
    have hpair : rs = [l.arrs.get ⟨r, hr⟩, l.arrs.get ⟨r + 1, hr1⟩] := by
      rw [hrs, drop_eq_getElem_cons hr, drop_eq_getElem_cons hr1]
      rfl
    rw [hpair]
    generalize l.arrs.get ⟨r, hr⟩ = a at *
    generalize l.arrs.get ⟨r + 1, hr1⟩ = b at *
    constructor
    · intro x
      simp only [zipIdx_cons, zipIdx_nil, foldl_cons, foldl_nil, addRun,
        rangeGetNum, Function.update_apply]
      rcases Nat.mod_two_eq_zero_or_one x with h2 | h2
      · rw [if_neg (by omega), h2, hzero]
        by_cases hx : x / 2 = n
        · rw [if_pos (by omega), if_pos hx]
          rfl
        · rw [if_neg (by omega), if_neg hx]
      · rw [h2, hone]
        by_cases hx : x / 2 = n
        · rw [if_pos (by omega), if_pos hx]
          rfl
        · rw [if_neg (by omega), if_neg (by omega), if_neg hx]
    · simp only [zipIdx_cons, zipIdx_nil, foldl_cons, foldl_nil, addRun,
        rangeGetNum, length_cons, length_nil]
      cases a.cached <;> cases b.cached <;> simp <;> omega
  · have hsing : rs = [l.arrs.get ⟨r, hr⟩] := by
      rw [hrs, drop_eq_getElem_cons hr, drop_eq_nil_of_le (by omega)]
      rfl
    have hone : l.runs[r + 1]? = none := by
      simp [RangeLevel.runs]
      omega
    rw [hsing]
    generalize l.arrs.get ⟨r, hr⟩ = a at *
    constructor
    · intro x
      simp only [zipIdx_cons, zipIdx_nil, foldl_cons, foldl_nil, addRun,
        rangeGetNum, Function.update_apply]
      rcases Nat.mod_two_eq_zero_or_one x with h2 | h2
      · rw [h2, hzero]
        by_cases hx : x / 2 = n
        · rw [if_pos (by omega), if_pos hx]
          rfl
        · rw [if_neg (by omega), if_neg hx]
      · rw [if_neg (by omega), h2, hone]
        split <;> rfl
    · simp only [zipIdx_cons, zipIdx_nil, foldl_cons, foldl_nil, addRun,
        rangeGetNum, length_cons, length_nil]
      cases a.cached <;> simp <;> omega

theorem Mapped.level (M : Mapped σ s n p) (L : LevelWf l ess) (hl : σ.disk[n]? = some l)
    (hc : σ.levelCaching ≤ n) : ∃ p', readLevel s p (l, n) = some p' ∧ Mapped σ s (n + 1) p' := by
  rw [readLevel, findRunNum_eq L]
  cases hfound : foundRun l.runs s with
  | none => exact ⟨_, rfl, M.skip hl hc hfound⟩
  | some r =>
    obtain ⟨hr, -, -⟩ := findIdx?_eq_some_iff_getElem.mp hfound
    obtain ⟨hmap, hmax⟩ := foldl_addRun (n := n) (l := l)
      (by simpa [RangeLevel.runs] using hr) rfl p
    exact ⟨_, rfl, M.add hl hc hfound hmap hmax⟩

theorem Mapped.rest (M : Mapped σ s n p) (hc : σ.levelCaching ≤ n) (hn : n ≤ σ.disk.length)
    (L : ∀ l ∈ σ.disk, ∃ ess, LevelWf l ess) :
    ∃ p', (σ.disk.zipIdx.drop n).foldlM (readLevel s) p = some p' ∧
      Mapped σ s σ.disk.length p' := by
  induction hk : σ.disk.length - n generalizing n p with
  | zero =>
    rw [drop_eq_nil_of_le (by rw [length_zipIdx]; omega)]
    obtain rfl : n = σ.disk.length := by omega
    exact ⟨p, rfl, M⟩
  | succ k ih =>
    have hlt : n < σ.disk.length := by omega
    have hl : σ.disk[n]? = some σ.disk[n] := getElem?_eq_getElem hlt
    obtain ⟨ess, hess⟩ := L _ (getElem_mem hlt)
    obtain ⟨p1, hp1, M1⟩ := M.level hess hl hc
    obtain ⟨p2, hp2, M2⟩ := ih M1 (by omega) hlt (by omega)
    refine ⟨p2, ?_, M2⟩
    rw [drop_eq_getElem_cons (by rw [length_zipIdx]; exact hlt), foldlM_cons,
      getElem_zipIdx, zero_add, hp1]
    exact hp2

theorem mappingRead_spec (hc : σ.levelCaching ≤ σ.disk.length)
    (L : ∀ l ∈ σ.disk, ∃ ess, LevelWf l ess) (s : Key) :
    ∃ p, mappingRead σ s = some p ∧ p.max = p.reads ∧ ∀ i j, j < 2 → p.mapping (i * 2 + j) =
        if erased σ s (i * 2 + j) then none else pageOf σ s i j := by
  have M : Mapped σ s σ.levelCaching
      ⟨fun _ => none, ((σ.disk.length - σ.levelCaching) * rangeGetNum : Nat), 0⟩ := by
    refine ⟨fun x => ?_, by simp [rangeGetNum]⟩
    rw [entryAt]
    split
    · rfl
    · split
      · rw [pageOf, if_neg (by omega)]
      · rfl
  obtain ⟨p, hp, M⟩ := M.rest (le_rfl) hc L
  refine ⟨p, hp, ?_, fun i j hj => ?_⟩
  · have := M.count
    omega
  · have h1 : (i * 2 + j) / 2 = i := by omega
    have h2 : (i * 2 + j) % 2 = j := by omega
    rw [M.mapping, entryAt, h1, h2]
    by_cases hx : i * 2 + j < σ.disk.length
    · rw [decide_eq_true hx, Bool.and_true]
      split
      · rfl
      · rw [if_pos (by omega)]
    · have her : erased σ s (i * 2 + j) = false := by
        simp [erased, getElem?_eq_none (le_of_not_gt hx)]
      simp only [her, Bool.false_and, Bool.false_eq_true, if_false]
      split
      · rfl
      · rw [pageOf, getElem?_eq_none (by omega)]
        simp

end

/-! ## What a level shows -/

/-- The entries that an iterator comes to: not the last of the page, and none from an
address `UINT_MAX` on. -/
def cut (es : List Ent) : List Ent := es.dropLast.takeWhile (·.ppa ≠ noPpa)

def fromKey (s : Key) (es : List Ent) : List Ent := es.filter fun x => keycmp x.key s ≠ .lt

structure PageAt (page : Page) (es : List Ent) : Prop where
  encodes : Encodes page es
  fits : FitsPage es
  sorted : Sorted es
  nonempty : es ≠ []

section
variable {page : Page} {es : List Ent} {e : Ent} {s : Key} {idx : Nat}

theorem cut_eq_cons {l : List Ent} (h : l.dropLast.head? = some e) (he : e.ppa ≠ noPpa) :
    cut l = e :: cut l.tail := by
  cases l with
  | nil => cases h
  | cons x l =>
    cases l with
    | nil => cases h
    | cons y l =>
      cases (show x = e by simpa using h)
      simp [cut, he]

theorem cut_eq_nil {l : List Ent} (h : l.dropLast.head?.filter (·.ppa ≠ noPpa) = none) :
    cut l = [] := by
  unfold cut
  cases hl : l.dropLast with
  | nil => rfl
  | cons x l =>
    rw [hl, head?_cons] at h
    have hx : x.ppa = noPpa := by simpa [filter] using h
    simp [hx]

theorem PageAt.nextKey (P : PageAt page es) (hidx : 1 ≤ idx) :
    headerNextKey (some ⟨page, idx⟩) = some ((es.drop (idx - 1)).dropLast.head?,
        (es.drop (idx - 1)).dropLast.head?.map fun _ => ⟨page, idx + 1⟩) := by
  obtain ⟨i, rfl⟩ : ∃ i, idx = i + 1 := ⟨idx - 1, by omega⟩
  rw [headerNextKey, P.encodes.slot_zero, bind_some]
  dsimp only
  split
  · rename_i hlt
    have hi : i < es.length := by omega
    have hne : es.drop (i + 1) ≠ [] := by
      rw [Ne, drop_eq_nil_iff]
      omega
    rw [readEntry_eq P.encodes P.fits hi, Nat.add_sub_cancel, drop_eq_getElem_cons hi,
      dropLast_cons_of_ne_nil hne]
    rfl
  · have hnil : (es.drop (i + 1 - 1)).dropLast = [] := by
      rw [← length_eq_zero_iff, length_dropLast, length_drop]
      omega
    rw [hnil]
    rfl

theorem PageAt.pick (P : PageAt page es) (hidx : 1 ≤ idx) :
    headerNextKeyPick ⟨page, idx⟩ = some (es.drop (idx - 1)).dropLast.head? := by
  rw [headerNextKeyPick_eq, P.nextKey hidx]
  rfl

theorem PageAt.getKeyiter (P : PageAt page es) (s : Key) :
    ∃ b, headerGetKeyiter page s = some ⟨page, b⟩ ∧ 1 ≤ b ∧ es.drop (b - 1) = fromKey s es := by
  obtain ⟨b, hb, B⟩ := findIdxLowerBound_spec P.encodes P.fits P.sorted P.nonempty s
  exact ⟨b, by rw [headerGetKeyiter, hb]; rfl, B.pos, B.drop_eq⟩

end

/-! ## The iterator of a level -/

section
variable {caching : Bool} {mapping : Nat → Option Page} {s : Key} {i : Nat} {it : LevelIter}
  {rem : List Ent}

/-- What is to come on the next page. -/
inductive Later (caching : Bool) (mapping : Nat → Option Page) (s : Key) (i : Nat) :
    Nat → List Ent → Prop
  | none {cnt : Nat} (h : caching = true ∨ cnt ≥ 2 ∨ mapping (i * 2 + cnt) = none) :
      Later caching mapping s i cnt []
  | page {page : Page} {es : List Ent} (hc : caching = false)
      (hm : mapping (i * 2 + 1) = some page) (P : PageAt page es) :
      Later caching mapping s i 1 (cut (fromKey s es))

/-- The iterator of level `i` has the entries `rem` before it. -/
inductive LevelAt (caching : Bool) (mapping : Nat → Option Page) (s : Key) (i : Nat) :
    LevelIter → List Ent → Prop
  | off {cnt : Nat} : LevelAt caching mapping s i ⟨none, cnt⟩ []
  | on {page : Page} {es : List Ent} {idx cnt : Nat} {later : List Ent} (P : PageAt page es)
      (hidx : 1 ≤ idx) (hl : Later caching mapping s i cnt later) :
      LevelAt caching mapping s i ⟨some ⟨page, idx⟩, cnt⟩ (cut (es.drop (idx - 1)) ++ later)

/-- It also stands at the first of them, and can be moved on. -/
structure Ready (caching : Bool) (mapping : Nat → Option Page) (s : Key) (i : Nat)
    (it : LevelIter) (rem : List Ent) : Prop where
  level : LevelAt caching mapping s i it rem
  next : ∀ e rest, rem = e :: rest → ∃ iter, headerNextKey it.iter = some (some e, iter) ∧
    LevelAt caching mapping s i ⟨iter, it.cnt⟩ rest

theorem pickLevel_here {page : Page} {es : List Ent} {idx cnt fuel : Nat} {later : List Ent}
    {e : Ent} (P : PageAt page es) (hidx : 1 ≤ idx) (hl : Later caching mapping s i cnt later)
    (he : (es.drop (idx - 1)).dropLast.head? = some e) (hp : e.ppa ≠ noPpa) :
    pickLevel caching mapping s i (fuel + 1) ⟨some ⟨page, idx⟩, cnt⟩ =
        some ((cut (es.drop (idx - 1)) ++ later).head?, ⟨some ⟨page, idx⟩, cnt⟩) ∧
      Ready caching mapping s i ⟨some ⟨page, idx⟩, cnt⟩ (cut (es.drop (idx - 1)) ++ later) := by
  have hcut := cut_eq_cons he hp
  have hpick : pickLevel caching mapping s i (fuel + 1) ⟨some ⟨page, idx⟩, cnt⟩ =
      some (some e, ⟨some ⟨page, idx⟩, cnt⟩) := by
    simp [pickLevel, P.pick hidx, he, Option.filter, hp]
  refine ⟨by rw [hpick, hcut]; rfl, .on P hidx hl, fun e' rest hrest => ?_⟩
  rw [hcut, cons_append, cons.injEq] at hrest
  obtain ⟨rfl, rfl⟩ := hrest
  refine ⟨some ⟨page, idx + 1⟩, by rw [P.nextKey hidx, he]; rfl, ?_⟩
  have htail : (es.drop (idx - 1)).tail = es.drop (idx + 1 - 1) := by
    rw [tail_drop]
    congr 1
    omega
  rw [htail]
  exact .on P (by omega) hl

theorem pickLevel_stop {page : Page} {es : List Ent} {idx cnt fuel : Nat} (P : PageAt page es)
    (hidx : 1 ≤ idx) (he : (es.drop (idx - 1)).dropLast.head?.filter (·.ppa ≠ noPpa) = none)
    (hnone : caching = true ∨ cnt ≥ 2 ∨ mapping (i * 2 + cnt) = none) :
    pickLevel caching mapping s i (fuel + 1) ⟨some ⟨page, idx⟩, cnt⟩ =
        some ((cut (es.drop (idx - 1)) ++ []).head?, ⟨some ⟨page, idx⟩, cnt⟩) ∧
      Ready caching mapping s i ⟨some ⟨page, idx⟩, cnt⟩ (cut (es.drop (idx - 1)) ++ []) := by
  have hcut := cut_eq_nil he
  refine ⟨?_, .on P hidx (.none hnone), fun e rest h => ?_⟩
  · rw [hcut, pickLevel]
    dsimp only
    rw [P.pick hidx, bind_some]
    simp only [he]
    by_cases hc : caching = true ∨ cnt ≥ rangeGetNum
    · rw [if_pos hc]
      rfl
    · have hm : mapping (i * rangeGetNum + cnt) = none := by
        simp only [rangeGetNum] at hc ⊢
        tauto
      rw [if_neg hc, hm]
      rfl
  · rw [hcut] at h
    cases h

theorem pickLevel_turn {page page' : Page} {es : List Ent} {idx b fuel : Nat} (P : PageAt page es)
    (hidx : 1 ≤ idx) (he : (es.drop (idx - 1)).dropLast.head?.filter (·.ppa ≠ noPpa) = none)
    (hc : caching = false) (hm : mapping (i * 2 + 1) = some page')
    (hb : headerGetKeyiter page' s = some ⟨page', b⟩) :
    pickLevel caching mapping s i (fuel + 1) ⟨some ⟨page, idx⟩, 1⟩ =
      pickLevel caching mapping s i fuel ⟨some ⟨page', b⟩, 2⟩ := by
  have hm' : mapping (i * rangeGetNum + 1) = some page' := hm
  rw [pickLevel]
  dsimp only
  rw [P.pick hidx, bind_some]
  simp only [he]
  rw [if_neg (by simp [hc, rangeGetNum]), hm']
  dsimp only
  rw [hb, bind_some]

theorem pickLevel_spec (h : LevelAt caching mapping s i it rem) :
    ∃ it', pickLevel caching mapping s i rangeGetNum it = some (rem.head?, it') ∧
      Ready caching mapping s i it' rem := by
  cases h with
  | off => exact ⟨_, rfl, .off, fun e rest h => (nomatch h)⟩
  | @on page es idx cnt later P hidx hl =>
    cases he : (es.drop (idx - 1)).dropLast.head?.filter (·.ppa ≠ noPpa) with
    | some e =>
      obtain ⟨he, hp⟩ := filter_eq_some_iff.mp he
      exact ⟨_, pickLevel_here P hidx hl he (by simpa using hp)⟩
    | none =>
      cases hl with
      | none hnone => exact ⟨_, pickLevel_stop P hidx he hnone⟩
      | @page page' es' hc hm P' =>
        obtain ⟨b, hb, hpos, hdrop⟩ := P'.getKeyiter s
        have hlast : caching = true ∨ 2 ≥ 2 ∨ mapping (i * 2 + 2) = none := .inr (.inl (le_refl 2))
        rw [cut_eq_nil he, nil_append, rangeGetNum, pickLevel_turn P hidx he hc hm hb, ← hdrop,
          ← append_nil (cut _)]
        cases he' : (es'.drop (b - 1)).dropLast.head?.filter (·.ppa ≠ noPpa) with
        | some e =>
          obtain ⟨he', hp⟩ := filter_eq_some_iff.mp he'
          exact ⟨_, pickLevel_here P' hpos (.none hlast) he' (by simpa using hp)⟩
        | none => exact ⟨_, pickLevel_stop P' hpos he' hlast⟩

end

end FlashDriver.Lsmtree.RangeGet
