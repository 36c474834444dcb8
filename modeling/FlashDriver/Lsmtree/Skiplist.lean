import FlashDriver.Core.SkipChain
import FlashDriver.Lsmtree.Merge

/-!
# The skiplist of the memtable (`skiplist.c`)

Nodes live in a memory of `snode`s, each with its own array `list` of next
pointers; a read outside that array, or of a cell that was never set, is
`none`. The height of a new node comes from `getLevel`, so from the values
`rand()` returns.

* `Wf`: list `i` of a skiplist visits the nodes of height at least `i` in
  the order of their keys and returns to the header.
* `find_spec`: what a search returns.
* `insertNode_spec`: a node with a new key is linked in.
-/
namespace FlashDriver.Lsmtree.Skip

open List Option Function
open Core.SkipChain

variable {δ : Type}

/-! ## Nodes and lists -/

/-- mirrors algorithm/Lsmtree/skiplist.h:15-16 -/
def maxL : Nat := 30

def prob : Nat := 4

/-- mirrors algorithm/Lsmtree/lsmtree.c:178-180 -/
def keyMax : Key := replicate 255 255

/-- A `value_set`: its contents and its length. -/
structure ValueSet (δ : Type) where
  value : δ
  length : Nat

/-- mirrors algorithm/Lsmtree/skiplist.h:38-56; `cells` is the size of the array `list`. -/
structure Snode (δ : Type) where
  ppa : UInt32
  key : Key
  level : Nat
  value : Option (ValueSet δ)
  isvalid : Bool
  cells : Nat

/-- The nodes up to `next` are allocated; `list x i` is `x->list[i]`. -/
structure Mem (δ : Type) where
  node : Nat → Snode δ
  list : Nat → Nat → Option Nat
  next : Nat

/-- mirrors algorithm/Lsmtree/skiplist.h:71-79 -/
structure Skiplist where
  level : Nat
  size : Nat
  allLength : Nat
  header : Nat
  deriving DecidableEq

def Mem.put (m : Mem δ) (x i y : Nat) : Mem δ :=
  { m with list := fun a j => if a = x ∧ j = i then some y else m.list a j }

/-- `x->list[i]=y` -/
def Mem.setList (m : Mem δ) (x i y : Nat) : Option (Mem δ) :=
  if i < (m.node x).cells then some (m.put x i y) else none

/-- `malloc` of a node and of its array. -/
def Mem.alloc (m : Mem δ) (n : Snode δ) (cells : Nat → Option Nat) : Mem δ where
  node := update m.node m.next n
  list := update m.list m.next cells
  next := m.next + 1

/-- mirrors algorithm/Lsmtree/skiplist.c:30-55 -/
def skiplistInit (m : Mem δ) : Mem δ × Skiplist :=
  (m.alloc ⟨0, keyMax, 0, none, false, maxL + 1⟩ fun i => if i < maxL then some m.next else none,
    ⟨1, 0, 0, m.next⟩)

/-- mirrors include/settings.h:128-132 (`KEYTEST`) -/
def keytest (a b : Key) : Bool :=
  if a.length ≠ b.length then false
  else memcmp (if a.length > b.length then b.length else a.length) a b = .eq

/-- The loop of `getLevel`, where `level` calls of `rand()` were made. -/
def getLevelLoop (rand : Nat → Nat) : Nat → Nat → Nat
  | 0, level => level
  | fuel + 1, level =>
    if rand (level - 1) % prob = 1 then
      if level + 1 + 1 ≥ maxL then level + 1 else getLevelLoop rand fuel (level + 1)
    else level

/-- mirrors algorithm/Lsmtree/skiplist.c:172-181 -/
def getLevel (rand : Nat → Nat) : Nat := getLevelLoop rand maxL 1

/-- `KEYCMP(x->key,key)<0` -/
def Mem.before (m : Mem δ) (key : Key) (x : Nat) : Bool := keycmp (m.node x).key key = .lt

/-- The search that the functions below start with, from the top list down. -/
def search (m : Mem δ) (list : Skiplist) (key : Key) : Option (Nat × (Nat → Option Nat)) :=
  descend (fun i x => m.list x i) (m.before key) m.next list.level list.header fun _ => none

/-- mirrors algorithm/Lsmtree/skiplist.c:57-77 -/
def skiplistFind (m : Mem δ) (list : Skiplist) (key : Key) : Option (Option Nat) :=
  if list.size = 0 then some none
  else do
    let (x, _) ← search m list key
    let x ← m.list x 1
    some (if keytest (m.node x).key key then some x else none)

/-- mirrors algorithm/Lsmtree/skiplist.c:79-93; behind the last node comes the header -/
def skiplistFindLowerbound (m : Mem δ) (list : Skiplist) (key : Key) : Option (Option Nat) :=
  if list.size = 0 then some none
  else do
    let (x, _) ← search m list key
    let x ← m.list x 1
    some (some x)

/-! ## Inserting -/

/-- mirrors algorithm/Lsmtree/skiplist.c:630-633 -/
def linkLevel (x : Nat) (update : Nat → Option Nat) (m : Mem δ) (i : Nat) : Option (Mem δ) := do
  let u ← update i
  let y ← m.list u i
  let m ← m.setList x i y
  m.setList u i x

/-- mirrors algorithm/Lsmtree/skiplist.c:595-640 and 217-255: a new node with what the caller
gives it. -/
def insertNode (m : Mem δ) (list : Skiplist) (update : Nat → Option Nat) (key : Key) (ppa : UInt32)
    (value : Option (ValueSet δ)) (isvalid : Bool) (rand : Nat → Nat) :
    Option (Mem δ × Skiplist × Nat) := do
  let level := getLevel rand
  let update i := if list.level < i ∧ i ≤ level then some list.header else update i
  let x := m.next
  let m := m.alloc ⟨ppa, key, level, value, isvalid, level + 1⟩ fun _ => none
  let m ← (range' 1 level).foldlM (linkLevel x update) m
  some (m, { list with level := max list.level level, size := list.size + 1,
                       allLength := list.allLength + keylen key }, x)

/-- The pieces that a length in bytes takes. -/
def ValueSet.toPieces (v : ValueSet δ) : ValueSet δ :=
  { v with length := v.length / piece + if v.length % piece = 0 then 0 else 1 }

/-- mirrors algorithm/Lsmtree/skiplist.c:590-591 -/
def Mem.setValue (m : Mem δ) (x : Nat) (value : Option (ValueSet δ)) (isvalid : Bool) : Mem δ :=
  { m with node := update m.node x { m.node x with value := value, isvalid := isvalid } }

/-- mirrors algorithm/Lsmtree/skiplist.c:548-644: `data_size` is not kept, but the lengths that
are read for it are. -/
def skiplistInsert (m : Mem δ) (list : Skiplist) (key : Key) (value : Option (ValueSet δ))
    (deletef : Bool) (rand : Nat → Nat) : Option (Mem δ × Skiplist × Nat) := do
  let (x, update) ← search m list key
  let x ← m.list x 1
  let value := value.map ValueSet.toPieces
  if keytest key (m.node x).key then do
    let _ ← (m.node x).value   -- `x->value->length`, before the test of `x->value`
    let _ ← value              -- `value->length`
    some (m.setValue x value deletef, list, x)
  else do
    let r ← insertNode m list update key 0xFFFFFFFF value deletef rand
    let _ ← value              -- `value->length`
    some r

/-- mirrors algorithm/Lsmtree/skiplist.c:184-258: a key that is present aborts. -/
def skiplistInsertWP (m : Mem δ) (list : Skiplist) (key : Key) (ppa : UInt32) (deletef : Bool)
    (rand : Nat → Nat) : Option (Mem δ × Skiplist × Nat) := do
  let (x, update) ← search m list key
  let x ← m.list x 1
  if keytest key (m.node x).key then none
  else insertNode m list update key ppa none deletef rand

/-! ## Well-formed lists -/

abbrev Mem.nx (m : Mem δ) (i x : Nat) : Option Nat := m.list x i

abbrev Mem.height (m : Mem δ) (x : Nat) : Nat := (m.node x).level

abbrev Mem.key (m : Mem δ) (x : Nat) : Key := (m.node x).key

/-- The nodes of a skiplist, in the order of their keys. -/
structure Wf (m : Mem δ) (list : Skiplist) (ns : List Nat) : Prop where
  tower : Tower m.nx m.height (maxL - 1) list.header ns
  level : list.level = max 1 (tallest m.height ns)
  heights : ∀ n ∈ ns, 1 ≤ m.height n ∧ m.height n < maxL
  sorted : ns.Pairwise fun a b => keycmp (m.key a) (m.key b) = .lt
  below : ∀ n ∈ ns, keycmp (m.key n) keyMax = .lt
  headKey : m.key list.header = keyMax
  headCells : (m.node list.header).cells = maxL + 1
  cells : ∀ n ∈ ns, (m.node n).cells = m.height n + 1
  alloc : ∀ n ∈ list.header :: ns, n < m.next

/-- The bytes that the keys take in a header page. -/
def keyBytes (m : Mem δ) (ns : List Nat) : Nat := (ns.map fun n => keylen (m.key n)).sum

/-- `size` and `all_length` are those of the nodes. -/
structure Counted (m : Mem δ) (list : Skiplist) (ns : List Nat) : Prop where
  size : list.size = ns.length
  allLength : list.allLength = keyBytes m ns

theorem keytest_iff {a b : Key} : keytest a b = true ↔ a = b := by
  unfold keytest
  split
  · rename_i hne
    refine ⟨fun h => (by cases h), fun h => absurd (congrArg _ h) hne⟩
  · rename_i heq
    have heq : a.length = b.length := by simpa using heq
    rw [decide_eq_true_eq, ← keycmp_eq_iff, keycmp]
    by_cases h0 : a.length = 0
    · have hb : b.length = 0 := by omega
      rw [eq_nil_of_length_eq_zero h0, eq_nil_of_length_eq_zero hb]
      simp [memcmp]
    · have hb : ¬ b.length = 0 := by omega
      simp only [heq, hb, and_self, if_false, or_true, if_true]

theorem getLevelLoop_range {rand : Nat → Nat} {fuel level : Nat} (h1 : 1 ≤ level)
    (h2 : level + 1 < maxL) :
    1 ≤ getLevelLoop rand fuel level ∧ getLevelLoop rand fuel level < maxL := by
  induction fuel generalizing level with
  | zero => exact ⟨h1, Nat.lt_of_succ_lt h2⟩
  | succ fuel ih =>
    rw [getLevelLoop]
    split
    · split
      · exact ⟨by omega, h2⟩
      · exact ih (by omega) (by omega)
    · exact ⟨h1, Nat.lt_of_succ_lt h2⟩

theorem getLevel_range (rand : Nat → Nat) : 1 ≤ getLevel rand ∧ getLevel rand < maxL :=
  getLevelLoop_range (le_refl 1) (by decide)

section
variable {m m' : Mem δ} {list : Skiplist} {ns pre post : List Nat} {key : Key} {res : Nat}

theorem Wf.level_lt (W : Wf m list ns) : list.level < maxL := by
  rw [W.level, Nat.max_lt]
  exact ⟨by decide, tallest_lt (by decide) fun n hn => (W.heights n hn).2⟩

/-- What the links depend on in a node. -/
structure SameShape (n n' : Snode δ) : Prop where
  key : n'.key = n.key
  level : n'.level = n.level
  cells : n'.cells = n.cells

theorem SameShape.of_eq {n n' : Snode δ} (h : n' = n) : SameShape n n' := by
  subst h
  exact ⟨rfl, rfl, rfl⟩

theorem Wf.frame (W : Wf m list ns)
    (hnode : ∀ n ∈ list.header :: ns, SameShape (m.node n) (m'.node n))
    (hlist : ∀ n ∈ list.header :: ns, m'.list n = m.list n) (hnext : m.next ≤ m'.next) :
    Wf m' list ns := by
  have hns : ∀ n ∈ ns, SameShape (m.node n) (m'.node n) := fun n hn =>
    hnode n (.tail _ hn)
  have hheight : ∀ n ∈ ns, m'.height n = m.height n := fun n hn => (hns n hn).level
  have hkey : ∀ n ∈ ns, m'.key n = m.key n := fun n hn => (hns n hn).key
  have hh := hnode list.header mem_cons_self
  refine ⟨?_, ?_, ?_, ?_, ?_, ?_, ?_, ?_, ?_⟩
  · exact W.tower.congr hheight fun i a ha => by rw [Mem.nx, Mem.nx, hlist a ha]
  · rw [W.level, tallest_congr hheight]
  · intro n hn
    rw [hheight n hn]
    exact W.heights n hn
  · refine W.sorted.imp_of_mem fun {a b} ha hb hab => ?_
    rwa [hkey a ha, hkey b hb]
  · intro n hn
    rw [hkey n hn]
    exact W.below n hn
  · exact hh.key.trans W.headKey
  · exact hh.cells.trans W.headCells
  · intro n hn
    rw [hheight n hn, (hns n hn).cells]
    exact W.cells n hn
  · exact fun n hn => lt_of_lt_of_le (W.alloc n hn) hnext

theorem Wf.counters (W : Wf m list ns) (size allLength : Nat) :
    Wf m { list with size := size, allLength := allLength } ns :=
  ⟨W.tower, W.level, W.heights, W.sorted, W.below, W.headKey, W.headCells, W.cells, W.alloc⟩

@[simp] theorem keyBytes_nil : keyBytes m [] = 0 := rfl

@[simp] theorem keyBytes_cons (n : Nat) (ns : List Nat) :
    keyBytes m (n :: ns) = keylen (m.key n) + keyBytes m ns := by
  simp [keyBytes]

@[simp] theorem keyBytes_append (ns ms : List Nat) :
    keyBytes m (ns ++ ms) = keyBytes m ns + keyBytes m ms := by
  simp [keyBytes]

theorem keyBytes_congr (h : ∀ n ∈ ns, m'.key n = m.key n) : keyBytes m' ns = keyBytes m ns :=
  congrArg _ (map_congr_left fun n hn => by rw [h n hn])

theorem Counted.frame (C : Counted m list ns) (hkey : ∀ n ∈ ns, m'.key n = m.key n) :
    Counted m' list ns :=
  ⟨C.size, C.allLength.trans (keyBytes_congr hkey).symm⟩

theorem init_wf (m : Mem δ) : Wf (skiplistInit m).1 (skiplistInit m).2 [] := by
  have hnode : (skiplistInit m).1.node m.next = ⟨0, keyMax, 0, none, false, maxL + 1⟩ :=
    update_self ..
  refine ⟨⟨by simp, fun i _ hi => ?_⟩, rfl, by simp, .nil, by simp, ?_, ?_, by simp, fun n hn => ?_⟩
  · have hi : i < maxL := lt_of_le_of_lt hi (by decide)
    simp [row_nil, Mem.nx, skiplistInit, Mem.alloc, hi]
  · rw [Mem.key, skiplistInit]
    exact congrArg Snode.key hnode
  · exact congrArg Snode.cells hnode
  · rw [mem_singleton.mp hn]
    exact Nat.lt_succ_self _

theorem init_counted (m : Mem δ) : Counted (skiplistInit m).1 (skiplistInit m).2 [] := ⟨rfl, rfl⟩

theorem keycmp_keyMax (h : keyvalcheck key = true) : keycmp key keyMax = .lt := by
  cases key with
  | nil => cases h
  | cons b bs =>
    have hb : compare b 255 = .lt := by
      rw [keyvalcheck, decide_eq_true_eq] at h
      change compareOfLessAndEq _ _ = _
      rw [compareOfLessAndEq_eq_lt]
      exact UInt8.lt_trans h (by decide)
    rw [keycmp_eq_compare, keyMax, List.replicate_succ, List.compare_cons_cons, hb]
    rfl

theorem Wf.key_inj (W : Wf m list ns) {x y : Nat} (hx : x ∈ ns) (hy : y ∈ ns)
    (h : m.key x = m.key y) : x = y := by
  obtain ⟨pre, post, rfl⟩ := append_of_mem hx
  obtain ⟨-, hs, hcross⟩ := pairwise_append.mp W.sorted
  rcases mem_append.mp hy with hy | hy
  · have := hcross y hy x mem_cons_self
    rw [h] at this
    exact absurd this (keycmp_irrefl _)
  · rcases mem_cons.mp hy with rfl | hy
    · rfl
    · have := (pairwise_cons.mp hs).1 y hy
      rw [h] at this
      exact absurd this (keycmp_irrefl _)

/-! ## Searching -/

theorem Wf.split_of (W : Wf m list ns) {p : Nat → Bool}
    (hp : ∀ a b, keycmp (m.key a) (m.key b) = .lt → p b = true → p a = true) :
    ∃ pre post, ns = pre ++ post ∧ (∀ n ∈ pre, p n = true) ∧ ∀ n ∈ post, p n = false := by
  have hs := W.sorted
  clear W
  induction ns with
  | nil => exact ⟨[], [], rfl, by simp, by simp⟩
  | cons n ns ih =>
    obtain ⟨hn, hs⟩ := pairwise_cons.mp hs
    by_cases hb : p n = true
    · obtain ⟨pre, post, rfl, h1, h2⟩ := ih hs
      refine ⟨n :: pre, post, rfl, fun x hx => ?_, h2⟩
      rcases mem_cons.mp hx with rfl | hx
      · exact hb
      · exact h1 x hx
    · refine ⟨[], n :: ns, rfl, by simp, fun x hx => ?_⟩
      rcases mem_cons.mp hx with rfl | hx
      · simpa using hb
      · rw [Bool.eq_false_iff]
        exact fun hx' => hb (hp n x (hn x hx) hx')

theorem Wf.split (W : Wf m list ns) (key : Key) : ∃ pre post, ns = pre ++ post ∧
    (∀ n ∈ pre, m.before key n = true) ∧ ∀ n ∈ post, m.before key n = false := by
  refine W.split_of fun a b hab hb => ?_
  simp only [Mem.before, decide_eq_true_eq] at hb ⊢
  exact keycmp_trans hab hb

theorem Wf.fuel (W : Wf m list ns) : ns.length < m.next := by
  have hsub : (list.header :: ns).Subperm (range m.next) :=
    W.tower.nodup.subperm fun n hn => mem_range.mpr (W.alloc n hn)
  have h := hsub.length_le
  rwa [length_cons, length_range] at h

theorem Wf.row_one (W : Wf m list ns) (hsub : ∀ n ∈ pre, n ∈ ns) : row m.height 1 pre = pre := by
  rw [row, filter_eq_self]
  intro n hn
  simpa using (W.heights n (hsub n hn)).1

theorem Wf.descend_of (W : Wf m list (pre ++ post)) {p : Nat → Bool} (hhead : p list.header = false)
    (hpre : ∀ n ∈ pre, p n = true) (hpost : ∀ n ∈ post, p n = false) :
    ∃ update, descend (fun i x => m.list x i) p m.next list.level list.header (fun _ => none) =
        some (pre.getLastD list.header, update) ∧
      ∀ i, 1 ≤ i → i ≤ list.level → update i = some ((row m.height i pre).getLastD list.header) := by
  have hfuel := W.fuel
  rw [length_append] at hfuel
  have hlt := W.level_lt
  have htop : row m.height (list.level + 1) pre = [] := by
    rw [row_eq_nil_iff (by omega)]
    have hle := W.level
    rw [tallest_append] at hle
    omega
  have hf : pre.length < m.next := by omega
  obtain ⟨u', hd, hu'⟩ := descend_eq W.tower hpre hpost hhead hf (l := list.level) (by omega)
    fun _ => none
  rw [htop, W.row_one fun n => mem_append_left _] at hd
  refine ⟨u', hd, fun i h1 hi => ?_⟩
  rw [hu', if_pos ⟨h1, hi⟩]

theorem Wf.search_of (W : Wf m list (pre ++ post)) (hhead : m.before key list.header = false)
    (hpre : ∀ n ∈ pre, m.before key n = true) (hpost : ∀ n ∈ post, m.before key n = false) :
    ∃ update, search m list key = some (pre.getLastD list.header, update) ∧
      ∀ i, 1 ≤ i → i ≤ list.level → update i = some ((row m.height i pre).getLastD list.header) :=
  W.descend_of hhead hpre hpost

theorem Wf.search (W : Wf m list (pre ++ post)) (hkey : keycmp key keyMax = .lt)
    (hpre : ∀ n ∈ pre, m.before key n = true) (hpost : ∀ n ∈ post, m.before key n = false) :
    ∃ update, Skip.search m list key = some (pre.getLastD list.header, update) ∧
      ∀ i, 1 ≤ i → i ≤ list.level → update i = some ((row m.height i pre).getLastD list.header) := by
  refine W.search_of ?_ hpre hpost
  have := W.headKey
  simp only [Mem.before, Mem.key] at this ⊢
  rw [this, keycmp_swap, hkey]
  rfl

theorem Wf.next (W : Wf m list (pre ++ post)) :
    m.list (pre.getLastD list.header) 1 = some (post.headD list.header) := by
  have hc := W.tower.chain 1 (by decide) (by decide)
  rw [W.row_one fun n => id] at hc
  exact hc.suffix.head

theorem Wf.front_iff (W : Wf m list (pre ++ post)) (hkey : keycmp key keyMax = .lt)
    (hpre : ∀ n ∈ pre, m.before key n = true) (hpost : ∀ n ∈ post, m.before key n = false) (n : Nat) :
    n ∈ pre ++ post ∧ m.key n = key ↔
      n = post.headD list.header ∧ m.key (post.headD list.header) = key := by
  constructor
  · rintro ⟨hn, rfl⟩
    have hn : n ∈ post := by
      refine (mem_append.mp hn).resolve_left fun h => ?_
      have := hpre n h
      simp only [Mem.before, decide_eq_true_eq] at this
      exact keycmp_irrefl _ this
    cases post with
    | nil => cases hn
    | cons q post =>
      rcases mem_cons.mp hn with rfl | hn
      · exact ⟨rfl, rfl⟩
      · have hs := (pairwise_append.mp W.sorted).2.1
        have hlt := (pairwise_cons.mp hs).1 n hn
        have hq := hpost q mem_cons_self
        simp only [Mem.before, decide_eq_false_iff_not] at hq
        exact absurd hlt hq
  · rintro ⟨rfl, hk⟩
    refine ⟨?_, hk⟩
    cases post with
    | nil =>
      have hk : m.key list.header = key := hk
      rw [W.headKey] at hk
      rw [hk] at hkey
      exact absurd hkey (keycmp_irrefl _)
    | cons q post => exact mem_append_right _ mem_cons_self

theorem find_spec (W : Wf m list ns) (C : Counted m list ns) (hkey : keycmp key keyMax = .lt) :
    ∃ r, skiplistFind m list key = some r ∧ ∀ n, r = some n ↔ n ∈ ns ∧ m.key n = key := by
  by_cases h0 : list.size = 0
  · have hns : ns = [] := eq_nil_of_length_eq_zero (by rw [← C.size, h0])
    refine ⟨none, if_pos h0, fun n => ?_⟩
    simp [hns]
  · obtain ⟨pre, post, rfl, hpre, hpost⟩ := W.split key
    obtain ⟨u, hu, -⟩ := W.search hkey hpre hpost
    rw [skiplistFind, if_neg h0, hu]
    simp only [bind_eq_bind, bind_some, W.next]
    refine ⟨_, rfl, fun n => ?_⟩
    rw [W.front_iff hkey hpre hpost]
    split
    · rename_i ht
      simp only [some.injEq, Mem.key, keytest_iff.mp ht, and_true]
      exact eq_comm
    · rename_i ht
      rw [keytest_iff] at ht
      simp only [Mem.key, ht, and_false, reduceCtorEq]

theorem keyMax_le (h : key.length ≤ 255) : keycmp keyMax key ≠ .lt := by
  rw [keycmp_eq_compare, keyMax]
  generalize 255 = n at h
  induction n generalizing key with
  | zero =>
    rw [eq_nil_of_length_eq_zero (Nat.le_zero.mp h)]
    simp
  | succ n ih =>
    cases key with
    | nil => simp [replicate_succ]
    | cons b bs =>
      rw [List.replicate_succ, List.compare_cons_cons]
      have hb : compare (255 : UInt8) b ≠ .lt := by
        change compareOfLessAndEq _ _ ≠ _
        rw [Ne, compareOfLessAndEq_eq_lt, UInt8.not_lt, UInt8.le_iff_toNat_le]
        exact Nat.le_of_lt_succ b.toNat_lt
      cases hc : compare (255 : UInt8) b with
      | lt => exact absurd hc hb
      | eq => exact ih (Nat.le_of_succ_le_succ h)
      | gt => simp

theorem lowerbound_spec (W : Wf m list ns) (C : Counted m list ns) (hkey : key.length ≤ 255) :
    ∃ pre post, ns = pre ++ post ∧ (∀ n ∈ pre, m.before key n = true) ∧
      (∀ n ∈ post, m.before key n = false) ∧
      skiplistFindLowerbound m list key =
        some (if ns = [] then none else some (post.headD list.header)) := by
  obtain ⟨pre, post, rfl, hpre, hpost⟩ := W.split key
  refine ⟨pre, post, rfl, hpre, hpost, ?_⟩
  have hhead : m.before key list.header = false := by
    have := W.headKey
    simp only [Mem.before, Mem.key] at this ⊢
    rw [this, decide_eq_false_iff_not]
    exact keyMax_le hkey
  obtain ⟨u, hu, -⟩ := W.search_of hhead hpre hpost
  rw [skiplistFindLowerbound, C.size]
  by_cases h0 : pre ++ post = []
  · rw [if_pos h0, h0, length_nil, if_pos rfl]
  · rw [if_neg h0, if_neg (by simpa using h0), hu]
    simp only [bind_eq_bind, bind_some, W.next]

/-! ## Writing -/

@[simp] theorem put_node (x i y : Nat) : (m.put x i y).node = m.node := rfl

@[simp] theorem put_next (x i y : Nat) : (m.put x i y).next = m.next := rfl

theorem put_list (x i y a j : Nat) :
    (m.put x i y).list a j = if a = x ∧ j = i then some y else m.list a j := rfl

theorem setList_eq {x i : Nat} (y : Nat) (h : i < (m.node x).cells) :
    m.setList x i y = some (m.put x i y) := if_pos h

/-- `m'` has other links in list `i` only. -/
structure Relinked (m m' : Mem δ) (i : Nat) : Prop where
  node : m'.node = m.node
  next : m'.next = m.next
  list : ∀ j, j ≠ i → m'.nx j = m.nx j

theorem linkLevel_eq {x u y i : Nat} {update : Nat → Option Nat} (hu : update i = some u)
    (hy : m.list u i = some y) (hux : u ≠ x) (hcx : i < (m.node x).cells)
    (hcu : i < (m.node u).cells) :
    ∃ m', linkLevel x update m i = some m' ∧ Relinked m m' i ∧ Linked (m.nx i) (m'.nx i) u x := by
  rw [linkLevel, hu]
  simp only [bind_eq_bind, bind_some, hy, setList_eq y hcx]
  refine ⟨_, setList_eq x hcu, ⟨rfl, rfl, fun j hj => ?_⟩, ⟨?_, ?_, fun a hax hau => ?_⟩⟩
  · funext a
    simp [Mem.nx, put_list, hj]
  · simp [Mem.nx, put_list, hux.symm, hy]
  · simp [Mem.nx, put_list]
  · simp [Mem.nx, put_list, hax, hau]

theorem foldlM_linkLevel (x : Nat) (u : Nat → Nat) (update : Nat → Option Nat) (k : Nat)
    (hu : ∀ i, 1 ≤ i → i ≤ k → update i = some (u i) ∧ u i ≠ x ∧ (m.list (u i) i).isSome ∧
      i < (m.node x).cells ∧ i < (m.node (u i)).cells) :
    ∃ m', (range' 1 k).foldlM (linkLevel x update) m = some m' ∧ m'.node = m.node ∧
      m'.next = m.next ∧ (∀ i, 1 ≤ i → i ≤ k → Linked (m.nx i) (m'.nx i) (u i) x) ∧
      ∀ i, i = 0 ∨ k < i → m'.nx i = m.nx i := by
  induction k with
  | zero => exact ⟨m, rfl, rfl, rfl, fun i h1 h2 => by omega, fun i _ => rfl⟩
  | succ k ih =>
    obtain ⟨m1, hm1, hnode, hnext, hlinked, hsame⟩ := ih fun i h1 h2 => hu i h1 (by omega)
    obtain ⟨hupd, hux, hsome, hcx, hcu⟩ := hu (k + 1) (by omega) (by omega)
    obtain ⟨y, hy⟩ := isSome_iff_exists.mp hsome
    have hk := hsame (k + 1) (.inr (by omega))
    have hy1 : m1.list (u (k + 1)) (k + 1) = some y := (congrFun hk _).trans hy
    obtain ⟨m2, hm2, R, L⟩ := linkLevel_eq hupd hy1 hux (by rwa [hnode]) (by rwa [hnode])
    refine ⟨m2, ?_, R.node.trans hnode, R.next.trans hnext, fun i h1 h2 => ?_, fun i hi => ?_⟩
    · rw [range'_1_concat, foldlM_append, hm1, add_comm 1 k]
      simp [hm2]
    · by_cases hik : i = k + 1
      · subst hik
        rwa [hk] at L
      · rw [R.list i hik]
        exact hlinked i h1 (by omega)
    · rw [R.list i (by omega)]
      exact hsame i (by omega)

/-- Nodes outside `own` are left alone. -/
structure Beside (m m' : Mem δ) (own : List Nat) : Prop where
  node : ∀ n, n < m.next → n ∉ own → m'.node n = m.node n
  list : ∀ n, n < m.next → n ∉ own → m'.list n = m.list n
  next : m.next ≤ m'.next

theorem Wf.beside {own : List Nat} (W : Wf m list ns) (B : Beside m m' own)
    (hd : ∀ n ∈ list.header :: ns, n ∉ own) : Wf m' list ns :=
  W.frame (fun n hn => .of_eq (B.node n (W.alloc n hn) (hd n hn)))
    (fun n hn => B.list n (W.alloc n hn) (hd n hn)) B.next

theorem Wf.cell (W : Wf m list (pre ++ post)) {i : Nat} (hi : i < maxL) :
    i < (m.node ((row m.height i pre).getLastD list.header)).cells := by
  rcases mem_cons.mp (getLastD_mem_cons (l := row m.height i pre) (a := list.header)) with h | h
  · rw [h, W.headCells]
    omega
  · have hm := mem_row.mp h
    rw [W.cells _ (mem_append_left _ hm.1)]
    omega

theorem Wf.row_next (W : Wf m list (pre ++ post)) {i : Nat} (h1 : 1 ≤ i) (hi : i < maxL) :
    m.list ((row m.height i pre).getLastD list.header) i =
      some ((row m.height i post).headD list.header) := by
  have hc := W.tower.chain i h1 (by omega)
  rw [row_append] at hc
  exact hc.suffix.head

theorem beside_alloc (n : Snode δ) (cells : Nat → Option Nat) (own : List Nat) :
    Beside m (m.alloc n cells) own where
  node _ hx _ := update_of_ne (ne_of_lt hx) ..
  list _ hx _ := update_of_ne (ne_of_lt hx) ..
  next := Nat.le_succ _

theorem Wf.fresh (W : Wf m list ns) : m.next ∉ list.header :: ns :=
  fun h => lt_irrefl _ (W.alloc _ h)

theorem Wf.linked {list' : Skiplist} {x : Nat} (W : Wf m list (pre ++ post))
    (hpre : ∀ n ∈ pre, keycmp (m.key n) (m.key x) = .lt)
    (hpost : ∀ n ∈ post, keycmp (m.key x) (m.key n) = .lt) (hkey : keycmp (m.key x) keyMax = .lt)
    (hx : x < m.next) (hcells : (m.node x).cells = m.height x + 1)
    (hheight : 1 ≤ m.height x ∧ m.height x < maxL) (hnode : m'.node = m.node)
    (hnext : m'.next = m.next) (hheader : list'.header = list.header)
    (hlevel : list'.level = max list.level (m.height x))
    (T : Tower m'.nx m.height (maxL - 1) list.header (pre ++ x :: post)) :
    Wf m' list' (pre ++ x :: post) := by
  have hheights : m'.height = m.height := by
    funext n
    rw [Mem.height, Mem.height, hnode]
  have hkeys : m'.key = m.key := by
    funext n
    rw [Mem.key, Mem.key, hnode]
  have hall : ∀ {p : Nat → Prop}, p x → (∀ n ∈ pre ++ post, p n) → ∀ n ∈ pre ++ x :: post, p n := by
    intro p hpx hp n hn
    rw [mem_append, mem_cons] at hn
    rcases hn with hn | rfl | hn
    · exact hp n (mem_append_left _ hn)
    · exact hpx
    · exact hp n (mem_append_right _ hn)
  refine ⟨by rwa [hheights, hheader], ?_, ?_, ?_, ?_, ?_, ?_, ?_, ?_⟩
  · have h := W.level
    rw [tallest_append] at h
    rw [hheights, hlevel, tallest_append, tallest_cons]
    omega
  · rw [hheights]
    exact hall hheight W.heights
  · obtain ⟨hs1, hs2, hcross⟩ := pairwise_append.mp W.sorted
    rw [hkeys, pairwise_append, pairwise_cons]
    refine ⟨hs1, ⟨hpost, hs2⟩, fun a ha b hb => ?_⟩
    rcases mem_cons.mp hb with rfl | hb
    · exact hpre a ha
    · exact hcross a ha b hb
  · rw [hkeys]
    exact hall hkey W.below
  · rw [hkeys, hheader]
    exact W.headKey
  · rw [hnode, hheader]
    exact W.headCells
  · rw [hnode, hheights]
    exact hall hcells W.cells
  · intro n hn
    rw [hnext]
    rcases mem_cons.mp hn with rfl | hn
    · rw [hheader]
      exact W.alloc _ mem_cons_self
    · exact hall (p := fun n => n < m.next) hx (fun n hn => W.alloc n (.tail _ hn)) n hn

section
variable {update : Nat → Option Nat} (ppa : UInt32) (value : Option (ValueSet δ)) (isvalid : Bool)
  (rand : Nat → Nat)

theorem Wf.update_eq (W : Wf m list (pre ++ post)) {k : Nat} (hu : ∀ i, 1 ≤ i → i ≤ list.level →
      update i = some ((row m.height i pre).getLastD list.header)) :
    ∀ i, 1 ≤ i → i ≤ k → (if list.level < i ∧ i ≤ k then some list.header else update i) =
      some ((row m.height i pre).getLastD list.header) := by
  intro i h1 hi
  by_cases hgt : list.level < i
  · have hnil : row m.height i pre = [] := by
      rw [row_eq_nil_iff h1]
      have hle := W.level
      rw [tallest_append] at hle
      omega
    rw [if_pos ⟨hgt, hi⟩, hnil]
    rfl
  · rw [if_neg (fun h => hgt h.1), hu i h1 (by omega)]

theorem insertNode_spec (W : Wf m list (pre ++ post)) (hkey : keycmp key keyMax = .lt)
    (hpre : ∀ n ∈ pre, keycmp (m.key n) key = .lt) (hpost : ∀ n ∈ post, keycmp key (m.key n) = .lt)
    (hu : ∀ i, 1 ≤ i → i ≤ list.level →
      update i = some ((row m.height i pre).getLastD list.header)) :
    ∃ m' list', insertNode m list update key ppa value isvalid rand = some (m', list', m.next) ∧
      Wf m' list' (pre ++ m.next :: post) ∧ list'.header = list.header ∧
      list'.size = list.size + 1 ∧ list'.allLength = list.allLength + keylen key ∧
      m'.node = Function.update m.node m.next
        ⟨ppa, key, getLevel rand, value, isvalid, getLevel rand + 1⟩ ∧
      Beside m m' (list.header :: (pre ++ post)) ∧ m'.next = m.next + 1 := by
  have hrange := getLevel_range rand
  have hfresh := W.fresh
  -- the memory with the node, before it is linked in
  let n : Snode δ := ⟨ppa, key, getLevel rand, value, isvalid, getLevel rand + 1⟩
  let m1 := m.alloc n fun _ => none
  have W1 : Wf m1 list (pre ++ post) := W.beside (beside_alloc n _ []) fun _ _ => by simp
  have hx : m1.node m.next = n := update_self ..
  have hold : ∀ a ∈ pre ++ post, m1.node a = m.node a := fun a ha =>
    update_of_ne (fun h => hfresh (by rw [← h]; exact .tail _ ha)) ..
  have hrow : ∀ i, row m1.height i pre = row m.height i pre := fun i =>
    filter_congr fun a ha => by rw [Mem.height, Mem.height, hold a (mem_append_left _ ha)]
  have hkeys : ∀ a ∈ pre ++ post, m1.key a = m.key a := fun a ha => by
    rw [Mem.key, Mem.key, hold a ha]
  have hkx : m1.key m.next = key := by rw [Mem.key, hx]
  obtain ⟨m', hm', hnode, hnext, hlink, hsame⟩ := foldlM_linkLevel (m := m1) m.next
    (fun i => (row m.height i pre).getLastD list.header)
    (fun i => if list.level < i ∧ i ≤ getLevel rand then some list.header else update i)
    (getLevel rand) (by
      intro i h1 hi
      refine ⟨W.update_eq hu i h1 hi, fun h => ?_, ?_, ?_, ?_⟩
      · apply hfresh
        rw [← h]
        exact getLastD_row_mem fun a => mem_append_left _
      · rw [← hrow, W1.row_next h1 (by omega)]
        rfl
      · rw [hx]
        exact Nat.lt_succ_of_le hi
      · rw [← hrow]
        exact W1.cell (by omega))
  have hmnode : m'.node = Function.update m.node m.next n := hnode
  refine ⟨m', { list with level := max list.level (getLevel rand), size := list.size + 1,
                          allLength := list.allLength + keylen key },
    ?_, ?_, rfl, rfl, rfl, hmnode, ⟨fun a ha _ => ?_, fun a ha hown => ?_, ?_⟩, hnext⟩
  · rw [insertNode]
    simp only [bind_eq_bind]
    exact bind_eq_some_iff.mpr ⟨m', hm', rfl⟩
  · refine W1.linked (fun a ha => ?_) (fun a ha => ?_) ?_ (Nat.lt_succ_self _) ?_ ?_ hnode hnext rfl ?_ ?_
    · rw [hkx, hkeys a (mem_append_left _ ha)]
      exact hpre a ha
    · rw [hkx, hkeys a (mem_append_right _ ha)]
      exact hpost a ha
    · rwa [hkx]
    · rw [Mem.height, hx]
    · rw [Mem.height, hx]
      exact hrange
    · rw [Mem.height, hx]
    · refine W1.tower.insert hfresh (fun _ _ => rfl) (fun i h1 _ hi => ?_) fun i h1 _ hi a _ => ?_
      · rw [hrow]
        rw [Mem.height, hx] at hi
        exact hlink i h1 hi
      · rw [Mem.height, hx] at hi
        rw [hsame i (.inr hi)]
  · rw [hmnode]
    exact update_of_ne (ne_of_lt ha) ..
  · have hmem1 : m1.list a = m.list a := update_of_ne (ne_of_lt ha) ..
    rw [← hmem1]
    funext i
    by_cases hi : 1 ≤ i ∧ i ≤ getLevel rand
    · apply (hlink i hi.1 hi.2).other a (ne_of_lt ha)
      rintro rfl
      exact hown (getLastD_row_mem fun a => mem_append_left _)
    · exact congrFun (hsame i (by omega)) a
  · rw [hnext]
    exact Nat.le_succ _

/-- `n` is added to the nodes `ns` of a list, at `m.next`. -/
structure Inserted (m : Mem δ) (list : Skiplist) (ns : List Nat) (n : Snode δ) (m' : Mem δ)
    (list' : Skiplist) (ns' : List Nat) : Prop where
  perm : ns'.Perm (m.next :: ns)
  wf : Wf m' list' ns'
  counted : Counted m' list' ns'
  header : list'.header = list.header
  node : m'.node = Function.update m.node m.next n
  beside : Beside m m' (list.header :: ns)

theorem Wf.search_absent (W : Wf m list ns) (hkey : keycmp key keyMax = .lt)
    (habs : ∀ n ∈ ns, m.key n ≠ key) :
    ∃ pre post update, ns = pre ++ post ∧
      Skip.search m list key = some (pre.getLastD list.header, update) ∧
      keytest key (m.node (post.headD list.header)).key = false ∧
      (∀ n ∈ pre, keycmp (m.key n) key = .lt) ∧ (∀ n ∈ post, keycmp key (m.key n) = .lt) ∧
      ∀ i, 1 ≤ i → i ≤ list.level →
        update i = some ((row m.height i pre).getLastD list.header) := by
  obtain ⟨pre, post, rfl, hpre, hpost⟩ := W.split key
  obtain ⟨update, hs, hu⟩ := W.search hkey hpre hpost
  refine ⟨pre, post, update, rfl, hs, ?_, fun n hn => of_decide_eq_true (hpre n hn), fun n hn => ?_, hu⟩
  · rw [Bool.eq_false_iff, Ne, keytest_iff]
    intro heq
    have := (W.front_iff hkey hpre hpost _).mpr ⟨rfl, heq.symm⟩
    exact habs _ this.1 this.2
  · have hn' := of_decide_eq_false (hpost n hn)
    cases hc : keycmp key (m.key n) with
    | lt => rfl
    | eq => exact absurd (keycmp_eq_iff.mp hc).symm (habs n (mem_append_right _ hn))
    | gt => exact absurd (keycmp_gt_iff.mp hc) hn'

theorem insertNode_inserted (W : Wf m list ns) (C : Counted m list ns)
    (hkey : keycmp key keyMax = .lt) (habs : ∀ n ∈ ns, m.key n ≠ key) :
    ∃ x y update m' list' ns', Skip.search m list key = some (x, update) ∧ m.list x 1 = some y ∧
      keytest key (m.node y).key = false ∧
      insertNode m list update key ppa value isvalid rand = some (m', list', m.next) ∧
      Inserted m list ns ⟨ppa, key, getLevel rand, value, isvalid, getLevel rand + 1⟩ m' list' ns' := by
  obtain ⟨pre, post, update, rfl, hs, ht, hpre, hpost, hu⟩ := W.search_absent hkey habs
  obtain ⟨m', list', hins, W', hh, hsize, hall, hnode, B, -⟩ :=
    insertNode_spec ppa value isvalid rand W hkey hpre hpost hu
  have hperm : (pre ++ m.next :: post).Perm (m.next :: (pre ++ post)) := perm_middle
  have hbytes : keyBytes m' (pre ++ post) = keyBytes m (pre ++ post) := keyBytes_congr fun n hn => by
    have := W.alloc n (.tail _ hn)
    rw [Mem.key, Mem.key, hnode, update_of_ne (ne_of_lt this)]
  have hnew : m'.key m.next = key := by
    rw [Mem.key, hnode, Function.update_self]
  refine ⟨_, _, update, m', list', _, hs, W.next, ht, hins, hperm, W', ⟨?_, ?_⟩, hh, hnode, B⟩
  · rw [hsize, C.size, hperm.length_eq, length_cons]
  · have h := (hperm.map fun n => keylen (m'.key n)).sum_eq
    change keyBytes m' (pre ++ m.next :: post) = keyBytes m' (m.next :: (pre ++ post)) at h
    rw [hall, C.allLength, h, keyBytes_cons, hnew, hbytes, add_comm]

theorem insertWP_spec (W : Wf m list ns) (C : Counted m list ns) (hkey : keycmp key keyMax = .lt)
    (habs : ∀ n ∈ ns, m.key n ≠ key) :
    ∃ m' list' ns', skiplistInsertWP m list key ppa isvalid rand = some (m', list', m.next) ∧
      Inserted m list ns ⟨ppa, key, getLevel rand, none, isvalid, getLevel rand + 1⟩ m' list' ns' := by
  obtain ⟨x, y, update, m', list', ns', hs, hy, ht, hins, I⟩ :=
    insertNode_inserted ppa none isvalid rand W C hkey habs
  refine ⟨m', list', ns', ?_, I⟩
  rw [skiplistInsertWP, hs]
  simp only [bind_eq_bind, bind_some, hy, ht, Bool.false_eq_true, if_false]
  exact hins

theorem insert_absent (W : Wf m list ns) (C : Counted m list ns) (hkey : keycmp key keyMax = .lt)
    (habs : ∀ n ∈ ns, m.key n ≠ key) :
    (value = none → skiplistInsert m list key value isvalid rand = none) ∧
    ∀ v, value = some v → ∃ m' list' ns',
      skiplistInsert m list key value isvalid rand = some (m', list', m.next) ∧
      Inserted m list ns ⟨0xFFFFFFFF, key, getLevel rand, some v.toPieces, isvalid, getLevel rand + 1⟩
        m' list' ns' := by
  obtain ⟨x, y, update, m', list', ns', hs, hy, ht, hins, I⟩ :=
    insertNode_inserted 0xFFFFFFFF (value.map ValueSet.toPieces) isvalid rand W C hkey habs
  rw [skiplistInsert, hs]
  simp only [bind_eq_bind, bind_some, hy, ht, Bool.false_eq_true, if_false, hins]
  refine ⟨fun h => by rw [h]; rfl, fun v hv => ?_⟩
  rw [hv] at I ⊢
  exact ⟨m', list', ns', rfl, I⟩

theorem insert_present (W : Wf m list ns) (hkey : keycmp key keyMax = .lt) {n : Nat} (hn : n ∈ ns)
    (hk : m.key n = key) :
    (value = none ∨ (m.node n).value = none → skiplistInsert m list key value isvalid rand = none) ∧
    ∀ v, value = some v → (m.node n).value.isSome → skiplistInsert m list key value isvalid rand =
        some (m.setValue n (some v.toPieces) isvalid, list, n) := by
  obtain ⟨pre, post, rfl, hpre, hpost⟩ := W.split key
  obtain ⟨update, hs, -⟩ := W.search hkey hpre hpost
  obtain ⟨hfront, -⟩ := (W.front_iff hkey hpre hpost n).mp ⟨hn, hk⟩
  have ht : keytest key (m.node n).key = true := keytest_iff.mpr hk.symm
  have hnext := W.next
  rw [← hfront] at hnext
  rw [skiplistInsert, hs]
  simp only [bind_eq_bind, bind_some, hnext, ht, if_true]
  refine ⟨fun h => ?_, fun v hv hsome => ?_⟩
  · rcases h with h | h
    · rw [h]
      cases (m.node n).value <;> rfl
    · rw [h]
      rfl
  · obtain ⟨w, hw⟩ := isSome_iff_exists.mp hsome
    rw [hw, hv]
    rfl

end

end

end FlashDriver.Lsmtree.Skip
