import FlashDriver.Lsmtree.Skiplist

/-!
# The order of keys and the sentinel of the skiplist

`KEYCMP` orders the byte strings (`Key`), and `key_max`, the longest string
of `0xff` bytes, is the key of a skiplist's header. A search follows a list
of next pointers as long as the keys are below the sought one, or not above
it, and has no other test for the end of the list: it stops because the
header's key is neither.

* `below_keyMax`: every other key is below `key_max`.
* `rangeSearch_spec`, `strictRangeSearch_spec`: the searches that pass equal
  keys end, too.
* `key_order`: the order, its agreement with `KEYTEST`, and the searches.
-/
namespace FlashDriver.Lsmtree.Skip

open List Option
open Core.SkipChain

variable {δ : Type} {m : Mem δ} {list : Skiplist} {ns pre post : List Nat} {key : Key}

/-! ## The order -/

theorem keycmp_append (a : Key) {ext : Key} (h : ext ≠ []) : keycmp a (a ++ ext) = .lt := by
  rw [keycmp_eq_compare]
  induction a with
  | nil =>
    cases ext with
    | nil => exact absurd rfl h
    | cons b ext => rfl
  | cons b a ih =>
    rw [List.cons_append, List.compare_cons_cons, ih]
    have hb : compare b b = .eq := Std.ReflCmp.compare_self
    rw [hb]
    rfl

theorem below_keyMax (hlen : key.length ≤ 255) (hne : key ≠ keyMax) : keycmp key keyMax = .lt := by
  have hle := keyMax_le hlen
  rw [keycmp_swap] at hle
  cases h : keycmp key keyMax with
  | lt => rfl
  | eq => exact absurd (keycmp_eq_iff.mp h) hne
  | gt =>
    rw [h] at hle
    exact absurd rfl hle

theorem keycmp_trichotomy (a b : Key) :
    (keycmp a b = .lt ∧ keycmp b a = .gt ∧ a ≠ b) ∨
    (keycmp a b = .eq ∧ keycmp b a = .eq ∧ a = b) ∨
    (keycmp a b = .gt ∧ keycmp b a = .lt ∧ a ≠ b) := by
  have hsw := keycmp_swap b a
  have hne : keycmp a b ≠ .eq → a ≠ b := fun h he => h (keycmp_eq_iff.mpr he)
  cases h : keycmp a b with
  | lt =>
    rw [h] at hsw
    exact .inl ⟨rfl, hsw, hne (by rw [h]; decide)⟩
  | eq =>
    rw [h] at hsw
    exact .inr (.inl ⟨rfl, hsw, keycmp_eq_iff.mp h⟩)
  | gt =>
    rw [h] at hsw
    exact .inr (.inr ⟨rfl, hsw, hne (by rw [h]; decide)⟩)

/-! ## Searches that pass equal keys -/

/-- `KEYCMP(x->key,key)<=0` -/
def Mem.upto (m : Mem δ) (key : Key) (x : Nat) : Bool := keycmp (m.node x).key key ≠ .gt

/-- The loops of the two functions below. -/
def searchUpto (m : Mem δ) (list : Skiplist) (key : Key) : Option (Nat × (Nat → Option Nat)) :=
  descend (fun i x => m.list x i) (m.upto key) m.next list.level list.header fun _ => none

/-- mirrors algorithm/Lsmtree/skiplist.c:95-132 -/
def skiplistRangeSearch (m : Mem δ) (list : Skiplist) (key : Key) : Option (Option Nat) :=
  if list.size = 0 then some none
  else do
    let (bf, _) ← searchUpto m list key
    let x ← m.list bf 1
    if m.upto key bf ∧ keycmp key (m.node x).key = .lt then some (some bf)
    else do
      let first ← m.list list.header 1
      some (if keycmp key (m.node first).key ≠ .gt then some first else none)

/-- mirrors algorithm/Lsmtree/skiplist.c:134-170 -/
def skiplistStrictRangeSearch (m : Mem δ) (list : Skiplist) (key : Key) : Option (Option Nat) :=
  if list.size = 0 then some none
  else do
    let (bf, _) ← searchUpto m list key
    let x ← m.list bf 1
    if m.upto key bf ∧ keycmp key (m.node x).key = .lt then some (some bf)
    else some (if keycmp (m.node bf).key keyMax = .eq then some x else none)

/-- The last node not above a key, or the first node when all are above it. -/
def floorNode (list : Skiplist) (pre post : List Nat) : Option Nat :=
  if pre ++ post = [] then none else some (pre.getLastD (post.headD list.header))

theorem upto_iff {x : Nat} : m.upto key x = false ↔ keycmp key (m.key x) = .lt := by
  rw [Mem.upto, decide_eq_false_iff_not, not_not, keycmp_gt_iff]

theorem upto_of_before {a b : Nat} (h : keycmp (m.key a) (m.key b) = .lt)
    (hb : m.upto key b = true) : m.upto key a = true := by
  by_contra ha
  rw [Bool.not_eq_true, upto_iff] at ha
  rw [upto_iff.mpr (keycmp_trans ha h)] at hb
  cases hb

theorem Wf.upto_header (W : Wf m list ns) (hkey : keycmp key keyMax = .lt) :
    m.upto key list.header = false := by
  rw [upto_iff, W.headKey]
  exact hkey

theorem Wf.next_above (W : Wf m list (pre ++ post)) (hkey : keycmp key keyMax = .lt)
    (hpost : ∀ n ∈ post, m.upto key n = false) :
    keycmp key (m.key (post.headD list.header)) = .lt := by
  cases post with
  | nil => exact upto_iff.mp (W.upto_header hkey)
  | cons q post => exact upto_iff.mp (hpost q mem_cons_self)

theorem Wf.upto_last (hpre : ∀ n ∈ pre, m.upto key n = true) (h : pre ≠ []) :
    m.upto key (pre.getLastD list.header) = true := by
  obtain ⟨p, pre, rfl⟩ := exists_cons_of_ne_nil h
  apply hpre
  rw [getLastD_cons]
  exact getLastD_mem_cons

theorem getLastD_ne_nil {pre : List Nat} (h : pre ≠ []) (a b : Nat) :
    pre.getLastD a = pre.getLastD b := by
  obtain ⟨p, pre, rfl⟩ := exists_cons_of_ne_nil h
  rw [getLastD_cons, getLastD_cons]

section
variable (W : Wf m list (pre ++ post)) (C : Counted m list (pre ++ post))
  (hkey : keycmp key keyMax = .lt) (hpre : ∀ n ∈ pre, m.upto key n = true)
  (hpost : ∀ n ∈ post, m.upto key n = false)
include W C hkey hpre hpost

theorem rangeSearch_spec : skiplistRangeSearch m list key = some (floorNode list pre post) := by
  have hhead := W.upto_header hkey
  obtain ⟨u, hu, -⟩ := W.descend_of hhead hpre hpost
  have hnext := W.next_above hkey hpost
  rw [skiplistRangeSearch, C.size, floorNode]
  by_cases h0 : pre ++ post = []
  · rw [h0, if_pos length_nil, if_pos rfl]
  · rw [if_neg (by simpa using h0), if_neg h0, searchUpto, hu]
    simp only [bind_eq_bind, bind_some, W.next]
    by_cases hp : pre = []
    · -- the header's key is not below the sought one, and the first node's is above it
      subst hp
      have hfirst : m.list list.header 1 = some (post.headD list.header) := W.next
      simp only [getLastD_nil, hhead, Bool.false_eq_true, false_and, if_false, hfirst, bind_some]
      have hlt : keycmp key (m.node (post.headD list.header)).key ≠ .gt := by
        rw [show keycmp key (m.node (post.headD list.header)).key = .lt from hnext]
        decide
      rw [if_pos hlt]
    · rw [if_pos ⟨Wf.upto_last hpre hp, hnext⟩, getLastD_ne_nil hp]

theorem strictRangeSearch_spec :
    skiplistStrictRangeSearch m list key = some (floorNode list pre post) := by
  have hhead := W.upto_header hkey
  obtain ⟨u, hu, -⟩ := W.descend_of hhead hpre hpost
  have hnext := W.next_above hkey hpost
  rw [skiplistStrictRangeSearch, C.size, floorNode]
  by_cases h0 : pre ++ post = []
  · rw [h0, if_pos length_nil, if_pos rfl]
  · rw [if_neg (by simpa using h0), if_neg h0, searchUpto, hu]
    simp only [bind_eq_bind, bind_some, W.next]
    by_cases hp : pre = []
    · subst hp
      have hmax : keycmp (m.node list.header).key keyMax = .eq := keycmp_eq_iff.mpr W.headKey
      simp only [getLastD_nil, hhead, Bool.false_eq_true, false_and, if_false, hmax, if_true]
    · rw [if_pos ⟨Wf.upto_last hpre hp, hnext⟩, getLastD_ne_nil hp]

end

/-! ## The result -/

theorem find_returns (W : Wf m list ns) (C : Counted m list ns) (hlen : key.length ≤ 255) :
    ∃ r, skiplistFind m list key = some r ∧
      (key ≠ keyMax → ∀ n, r = some n ↔ n ∈ ns ∧ m.key n = key) := by
  by_cases hmax : key = keyMax
  · -- the walk ends at the header as for the lower bound
    obtain ⟨pre, post, rfl, hpre, hpost⟩ := W.split key
    have hhead : m.before key list.header = false := by
      rw [Mem.before, decide_eq_false_iff_not,
        show (m.node list.header).key = keyMax from W.headKey]
      exact keyMax_le hlen
    obtain ⟨u, hu, -⟩ := W.search_of hhead hpre hpost
    rw [skiplistFind, hu]
    simp only [bind_eq_bind, bind_some, W.next]
    split
    · exact ⟨none, rfl, fun h => absurd hmax h⟩
    · exact ⟨_, rfl, fun h => absurd hmax h⟩
  · obtain ⟨r, hr, hn⟩ := find_spec W C (below_keyMax hlen hmax)
    exact ⟨r, hr, fun _ => hn⟩

/-- `KEYCMP` is a strict total order in which a proper prefix comes first, `KEYTEST` is its
equality, and `key_max` is above every other key, so that every search in a skiplist ends: the
first node that is not below the key, or the header when all nodes are below it. -/
theorem key_order :
    (∀ a b : Key, (keycmp a b = .lt ∧ keycmp b a = .gt ∧ a ≠ b) ∨
      (keycmp a b = .eq ∧ keycmp b a = .eq ∧ a = b) ∨
      (keycmp a b = .gt ∧ keycmp b a = .lt ∧ a ≠ b)) ∧
    (∀ a b c : Key, keycmp a b = .lt → keycmp b c = .lt → keycmp a c = .lt) ∧
    (∀ a ext : Key, ext ≠ [] → keycmp a (a ++ ext) = .lt) ∧
    (∀ a b : Key, keycmp a b = .eq ↔ keytest a b = true) ∧
    (∀ a : Key, a.length ≤ 255 → a ≠ keyMax → keycmp a keyMax = .lt) ∧
    (∀ (m : Mem δ) (list : Skiplist) (ns : List Nat), Wf m list ns → Counted m list ns →
      ∀ key : Key, key.length ≤ 255 → (∃ r, skiplistFind m list key = some r ∧
          (key ≠ keyMax → ∀ n, r = some n ↔ n ∈ ns ∧ m.key n = key)) ∧
        (∃ pre post, ns = pre ++ post ∧ (∀ n ∈ pre, keycmp (m.key n) key = .lt) ∧
          (∀ n ∈ post, keycmp (m.key n) key ≠ .lt) ∧
          skiplistFindLowerbound m list key =
            some (if ns = [] then none else some (post.headD list.header))) ∧
        (key ≠ keyMax → ∃ pre post, ns = pre ++ post ∧ (∀ n ∈ pre, keycmp (m.key n) key ≠ .gt) ∧
          (∀ n ∈ post, keycmp (m.key n) key = .gt) ∧
          skiplistRangeSearch m list key = some (floorNode list pre post) ∧
          skiplistStrictRangeSearch m list key = some (floorNode list pre post))) := by
  refine ⟨keycmp_trichotomy, fun _ _ _ => keycmp_trans, fun a ext => keycmp_append a,
    fun a b => keycmp_eq_iff.trans keytest_iff.symm, fun _ => below_keyMax, ?_⟩
  intro m list ns W C key hlen
  refine ⟨find_returns W C hlen, ?_, fun hne => ?_⟩
  · obtain ⟨pre, post, he, hpre, hpost, hr⟩ := lowerbound_spec W C hlen
    exact ⟨pre, post, he, fun n hn => by simpa [Mem.before] using hpre n hn,
      fun n hn => by simpa [Mem.before] using hpost n hn, hr⟩
  · obtain ⟨pre, post, rfl, hpre, hpost⟩ := W.split_of (p := m.upto key) fun _ _ => upto_of_before
    have hkey := below_keyMax hlen hne
    exact ⟨pre, post, rfl, fun n hn => by simpa [Mem.upto] using hpre n hn,
      fun n hn => by simpa [Mem.upto] using hpost n hn, rangeSearch_spec W C hkey hpre hpost,
      strictRangeSearch_spec W C hkey hpre hpost⟩

end FlashDriver.Lsmtree.Skip
