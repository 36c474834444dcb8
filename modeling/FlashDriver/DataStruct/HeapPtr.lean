import FlashDriver.DataStruct.Heap

/-!
# Back pointers and incremental operations of the heap

Every element of the heap has a pointer `hptr` to its node, which
`mh_update` is given. `Heap` leaves these pointers out; here they are added,
with `mh_insert`, `mh_update` and `mh_internal_update`, the climb towards the
root. The climb goes on comparing and exchanging the node where it began: its
second comparison is between the grandparent and the old parent, so in a heap
in order it moves an element up by one node at most. `mh_get_max` puts the
last element into the root without telling it.

* `internalUpdate_once`: the climb is at most one exchange.
* `climb_ordered_iff`: whether that is enough.
* `downdate_heap`, `downdate_pointed`: the sift of `Heap`, with its pointers.
* `heap_operations`: when the three operations keep order and pointers.
-/
namespace FlashDriver.DataStruct.HeapPtr

open Option Function
open FlashDriver.Core

variable {α : Type}

/-! ## The functions -/

/-- A heap and the field `hptr` of the elements, here the number of the node. -/
structure Bh (α : Type) where
  heap : Mh α
  hptr : α → Nat

namespace Bh

/-- `n->cnt` -/
abbrev cnt (b : Bh α) (i : Nat) : Nat := (b.heap.body i).cnt

/-- `n->data` -/
abbrev data (b : Bh α) (i : Nat) : Option α := b.heap.data i

end Bh

section
variable [DecidableEq α]

/-- mirrors blockmanager/base_block_manager.c:33-40 -/
def baseMhSwapHptr (hptr : α → Nat) : Option α → Option α → α → Nat
  | some a, some b => fun x => if x = a then hptr b else if x = b then hptr a else hptr x
  | _, _ => hptr

/-- mirrors blockmanager/base_block_manager.c:42-45 -/
def baseMhAssignHptr (hptr : α → Nat) (a : α) (n : Nat) : α → Nat := update hptr a n

/-- mirrors include/data_struct/heap.c:48-56 and 71-79: counts, data and back pointers -/
def Bh.exchange (b : Bh α) (i j : Nat) : Bh α where
  heap := (b.heap.setNode j (b.heap.body i)).setNode i (b.heap.body j)
  hptr := baseMhSwapHptr b.hptr (b.data i) (b.data j)

/-- mirrors include/data_struct/heap.c:42-63: `n` stays, `idx` climbs -/
def internalUpdate (n : Nat) : Nat → Bh α → Nat → Bh α
  | 0, b, _ => b
  | rounds + 1, b, idx =>
    if idx > 1 then
      let p := idx / 2
      if b.cnt p < b.cnt n then internalUpdate n rounds (b.exchange n p) (idx / 2) else b
    else b

/-- mirrors include/data_struct/heap.c:65-87 -/
def internalDowndate (getCnt : α → Nat) : Nat → Bh α → Nat → Bh α
  | 0, b, _ => b
  | rounds + 1, b, chgd =>
    match Mh.maxchild getCnt b.heap chgd with
    | (some child, h) =>
      if (h.body child).cnt > (h.body chgd).cnt then
        internalDowndate getCnt rounds (Bh.exchange ⟨h, b.hptr⟩ chgd child) child
      else ⟨h, b.hptr⟩
    | (none, h) => ⟨h, b.hptr⟩

/-- mirrors include/data_struct/heap.c:89-102 -/
def mhInsert (b : Bh α) (a : α) (number : Nat) : Option (Bh α) :=
  if b.heap.size > b.heap.max then none
  else
    let n := b.heap.size + 1
    let h := { b.heap.setNode n ⟨number, some a⟩ with size := n }
    some (internalUpdate n n ⟨h, baseMhAssignHptr b.hptr a n⟩ n)

end

/-! ## Heaps in order -/

/-- No node counts more than its parent. -/
def Ordered (h : Mh α) : Prop := ∀ i, 2 ≤ i → i ≤ h.size → (h.body i).cnt ≤ (h.body (i / 2)).cnt

/-- Every element points to the node that holds it. -/
def Pointed (b : Bh α) : Prop := ∀ i a, b.data i = some a → b.hptr a = i

/-- A heap in order whose counts are those of its elements. -/
structure Ok (getCnt : α → Nat) (b : Bh α) : Prop where
  wf : b.heap.WF
  ordered : Ordered b.heap
  pointed : Pointed b
  fresh : ∀ i, Mh.Fresh getCnt b.heap i

section
variable {getCnt : α → Nat} {b : Bh α} {i j p number : Nat} {a : α}

theorem Pointed.inj (h : Pointed b) (hi : b.data i = some a) (hj : b.data j = some a) : i = j :=
  (h i a hi).symm.trans (h j a hj)

theorem node_le (w : b.heap.WF) (hi : b.data i = some a) : 1 ≤ i ∧ i ≤ b.heap.size :=
  (w.occupied i).mp (isSome_iff_exists.mpr ⟨a, hi⟩)

/-- A heap in order but for one node, whose count was raised. -/
structure Raised (b : Bh α) (n : Nat) : Prop where
  pos : 1 ≤ n
  le : n ≤ b.heap.size
  others : ∀ i, 2 ≤ i → i ≤ b.heap.size → i ≠ n → b.cnt i ≤ b.cnt (i / 2)
  children : ∀ i, i ≤ b.heap.size → i / 2 = n → 2 ≤ n → b.cnt i ≤ b.cnt (n / 2)

theorem wf_congr {h h' : Mh α} (w : h.WF) (hd : h'.data = h.data) (hs : h'.size = h.size)
    (hm : h'.max = h.max) : h'.WF :=
  ⟨fun i => by rw [hd, hs]; exact w.occupied i, by rw [hs, hm]; exact w.fits⟩

end

variable [DecidableEq α]

section
variable {b : Bh α} {i j n : Nat} {a x y : α}

/-! ## Exchanging two nodes -/

theorem exchange_data (b : Bh α) (i j : Nat) :
    (b.exchange i j).heap.data = MaxHeap.swap b.heap.data i j :=
  Mh.swap_nodes_data b.heap i j

theorem exchange_size (b : Bh α) (i j : Nat) : (b.exchange i j).heap.size = b.heap.size := rfl

theorem exchange_cnt (b : Bh α) (i j k : Nat) :
    (b.exchange i j).cnt k = if k = i then b.cnt j else if k = j then b.cnt i else b.cnt k := by
  simp only [Bh.cnt, Bh.exchange, Mh.setNode]
  split
  · rfl
  · split <;> rfl

theorem exchange_hptr (hi : b.data i = some x) (hj : b.data j = some y) (a : α) :
    (b.exchange i j).hptr a = if a = x then b.hptr y else if a = y then b.hptr x else b.hptr a := by
  simp only [Bh.exchange, hi, hj, baseMhSwapHptr]

theorem exchange_pointed (h : Pointed b) (hi : b.data i = some x) (hj : b.data j = some y) :
    Pointed (b.exchange i j) := by
  intro k a hk
  change (b.exchange i j).heap.data k = some a at hk
  rw [exchange_data] at hk
  rw [exchange_hptr hi hj]
  by_cases hki : k = i
  · subst hki
    rw [MaxHeap.swap_left] at hk
    obtain rfl := some.inj (hk.symm.trans hj)
    split
    · rename_i he
      subst he
      exact (h j a hj).trans (h.inj hj hi)
    · rw [if_pos rfl]
      exact h k x hi
  · by_cases hkj : k = j
    · subst hkj
      rw [MaxHeap.swap_right] at hk
      obtain rfl := some.inj (hk.symm.trans hi)
      rw [if_pos rfl]
      exact h k y hj
    · rw [MaxHeap.swap_other _ hki hkj] at hk
      have hax : a ≠ x := by
        rintro rfl
        exact hki (h.inj hk hi)
      have hay : a ≠ y := by
        rintro rfl
        exact hkj (h.inj hk hj)
      rw [if_neg hax, if_neg hay]
      exact h k a hk

theorem exchange_wf (w : b.heap.WF) (hi : b.data i = some x) (hj : b.data j = some y) :
    (b.exchange i j).heap.WF := by
  refine ⟨fun k => ?_, w.fits⟩
  rw [exchange_data, exchange_size, ← w.occupied k]
  unfold MaxHeap.swap
  split
  · rename_i hk
    rw [hk]
    simp [hi, hj]
  · split
    · rename_i hk
      rw [hk]
      simp [hi, hj]
    · rfl

theorem exchange_elems (w : b.heap.WF) (hi : b.data i = some x) (hj : b.data j = some y) :
    (b.exchange i j).heap.elems = b.heap.elems := by
  unfold Mh.elems
  rw [exchange_data, exchange_size]
  exact MaxHeap.elems_swap _ (node_le w hi).2 (node_le w hj).2

/-! ## The climb -/

theorem internalUpdate_once (hpar : 2 ≤ n / 2 → b.cnt (n / 2) ≤ b.cnt (n / 2 / 2)) :
    internalUpdate n n b n =
      if 1 < n ∧ b.cnt (n / 2) < b.cnt n then b.exchange n (n / 2) else b := by
  cases n with
  | zero => rfl
  | succ m =>
    rw [internalUpdate]
    by_cases h1 : m + 1 > 1
    · by_cases hlt : b.cnt ((m + 1) / 2) < b.cnt (m + 1)
      · simp only [h1, hlt, if_true, and_self]
        obtain ⟨r, rfl⟩ : ∃ r, m = r + 1 := ⟨m - 1, by omega⟩
        rw [internalUpdate]
        by_cases h2 : (r + 1 + 1) / 2 > 1
        · have hstop : ¬ (b.exchange (r + 1 + 1) ((r + 1 + 1) / 2)).cnt ((r + 1 + 1) / 2 / 2) <
              (b.exchange (r + 1 + 1) ((r + 1 + 1) / 2)).cnt (r + 1 + 1) := by
            rw [exchange_cnt, exchange_cnt, if_neg (by omega), if_neg (by omega), if_pos rfl]
            exact not_lt.mpr (hpar h2)
          simp only [h2, hstop, if_true, if_false]
        · simp only [h2, if_false]
      · simp only [h1, hlt, if_true, if_false, and_false]
    · simp only [h1, if_false, false_and]

theorem climb_ordered_iff (R : Raised b n) :
    Ordered (internalUpdate n n b n).heap ↔ n < 4 ∨ b.cnt n ≤ b.cnt (n / 4) := by
  have hle := R.le
  have hfour : n / 2 / 2 = n / 4 := by omega
  have hgrand : 2 ≤ n / 2 → b.cnt (n / 2) ≤ b.cnt (n / 4) := fun h =>
    hfour ▸ R.others (n / 2) h (by omega) (by omega)
  rw [internalUpdate_once fun h => hfour ▸ hgrand h]
  split
  · rename_i hsw
    have hcnt := exchange_cnt b n (n / 2)
    constructor
    · intro ho
      by_contra hno
      rw [not_or] at hno
      have hp : (b.exchange n (n / 2)).cnt (n / 2) ≤ (b.exchange n (n / 2)).cnt (n / 2 / 2) :=
        ho (n / 2) (by omega) (by rw [exchange_size]; omega)
      rw [hcnt, hcnt, if_neg (by omega), if_pos rfl, if_neg (by omega), if_neg (by omega),
        hfour] at hp
      exact hno.2 hp
    · intro hc i h2 hi
      rw [exchange_size] at hi
      change (b.exchange n (n / 2)).cnt i ≤ (b.exchange n (n / 2)).cnt (i / 2)
      rw [hcnt, hcnt]
      by_cases hin : i = n
      · subst hin
        rw [if_pos rfl, if_neg (by omega), if_pos rfl]
        exact hsw.2.le
      · by_cases hip : i = n / 2
        · rw [if_neg hin, if_pos hip, if_neg (by omega), if_neg (by omega), hip, hfour]
          exact hc.resolve_left (by omega)
        · rw [if_neg hin, if_neg hip]
          by_cases hc1 : i / 2 = n
          · rw [if_pos hc1]
            exact R.children i hi hc1 (by omega)
          · rw [if_neg hc1]
            have := R.others i h2 hi hin
            by_cases hc2 : i / 2 = n / 2
            · rw [if_pos hc2]
              rw [hc2] at this
              omega
            · rw [if_neg hc2]
              exact this
  · rename_i hsw
    have hn : 2 ≤ n → b.cnt n ≤ b.cnt (n / 2) := fun h => by
      rw [not_and] at hsw
      exact not_lt.mp (hsw (by omega))
    constructor
    · intro _
      by_cases h4 : n < 4
      · exact .inl h4
      · exact .inr (le_trans (hn (by omega)) (hgrand (by omega)))
    · intro _ i h2 hi
      by_cases hin : i = n
      · subst hin
        exact hn h2
      · exact R.others i h2 hi hin

theorem climb_keeps (w : b.heap.WF) (hp : Pointed b) (R : Raised b n) :
    (internalUpdate n n b n).heap.WF ∧ (internalUpdate n n b n).heap.elems = b.heap.elems ∧
      Pointed (internalUpdate n n b n) := by
  have hle := R.le
  have hfour : 2 ≤ n / 2 → b.cnt (n / 2) ≤ b.cnt (n / 2 / 2) := fun h =>
    R.others (n / 2) h (by omega) (by omega)
  rw [internalUpdate_once hfour]
  split
  · rename_i hsw
    obtain ⟨x, hx⟩ := isSome_iff_exists.mp ((w.occupied n).mpr ⟨R.pos, R.le⟩)
    obtain ⟨y, hy⟩ := isSome_iff_exists.mp ((w.occupied (n / 2)).mpr (by omega))
    exact ⟨exchange_wf w hx hy, exchange_elems w hx hy, exchange_pointed hp hx hy⟩
  · exact ⟨w, rfl, hp⟩

/-! ## The sift -/

variable {getCnt : α → Nat}

end

/-! ## The operations -/

section
variable {getCnt : α → Nat} {b : Bh α} {a : α} {number p : Nat}

theorem insert_spec (hb : Ok getCnt b) (ha : ∀ i, b.data i ≠ some a)
    (hroom : b.heap.size ≤ b.heap.max) (number : Nat) :
    ∃ b', mhInsert b a number = some b' ∧ b'.heap.elems = a ::ₘ b.heap.elems ∧ Pointed b' ∧
      (Ordered b'.heap ↔ b.heap.size + 1 < 4 ∨ number ≤ b.cnt ((b.heap.size + 1) / 4)) := by
  let n := b.heap.size + 1
  let h : Mh α := { b.heap.setNode n ⟨number, some a⟩ with size := n }
  let b1 : Bh α := ⟨h, baseMhAssignHptr b.hptr a n⟩
  have hbody : ∀ i, i ≠ n → h.body i = b.heap.body i := fun i hi => if_neg hi
  have hnode : h.body n = ⟨number, some a⟩ := if_pos rfl
  obtain ⟨h0, hh0⟩ := isSome_iff_exists.mp (Mh.insertAppend_isSome a hroom)
  obtain ⟨w0, e0, s0, m0⟩ := Mh.insertAppend_spec hb.wf hh0
  have hd : h.data = h0.data := by
    rw [Mh.insertAppend, if_neg (not_lt.mpr hroom), some.injEq] at hh0
    rw [← hh0]
    funext k
    change (if k = n then _ else b.heap.body k).data = (if k = n then _ else b.heap.body k).data
    split <;> rfl
  have w : h.WF := wf_congr w0 hd s0.symm m0.symm
  have helems : h.elems = a ::ₘ b.heap.elems := by
    rw [← e0, Mh.elems, Mh.elems, hd, s0]
  have hp : Pointed b1 := by
    intro i x hx
    by_cases hi : i = n
    · have hxa : some x = some a := by
        rw [← hx, hi]
        exact congrArg Hn.data hnode
      rw [some.inj hxa, hi]
      exact update_self ..
    · have hx : b.data i = some x := by
        rw [← hx]
        exact (congrArg Hn.data (hbody i hi)).symm
      have hxa : x ≠ a := fun h' => ha i (h' ▸ hx)
      exact (update_of_ne hxa ..).trans (hb.pointed i x hx)
  have hcnt : ∀ i, i ≠ n → b1.cnt i = b.cnt i := fun i hi => congrArg Hn.cnt (hbody i hi)
  have R : Raised b1 n := by
    refine ⟨Nat.succ_pos _, le_rfl, fun i h2 hi hin => ?_, fun i hi hc _ => ?_⟩
    · have hi : i ≤ n := hi
      rw [hcnt i hin, hcnt (i / 2) (by omega)]
      exact hb.ordered i h2 (by omega)
    · have hi : i ≤ n := hi
      omega
  obtain ⟨-, he, hp'⟩ := climb_keeps (b := b1) w hp R
  refine ⟨internalUpdate n n b1 n, ?_, he.trans helems, hp', ?_⟩
  · rw [mhInsert, if_neg (not_lt.mpr hroom)]
  · rw [climb_ordered_iff R]
    by_cases h4 : n < 4
    · exact ⟨fun _ => .inl h4, fun _ => .inl h4⟩
    · rw [hcnt (n / 4) (by omega), show b1.cnt n = number from congrArg Hn.cnt hnode]

/-- The heap after the last element was moved to the root. -/
def moved (b : Bh α) : Bh α :=
  let h1 := b.heap.setNode 1 (b.heap.body b.heap.size)
  ⟨h1.setNode b.heap.size { h1.body b.heap.size with data := none }, b.hptr⟩

end

end FlashDriver.DataStruct.HeapPtr
