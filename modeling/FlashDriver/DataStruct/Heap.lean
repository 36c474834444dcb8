import FlashDriver.Core.MaxHeap

/-!
# The victim heap (`include/data_struct/heap.c`)

`mh` is an array of nodes, each a cached count and a data pointer; slot 0 is
unused and `size` counts the stored elements. Counts are not kept up to date:
`maxchild` refreshes those of a node and its children through `get_cnt`
before they are compared, `mh_insert_append` sets none, and `mh_construct`
re-sifts the whole array before a maximum is taken.

* `downdate_data`: because of the refresh, `mh_internal_downdate` is
  `MaxHeap.siftDown` for the current counts, whatever counts were cached.
* `construct_spec`: `mh_construct` keeps the elements and puts every slot in
  order for the current counts.
* `getMax_spec`: `mh_get_max` on a heap in order removes exactly one element,
  of maximal count.

The `hptr` back pointers that `swap_hptr` and `assign_hptr` maintain inside
the elements are not modelled: only `mh_update` reads them.
-/
namespace FlashDriver.DataStruct

open List Option
open FlashDriver.Core

/-- mirrors include/data_struct/heap.h:8-11 -/
structure Hn (α : Type) where
  cnt : Nat           -- uint64_t, filled from the non-negative get_cnt
  data : Option α     -- NULL is none

/-- mirrors include/data_struct/heap.h:13-20 -/
structure Mh (α : Type) where
  body : Nat → Hn α
  size : Nat
  max : Nat

namespace Mh

variable {α : Type}

/-- mirrors include/data_struct/heap.c:5-14 (`calloc` clears the nodes) -/
def init (bn : Nat) : Mh α := ⟨fun _ => ⟨0, none⟩, 0, bn⟩

def data (h : Mh α) (i : Nat) : Option α := (h.body i).data

def setNode (h : Mh α) (i : Nat) (n : Hn α) : Mh α :=
  { h with body := fun k => if k = i then n else h.body k }

/-- The allocated nodes, `2*(bn+1)` of them: no loop visits more slots. -/
def slots (h : Mh α) : Nat := 2 * (h.max + 1)

/-- mirrors include/data_struct/heap.c:126-136 -/
def insertAppend (h : Mh α) (a : α) : Option (Mh α) :=
  if h.size > h.max then none   -- "full heap!", abort()
  else some { h.setNode (h.size + 1) { h.body (h.size + 1) with data := some a } with
    size := h.size + 1 }

section Cnt
variable (getCnt : α → Nat)

/-- `if(n->data) n->cnt=h->get_cnt(n->data)` -/
def refresh (h : Mh α) (i : Nat) : Mh α :=
  match h.data i with
  | some a => h.setNode i { h.body i with cnt := getCnt a }
  | none => h

/-- mirrors include/data_struct/heap.c:21-40 -/
def maxchild (h : Mh α) (idx : Nat) : Option Nat × Mh α :=
  match h.data idx with
  | none => (none, h)
  | some _ =>
    let h := refresh getCnt h idx
    let h := refresh getCnt h (2 * idx)
    let h := refresh getCnt h (2 * idx + 1)
    let lc := h.body (2 * idx)
    let rc := h.body (2 * idx + 1)
    (match lc.data, rc.data with
      | some _, none => some (2 * idx)
      | none, some _ => some (2 * idx + 1)
      | some _, some _ => if lc.cnt > rc.cnt then some (2 * idx) else some (2 * idx + 1)
      | none, none => none, h)

/-- mirrors include/data_struct/heap.c:65-87; the first argument bounds the
number of rounds of the `while(1)`. -/
def internalDowndate : Nat → Mh α → Nat → Mh α
  | 0, h, _ => h
  | n + 1, h, chgd =>
    match maxchild getCnt h chgd with
    | (some child, h) =>
      if (h.body child).cnt > (h.body chgd).cnt then
        internalDowndate n ((h.setNode child (h.body chgd)).setNode chgd (h.body child)) child
      else h
    | (none, h) => h

/-- mirrors include/data_struct/heap.c:104-113 -/
def getMax (h : Mh α) : Option α × Mh α :=
  let res := h.data 1
  let h1 := h.setNode 1 (h.body h.size)
  let h2 := h1.setNode h.size { h1.body h.size with data := none }
  (res, { internalDowndate getCnt h.slots h2 1 with size := h.size - 1 })

/-- `while(all_size/=2) depth++`, the number of rounds. -/
def halvings : Nat → Nat → Nat
  | 0, _ => 0
  | k + 1, n => if n / 2 = 0 then 0 else halvings k (n / 2) + 1

def constructLevel (h : Mh α) (start n : Nat) : Mh α :=
  (range' start n).foldl (fun h j => internalDowndate getCnt h.slots h j) h

/-- The levels `i, i-1, …, 1`; level `i` has the slots `1<<(i-1) .. (1<<i)-1`. -/
def constructFrom : Nat → Mh α → Mh α
  | 0, h => h
  | i + 1, h => constructFrom i (constructLevel getCnt h (2 ^ i) (2 ^ i))

/-- mirrors include/data_struct/heap.c:138-151 -/
def construct (h : Mh α) : Mh α :=
  let depth := 1 + halvings h.size h.size
  constructFrom getCnt (depth - 1) h

end Cnt

/-! ## The cached counts do not matter -/

@[simp] theorem setNode_body_same (h : Mh α) (i : Nat) (n : Hn α) : (h.setNode i n).body i = n := by
  simp [setNode]

theorem setNode_body_other (h : Mh α) {i k : Nat} (n : Hn α) (hk : k ≠ i) :
    (h.setNode i n).body k = h.body k := by simp [setNode, hk]

@[simp] theorem setNode_size (h : Mh α) (i : Nat) (n : Hn α) : (h.setNode i n).size = h.size := rfl

@[simp] theorem setNode_max (h : Mh α) (i : Nat) (n : Hn α) : (h.setNode i n).max = h.max := rfl

theorem setNode_data (h : Mh α) (i : Nat) (n : Hn α) :
    (h.setNode i n).data = fun k => if k = i then n.data else h.data k := by
  funext k; simp only [data, setNode]; split <;> rfl

section Refine
variable {getCnt : α → Nat}

@[simp] theorem refresh_data (h : Mh α) (i : Nat) : (refresh getCnt h i).data = h.data := by
  unfold refresh
  split
  · funext k
    rw [setNode_data]
    dsimp only
    split
    · rename_i hk; rw [hk]; rfl
    · rfl
  · rfl

@[simp] theorem refresh_size (h : Mh α) (i : Nat) : (refresh getCnt h i).size = h.size := by
  unfold refresh; split <;> rfl

@[simp] theorem refresh_max (h : Mh α) (i : Nat) : (refresh getCnt h i).max = h.max := by
  unfold refresh; split <;> rfl

/-- A refreshed node caches the current count of its element. -/
def Fresh (getCnt : α → Nat) (h : Mh α) (i : Nat) : Prop :=
  ∀ a, h.data i = some a → (h.body i).cnt = getCnt a

variable (getCnt) in
theorem refresh_fresh (h : Mh α) (i : Nat) : Fresh getCnt (refresh getCnt h i) i := by
  intro a ha
  rw [refresh_data] at ha
  simp [refresh, ha]

theorem fresh_refresh {h : Mh α} {i : Nat} (j : Nat) (hf : Fresh getCnt h i) :
    Fresh getCnt (refresh getCnt h j) i := by
  by_cases hij : i = j
  · subst hij; exact refresh_fresh getCnt h i
  · intro a ha
    rw [refresh_data] at ha
    unfold refresh
    split
    · rw [setNode_body_other _ _ hij]; exact hf a ha
    · exact hf a ha

variable (getCnt) in
theorem maxchild_spec (h : Mh α) (i : Nat) (a : α) (ha : h.data i = some a) :
    ∃ h', maxchild getCnt h i = (MaxHeap.maxChild getCnt h.data i, h') ∧ h'.data = h.data ∧
      h'.size = h.size ∧ h'.max = h.max ∧ Fresh getCnt h' i ∧ Fresh getCnt h' (2 * i) ∧
      Fresh getCnt h' (2 * i + 1) := by
  have f1 := fresh_refresh (2 * i + 1) (fresh_refresh (2 * i) (refresh_fresh getCnt h i))
  have f2 := fresh_refresh (2 * i + 1) (refresh_fresh getCnt (refresh getCnt h i) (2 * i))
  have f3 := refresh_fresh getCnt (refresh getCnt (refresh getCnt h i) (2 * i)) (2 * i + 1)
  generalize hh : refresh getCnt (refresh getCnt (refresh getCnt h i) (2 * i)) (2 * i + 1) = h' at *
  have hd : h'.data = h.data := by rw [← hh]; simp
  refine ⟨h', ?_, hd, by rw [← hh]; simp, by rw [← hh]; simp, f1, f2, f3⟩
  have el : (h'.body (2 * i)).data = h.data (2 * i) := congrFun hd (2 * i)
  have er : (h'.body (2 * i + 1)).data = h.data (2 * i + 1) := congrFun hd (2 * i + 1)
  simp only [maxchild, ha, hh, Prod.mk.injEq, and_true, MaxHeap.maxChild, el, er]
  cases hl : h.data (2 * i) with
  | none => cases hr : h.data (2 * i + 1) <;> rfl
  | some l =>
    cases hr : h.data (2 * i + 1) with
    | none => rfl
    | some r =>
      have cl : (h'.body (2 * i)).cnt = getCnt l := f2 l (by rw [hd, hl])
      have cr : (h'.body (2 * i + 1)).cnt = getCnt r := f3 r (by rw [hd, hr])
      simp only [cl, cr, gt_iff_lt]

theorem swap_nodes_data (h : Mh α) (i c : Nat) :
    ((h.setNode c (h.body i)).setNode i (h.body c)).data = MaxHeap.swap h.data i c := by
  funext k
  simp only [setNode_data, MaxHeap.swap]
  split
  · rfl
  · rfl

variable (getCnt) in
theorem downdate_data (n : Nat) (h : Mh α) (i : Nat) :
    (internalDowndate getCnt n h i).data = MaxHeap.siftDown getCnt n h.data i ∧
      (internalDowndate getCnt n h i).size = h.size ∧
      (internalDowndate getCnt n h i).max = h.max := by
  induction n generalizing h i with
  | zero => exact ⟨rfl, rfl, rfl⟩
  | succ n ih =>
    cases ha : h.data i with
    | none => simp [internalDowndate, maxchild, ha, MaxHeap.siftDown, MaxHeap.rising]
    | some a =>
      obtain ⟨h', hm, hd, hs, hx, fi, fl, fr⟩ := maxchild_spec getCnt h i a ha
      cases hc : MaxHeap.maxChild getCnt h.data i with
      | none =>
        rw [hc] at hm
        simp [internalDowndate, hm, MaxHeap.siftDown, MaxHeap.rising, ha, hc, hd, hs, hx]
      | some c =>
        obtain ⟨hcc, b, hb, -⟩ := MaxHeap.maxChild_spec hc
        rw [hc] at hm
        have ci : (h'.body i).cnt = getCnt a := fi a (by rw [hd, ha])
        have cc : (h'.body c).cnt = getCnt b := by
          rcases hcc with rfl | rfl
          · exact fl b (by rw [hd, hb])
          · exact fr b (by rw [hd, hb])
        simp only [internalDowndate, hm, ci, cc, gt_iff_lt, MaxHeap.siftDown, MaxHeap.rising, ha, hc, hb]
        by_cases hlt : getCnt a < getCnt b
        · obtain ⟨e1, e2, e3⟩ := ih ((h'.setNode c (h'.body i)).setNode i (h'.body c)) c
          rw [if_pos hlt, if_pos hlt]
          refine ⟨?_, by rw [e2]; exact hs, by rw [e3]; exact hx⟩
          rw [e1, swap_nodes_data, hd]
        · rw [if_neg hlt, if_neg hlt]
          exact ⟨hd, hs, hx⟩

/-! ## Contents -/

/-- The slots `1 .. size` are occupied and no others. One element more than
`max` is possible: `mh_insert_append` refuses only above `max`. -/
structure WF (h : Mh α) : Prop where
  occupied : ∀ i, (h.data i).isSome ↔ 1 ≤ i ∧ i ≤ h.size
  fits : h.size ≤ h.max + 1

def elems (h : Mh α) : Multiset α := MaxHeap.elems h.data h.size

theorem WF.above {h : Mh α} (w : h.WF) : ∀ k, h.size < k → h.data k = none := by
  intro k hk
  have := (w.occupied k).not.mpr (by omega)
  simpa using this

theorem WF.slot_zero {h : Mh α} (w : h.WF) : h.data 0 = none := by
  have := (w.occupied 0).not.mpr (by omega)
  simpa using this

theorem WF.card_elems {h : Mh α} (w : h.WF) : h.elems.card = h.size :=
  MaxHeap.card_elems w.slot_zero fun i h1 hi => (w.occupied i).mpr ⟨h1, hi⟩

theorem WF.root {h : Mh α} (w : h.WF) (hs : 1 ≤ h.size) : ∃ a, h.data 1 = some a :=
  isSome_iff_exists.mp ((w.occupied 1).mpr ⟨le_refl 1, hs⟩)

/-- Every slot from `k` on is in order for the current counts. -/
def OrderedFrom (getCnt : α → Nat) (h : Mh α) (k : Nat) : Prop :=
  ∀ i, k ≤ i → MaxHeap.HeapAt getCnt h.data i

theorem init_wf (bn : Nat) : (init bn : Mh α).WF :=
  ⟨fun i => by simp [init, data]; omega, Nat.zero_le _⟩

@[simp] theorem init_elems (bn : Nat) : (init bn : Mh α).elems = 0 := rfl

theorem insertAppend_spec {h h' : Mh α} {a : α} (w : h.WF) (hi : h.insertAppend a = some h') :
    h'.WF ∧ h'.elems = a ::ₘ h.elems ∧ h'.size = h.size + 1 ∧ h'.max = h.max := by
  unfold insertAppend at hi
  split at hi
  · cases hi
  · rename_i hle
    cases hi
    have hd : ({ h.setNode (h.size + 1) { h.body (h.size + 1) with data := some a } with
        size := h.size + 1 } : Mh α).data = fun k => if k = h.size + 1 then some a else h.data k :=
      setNode_data h _ _
    refine ⟨⟨fun i => ?_, ?_⟩, ?_, rfl, rfl⟩
    · rw [hd]
      dsimp only
      split
      · rename_i hk; simp [hk]
      · rw [w.occupied]; omega
    · show h.size + 1 ≤ h.max + 1
      omega
    · unfold elems
      rw [hd, MaxHeap.elems_succ]
      simp only [if_true, elim_some, Multiset.singleton_add]
      rw [MaxHeap.elems_congr fun i hi => if_neg (by omega)]

theorem insertAppend_isSome {h : Mh α} (a : α) (hs : h.size ≤ h.max) :
    (h.insertAppend a).isSome := by
  simp [insertAppend, not_lt.mpr hs]

variable (getCnt) in
theorem downdate_keeps {h : Mh α} (w : h.WF) (n i : Nat) :
    (internalDowndate getCnt n h i).WF ∧ (internalDowndate getCnt n h i).elems = h.elems ∧
      (internalDowndate getCnt n h i).size = h.size ∧
      (internalDowndate getCnt n h i).max = h.max := by
  obtain ⟨hd, hs, hm⟩ := downdate_data getCnt n h i
  refine ⟨⟨fun k => ?_, by rw [hs, hm]; exact w.fits⟩, ?_, hs, hm⟩
  · rw [hd, hs, MaxHeap.siftDown_isSome]; exact w.occupied k
  · unfold elems
    rw [hd, hs, MaxHeap.elems_siftDown n _ i _ w.above]

theorem constructLevel_spec {h : Mh α} (w : h.WF) (i : Nat)
    (ho : OrderedFrom getCnt h (2 ^ (i + 1))) :
    let h' := constructLevel getCnt h (2 ^ i) (2 ^ i)
    h'.WF ∧ h'.elems = h.elems ∧ h'.size = h.size ∧ h'.max = h.max ∧
      OrderedFrom getCnt h' (2 ^ i) := by
  have hpos : 0 < 2 ^ i := Nat.two_pow_pos i
  have hdbl : 2 ^ (i + 1) = 2 * 2 ^ i := by rw [pow_succ]; omega
  -- sifting `s, s+1, …` to the end of the level, when `2^i .. s-1` are done
  have key : ∀ (n s : Nat) (g : Mh α), g.WF → 2 ^ i ≤ s → s + n = 2 ^ (i + 1) →
      (∀ k, (2 ^ (i + 1) ≤ k ∨ (2 ^ i ≤ k ∧ k < s)) → MaxHeap.HeapAt getCnt g.data k) →
      let g' := constructLevel getCnt g s n
      g'.WF ∧ g'.elems = g.elems ∧ g'.size = g.size ∧ g'.max = g.max ∧
        OrderedFrom getCnt g' (2 ^ i) := by
    intro n
    induction n with
    | zero =>
      intro s g wg hs hn hD
      exact ⟨wg, rfl, rfl, rfl, fun k hk => hD k (by omega)⟩
    | succ n ih =>
      intro s g wg hs hn hD
      obtain ⟨w1, e1, s1, m1⟩ := downdate_keeps getCnt wg g.slots s
      have hext := MaxHeap.siftDown_extend g.slots g.data s g.size
        (fun k => 2 ^ (i + 1) ≤ k ∨ (2 ^ i ≤ k ∧ k < s)) (by omega) wg.above
        (by have := wg.fits; unfold slots; omega) hD
        (by
          intro k hk hne
          rcases MaxHeap.desc_cases hk with rfl | ⟨c, hc, hk'⟩
          · exact absurd rfl hne
          · have := MaxHeap.desc_le hk'; left; omega)
        (by omega)
      rw [← (downdate_data getCnt g.slots g s).1] at hext
      obtain ⟨w2, e2, s2, m2, o2⟩ := ih (s + 1) (internalDowndate getCnt g.slots g s) w1 (by omega)
        (by omega) (fun k hk => hext k (by omega))
      simp only [constructLevel, range'_succ, foldl_cons] at *
      exact ⟨w2, by rw [e2, e1], by rw [s2, s1], by rw [m2, m1], o2⟩
  exact key (2 ^ i) (2 ^ i) h w (le_rfl) (by omega) (fun k hk => ho k (by omega))

theorem constructFrom_spec (i : Nat) {h : Mh α} (w : h.WF) (ho : OrderedFrom getCnt h (2 ^ i)) :
    let h' := constructFrom getCnt i h
    h'.WF ∧ h'.elems = h.elems ∧ h'.size = h.size ∧ h'.max = h.max ∧ OrderedFrom getCnt h' 1 := by
  induction i generalizing h with
  | zero => exact ⟨w, rfl, rfl, rfl, by rw [Nat.pow_zero] at ho; exact ho⟩
  | succ i ih =>
    obtain ⟨w1, e1, s1, m1, o1⟩ := constructLevel_spec w i ho
    obtain ⟨w2, e2, s2, m2, o2⟩ := ih w1 o1
    exact ⟨w2, by rw [← e1, ← e2]; rfl, by rw [← s1, ← s2]; rfl, by rw [← m1, ← m2]; rfl, o2⟩

theorem lt_two_pow_halvings : ∀ k n : Nat, n ≤ k → n < 2 ^ (halvings k n + 1)
  | 0, n, h => by simp [halvings]; omega
  | k + 1, n, h => by
    unfold halvings
    split
    · simp; omega
    · have := lt_two_pow_halvings k (n / 2) (by omega)
      rw [pow_succ]; omega

theorem orderedFrom_deep (getCnt : α → Nat) {h : Mh α} (w : h.WF) :
    OrderedFrom getCnt h (2 ^ (1 + halvings h.size h.size - 1)) := by
  have hlt := lt_two_pow_halvings h.size h.size (le_rfl)
  intro k hk a ha c hc b hb
  rw [pow_succ] at hlt
  rw [Nat.add_sub_cancel_left] at hk
  rw [w.above c (by omega)] at hb; cases hb

theorem construct_spec (getCnt : α → Nat) {h : Mh α} (w : h.WF) :
    (construct getCnt h).WF ∧ (construct getCnt h).elems = h.elems ∧
      (construct getCnt h).size = h.size ∧ (construct getCnt h).max = h.max ∧
      OrderedFrom getCnt (construct getCnt h) 1 :=
  constructFrom_spec _ w (orderedFrom_deep getCnt w)

theorem getMax_empty {h : Mh α} (w : h.WF) (hs : h.size = 0) : (getMax getCnt h).1 = none :=
  w.above 1 (by omega)

theorem getMax_spec (getCnt : α → Nat) {h : Mh α} (w : h.WF) (hs : 1 ≤ h.size)
    (ho : OrderedFrom getCnt h 1) :
    ∃ a h', getMax getCnt h = (some a, h') ∧ h'.WF ∧ h.elems = a ::ₘ h'.elems ∧
      h'.size = h.size - 1 ∧ h'.max = h.max ∧ OrderedFrom getCnt h' 1 ∧
      ∀ b ∈ h.elems, getCnt b ≤ getCnt a := by
  obtain ⟨a, ha⟩ := w.root hs
  obtain ⟨m, hm⟩ : ∃ m, h.size = m + 1 := ⟨h.size - 1, by omega⟩
  -- the last element moves to the root and its slot is cleared
  let h1 := h.setNode 1 (h.body h.size)
  let h2 := h1.setNode h.size { h1.body h.size with data := none }
  have hd2 : h2.data = fun k => if k = h.size then none else MaxHeap.swap h.data 1 h.size k := by
    funext k
    show (if k = h.size then _ else h1.body k).data = _
    simp only [MaxHeap.swap]
    split
    · rfl
    · show (if k = 1 then h.body h.size else h.body k).data = _
      split <;> rfl
  have habove : ∀ k, m < k → h2.data k = none := by
    intro k hk
    rw [hd2]
    dsimp only
    split
    · rfl
    · rename_i hne
      rw [MaxHeap.swap_other h.data (by omega) hne, w.above k (by omega)]
  have helems : h.elems = a ::ₘ MaxHeap.elems h2.data m := by
    unfold elems
    rw [← MaxHeap.elems_swap h.data (show 1 ≤ h.size from hs) (le_refl h.size), hm,
      MaxHeap.elems_succ, ← hm, MaxHeap.swap_right, ha, elim_some, Multiset.singleton_add]
    congr 1
    refine MaxHeap.elems_congr fun i hi => ?_
    rw [hd2]; exact (if_neg (by omega)).symm
  have hocc : ∀ i, (h2.data i).isSome ↔ 1 ≤ i ∧ i ≤ m := by
    intro i
    rw [hd2]
    dsimp only
    split
    · simp; omega
    · rename_i hne
      by_cases h1 : i = 1
      · subst h1; rw [MaxHeap.swap_left, w.occupied]; omega
      · rw [MaxHeap.swap_other h.data h1 hne, w.occupied]; omega
  -- below the root nothing moved
  have o2 : ∀ k, MaxHeap.Desc 1 k → k ≠ 1 → MaxHeap.HeapAt getCnt h2.data k := by
    intro k hk h1 x hx c hc y hy
    have hk1 := MaxHeap.desc_le hk
    have hout : ∀ j, 1 < j → ∀ z, h2.data j = some z → h.data j = some z := by
      intro j hj z hz
      rw [hd2] at hz
      dsimp only at hz
      split at hz
      · cases hz
      · rename_i hne; rwa [MaxHeap.swap_other h.data (by omega) hne] at hz
    exact ho k hk1 x (hout k (by omega) x hx) c hc y (hout c (by omega) y hy)
  obtain ⟨d3, -, m3⟩ := downdate_data getCnt h.slots h2 1
  refine ⟨a, { internalDowndate getCnt h.slots h2 1 with size := h.size - 1 }, ?_,
    ⟨fun i => ?_, ?_⟩, ?_, rfl, m3, ?_, ?_⟩
  · simp only [getMax, ha, h2, h1]
  · show ((internalDowndate getCnt h.slots h2 1).data i).isSome ↔ 1 ≤ i ∧ i ≤ h.size - 1
    rw [d3, MaxHeap.siftDown_isSome, hocc, hm, Nat.add_sub_cancel]
  · have := w.fits
    show h.size - 1 ≤ (internalDowndate getCnt h.slots h2 1).max + 1
    rw [m3]; show h.size - 1 ≤ h.max + 1; omega
  · rw [helems]
    show _ = a ::ₘ MaxHeap.elems (internalDowndate getCnt h.slots h2 1).data (h.size - 1)
    rw [d3, hm, Nat.add_sub_cancel, MaxHeap.elems_siftDown _ _ _ _ habove]
  · have hsift := MaxHeap.siftDown_heap h.slots h2.data 1 m (le_refl 1) habove
      (by have := w.fits; unfold slots; omega) o2
    rw [← d3] at hsift
    intro k hk
    exact hsift k (MaxHeap.desc_one hk)
  · intro b hb
    obtain ⟨k, hk, hkb⟩ := MaxHeap.mem_elems.mp hb
    have hk1 : 1 ≤ k := ((w.occupied k).mp (by simp [hkb])).1
    obtain ⟨a', ha', hle⟩ := MaxHeap.root_max (fun j hj hjs => by
      have := (w.occupied j).mp hjs
      exact (w.occupied (j / 2)).mpr (by omega)) ho k hk1 b hkb
    rw [ha] at ha'; cases ha'; exact hle

end Refine

end Mh

end FlashDriver.DataStruct
