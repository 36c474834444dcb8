import FlashDriver.BlockManager.Spec

/-!
# Draining the victim heap

The functions of `heap.c` again, with each access `h->body[i]` checked against
the `2*(bn+1)` nodes that `mh_init` allocates; the sift has to end on its own.
An access outside, or a sift that goes on, gives `none`.

* `downdateAt_eq`, `constructAt_eq`, `getMaxAt_eq`: with at most `max` elements
  no access is outside, and the functions are those of `DataStruct.Heap`.
* `victim_heap`: what was appended is returned by `mh_get_max` after
  `mh_construct`, each element once and in the order of the current counts, so
  that `base_get_gc_target` takes a block of maximal `invalid_number` from each
  channel.
-/
namespace FlashDriver.DataStruct.Mh

open List Option
open FlashDriver.Core

variable {α : Type}

/-! ## Checked accesses -/

/-- `h->body[i]` -/
def node (h : Mh α) (i : Nat) : Option (Hn α) := if i < h.slots then some (h.body i) else none

def insertAppendAt (h : Mh α) (a : α) : Option (Mh α) :=
  (h.insertAppend a).bind fun h' => (h.node (h.size + 1)).map fun _ => h'

section
variable (getCnt : α → Nat)

/-- The children are looked at only where there is an element. -/
def maxchildAt (h : Mh α) (idx : Nat) : Option (Option Nat × Mh α) :=
  (h.node idx).bind fun n => match n.data with
    | none => some (none, h)
    | some _ => (h.node (2 * idx)).bind fun _ => (h.node (2 * idx + 1)).map fun _ =>
      maxchild getCnt h idx

def downdateAt : Nat → Mh α → Nat → Option (Mh α)
  | 0, _, _ => none
  | n + 1, h, chgd => (maxchildAt getCnt h chgd).bind fun r => match r with
    | (some child, h) =>
      if (h.body child).cnt > (h.body chgd).cnt then
        downdateAt n ((h.setNode child (h.body chgd)).setNode chgd (h.body child)) child
      else some h
    | (none, h) => some h

def getMaxAt (h : Mh α) : Option (Option α × Mh α) :=
  (h.node 1).bind fun root => (h.node h.size).bind fun last =>
    let h1 := h.setNode 1 last
    let h2 := h1.setNode h.size { h1.body h.size with data := none }
    (downdateAt getCnt h.slots h2 1).map fun h' => (root.data, { h' with size := h.size - 1 })

def constructLevelAt (h : Mh α) (start n : Nat) : Option (Mh α) :=
  (range' start n).foldlM (fun h j => downdateAt getCnt h.slots h j) h

def constructFromAt : Nat → Mh α → Option (Mh α)
  | 0, h => some h
  | i + 1, h => (constructLevelAt getCnt h (2 ^ i) (2 ^ i)).bind (constructFromAt i)

def constructAt (h : Mh α) : Option (Mh α) :=
  constructFromAt getCnt (1 + halvings h.size h.size - 1) h

/-- `n` calls of `mh_get_max`, each of which returns an element. -/
def drain : Nat → Mh α → Option (List α × Mh α)
  | 0, h => some ([], h)
  | n + 1, h => (getMaxAt getCnt h).bind fun r => r.1.bind fun a =>
    (drain n r.2).map fun r => (a :: r.1, r.2)

variable {getCnt}

theorem node_eq {h : Mh α} {i : Nat} (hi : i < h.slots) : h.node i = some (h.body i) := if_pos hi

theorem maxchildAt_eq {h : Mh α} {i : Nat} (hi : i < h.slots)
    (hchild : (h.data i).isSome → 2 * i + 1 < h.slots) :
    maxchildAt getCnt h i = some (maxchild getCnt h i) := by
  rw [maxchildAt, node_eq hi, bind_some]
  cases hd : (h.body i).data with
  | none => simp [maxchild, data, hd]
  | some a =>
    have hc : 2 * i + 1 < h.slots := hchild (by simp [data, hd])
    dsimp only
    rw [node_eq (by omega), bind_some, node_eq hc, map_some]

theorem downdateAt_eq {n N : Nat} {h : Mh α} {i : Nat} (hocc : ∀ k, N < k → h.data k = none)
    (hN : N ≤ h.max) (h1 : 1 ≤ i) (hi : i < h.slots) (hn : 1 ≤ n) (hfuel : N < i + n) :
    downdateAt getCnt n h i = some (internalDowndate getCnt n h i) := by
  induction n generalizing h i with
  | zero => omega
  | succ n ih =>
    have hchild : (h.data i).isSome → 2 * i + 1 < h.slots := by
      intro hs
      have hle : i ≤ N := by
        by_contra hgt
        rw [hocc i (by omega)] at hs
        cases hs
      unfold slots
      omega
    rw [downdateAt, internalDowndate, maxchildAt_eq hi hchild, bind_some]
    cases ha : h.data i with
    | none => simp [maxchild, ha]
    | some a =>
      obtain ⟨h', hm, hd, -, hmax, -, -, -⟩ := maxchild_spec getCnt h i a ha
      rw [hm]
      cases hc : MaxHeap.maxChild getCnt h.data i with
      | none => rfl
      | some c =>
        obtain ⟨hcc, b, hb, -⟩ := MaxHeap.maxChild_spec hc
        have hcN : c ≤ N := by
          by_contra hgt
          rw [hocc c (by omega)] at hb
          cases hb
        have hiN : i ≤ N := by
          by_contra hgt
          rw [hocc i (by omega)] at ha
          cases ha
        dsimp only
        split
        · apply ih
          · rw [swap_nodes_data, hd]
            exact MaxHeap.swap_bound hiN hcN hocc
          · simpa [hmax] using hN
          · omega
          · change c < 2 * (h'.max + 1)
            omega
          · omega
          · omega
        · rfl

theorem constructLevelAt_eq {h : Mh α} (w : h.WF) (hs : h.size ≤ h.max) {s n : Nat} (h1 : 1 ≤ s)
    (hslots : s + n ≤ h.slots) :
    constructLevelAt getCnt h s n = some (constructLevel getCnt h s n) := by
  induction n generalizing h s with
  | zero => rfl
  | succ n ih =>
    have hstep : downdateAt getCnt h.slots h s = some (internalDowndate getCnt h.slots h s) :=
      downdateAt_eq w.above hs h1 (by omega) (by omega) (by unfold slots; omega)
    obtain ⟨w', -, hsize, hmax⟩ := downdate_keeps getCnt w h.slots s
    have hrest := ih w' (by rw [hsize, hmax]; exact hs) (by omega : 1 ≤ s + 1)
      (by rw [slots, hmax]; unfold slots at hslots; omega)
    rw [constructLevelAt, constructLevel, range'_succ, foldlM_cons, foldl_cons, hstep]
    exact hrest

theorem constructFromAt_eq {h : Mh α} (w : h.WF) (hs : h.size ≤ h.max) {i : Nat}
    (ho : OrderedFrom getCnt h (2 ^ i)) (hslots : 2 ^ i ≤ h.slots) :
    constructFromAt getCnt i h = some (constructFrom getCnt i h) := by
  induction i generalizing h with
  | zero => rfl
  | succ i ih =>
    have hdbl : 2 ^ (i + 1) = 2 ^ i + 2 ^ i := by rw [pow_succ]; omega
    obtain ⟨w', -, hsize, hmax, ho'⟩ := constructLevel_spec w i ho
    rw [constructFromAt, constructFrom,
      constructLevelAt_eq w hs (Nat.two_pow_pos i) (by omega), bind_some]
    refine ih w' ?_ ho' ?_
    · rw [hsize, hmax]; exact hs
    · rw [slots, hmax]
      unfold slots at hslots
      omega

theorem two_pow_halvings_le : ∀ k n : Nat, 1 ≤ n → 2 ^ halvings k n ≤ n
  | 0, n, h => by simpa [halvings] using h
  | k + 1, n, h => by
    unfold halvings
    split
    · simpa using h
    · have := two_pow_halvings_le k (n / 2) (by omega)
      rw [pow_succ]
      omega

theorem constructAt_eq {h : Mh α} (w : h.WF) (hs : h.size ≤ h.max) :
    constructAt getCnt h = some (construct getCnt h) := by
  refine constructFromAt_eq w hs (orderedFrom_deep getCnt w) ?_
  rw [Nat.add_sub_cancel_left]
  rcases Nat.eq_zero_or_pos h.size with h0 | hpos
  · rw [h0, slots, halvings, Nat.pow_zero]
    omega
  · have := two_pow_halvings_le h.size h.size hpos
    unfold slots
    omega

theorem getMaxAt_eq {h : Mh α} (w : h.WF) (hs : h.size ≤ h.max) (h1 : 1 ≤ h.size) :
    getMaxAt getCnt h = some (getMax getCnt h) := by
  have habove : ∀ k, h.size < k → ((h.setNode 1 (h.body h.size)).setNode h.size
        { (h.setNode 1 (h.body h.size)).body h.size with data := none }).data k = none := by
    intro k hk
    rw [setNode_data]
    dsimp only
    rw [if_neg (by omega), setNode_data]
    dsimp only
    rw [if_neg (by omega), w.above k hk]
  have hdown := @downdateAt_eq α getCnt h.slots h.size _ 1 habove hs (le_refl 1)
    (by change 1 < 2 * (h.max + 1); omega) (by unfold slots; omega) (by unfold slots; omega)
  rw [getMaxAt, node_eq (by unfold slots; omega), bind_some,
    node_eq (by unfold slots; omega), bind_some]
  dsimp only
  rw [hdown, map_some]
  rfl

theorem insertAppendAt_eq {h : Mh α} (a : α) (hs : h.size + 1 ≤ h.max) :
    insertAppendAt h a = h.insertAppend a := by
  obtain ⟨h', hi⟩ := isSome_iff_exists.mp (insertAppend_isSome a (by omega : h.size ≤ h.max))
  rw [insertAppendAt, hi, bind_some, node_eq (by unfold slots; omega), map_some]

/-! ## Filling and draining -/

theorem insert_all {h : Mh α} (w : h.WF) (xs : List α) (hs : h.size + xs.length ≤ h.max) :
    ∃ h', xs.foldlM insertAppendAt h = some h' ∧ h'.WF ∧ h'.elems = h.elems + xs ∧
      h'.size ≤ h'.max := by
  induction xs generalizing h with
  | nil => exact ⟨h, rfl, w, by simp, by simpa using hs⟩
  | cons a xs ih =>
    rw [length_cons] at hs
    obtain ⟨h1, hi⟩ := isSome_iff_exists.mp (insertAppend_isSome a (by omega : h.size ≤ h.max))
    obtain ⟨w1, he, hsize, hmax⟩ := insertAppend_spec w hi
    obtain ⟨h', hrest, w', he', hs'⟩ := ih w1 (by omega)
    refine ⟨h', ?_, w', ?_, hs'⟩
    · rw [foldlM_cons, insertAppendAt_eq a (by omega), hi]
      exact hrest
    · rw [he', he, ← Multiset.cons_coe, Multiset.cons_add, Multiset.add_cons]

theorem drain_spec {n : Nat} {h : Mh α} (w : h.WF) (hs : h.size ≤ h.max) (hn : h.size = n)
    (ho : OrderedFrom getCnt h 1) :
    ∃ ys h', drain getCnt n h = some (ys, h') ∧ (ys : Multiset α) = h.elems ∧
      ys.Pairwise fun a b => getCnt b ≤ getCnt a := by
  induction n generalizing h with
  | zero =>
    have hcard := w.card_elems
    rw [hn, Multiset.card_eq_zero] at hcard
    exact ⟨[], h, rfl, by rw [hcard]; rfl, List.Pairwise.nil⟩
  | succ n ih =>
    obtain ⟨a, h1, hget, w1, he, hsize, hmax, ho1, hbest⟩ := getMax_spec getCnt w (by omega) ho
    obtain ⟨ys, h', hrest, hys, hsorted⟩ := ih w1 (by omega) (by omega) ho1
    refine ⟨a :: ys, h', ?_, ?_, pairwise_cons.mpr ⟨fun b hb => hbest b ?_, hsorted⟩⟩
    · rw [drain, getMaxAt_eq w hs (by omega), hget, bind_some]
      dsimp only
      rw [bind_some, hrest, map_some]
    · rw [he, ← hys, Multiset.cons_coe]
    · rw [he, ← hys]
      exact Multiset.mem_cons_of_mem (Multiset.mem_coe.mpr hb)

end

end FlashDriver.DataStruct.Mh

namespace FlashDriver.BlockManager

open DataStruct

/-! ## Victims -/

theorem getGcTargetLoop_total {n : Nat} {bm : BM}
    (h : ∀ i < n, (bm.maxHeap i).WF ∧ 1 ≤ (bm.maxHeap i).size) :
    ∃ gs bm', getGcTargetLoop n bm = some (gs, bm') := by
  induction n with
  | zero => exact ⟨_, _, rfl⟩
  | succ n ih =>
    obtain ⟨gs, bm', hloop⟩ := ih fun i hi => h i (by omega)
    have T := getGcTargetLoop_spec (fun i hi => (h i (by omega)).1) hloop
    obtain ⟨w, hs⟩ := h n (Nat.lt_succ_self n)
    rw [← T.rest n (le_refl n)] at w hs
    obtain ⟨w1, -, hsize, -, ho⟩ := Mh.construct_spec (getCnt bm') w
    obtain ⟨b, h', hget, -⟩ := Mh.getMax_spec (getCnt bm') w1 (by omega) ho
    rw [getGcTargetLoop, hloop]
    dsimp only
    rw [hget]
    exact ⟨_, _, rfl⟩

/-- A heap with at most `max` elements, filled by `mh_insert_append` and with any
counts cached: `mh_construct` keeps the elements and puts them in order for the
current counts, and the calls of `mh_get_max` return each once, in
non-increasing order, with all accesses inside the array. From heaps that are
not empty `base_get_gc_target` takes blocks of maximal `invalid_number`. -/
theorem victim_heap {α : Type} (cnt : α → Nat) :
    (∀ (bn : Nat) (xs : List α), xs.length ≤ bn → ∃ h : Mh α,
      xs.foldlM Mh.insertAppendAt (Mh.init bn) = some h ∧ h.WF ∧ h.elems = xs ∧ h.size ≤ h.max) ∧
    (∀ h : Mh α, h.WF → h.size ≤ h.max → ∃ h',
      Mh.constructAt cnt h = some h' ∧ h'.WF ∧ h'.elems = h.elems ∧ Mh.OrderedFrom cnt h' 1 ∧
        ∃ ys h'', Mh.drain cnt h.size h' = some (ys, h'') ∧ (ys : Multiset α) = h.elems ∧
          ys.Pairwise fun a b => cnt b ≤ cnt a) ∧
    ∀ (g : Geom) (bm : BM), (∀ i < g.bps, (bm.maxHeap i).WF ∧ 1 ≤ (bm.maxHeap i).size) →
      ∃ gs bm', getGcTarget g bm = some (gs, bm') ∧ ∀ i < g.bps, gs i ∈ (bm.maxHeap i).elems ∧
        ∀ b ∈ (bm.maxHeap i).elems,
          (bm.block b).invalidNumber ≤ (bm.block (gs i)).invalidNumber := by
  refine ⟨fun bn xs hlen => ?_, fun h w hs => ?_, fun g bm hheaps => ?_⟩
  · obtain ⟨h, hi, w, he, hs⟩ := Mh.insert_all (Mh.init_wf bn) xs (by simpa [Mh.init] using hlen)
    exact ⟨h, hi, w, by simpa using he, hs⟩
  · obtain ⟨w', he, hsize, hmax, ho⟩ := Mh.construct_spec cnt w
    refine ⟨_, Mh.constructAt_eq w hs, w', he, ho, ?_⟩
    obtain ⟨ys, h'', hd, hys, hsorted⟩ := Mh.drain_spec w' (by omega) hsize ho
    exact ⟨ys, h'', hd, hys.trans he, hsorted⟩
  · obtain ⟨gs, bm', hget⟩ := getGcTargetLoop_total hheaps
    have T := getGcTargetLoop_spec (fun i hi => (hheaps i hi).1) hget
    refine ⟨gs, bm', hget, fun i hi => ⟨?_, T.best i hi⟩⟩
    rw [T.elems i hi]
    exact Multiset.mem_cons_self _ _

/-- Three elements whose counts are their values. -/
theorem victim_heap_three : ∃ h : Mh Nat, [4, 9, 7].foldlM Mh.insertAppendAt (Mh.init 3) = some h ∧
      (Mh.constructAt id h).bind (fun h => (Mh.drain id 3 h).map Prod.fst) = some [9, 7, 4] := by
  obtain ⟨hfill, -, -⟩ := victim_heap (id : Nat → Nat)
  obtain ⟨h, hi, -⟩ := hfill 3 [4, 9, 7] (by decide)
  refine ⟨h, hi, ?_⟩
  have hrun : ([4, 9, 7].foldlM Mh.insertAppendAt (Mh.init 3)).bind (fun h =>
      (Mh.constructAt id h).bind fun h => (Mh.drain id 3 h).map Prod.fst) = some [9, 7, 4] := by
    decide +kernel
  rwa [hi] at hrun

end FlashDriver.BlockManager
