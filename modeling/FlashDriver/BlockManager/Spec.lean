import FlashDriver.BlockManager.Base

/-!
# What the block manager's operations do

One lemma for each operation of `base_block_manager.c`, in the form the
users of the manager need: which queues, heaps and blocks it touches and
what it leaves alone. Loops over the channels are described channel by
channel.

* `getBlockIdx_ppaMaker`, `getPageIdx_ppaMaker`: a page number decodes to the
  block and the page it was made from.
* `SegmentTaken`, `TargetTaken`, `Trimmed`: the effect of the three loops.
* `Fill`: a segment that has handed out `q` full rounds of pages; `getPageNum`
  keeps it and fails exactly when it is full.
-/
namespace FlashDriver.BlockManager

open Option Function
open DataStruct

variable {g : Geom}

/-! ## Page numbers -/

theorem Geom.pps_pos (g : Geom) : 0 < g.pps := Nat.mul_pos g.bps_pos g.ppb_pos

theorem Geom.offset_lt (g : Geom) (b : Nat) {page : Nat} (hp : page < g.ppb) :
    g.punitNum b + page * g.bps < g.pps := by
  have h1 : g.punitNum b < g.bps := Nat.mod_lt _ g.bps_pos
  have h2 : (page + 1) * g.bps ≤ g.ppb * g.bps := Nat.mul_le_mul_right _ hp
  rw [Nat.succ_mul] at h2
  unfold Geom.pps
  rw [mul_comm g.bps]; omega

theorem getBlockIdx_ppaMaker (g : Geom) (b : Nat) {page : Nat} (hp : page < g.ppb) :
    g.getBlockIdx (g.ppaMaker b page) = b := by
  have hlt := g.offset_lt b hp
  have hdiv : g.ppaMaker b page / g.pps = b / g.bps := by
    unfold Geom.ppaMaker Geom.blockNum
    rw [Nat.add_mul_div_right _ _ g.pps_pos, Nat.div_eq_of_lt hlt, zero_add]
  have hmod : g.ppaMaker b page % g.bps = b % g.bps := by
    unfold Geom.ppaMaker Geom.blockNum Geom.punitNum Geom.pps
    rw [show b % g.bps + page * g.bps + b / g.bps * (g.bps * g.ppb)
      = b % g.bps + (page + b / g.bps * g.ppb) * g.bps by ring, Nat.add_mul_mod_self_right,
      Nat.mod_mod]
  unfold Geom.getBlockIdx
  rw [hdiv, hmod, mul_comm]
  exact Nat.div_add_mod b g.bps

theorem getPageIdx_ppaMaker (g : Geom) (b : Nat) {page : Nat} (hp : page < g.ppb) :
    g.getPageIdx (g.ppaMaker b page) = page := by
  unfold Geom.getPageIdx Geom.ppaMaker Geom.blockNum Geom.punitNum Geom.pps
  rw [show b % g.bps + page * g.bps + b / g.bps * (g.bps * g.ppb)
    = b % g.bps + (page + b / g.bps * g.ppb) * g.bps by ring,
    Nat.add_mul_div_right _ _ g.bps_pos, Nat.div_eq_of_lt (Nat.mod_lt _ g.bps_pos), zero_add,
    Nat.add_mul_mod_self_right, Nat.mod_eq_of_lt hp]

/-! ## Segments -/

@[simp] theorem setBlock_same (bm : BM) (b : Nat) (x : Block) : (bm.setBlock b x).block b = x := by
  simp [BM.setBlock]

theorem setBlock_other (bm : BM) {b c : Nat} (x : Block) (h : c ≠ b) :
    (bm.setBlock b x).block c = bm.block c := by simp [BM.setBlock, h]

@[simp] theorem setBlock_freeBlock (bm : BM) (b : Nat) (x : Block) :
    (bm.setBlock b x).freeBlock = bm.freeBlock := rfl

@[simp] theorem setBlock_maxHeap (bm : BM) (b : Nat) (x : Block) :
    (bm.setBlock b x).maxHeap = bm.maxHeap := rfl

/-- Two block tables that differ in `seg_idx` at most. -/
def SameUse (bm bm' : BM) : Prop :=
  ∀ b, (bm'.block b).now = (bm.block b).now ∧ (bm'.block b).bitset = (bm.block b).bitset ∧
    (bm'.block b).invalidNumber = (bm.block b).invalidNumber ∧
    (bm'.block b).oobList = (bm.block b).oobList

theorem SameUse.refl (bm : BM) : SameUse bm bm := fun _ => ⟨rfl, rfl, rfl, rfl⟩

theorem SameUse.trans {a b c : BM} (h1 : SameUse a b) (h2 : SameUse b c) : SameUse a c := fun k =>
  ⟨(h2 k).1.trans (h1 k).1, (h2 k).2.1.trans (h1 k).2.1, (h2 k).2.2.1.trans (h1 k).2.2.1,
    (h2 k).2.2.2.trans (h1 k).2.2.2⟩

theorem SameUse.of_block {bm bm' : BM} (h : bm'.block = bm.block) : SameUse bm bm' := fun k => by
  rw [h]; exact ⟨rfl, rfl, rfl, rfl⟩

/-- The first `n` channels gave their oldest free block to a segment, and it got
the current segment number; unless the segment is a reserve, each block also
entered its channel's heap. -/
structure SegmentTaken (isreserve : Bool) (n : Nat) (bm : BM) (bl : Nat → Nat) (bm' : BM) : Prop where
  free : ∀ i, i < n → bm.freeBlock i = bl i :: bm'.freeBlock i
  heap : ∀ i, i < n → if isreserve then bm'.maxHeap i = bm.maxHeap i
    else (bm.maxHeap i).insertAppend (bl i) = some (bm'.maxHeap i)
  free_rest : ∀ i, n ≤ i → bm'.freeBlock i = bm.freeBlock i
  heap_rest : ∀ i, n ≤ i → bm'.maxHeap i = bm.maxHeap i
  use : SameUse bm bm'
  stamped : ∀ i, i < n → (bm'.block (bl i)).segIdx = bm.segMapIdx
  other : ∀ b, (∀ i, i < n → bl i ≠ b) → (bm'.block b).segIdx = (bm.block b).segIdx

theorem getSegmentStep_spec {isreserve : Bool} {i : Nat} {bl bl' : Nat → Nat} {bm bm' : BM}
    (h : getSegmentStep isreserve i bl bm = some (bl', bm')) :
    ∃ b, bm.freeBlock i = b :: bm'.freeBlock i ∧ bl' = update bl i b ∧
      (if isreserve then bm'.maxHeap i = bm.maxHeap i
        else (bm.maxHeap i).insertAppend b = some (bm'.maxHeap i)) ∧
      (∀ k, k ≠ i → bm'.freeBlock k = bm.freeBlock k ∧ bm'.maxHeap k = bm.maxHeap k) ∧
      bm'.block = update bm.block b { bm.block b with segIdx := bm.segMapIdx } ∧
      bm'.segMap = bm.segMap ∧ bm'.segMapIdx = bm.segMapIdx := by
  unfold getSegmentStep at h
  cases hf : bm.freeBlock i with
  | nil => simp [hf] at h
  | cons b rest =>
    cases isreserve with
    | true =>
      simp only [hf, if_true, some.injEq, Prod.mk.injEq] at h
      obtain ⟨rfl, rfl⟩ := h
      exact ⟨b, by simp, rfl, by simp, fun k hk => by simp [hk], rfl, rfl, rfl⟩
    | false =>
      simp only [hf, Bool.false_eq_true, if_false] at h
      split at h
      · cases h
      · rename_i hp hins
        simp only [some.injEq, Prod.mk.injEq] at h
        obtain ⟨rfl, rfl⟩ := h
        exact ⟨b, by simp, rfl, by simpa using hins, fun k hk => by simp [hk], rfl, rfl, rfl⟩

theorem getSegmentLoop_spec {isreserve : Bool} {n : Nat} {bm bm' : BM} {bl : Nat → Nat}
    (h : getSegmentLoop isreserve n bm = some (bl, bm')) :
    SegmentTaken isreserve n bm bl bm' ∧ bm'.segMap = bm.segMap ∧ bm'.segMapIdx = bm.segMapIdx := by
  induction n generalizing bl bm' with
  | zero =>
    simp only [getSegmentLoop, some.injEq, Prod.mk.injEq] at h
    obtain ⟨rfl, rfl⟩ := h
    exact ⟨⟨fun i hi => by omega, fun i hi => by omega, fun _ _ => rfl, fun _ _ => rfl,
      SameUse.refl _, fun i hi => by omega, fun _ _ => rfl⟩, rfl, rfl⟩
  | succ n ih =>
    simp only [getSegmentLoop] at h
    split at h
    · cases h
    · rename_i bl1 bm1 h1
      obtain ⟨t, hmap1, hidx1⟩ := ih h1
      obtain ⟨b, hf, rfl, hh, hrest, hblock, hmap, hidx⟩ := getSegmentStep_spec h
      refine ⟨⟨fun i hi => ?_, fun i hi => ?_, fun i hi => ?_, fun i hi => ?_,
        t.use.trans fun k => ?_, fun i hi => ?_, fun c hc => ?_⟩, hmap.trans hmap1, hidx.trans hidx1⟩
      · by_cases hin : i = n
        · subst hin; rw [← t.free_rest i (le_rfl), hf, update_self]
        · rw [t.free i (by omega), (hrest i hin).1, update_of_ne hin]
      · by_cases hin : i = n
        · subst hin; rw [← t.heap_rest i (le_rfl), update_self]; exact hh
        · rw [(hrest i hin).2, update_of_ne hin]; exact t.heap i (by omega)
      · rw [(hrest i (by omega)).1, t.free_rest i (by omega)]
      · rw [(hrest i (by omega)).2, t.heap_rest i (by omega)]
      · rw [hblock]
        by_cases hk : k = b
        · subst hk; simp
        · rw [update_of_ne hk]; exact ⟨rfl, rfl, rfl, rfl⟩
      · rw [hblock]
        by_cases hib : update bl1 n b i = b
        · rw [hib, update_self, hidx1]
        · have hin : i ≠ n := fun he => hib (by rw [he, update_self])
          rw [update_of_ne hib, update_of_ne hin]
          exact t.stamped i (by omega)
      · have hcb := hc n (by omega)
        rw [update_self] at hcb
        rw [hblock, update_of_ne (Ne.symm hcb)]
        refine t.other c fun i hi => ?_
        have := hc i (by omega)
        rwa [update_of_ne (by omega)] at this

theorem getSegment_spec {isreserve : Bool} {bm bm' : BM} {seg : Segment}
    (h : getSegment g bm isreserve = some (seg, bm')) :
    SegmentTaken isreserve g.bps bm seg.blocks bm' ∧ seg.now = 0 ∧ seg.segIdx = bm.segMapIdx ∧
      bm'.segMapIdx = bm.segMapIdx + 1 ∧
      bm'.segMap = update bm.segMap bm.segMapIdx (some 0) := by
  unfold getSegment at h
  split at h
  · cases h
  · rename_i bl bm1 h1
    simp only [some.injEq, Prod.mk.injEq] at h
    obtain ⟨rfl, rfl⟩ := h
    obtain ⟨t, hmap, hidx⟩ := getSegmentLoop_spec h1
    exact ⟨⟨t.free, t.heap, t.free_rest, t.heap_rest, t.use, t.stamped, t.other⟩, rfl, hidx,
      by rw [hidx], by rw [hmap, hidx]⟩

theorem changeReserveLoop_spec {reserve : Segment} {n : Nat} {bm bm' : BM}
    (h : changeReserveLoop reserve n bm = some bm') :
    (∀ i, i < n → (bm.maxHeap i).insertAppend (reserve.blocks i) = some (bm'.maxHeap i)) ∧
      (∀ i, n ≤ i → bm'.maxHeap i = bm.maxHeap i) ∧ bm'.freeBlock = bm.freeBlock ∧
      bm'.block = bm.block ∧ bm'.segMap = bm.segMap ∧ bm'.segMapIdx = bm.segMapIdx := by
  induction n generalizing bm' with
  | zero =>
    simp only [changeReserveLoop, some.injEq] at h; subst h
    exact ⟨fun i hi => by omega, fun _ _ => rfl, rfl, rfl, rfl, rfl⟩
  | succ n ih =>
    simp only [changeReserveLoop] at h
    split at h
    · cases h
    · rename_i bm1 h1
      obtain ⟨e1, e2, e3, e4⟩ := ih h1
      split at h
      · cases h
      · rename_i hp hins
        simp only [some.injEq] at h; subst h
        refine ⟨fun i hi => ?_, fun i hi => ?_, e3, e4⟩
        · by_cases hin : i = n
          · subst hin; rw [← e2 i (le_rfl), hins]; simp
          · simp only [ne_eq, hin, not_false_eq_true, update_of_ne]; exact e1 i (by omega)
        · simp only [ne_eq, show i ≠ n by omega, not_false_eq_true, update_of_ne]
          exact e2 i (by omega)

theorem changeReserve_cases {reserve seg : Segment} {bm bm' : BM}
    (h : changeReserve g bm reserve = some (seg, bm')) :
    ∃ bm1, getSegment g bm true = some (seg, bm1) ∧ changeReserveLoop reserve g.bps bm1 = some bm' := by
  unfold changeReserve at h
  split at h
  · cases h
  · rename_i res bm1 h1
    split at h
    · cases h
    · rename_i bm2 h2
      cases h
      exact ⟨bm1, h1, h2⟩

theorem changeReserve_spec {reserve seg : Segment} {bm bm' : BM}
    (h : changeReserve g bm reserve = some (seg, bm')) :
    (∀ i, i < g.bps → bm.freeBlock i = seg.blocks i :: bm'.freeBlock i) ∧ (∀ i, i < g.bps →
        (bm.maxHeap i).insertAppend (reserve.blocks i) = some (bm'.maxHeap i)) ∧
      SameUse bm bm' ∧ seg.now = 0 := by
  obtain ⟨bm1, h1, h2⟩ := changeReserve_cases h
  obtain ⟨t, hnow, -⟩ := getSegment_spec h1
  obtain ⟨e1, -, e3, e4, -⟩ := changeReserveLoop_spec h2
  refine ⟨fun i hi => by rw [t.free i hi, e3], fun i hi => ?_, t.use.trans (.of_block e4), hnow⟩
  have hheap : bm1.maxHeap i = bm.maxHeap i := by simpa using t.heap i hi
  rw [← hheap]; exact e1 i hi

/-! ## Victims -/

/-- The first `n` channels gave up a block of maximal `invalid_number`. -/
structure TargetTaken (n : Nat) (bm : BM) (gs : Nat → Nat) (bm' : BM) : Prop where
  wf : ∀ i, i < n → (bm'.maxHeap i).WF
  max : ∀ i, (bm'.maxHeap i).max = (bm.maxHeap i).max
  elems : ∀ i, i < n → (bm.maxHeap i).elems = gs i ::ₘ (bm'.maxHeap i).elems
  best : ∀ i, i < n → ∀ b ∈ (bm.maxHeap i).elems, getCnt bm b ≤ getCnt bm (gs i)
  rest : ∀ i, n ≤ i → bm'.maxHeap i = bm.maxHeap i
  block : bm'.block = bm.block
  free : bm'.freeBlock = bm.freeBlock
  map : bm'.segMap = bm.segMap
  idx : bm'.segMapIdx = bm.segMapIdx

theorem getGcTargetLoop_spec {n : Nat} {bm bm' : BM} {gs : Nat → Nat}
    (w : ∀ i, i < n → (bm.maxHeap i).WF) (h : getGcTargetLoop n bm = some (gs, bm')) :
    TargetTaken n bm gs bm' := by
  induction n generalizing gs bm' with
  | zero =>
    simp only [getGcTargetLoop, some.injEq, Prod.mk.injEq] at h
    obtain ⟨rfl, rfl⟩ := h
    exact ⟨fun i hi => by omega, fun _ => rfl, fun i hi => by omega, fun i hi => by omega,
      fun _ _ => rfl, rfl, rfl, rfl, rfl⟩
  | succ n ih =>
    simp only [getGcTargetLoop] at h
    split at h
    · cases h
    · rename_i gs1 bm1 h1
      have t := ih (fun i hi => w i (by omega)) h1
      have hcnt : getCnt bm1 = getCnt bm := by funext b; simp [getCnt, t.block]
      have hheap := t.rest n (le_refl n)
      rw [hcnt, hheap] at h
      obtain ⟨w1, e1, s1, m1, o1⟩ := Mh.construct_spec (getCnt bm) (w n (by omega))
      split at h
      · cases h
      · rename_i b hp hmax
        by_cases hs : 1 ≤ (Mh.construct (getCnt bm) (bm.maxHeap n)).size
        · obtain ⟨a, h', hget, w2, e2, s2, m2, -, hbest⟩ := Mh.getMax_spec (getCnt bm) w1 hs o1
          rw [hget] at hmax
          simp only [Prod.mk.injEq, some.injEq] at hmax
          obtain ⟨rfl, rfl⟩ := hmax
          simp only [some.injEq, Prod.mk.injEq] at h
          obtain ⟨rfl, rfl⟩ := h
          refine ⟨fun i hi => ?_, fun i => ?_, fun i hi => ?_, fun i hi => ?_, fun i hi => ?_,
            t.block, t.free, t.map, t.idx⟩
          · by_cases hin : i = n
            · subst hin; simpa using w2
            · simpa [hin] using t.wf i (by omega)
          · by_cases hin : i = n
            · subst hin; simp [m2, m1]
            · simpa [hin] using t.max i
          · by_cases hin : i = n
            · subst hin; simp [← e2, e1]
            · simpa [hin] using t.elems i (by omega)
          · by_cases hin : i = n
            · subst hin; simpa [e1] using hbest
            · simpa [hin] using t.best i (by omega)
          · simpa [show i ≠ n by omega] using t.rest i (by omega)
        · have hnone : ((Mh.construct (getCnt bm) (bm.maxHeap n)).getMax (getCnt bm)).1 = none :=
            Mh.getMax_empty w1 (by omega)
          rw [hmax] at hnone; cases hnone

/-- The blocks `gs 0 .. gs (n-1)` were erased and queued behind the free
blocks of their channels. -/
structure Trimmed (g : Geom) (n : Nat) (bm : BM) (gs : Nat → Nat) (bm' : BM) : Prop where
  erased : ∀ i, i < n → (bm'.block (gs i)).now = 0 ∧ (bm'.block (gs i)).invalidNumber = 0 ∧
    (bm'.block (gs i)).bitset = fun _ => false
  other : ∀ b, (∀ i, i < n → gs i ≠ b) → bm'.block b = bm.block b
  free : ∀ i, i < n → (bm.freeBlock i).length < g.nos → bm'.freeBlock i = bm.freeBlock i ++ [gs i]
  free_rest : ∀ i, n ≤ i → bm'.freeBlock i = bm.freeBlock i
  heap : bm'.maxHeap = bm.maxHeap

theorem trimStep_spec {i b : Nat} {bm bm' : BM} (h : trimStep g i b bm = some bm') :
    bm'.block = update bm.block b { bm.block b with
        invalidNumber := 0, now := 0, bitset := fun _ => false, oobList := fun _ => 0 } ∧
      bm'.freeBlock = update bm.freeBlock i
        (if (bm.freeBlock i).length = g.nos then bm.freeBlock i else bm.freeBlock i ++ [b]) ∧
      bm'.maxHeap = bm.maxHeap := by
  simp only [trimStep] at h
  split at h
  · cases h
  · simp only [some.injEq] at h; subst h; exact ⟨rfl, rfl, rfl⟩

theorem trimLoop_spec {n : Nat} {bm bm' : BM} {gs : Nat → Nat}
    (h : trimLoop g gs n bm = some bm') : Trimmed g n bm gs bm' := by
  induction n generalizing bm' with
  | zero =>
    simp only [trimLoop, some.injEq] at h; subst h
    exact ⟨fun i hi => by omega, fun _ _ => rfl, fun i hi => by omega, fun _ _ => rfl, rfl⟩
  | succ n ih =>
    simp only [trimLoop] at h
    split at h
    · cases h
    · rename_i bm1 h1
      have t := ih h1
      obtain ⟨eb, ef, eh⟩ := trimStep_spec h
      refine ⟨fun i hi => ?_, fun b hb => ?_, fun i hi hl => ?_, fun i hi => ?_, by rw [eh, t.heap]⟩
      · by_cases hb : gs i = gs n
        · rw [eb, hb, update_self]; exact ⟨rfl, rfl, rfl⟩
        · rw [eb, update_of_ne hb]
          exact t.erased i (by by_contra hc; exact hb (by rw [show i = n by omega]))
      · rw [eb, update_of_ne (fun hc => hb n (by omega) hc.symm)]
        exact t.other b fun i hi => hb i (by omega)
      · by_cases hin : i = n
        · subst hin
          rw [ef, update_self, t.free_rest i (le_rfl), if_neg (by omega)]
        · rw [ef, update_of_ne hin]; exact t.free i (by omega) hl
      · rw [ef, update_of_ne (by omega)]; exact t.free_rest i (by omega)

/-! ## Pages of a segment -/

/-- The segment has handed out `q` rounds of pages and, in the next one, the
pages of the channels below `now`. -/
structure Fill (g : Geom) (bm : BM) (s : Segment) (q : Nat) : Prop where
  now_lt : s.now < g.bps
  le : q ≤ g.ppb
  whole : q = g.ppb → s.now = 0
  count : ∀ i, i < g.bps → (bm.block (s.blocks i)).now = if i < s.now then q + 1 else q

theorem Fill.last {bm : BM} {s : Segment} {q : Nat} (f : Fill g bm s q) :
    (bm.block (s.blocks (g.bps - 1))).now = q := by
  have := g.bps_pos
  have hn := f.now_lt
  rw [f.count (g.bps - 1) (by omega), if_neg (by omega)]

theorem Fill.checkFull {bm : BM} {s : Segment} {q : Nat} (f : Fill g bm s q) :
    BlockManager.checkFull g bm s = true ↔ q = g.ppb := by
  simp [BlockManager.checkFull, f.last]

theorem Fill.fresh {bm : BM} {s : Segment} (h0 : s.now = 0)
    (h : ∀ i, i < g.bps → (bm.block (s.blocks i)).now = 0) : Fill g bm s 0 :=
  ⟨by have := g.bps_pos; omega, Nat.zero_le _, fun hq => h0,
    fun i hi => by rw [h i hi, if_neg (by omega)]⟩

theorem Fill.getPageNum {bm : BM} {s : Segment} {q : Nat} (f : Fill g bm s q) :
    (q = g.ppb → BlockManager.getPageNum g bm s = some (none, s, bm)) ∧
      (q < g.ppb → BlockManager.getPageNum g bm s = some (some (g.ppaMaker (s.blocks s.now) q),
        { s with now := if s.now + 1 = g.bps then 0 else s.now + 1,
                 usedPageNum := s.usedPageNum + 1 },
        bm.setBlock (s.blocks s.now) { bm.block (s.blocks s.now) with now := q + 1 })) := by
  have hcur : (bm.block (s.blocks s.now)).now = q := by
    rw [f.count s.now f.now_lt, if_neg (lt_irrefl _)]
  constructor
  · intro hq
    simp [BlockManager.getPageNum, f.whole hq, f.last, hq]
  · intro hq
    have h1 : ¬ (s.now = 0 ∧ (bm.block (s.blocks (g.bps - 1))).now = g.ppb) := by
      rw [f.last]; omega
    simp only [BlockManager.getPageNum, if_neg h1, hcur, gt_iff_lt]
    rw [if_neg (by omega)]

theorem Fill.advance {bm : BM} {s : Segment} {q : Nat} (f : Fill g bm s q) (hq : q < g.ppb)
    (hinj : ∀ i j, i < g.bps → j < g.bps → s.blocks i = s.blocks j → i = j) (bm' : BM)
    (hnow : (bm'.block (s.blocks s.now)).now = q + 1)
    (hoth : ∀ b, b ≠ s.blocks s.now → (bm'.block b).now = (bm.block b).now) (u : Nat) :
    ∃ q', Fill g bm' { s with now := if s.now + 1 = g.bps then 0 else s.now + 1,
                              usedPageNum := u } q' ∧
      q' * g.bps + (if s.now + 1 = g.bps then 0 else s.now + 1) = q * g.bps + s.now + 1 := by
  have hcount : ∀ i, i < g.bps → (bm'.block (s.blocks i)).now = if i ≤ s.now then q + 1 else q := by
    intro i hi
    by_cases hin : i = s.now
    · rw [hin, hnow, if_pos (le_rfl)]
    · rw [hoth _ fun he => hin (hinj i s.now hi f.now_lt he), f.count i hi]
      by_cases hlt : i < s.now
      · rw [if_pos hlt, if_pos (by omega)]
      · rw [if_neg hlt, if_neg (by omega)]
  have hlt := f.now_lt
  by_cases hwrap : s.now + 1 = g.bps
  · refine ⟨q + 1, ⟨?_, by omega, ?_, fun i hi => ?_⟩, ?_⟩
    · simp only [hwrap, if_true]; exact g.bps_pos
    · simp [hwrap]
    · simp only [hwrap, if_true, Nat.not_lt_zero, if_false]
      rw [hcount i hi, if_pos (by omega)]
    · rw [if_pos hwrap, Nat.succ_mul]; omega
  · refine ⟨q, ⟨?_, f.le, fun h => by omega, fun i hi => ?_⟩, ?_⟩
    · simp only [hwrap, if_false]; omega
    · simp only [hwrap, if_false]
      rw [hcount i hi]
      by_cases hin : i ≤ s.now
      · rw [if_pos hin, if_pos (by omega)]
      · rw [if_neg hin, if_neg (by omega)]
    · rw [if_neg hwrap]; omega

end FlashDriver.BlockManager
