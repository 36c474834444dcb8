import FlashDriver.BlockManager.Spec

/-!
# Block ownership under one active and one reserve segment

Both flash translation layers that use the base manager keep one active
segment, from which pages are written, and one reserve segment, into which
garbage collection moves live pages. `Owned` is the state of the manager
seen by such a user between two operations:

* every block of a channel is in its free queue, in its heap or in the
  reserve, and in only one of them;
* the active segment's blocks are in the heaps, every other heap block is
  completely written, and free and reserve blocks are erased;
* a valid page was handed out, and `invalid_number` counts the pages handed
  out that are not valid.

`newActive`, `alloc`, `invalidate` and `collect` show that taking a fresh
active segment, writing a page, dropping a page and collecting victims
without live pages keep it.
-/
namespace FlashDriver.BlockManager

open List Option Function
open DataStruct

/-- The blocks of channel `i`. -/
def channel (g : Geom) (i : Nat) : Multiset Nat := (Multiset.range g.nos).map fun j => j * g.bps + i

theorem channel_nodup (g : Geom) (i : Nat) : (channel g i).Nodup := by
  refine Multiset.Nodup.map_on ?_ (Multiset.nodup_range _)
  intro x _ y _ h
  exact Nat.eq_of_mul_eq_mul_right g.bps_pos (by omega)

theorem channel_card (g : Geom) (i : Nat) : (channel g i).card = g.nos := by simp [channel]

theorem mod_of_mem_channel {g : Geom} {i b : Nat} (hi : i < g.bps) (h : b ∈ channel g i) :
    b % g.bps = i := by
  simp only [channel, Multiset.mem_map, Multiset.mem_range] at h
  obtain ⟨j, -, rfl⟩ := h
  rw [add_comm, Nat.add_mul_mod_self_right, Nat.mod_eq_of_lt hi]

theorem rotate_owner {H F F' : Multiset Nat} {x r s : Nat} (h : F + {x} = s ::ₘ F') :
    r ::ₘ H + F' + {s} = x ::ₘ H + F + {r} := by
  rw [← Multiset.singleton_add] at h
  rw [← Multiset.singleton_add, ← Multiset.singleton_add]
  calc {r} + H + F' + {s} = {r} + H + ({s} + F') := by abel
    _ = {r} + H + (F + {x}) := by rw [h]
    _ = {x} + H + F + {r} := by abel

/-- The number of valid pages of a block. -/
def validCount (g : Geom) (x : Block) : Nat := ((Finset.range g.ppb).filter fun p => x.bitset p).card

theorem validCount_congr {g : Geom} {x y : Block} (h : x.bitset = y.bitset) :
    validCount g x = validCount g y := by unfold validCount; rw [h]

theorem validCount_zero {g : Geom} {x : Block} (h : validCount g x = 0) :
    ∀ p, p < g.ppb → x.bitset p = false := by
  intro p hp
  have := Finset.card_eq_zero.mp h
  by_contra hb
  have hmem : p ∈ (Finset.range g.ppb).filter fun p => x.bitset p :=
    Finset.mem_filter.mpr ⟨Finset.mem_range.mpr hp, by simpa using hb⟩
  rw [this] at hmem; cases hmem

theorem validCount_set {g : Geom} {x y : Block} {p : Nat} (hp : p < g.ppb) (h0 : x.bitset p = false)
    (hy : y.bitset = update x.bitset p true) : validCount g y = validCount g x + 1 := by
  unfold validCount
  have hins : ((Finset.range g.ppb).filter fun k => y.bitset k)
      = insert p ((Finset.range g.ppb).filter fun k => x.bitset k) := by
    ext k
    simp only [Finset.mem_filter, Finset.mem_range, Finset.mem_insert, hy, update_apply]
    by_cases hk : k = p
    · subst hk; simp [hp]
    · simp [hk]
  rw [hins, Finset.card_insert_of_notMem]
  simp [h0]

theorem validCount_clear {g : Geom} {x y : Block} {p : Nat} (hp : p < g.ppb) (h1 : x.bitset p = true)
    (hy : y.bitset = update x.bitset p false) : validCount g y + 1 = validCount g x := by
  have h0 : y.bitset p = false := by rw [hy, update_self]
  refine (validCount_set hp h0 (y := x) ?_).symm
  rw [hy, update_idem, ← h1, update_eq_self]

/-- A valid page was handed out, and `invalid_number` counts the others. -/
structure Block.Sound (g : Geom) (x : Block) : Prop where
  now_le : x.now ≤ g.ppb
  valid_lt : ∀ p, x.bitset p = true → p < x.now
  count : x.invalidNumber + validCount g x = x.now

theorem Block.Sound.congr {g : Geom} {x y : Block} (h : x.Sound g) (hn : y.now = x.now)
    (hb : y.bitset = x.bitset) (hi : y.invalidNumber = x.invalidNumber) : y.Sound g := by
  refine ⟨by rw [hn]; exact h.now_le, ?_, by rw [hi, validCount_congr hb, hn]; exact h.count⟩
  rw [hb, hn]
  exact h.valid_lt

theorem Block.Sound.erased {g : Geom} {x : Block} (hn : x.now = 0) (hi : x.invalidNumber = 0)
    (hb : x.bitset = fun _ => false) : x.Sound g := by
  refine ⟨by rw [hn]; exact Nat.zero_le _, fun p hp => ?_, ?_⟩
  · rw [hb] at hp; cases hp
  · rw [hn, hi]; simp [validCount, hb]

structure Owned (g : Geom) (bm : BM) (active reserve : Segment) : Prop where
  heap_wf : ∀ i, i < g.bps → (bm.maxHeap i).WF
  heap_max : ∀ i, i < g.bps → (bm.maxHeap i).max = g.nos
  own : ∀ i, i < g.bps →
    (bm.maxHeap i).elems + (bm.freeBlock i : Multiset Nat) + {reserve.blocks i} = channel g i
  active_mem : ∀ i, i < g.bps → active.blocks i ∈ (bm.maxHeap i).elems
  fill : ∃ q, Fill g bm active q
  reserve_now : reserve.now = 0
  reserve_erased : ∀ i, i < g.bps → (bm.block (reserve.blocks i)).now = 0
  free_erased : ∀ i, i < g.bps → ∀ b ∈ bm.freeBlock i, (bm.block b).now = 0
  written : ∀ i, i < g.bps → ∀ b ∈ (bm.maxHeap i).elems, b ≠ active.blocks i →
    (bm.block b).now = g.ppb
  sound : ∀ b, (bm.block b).Sound g

namespace Owned

variable {g : Geom} {bm bm' : BM} {active reserve : Segment}

theorem mem_channel (o : Owned g bm active reserve) {i b : Nat} (hi : i < g.bps)
    (hb : b ∈ (bm.maxHeap i).elems) : b ∈ channel g i := by
  rw [← o.own i hi]; simp [hb]

theorem active_inj (o : Owned g bm active reserve) (i j : Nat) (hi : i < g.bps) (hj : j < g.bps)
    (h : active.blocks i = active.blocks j) : i = j := by
  have h1 := mod_of_mem_channel hi (o.mem_channel hi (o.active_mem i hi))
  have h2 := mod_of_mem_channel hj (o.mem_channel hj (o.active_mem j hj))
  rw [h] at h1; omega

theorem free_length_lt (o : Owned g bm active reserve) {i : Nat} (hi : i < g.bps) :
    (bm.freeBlock i).length < g.nos := by
  have h := congrArg Multiset.card (o.own i hi)
  simp only [Multiset.card_add, Multiset.coe_card, Multiset.card_singleton, channel_card] at h
  omega

theorem written_of_full (o : Owned g bm active reserve) (hfull : checkFull g bm active = true)
    {i b : Nat} (hi : i < g.bps) (hb : b ∈ (bm.maxHeap i).elems) : (bm.block b).now = g.ppb := by
  by_cases h : b = active.blocks i
  · obtain ⟨q, f⟩ := o.fill
    have hq := f.checkFull.mp hfull
    rw [h, f.count i hi, f.whole hq, if_neg (Nat.not_lt_zero i), hq]
  · exact o.written i hi b hb h

theorem sameUse_sound (huse : SameUse bm bm') (h : ∀ b, (bm.block b).Sound g) (b : Nat) :
    (bm'.block b).Sound g := (h b).congr (huse b).1 (huse b).2.1 (huse b).2.2.1

theorem newActive (o : Owned g bm active reserve) (hfull : checkFull g bm active = true)
    {seg : Segment} (h : getSegment g bm false = some (seg, bm')) : Owned g bm' seg reserve := by
  obtain ⟨t, hnow, -⟩ := getSegment_spec h
  have hins : ∀ i, i < g.bps → (bm.maxHeap i).insertAppend (seg.blocks i) = some (bm'.maxHeap i) :=
    fun i hi => by simpa using t.heap i hi
  have hspec := fun i (hi : i < g.bps) => Mh.insertAppend_spec (o.heap_wf i hi) (hins i hi)
  have hfree : ∀ i, i < g.bps → ∀ b ∈ bm.freeBlock i, (bm'.block b).now = 0 := fun i hi b hb => by
    rw [(t.use b).1]; exact o.free_erased i hi b hb
  refine ⟨fun i hi => (hspec i hi).1, fun i hi => ?_, fun i hi => ?_, fun i hi => ?_, ⟨0, ?_⟩,
    o.reserve_now, fun i hi => ?_, fun i hi b hb => ?_, fun i hi b hb hne => ?_,
    sameUse_sound t.use o.sound⟩
  · rw [(hspec i hi).2.2.2, o.heap_max i hi]
  · rw [(hspec i hi).2.1, ← o.own i hi, t.free i hi, ← Multiset.cons_coe]
    simp only [Multiset.cons_add, Multiset.add_cons]
  · rw [(hspec i hi).2.1]; exact Multiset.mem_cons_self _ _
  · exact Fill.fresh hnow fun i hi => hfree i hi _ (by rw [t.free i hi]; simp)
  · rw [(t.use _).1]; exact o.reserve_erased i hi
  · exact hfree i hi b (by rw [t.free i hi]; exact .tail _ hb)
  · rw [(hspec i hi).2.1] at hb
    rw [(t.use b).1]
    exact o.written_of_full hfull hi ((Multiset.mem_cons.mp hb).resolve_left hne)

/-- What writing a page does to the blocks: block `b` hands out page `p`,
which becomes valid and carries `data` in its OOB area. -/
structure Wrote (bm bm' : BM) (b p data : Nat) : Prop where
  now : (bm'.block b).now = p + 1
  bits : (bm'.block b).bitset = update (bm.block b).bitset p true
  oob : (bm'.block b).oobList = update (bm.block b).oobList p data
  invalid : (bm'.block b).invalidNumber = (bm.block b).invalidNumber
  other : ∀ c, c ≠ b → bm'.block c = bm.block c

theorem alloc (o : Owned g bm active reserve) {res : Nat} {seg : Segment} {bm1 : BM}
    (h : getPageNum g bm active = some (some res, seg, bm1)) (data : Nat) :
    ∃ b p, p < g.ppb ∧ res = g.ppaMaker b p ∧ (bm.block b).now = p ∧
      Wrote bm (setOob g (populateBit g bm1 res).2 data res) b p data ∧
      Owned g (setOob g (populateBit g bm1 res).2 data res) seg reserve := by
  obtain ⟨q, f⟩ := o.fill
  obtain ⟨hfull, hnext⟩ := f.getPageNum
  have hq : q < g.ppb := by
    rcases lt_or_ge q g.ppb with hq | hq
    · exact hq
    · rw [hfull (by have := f.le; omega)] at h; cases h
  rw [hnext hq] at h
  simp only [some.injEq, Prod.mk.injEq] at h
  obtain ⟨rfl, rfl, rfl⟩ := h
  have hcur : (bm.block (active.blocks active.now)).now = q := by
    rw [f.count _ f.now_lt, if_neg (lt_irrefl _)]
  generalize hb : active.blocks active.now = b at *
  have hw : Wrote bm (setOob g (populateBit g (bm.setBlock b { bm.block b with now := q + 1 })
      (g.ppaMaker b q)).2 data (g.ppaMaker b q)) b q data := by
    constructor
    · simp [setOob, populateBit, getBlockIdx_ppaMaker g b hq]
    · simp [setOob, populateBit, getBlockIdx_ppaMaker g b hq, getPageIdx_ppaMaker g b hq]
    · simp [setOob, populateBit, getBlockIdx_ppaMaker g b hq, getPageIdx_ppaMaker g b hq]
    · simp [setOob, populateBit, getBlockIdx_ppaMaker g b hq]
    · intro c hc
      simp only [setOob, populateBit, getBlockIdx_ppaMaker g b hq]
      rw [setBlock_other _ _ hc, setBlock_other _ _ hc, setBlock_other _ _ hc]
  refine ⟨b, q, hq, rfl, hcur, hw, ?_⟩
  have hbit : (bm.block b).bitset q = false := by
    by_contra hc
    have := (o.sound b).valid_lt q (by simpa using hc)
    omega
  have hnow : ∀ c, c ≠ b → ((setOob g (populateBit g (bm.setBlock b { bm.block b with now := q + 1 })
      (g.ppaMaker b q)).2 data (g.ppaMaker b q)).block c).now = (bm.block c).now :=
    fun c hc => by rw [hw.other c hc]
  have hmem : b ∈ (bm.maxHeap active.now).elems := hb ▸ o.active_mem _ f.now_lt
  -- an erased block, or one that is completely written, is not the one written to
  have hne : ∀ i, i < g.bps → ∀ c, (c ∈ bm.freeBlock i ∨ c = reserve.blocks i) → c ≠ b := by
    rintro i hi c hc rfl
    have hci : c ∈ channel g i := by
      rw [← o.own i hi]
      rcases hc with hc | hc <;> simp [hc]
    have : i = active.now := by
      rw [← mod_of_mem_channel hi hci, mod_of_mem_channel f.now_lt (o.mem_channel f.now_lt hmem)]
    subst this
    have hnd := channel_nodup g active.now
    rw [← o.own _ hi, Multiset.add_assoc] at hnd
    exact Multiset.disjoint_left.mp (Multiset.nodup_add.mp hnd).2.2 hmem (by
      rcases hc with hc | hc <;> simp [hc])
  refine ⟨o.heap_wf, o.heap_max, o.own, o.active_mem, ?_, o.reserve_now, fun i hi => ?_,
    fun i hi c hc => ?_, fun i hi c hc hca => ?_, fun c => ?_⟩
  · obtain ⟨q', f', -⟩ := f.advance hq o.active_inj _ (by rw [hb]; exact hw.now)
      (by rw [hb]; exact hnow) (active.usedPageNum + 1)
    exact ⟨q', f'⟩
  · rw [hnow _ (hne i hi _ (.inr rfl))]; exact o.reserve_erased i hi
  · rw [hnow _ (hne i hi _ (.inl hc))]; exact o.free_erased i hi c hc
  · have hcb : c ≠ b := by
      rintro rfl
      have : i = active.now := by
        rw [← mod_of_mem_channel hi (o.mem_channel hi hc),
          mod_of_mem_channel f.now_lt (o.mem_channel f.now_lt hmem)]
      subst this; exact hca hb.symm
    rw [hnow c hcb]; exact o.written i hi c hc hca
  · by_cases hcb : c = b
    · subst hcb
      have hc := (o.sound c).count
      refine ⟨by rw [hw.now]; omega, fun p hp => ?_, ?_⟩
      · rw [hw.bits, update_apply] at hp
        rw [hw.now]
        split at hp
        · omega
        · have := (o.sound c).valid_lt p hp; omega
      · rw [hw.now, hw.invalid, validCount_set hq hbit hw.bits]; omega
    · rw [hw.other c hcb]; exact o.sound c

/-- What dropping a page does to the blocks. -/
structure Dropped (bm bm' : BM) (b p : Nat) : Prop where
  bits : (bm'.block b).bitset = update (bm.block b).bitset p false
  oob : (bm'.block b).oobList = (bm.block b).oobList
  other : ∀ c, c ≠ b → bm'.block c = bm.block c

theorem invalidate (o : Owned g bm active reserve) {b p : Nat} (hp : p < g.ppb)
    (hv : (bm.block b).bitset p = true) :
    Dropped bm (unpopulateBit g bm (g.ppaMaker b p)).2 b p ∧
      Owned g (unpopulateBit g bm (g.ppaMaker b p)).2 active reserve := by
  have hbn := getBlockIdx_ppaMaker g b hp
  have hpn := getPageIdx_ppaMaker g b hp
  have hd : Dropped bm (unpopulateBit g bm (g.ppaMaker b p)).2 b p := by
    constructor
    · simp [unpopulateBit, hbn, hpn]
    · simp [unpopulateBit, hbn]
    · intro c hc; simp only [unpopulateBit, hbn]; exact setBlock_other _ _ hc
  refine ⟨hd, ?_⟩
  have hnow : ∀ c, ((unpopulateBit g bm (g.ppaMaker b p)).2.block c).now = (bm.block c).now := by
    intro c
    by_cases hc : c = b
    · subst hc; simp [unpopulateBit, hbn]
    · rw [hd.other c hc]
  have hvc := validCount_clear hp hv hd.bits
  obtain ⟨hub, hlt, hcnt⟩ := o.sound b
  refine ⟨o.heap_wf, o.heap_max, o.own, o.active_mem, ?_, o.reserve_now, fun i hi => ?_,
    fun i hi c hc => ?_, fun i hi c hc hca => ?_, fun c => ?_⟩
  · obtain ⟨q, f⟩ := o.fill
    exact ⟨q, f.now_lt, f.le, f.whole, fun i hi => by rw [hnow]; exact f.count i hi⟩
  · rw [hnow]; exact o.reserve_erased i hi
  · rw [hnow]; exact o.free_erased i hi c hc
  · rw [hnow]; exact o.written i hi c hc hca
  · by_cases hc : c = b
    · subst hc
      have hinv : ((unpopulateBit g bm (g.ppaMaker c p)).2.block c).invalidNumber
          = (bm.block c).invalidNumber + 1 := by
        have := g.ppb_lt
        simp only [unpopulateBit, hbn, setBlock_same]
        exact Nat.mod_eq_of_lt (by omega)
      refine ⟨by rw [hnow]; exact hub, fun k hk => ?_, by rw [hnow, hinv]; omega⟩
      rw [hnow]
      rw [hd.bits, update_apply] at hk
      split at hk
      · cases hk
      · exact hlt k hk
    · rw [hd.other c hc]; exact o.sound c

theorem target_clean (o : Owned g bm active reserve) (hfull : checkFull g bm active = true)
    {gs : Nat → Nat} (t : TargetTaken g.bps bm gs bm')
    (hclean : ∀ i, i < g.bps → ∃ b ∈ (bm.maxHeap i).elems, ∀ p, p < g.ppb →
      (bm.block b).bitset p = false) {i : Nat} (hi : i < g.bps) :
    ∀ p, p < g.ppb → (bm.block (gs i)).bitset p = false := by
  obtain ⟨b, hb, hbits⟩ := hclean i hi
  have hgs : gs i ∈ (bm.maxHeap i).elems := by rw [t.elems i hi]; exact Multiset.mem_cons_self _ _
  have h0 : validCount g (bm.block b) = 0 := by
    refine Finset.card_eq_zero.mpr (Finset.filter_eq_empty_iff.mpr fun p hp => ?_)
    simp [hbits p (Finset.mem_range.mp hp)]
  have h1 := (o.sound b).count
  have h2 := (o.sound (gs i)).count
  have h3 := t.best i hi b hb
  rw [o.written_of_full hfull hi hb] at h1
  rw [o.written_of_full hfull hi hgs] at h2
  unfold getCnt at h3
  exact validCount_zero (by omega)

theorem collect (o : Owned g bm active reserve) (hfull : checkFull g bm active = true)
    {gs : Nat → Nat} {bm1 bm2 bm3 : BM} {seg : Segment} (t : TargetTaken g.bps bm gs bm1)
    (h2 : trimSegment g bm1 gs = some bm2) (h3 : changeReserve g bm2 reserve = some (seg, bm3)) :
    Owned g bm3 reserve seg ∧ ∀ b, (∀ i, i < g.bps → gs i ≠ b) →
      (bm3.block b).bitset = (bm.block b).bitset ∧ (bm3.block b).oobList = (bm.block b).oobList := by
  have tr := trimLoop_spec h2
  obtain ⟨hfree, hins, huse, hnow⟩ := changeReserve_spec h3
  have hmemgs : ∀ i, i < g.bps → gs i ∈ (bm.maxHeap i).elems := fun i hi => by
    rw [t.elems i hi]; exact Multiset.mem_cons_self _ _
  have hspec := fun i (hi : i < g.bps) => Mh.insertAppend_spec (by rw [tr.heap]; exact t.wf i hi)
    (hins i hi)
  have hq : ∀ i, i < g.bps → bm.freeBlock i ++ [gs i] = seg.blocks i :: bm3.freeBlock i :=
    fun i hi => by
      rw [← hfree i hi, tr.free i hi (by rw [t.free]; exact o.free_length_lt hi), t.free]
  -- the block table: victims are erased, the rest is as before
  have hvict : ∀ i, i < g.bps → (bm3.block (gs i)).now = 0 ∧ (bm3.block (gs i)).invalidNumber = 0 ∧
      (bm3.block (gs i)).bitset = fun _ => false := fun i hi => by
    rw [(huse _).1, (huse _).2.1, (huse _).2.2.1]; exact tr.erased i hi
  have hother : ∀ b, (∀ i, i < g.bps → gs i ≠ b) → (bm3.block b).now = (bm.block b).now ∧
      (bm3.block b).bitset = (bm.block b).bitset ∧
      (bm3.block b).invalidNumber = (bm.block b).invalidNumber ∧
      (bm3.block b).oobList = (bm.block b).oobList := fun b hb => by
    rw [(huse b).1, (huse b).2.1, (huse b).2.2.1, (huse b).2.2.2, tr.other b hb, t.block]
    exact ⟨rfl, rfl, rfl, rfl⟩
  refine ⟨?_, fun b hb => ⟨(hother b hb).2.1, (hother b hb).2.2.2⟩⟩
  have herased : ∀ i, i < g.bps → ∀ b, (bm.block b).now = 0 → (bm3.block b).now = 0 := by
    intro i hi b hb
    by_cases hv : ∃ j, j < g.bps ∧ gs j = b
    · obtain ⟨j, hj, rfl⟩ := hv; exact (hvict j hj).1
    · rw [(hother b fun j hj he => hv ⟨j, hj, he⟩).1, hb]
  have hqerased : ∀ i, i < g.bps → ∀ b ∈ bm.freeBlock i ++ [gs i], (bm3.block b).now = 0 := by
    intro i hi b hb
    rcases mem_append.mp hb with hb | hb
    · exact herased i hi b (o.free_erased i hi b hb)
    · rw [mem_singleton.mp hb]; exact (hvict i hi).1
  -- what stays in the heap next to the old reserve is not a victim
  have hstay : ∀ i, i < g.bps → ∀ b ∈ (bm1.maxHeap i).elems, ∀ j, j < g.bps → gs j ≠ b := by
    rintro i hi b hb j hj rfl
    have hbi : gs j ∈ (bm.maxHeap i).elems := by rw [t.elems i hi]; simp [hb]
    have hij : i = j := by
      rw [← mod_of_mem_channel hi (o.mem_channel hi hbi),
        mod_of_mem_channel hj (o.mem_channel hj (hmemgs j hj))]
    subst hij
    have hnd := channel_nodup g i
    rw [← o.own i hi, Multiset.add_assoc, t.elems i hi, Multiset.cons_add] at hnd
    exact (Multiset.nodup_cons.mp hnd).1 (by simp [hb])
  refine ⟨fun i hi => (hspec i hi).1, fun i hi => ?_, fun i hi => ?_, fun i hi => ?_, ⟨0, ?_⟩,
    hnow, fun i hi => ?_, fun i hi b hb => ?_, fun i hi b hb hne => ?_, fun b => ?_⟩
  · rw [(hspec i hi).2.2.2, tr.heap, t.max, o.heap_max i hi]
  · rw [(hspec i hi).2.1, tr.heap, ← o.own i hi, t.elems i hi]
    refine rotate_owner ?_
    rw [← Multiset.coe_singleton, Multiset.coe_add, hq i hi, Multiset.cons_coe]
  · rw [(hspec i hi).2.1]; exact Multiset.mem_cons_self _ _
  · exact Fill.fresh o.reserve_now fun i hi => herased i hi _ (o.reserve_erased i hi)
  · exact hqerased i hi _ (by rw [hq i hi]; simp)
  · exact hqerased i hi b (by rw [hq i hi]; exact .tail _ hb)
  · rw [(hspec i hi).2.1, tr.heap] at hb
    have hb1 := (Multiset.mem_cons.mp hb).resolve_left hne
    rw [(hother b (hstay i hi b hb1)).1]
    exact o.written_of_full hfull hi (by rw [t.elems i hi]; simp [hb1])
  · by_cases hv : ∃ j, j < g.bps ∧ gs j = b
    · obtain ⟨j, hj, rfl⟩ := hv
      exact .erased (hvict j hj).1 (hvict j hj).2.1 (hvict j hj).2.2
    · have hb := hother b fun j hj he => hv ⟨j, hj, he⟩
      exact (o.sound b).congr hb.1 hb.2.1 hb.2.2.1

end Owned

theorem owned_init (g : Geom) {bm1 bm2 : BM} {reserve active : Segment}
    (h1 : getSegment g (create g) true = some (reserve, bm1))
    (h2 : getSegment g bm1 false = some (active, bm2)) : Owned g bm2 active reserve := by
  obtain ⟨t1, n1, -⟩ := getSegment_spec h1
  obtain ⟨t2, n2, -⟩ := getSegment_spec h2
  have huse := t1.use.trans t2.use
  have hheap1 : ∀ i, i < g.bps → bm1.maxHeap i = Mh.init g.nos := fun i hi => by
    simpa [create] using t1.heap i hi
  have hins : ∀ i, i < g.bps → (Mh.init g.nos).insertAppend (active.blocks i) = some (bm2.maxHeap i) :=
    fun i hi => by rw [← hheap1 i hi]; simpa using t2.heap i hi
  have hspec := fun i (hi : i < g.bps) => Mh.insertAppend_spec (Mh.init_wf g.nos) (hins i hi)
  have helems : ∀ i, i < g.bps → (bm2.maxHeap i).elems = {active.blocks i} := fun i hi => by
    rw [(hspec i hi).2.1, Mh.init_elems]; rfl
  have hnow : ∀ b, (bm2.block b).now = 0 := fun b => by rw [(huse b).1]; rfl
  refine ⟨fun i hi => (hspec i hi).1, fun i hi => (hspec i hi).2.2.2, fun i hi => ?_,
    fun i hi => by rw [helems i hi]; exact Multiset.mem_singleton_self _,
    ⟨0, Fill.fresh n2 fun i _ => hnow _⟩, n1, fun i _ => hnow _, fun i _ b _ => hnow b,
    fun i hi b hb hne => ?_, fun b => .erased (hnow b) ?_ ?_⟩
  · have hq : (create g).freeBlock i = reserve.blocks i :: active.blocks i :: bm2.freeBlock i := by
      rw [t1.free i hi, t2.free i hi]
    have hqm := congrArg (fun l : List Nat => (l : Multiset Nat)) hq
    have hch : (((create g).freeBlock i : List Nat) : Multiset Nat) = channel g i := by
      simp only [create, channel, ← Multiset.map_coe]; rfl
    simp only [hch, ← Multiset.cons_coe] at hqm
    rw [hqm, helems i hi, Multiset.add_comm, ← Multiset.singleton_add (reserve.blocks i),
      ← Multiset.singleton_add (active.blocks i)]
  · rw [helems i hi] at hb; exact absurd (Multiset.mem_singleton.mp hb) hne
  · rw [(huse b).2.2.1]; rfl
  · rw [(huse b).2.1]; rfl

end FlashDriver.BlockManager
