import FlashDriver.Core.LTS
import FlashDriver.BlockManager.Ownership

/-!
# Where every block is (`blockmanager/base_block_manager.c`)

The manager seen as a machine that hands out segments, swaps the reserve,
takes gc targets and trims them, while its users write and invalidate pages
in between. A ghost record keeps, for each segment handed out, its blocks
and which of them were trimmed since.

* `Places`: a block of a channel is in the free queue, in the heap, in the
  reserve or in the gc target being processed, and in one of them only.
* `Books`: `seg_map` holds the segments with an untrimmed block, each with
  the number of its trimmed blocks.
* `blocks_accounted`: both hold in every reachable state, the free queues
  are equally long, and no operation meets a capacity limit.
-/
namespace FlashDriver.BlockManager

open List Option Function
open DataStruct FlashDriver.Core

/-! ## The machine -/

/-- A segment that was handed out: its block in each channel, and the channels whose
block was trimmed since. -/
structure Handed where
  blocks : Nat → Nat
  trimmed : Nat → Bool

/-- The trim of the target `gs` has reached channel `n`. -/
def Handed.mark (gs : Nat → Nat) (n : Nat) (h : Handed) : Handed :=
  { h with trimmed := fun i => h.trimmed i || (decide (i < n) && decide (h.blocks i = gs i)) }

/-- The manager, the current reserve, the gc target being processed, and a ghost record of
the segments handed out so far by `seg_idx`. -/
structure Sys where
  bm : BM
  reserve : Segment
  target : Option (Nat → Nat)
  handed : Nat → Option Handed

inductive Op
  | getSegment
  | changeReserve
  | getGcTarget
  | trimSegment
  | work (block : Nat → Block)   -- the users' writes and invalidations

/-- What the users of the manager change in a block between two operations: anything but
its `seg_idx`. -/
def useBlocks (bm : BM) (block : Nat → Block) : BM :=
  { bm with block := fun b => { block b with segIdx := (bm.block b).segIdx } }

def hand (handed : Nat → Option Handed) (seg : Segment) : Nat → Option Handed :=
  update handed seg.segIdx (some ⟨seg.blocks, fun _ => false⟩)

section
variable (g : Geom)

def Sys.step (s : Sys) : Op → Option Sys
  | .getSegment => match BlockManager.getSegment g s.bm false with
    | none => none
    | some (seg, bm) => some { s with bm := bm, handed := hand s.handed seg }
  | .changeReserve => match BlockManager.changeReserve g s.bm s.reserve with
    | none => none
    | some (seg, bm) => some { s with bm := bm, reserve := seg, handed := hand s.handed seg }
  | .getGcTarget => match s.target, BlockManager.getGcTarget g s.bm with
    | none, some (gs, bm) => some { s with bm := bm, target := some gs }
    | _, _ => none
  | .trimSegment => match s.target with
    | none => none
    | some gs => match BlockManager.trimSegment g s.bm gs with
      | none => none
      | some bm => some { s with bm := bm, target := none,
                                 handed := fun k => (s.handed k).map (Handed.mark gs g.bps) }
  | .work block => some { s with bm := useBlocks s.bm block }

/-- `base_create` and one reserve segment. -/
def Sys.create : Option Sys := match BlockManager.getSegment g (BlockManager.create g) true with
  | none => none
  | some (seg, bm) => some ⟨bm, seg, none, hand (fun _ => none) seg⟩

def manager : LTS Sys Op where
  init s := Sys.create g = some s
  step s op s' := s.step g op = some s'

end

section
variable {g : Geom} {s s' : Sys}

theorem step_getSegment (h : s.step g .getSegment = some s') :
    ∃ seg bm', getSegment g s.bm false = some (seg, bm') ∧
      s' = { s with bm := bm', handed := hand s.handed seg } := by
  simp only [Sys.step] at h
  split at h
  · cases h
  · rename_i seg bm' h1
    exact ⟨seg, bm', h1, (some.inj h).symm⟩

theorem step_changeReserve (h : s.step g .changeReserve = some s') :
    ∃ seg bm', changeReserve g s.bm s.reserve = some (seg, bm') ∧
      s' = { s with bm := bm', reserve := seg, handed := hand s.handed seg } := by
  simp only [Sys.step] at h
  split at h
  · cases h
  · rename_i seg bm' h1
    exact ⟨seg, bm', h1, (some.inj h).symm⟩

theorem step_getGcTarget (h : s.step g .getGcTarget = some s') :
    ∃ gs bm', s.target = none ∧ getGcTarget g s.bm = some (gs, bm') ∧
      s' = { s with bm := bm', target := some gs } := by
  simp only [Sys.step] at h
  split at h
  · rename_i gs bm' h0 h1
    exact ⟨gs, bm', h0, h1, (some.inj h).symm⟩
  · cases h

theorem step_trimSegment (h : s.step g .trimSegment = some s') :
    ∃ gs bm', s.target = some gs ∧ trimSegment g s.bm gs = some bm' ∧
      s' = { s with bm := bm', target := none,
                    handed := fun k => (s.handed k).map (Handed.mark gs g.bps) } := by
  simp only [Sys.step] at h
  split at h
  · cases h
  · rename_i gs h0
    split at h
    · cases h
    · rename_i bm' h1
      exact ⟨gs, bm', h0, h1, (some.inj h).symm⟩

end

/-! ## The invariant -/

def trimmedCount (g : Geom) (h : Handed) : Nat :=
  ((Finset.range g.bps).filter fun i => h.trimmed i).card

/-- What `seg_map` should hold for a segment: nothing once all its blocks are trimmed. -/
def segEntry (g : Geom) : Option Handed → Option Nat
  | none => none
  | some h => if trimmedCount g h = g.bps then none else some (trimmedCount g h)

/-- The blocks of the gc target being processed, in channel `i`. -/
def targetPart (target : Option (Nat → Nat)) (i : Nat) : Multiset Nat :=
  target.elim 0 fun gs => {gs i}

/-- Every block of a channel is in one place. -/
structure Places (g : Geom) (s : Sys) : Prop where
  heap_wf : ∀ i, i < g.bps → (s.bm.maxHeap i).WF
  heap_max : ∀ i, i < g.bps → (s.bm.maxHeap i).max = g.nos
  own : ∀ i, i < g.bps → (s.bm.maxHeap i).elems + (s.bm.freeBlock i : Multiset Nat) +
    {s.reserve.blocks i} + targetPart s.target i = channel g i
  level : ∀ i, i < g.bps → (s.bm.freeBlock i).length = (s.bm.freeBlock 0).length

/-- The blocks outside the free queues are those that a segment got and that were not
trimmed since, and `seg_map` agrees. -/
structure Books (g : Geom) (bm : BM) (handed : Nat → Option Handed) : Prop where
  fresh : ∀ k, bm.segMapIdx ≤ k → handed k = none
  out : ∀ k h, handed k = some h → ∀ i, i < g.bps → h.trimmed i = false →
    h.blocks i ∈ channel g i ∧ h.blocks i ∉ bm.freeBlock i ∧ (bm.block (h.blocks i)).segIdx = k
  back : ∀ i, i < g.bps → ∀ b ∈ channel g i, b ∉ bm.freeBlock i →
    ∃ h, handed (bm.block b).segIdx = some h ∧ h.blocks i = b ∧ h.trimmed i = false
  map : ∀ k, bm.segMap k = segEntry g (handed k)

variable {g : Geom}

/-! ## Keeping the books -/

variable {bm bm' : BM} {handed : Nat → Option Handed}

theorem channel_ne {i j b c : Nat} (hi : i < g.bps) (hj : j < g.bps) (hb : b ∈ channel g i)
    (hc : c ∈ channel g j) (hij : i ≠ j) : b ≠ c := by
  rintro rfl
  exact hij ((mod_of_mem_channel hi hb).symm.trans (mod_of_mem_channel hj hc))

theorem Books.congr (B : Books g bm handed) (hf : bm'.freeBlock = bm.freeBlock)
    (hb : ∀ b, (bm'.block b).segIdx = (bm.block b).segIdx) (hm : bm'.segMap = bm.segMap)
    (hi : bm'.segMapIdx = bm.segMapIdx) : Books g bm' handed := by
  refine ⟨by rw [hi]; exact B.fresh, ?_, ?_, by rw [hm]; exact B.map⟩
  · intro k h hk i hlt ht
    rw [hf, hb]
    exact B.out k h hk i hlt ht
  · intro i hlt b hbc hbf
    rw [hf] at hbf
    rw [hb]
    exact B.back i hlt b hbc hbf

theorem trimmedCount_fresh (g : Geom) (bl : Nat → Nat) : trimmedCount g ⟨bl, fun _ => false⟩ = 0 := by
  simp [trimmedCount]

theorem Books.getSegment (B : Books g bm handed) {isreserve : Bool} {seg : Segment}
    (hfree : ∀ i, i < g.bps → ∀ b ∈ bm.freeBlock i, b ∈ channel g i)
    (hnd : ∀ i, i < g.bps → (bm.freeBlock i).Nodup)
    (h : getSegment g bm isreserve = some (seg, bm')) : Books g bm' (hand handed seg) := by
  obtain ⟨t, -, hseg, hidx, hmap⟩ := getSegment_spec h
  have hhead : ∀ i, i < g.bps → seg.blocks i ∈ bm.freeBlock i := fun i hi => by
    rw [t.free i hi]; exact mem_cons_self
  have hnot : ∀ i, i < g.bps → seg.blocks i ∉ bm'.freeBlock i := fun i hi => by
    have := hnd i hi
    rw [t.free i hi] at this
    exact (nodup_cons.mp this).1
  -- A block that was already out keeps its segment number.
  have hkeep : ∀ i, i < g.bps → ∀ b ∈ channel g i, b ∉ bm.freeBlock i →
      (bm'.block b).segIdx = (bm.block b).segIdx := by
    intro i hi b hb hbf
    refine t.other b fun j hj he => ?_
    by_cases hij : j = i
    · exact hbf (he ▸ hij ▸ hhead j hj)
    · exact channel_ne hj hi (hfree j hj _ (hhead j hj)) hb hij he
  refine ⟨fun k hk => ?_, fun k hd hk i hi ht => ?_, fun i hi b hb hbf => ?_, fun k => ?_⟩
  · rw [hidx] at hk
    rw [hand, update_of_ne (by omega)]
    exact B.fresh k (by omega)
  · by_cases hkk : k = seg.segIdx
    · rw [hkk, hand, update_self] at hk
      cases hk
      exact ⟨hfree i hi _ (hhead i hi), hnot i hi, by rw [t.stamped i hi, hkk, hseg]⟩
    · rw [hand, update_of_ne hkk] at hk
      obtain ⟨hc, hf, hs⟩ := B.out k hd hk i hi ht
      refine ⟨hc, fun hm => hf ?_, by rw [hkeep i hi _ hc hf, hs]⟩
      rw [t.free i hi]
      exact .tail _ hm
  · by_cases hbs : b = seg.blocks i
    · subst hbs
      refine ⟨⟨seg.blocks, fun _ => false⟩, ?_, rfl, rfl⟩
      rw [t.stamped i hi, ← hseg, hand, update_self]
    · have hbf0 : b ∉ bm.freeBlock i := by
        rw [t.free i hi]
        simp [hbs, hbf]
      obtain ⟨hd, hhd, hblk, htr⟩ := B.back i hi b hb hbf0
      refine ⟨hd, ?_, hblk, htr⟩
      have hne : (bm.block b).segIdx ≠ seg.segIdx := by
        intro he
        rw [he, hseg, B.fresh _ (le_rfl)] at hhd
        cases hhd
      rw [hkeep i hi b hb hbf0, hand, update_of_ne hne]
      exact hhd
  · rw [hmap, hand, ← hseg]
    by_cases hk : k = seg.segIdx
    · subst hk
      have := g.bps_pos
      rw [update_self, update_self, segEntry, trimmedCount_fresh, if_neg (by omega)]
    · rw [update_of_ne hk, update_of_ne hk]
      exact B.map k

/-! ## Trimming a target -/

theorem trimStep_map {i b c : Nat} (h : bm.segMap (bm.block b).segIdx = some c) :
    ∃ bm', trimStep g i b bm = some bm' ∧ bm'.segMapIdx = bm.segMapIdx ∧
      bm'.segMap = update bm.segMap (bm.block b).segIdx
        (if c + 1 = g.bps then none else some (c + 1)) := by
  simp only [trimStep, BM.setBlock, h]
  exact ⟨_, rfl, rfl, rfl⟩

theorem trimStep_segIdx {i b : Nat} (h : trimStep g i b bm = some bm') (c : Nat) :
    (bm'.block c).segIdx = (bm.block c).segIdx := by
  rw [(trimStep_spec h).1]
  by_cases hc : c = b
  · rw [hc, update_self]
  · rw [update_of_ne hc]

theorem mark_trimmed (gs : Nat → Nat) (n : Nat) (h : Handed) (i : Nat) :
    (h.mark gs n).trimmed i = (h.trimmed i || (decide (i < n) && decide (h.blocks i = gs i))) := rfl

theorem mark_self (gs : Nat → Nat) (n : Nat) (h : Handed) :
    (h.mark gs n).trimmed n = h.trimmed n := by
  simp [mark_trimmed]

theorem mark_succ_same {gs : Nat → Nat} {n : Nat} {h : Handed}
    (hn : h.trimmed n = true ∨ h.blocks n ≠ gs n) : h.mark gs (n + 1) = h.mark gs n := by
  have : (h.mark gs (n + 1)).trimmed = (h.mark gs n).trimmed := by
    funext i
    rw [mark_trimmed, mark_trimmed]
    by_cases hi : i = n
    · subst hi
      rcases hn with hn | hn
      · simp [hn]
      · simp [hn]
    · congr 2
      rw [decide_eq_decide]
      omega
  exact congrArg (Handed.mk h.blocks) this

theorem trimmedCount_lt {h : Handed} {n : Nat} (hn : n < g.bps) (ht : h.trimmed n = false) :
    trimmedCount g h < g.bps := by
  have hs : ((Finset.range g.bps).filter fun i => h.trimmed i) ⊂ Finset.range g.bps := by
    refine Finset.filter_ssubset.mpr ⟨n, Finset.mem_range.mpr hn, ?_⟩
    simp [ht]
  have hlt := Finset.card_lt_card hs
  rwa [Finset.card_range] at hlt

theorem trimmedCount_mark {gs : Nat → Nat} {n : Nat} {h : Handed} (hn : n < g.bps)
    (ht : h.trimmed n = false) (hb : h.blocks n = gs n) :
    trimmedCount g (h.mark gs (n + 1)) = trimmedCount g (h.mark gs n) + 1 := by
  have hins : ((Finset.range g.bps).filter fun i => (h.mark gs (n + 1)).trimmed i)
      = insert n ((Finset.range g.bps).filter fun i => (h.mark gs n).trimmed i) := by
    ext i
    rw [Finset.mem_filter, Finset.mem_insert, Finset.mem_filter, mark_trimmed, mark_trimmed]
    by_cases hi : i = n
    · subst hi
      simp [hn, hb]
    · have : i < n + 1 ↔ i < n := by omega
      simp [hi, this]
  unfold trimmedCount
  rw [hins, Finset.card_insert_of_notMem (by simp [mark_self, ht])]

theorem Books.trimLoop (B : Books g bm handed) {gs : Nat → Nat}
    (hgs : ∀ i, i < g.bps → gs i ∈ channel g i ∧ gs i ∉ bm.freeBlock i) {n : Nat}
    (hn : n ≤ g.bps) : ∃ bm', BlockManager.trimLoop g gs n bm = some bm' ∧
      (∀ b, (bm'.block b).segIdx = (bm.block b).segIdx) ∧ bm'.segMapIdx = bm.segMapIdx ∧
      ∀ k, bm'.segMap k = segEntry g ((handed k).map (Handed.mark gs n)) := by
  induction n with
  | zero =>
    refine ⟨bm, rfl, fun _ => rfl, rfl, fun k => ?_⟩
    have : Handed.mark gs 0 = id := by
      funext h
      simp [Handed.mark]
    rw [this, Option.map_id, id_eq]
    exact B.map k
  | succ n ih =>
    obtain ⟨bm1, h1, hseg, hidx, hmap⟩ := ih (by omega)
    obtain ⟨hc, hf⟩ := hgs n (by omega)
    obtain ⟨h, hh, hb, ht⟩ := B.back n (by omega) (gs n) hc hf
    -- The victim's segment still has an untrimmed block, the victim itself.
    have hlt : trimmedCount g (h.mark gs n) < g.bps :=
      trimmedCount_lt (n := n) (by omega) (by rw [mark_self, ht])
    have hcur : bm1.segMap (bm1.block (gs n)).segIdx = some (trimmedCount g (h.mark gs n)) := by
      rw [hseg, hmap, hh, map_some, segEntry, if_neg (by omega)]
    obtain ⟨bm2, h2, hidx2, hmap2⟩ := trimStep_map (g := g) (i := n) hcur
    refine ⟨bm2, ?_, fun b => by rw [trimStep_segIdx h2, hseg], by rw [hidx2, hidx], fun k => ?_⟩
    · simp only [BlockManager.trimLoop, h1, h2]
    · rw [hmap2, hseg]
      by_cases hk : k = (bm.block (gs n)).segIdx
      · rw [hk, update_self, hh, map_some, segEntry, trimmedCount_mark (by omega) ht hb]
      · rw [update_of_ne hk, hmap]
        cases hk' : handed k with
        | none => rfl
        | some h' =>
          rw [map_some, map_some, mark_succ_same]
          by_cases ht' : h'.trimmed n = false
          · refine .inr fun hb' => hk ?_
            rw [← hb']
            exact (B.out k h' hk' n (by omega) ht').2.2.symm
          · exact .inl (by simpa using ht')

theorem Books.trimSegment (B : Books g bm handed) {gs : Nat → Nat}
    (hgs : ∀ i, i < g.bps → gs i ∈ channel g i ∧ gs i ∉ bm.freeBlock i)
    (hcap : ∀ i, i < g.bps → (bm.freeBlock i).length < g.nos) :
    ∃ bm', BlockManager.trimSegment g bm gs = some bm' ∧
      Books g bm' fun k => (handed k).map (Handed.mark gs g.bps) := by
  obtain ⟨bm', h, hseg, hidx, hmap⟩ := B.trimLoop hgs (le_rfl)
  have tr := trimLoop_spec h
  have hfree : ∀ i, i < g.bps → bm'.freeBlock i = bm.freeBlock i ++ [gs i] :=
    fun i hi => tr.free i hi (hcap i hi)
  refine ⟨bm', h, ⟨fun k hk => ?_, fun k h' hk i hi ht => ?_, fun i hi b hb hbf => ?_, hmap⟩⟩
  · rw [B.fresh k (by omega)]
    rfl
  · obtain ⟨h, hh, rfl⟩ := map_eq_some_iff.mp hk
    rw [mark_trimmed, Bool.or_eq_false_iff] at ht
    obtain ⟨hc, hf, hs⟩ := B.out k h hh i hi ht.1
    have hne : h.blocks i ≠ gs i := by simpa [hi] using ht.2
    refine ⟨hc, ?_, by rw [hseg]; exact hs⟩
    rw [hfree i hi]
    simpa [Handed.mark, hne] using hf
  · rw [hfree i hi, mem_append, not_or, mem_singleton] at hbf
    obtain ⟨h, hh, hblk, ht⟩ := B.back i hi b hb hbf.1
    refine ⟨h.mark gs g.bps, by rw [hseg, hh]; rfl, hblk, ?_⟩
    rw [mark_trimmed, ht, hblk]
    simp [hbf.2]

/-! ## No operation is refused -/

theorem getSegmentLoop_total {isreserve : Bool} {n : Nat} (hf : ∀ i, i < n → bm.freeBlock i ≠ [])
    (hh : isreserve = false → ∀ i, i < n → (bm.maxHeap i).size ≤ (bm.maxHeap i).max) :
    ∃ r, getSegmentLoop isreserve n bm = some r := by
  induction n with
  | zero => exact ⟨_, rfl⟩
  | succ n ih =>
    obtain ⟨⟨bl, bm1⟩, h1⟩ := ih (fun i hi => hf i (by omega)) (fun hr i hi => hh hr i (by omega))
    obtain ⟨t, -⟩ := getSegmentLoop_spec h1
    obtain ⟨b, rest, hb⟩ := exists_cons_of_ne_nil (hf n (by omega))
    simp only [getSegmentLoop, h1, getSegmentStep, t.free_rest n (le_rfl), hb,
      t.heap_rest n (le_rfl)]
    cases isreserve with
    | true => exact ⟨_, rfl⟩
    | false =>
      obtain ⟨hp, hins⟩ := isSome_iff_exists.mp (Mh.insertAppend_isSome b (hh rfl n (by omega)))
      simp only [Bool.false_eq_true, if_false, hins]
      exact ⟨_, rfl⟩

theorem getSegment_total (isreserve : Bool) (hf : ∀ i, i < g.bps → bm.freeBlock i ≠ [])
    (hh : isreserve = false → ∀ i, i < g.bps → (bm.maxHeap i).size ≤ (bm.maxHeap i).max) :
    ∃ seg bm', getSegment g bm isreserve = some (seg, bm') := by
  obtain ⟨⟨bl, bm1⟩, h1⟩ := getSegmentLoop_total hf hh
  simp only [getSegment, h1]
  exact ⟨_, _, rfl⟩

theorem changeReserveLoop_total (reserve : Segment) {n : Nat}
    (hh : ∀ i, i < n → (bm.maxHeap i).size ≤ (bm.maxHeap i).max) :
    ∃ bm', changeReserveLoop reserve n bm = some bm' := by
  induction n with
  | zero => exact ⟨_, rfl⟩
  | succ n ih =>
    obtain ⟨bm1, h1⟩ := ih fun i hi => hh i (by omega)
    have hrest := (changeReserveLoop_spec h1).2.1 n (le_rfl)
    obtain ⟨hp, hins⟩ := isSome_iff_exists.mp
      (Mh.insertAppend_isSome (reserve.blocks n) (hh n (by omega)))
    simp only [changeReserveLoop, h1, hrest, hins]
    exact ⟨_, rfl⟩

theorem changeReserve_total (reserve : Segment) (hf : ∀ i, i < g.bps → bm.freeBlock i ≠ [])
    (hh : ∀ i, i < g.bps → (bm.maxHeap i).size ≤ (bm.maxHeap i).max) :
    ∃ seg bm', changeReserve g bm reserve = some (seg, bm') := by
  obtain ⟨seg, bm1, h1⟩ := getSegment_total true hf (by simp)
  have t := (getSegment_spec h1).1
  have hh1 : ∀ i, i < g.bps → (bm1.maxHeap i).size ≤ (bm1.maxHeap i).max := by
    intro i hi
    have hsame : bm1.maxHeap i = bm.maxHeap i := by simpa using t.heap i hi
    rw [hsame]
    exact hh i hi
  obtain ⟨bm2, h2⟩ := changeReserveLoop_total reserve hh1
  simp only [changeReserve, h1, h2]
  exact ⟨_, _, rfl⟩

/-! ## Where the blocks are -/

namespace Places

variable {s : Sys}

theorem free_mem (P : Places g s) {i b : Nat} (hi : i < g.bps) (hb : b ∈ s.bm.freeBlock i) :
    b ∈ channel g i := by
  rw [← P.own i hi]
  simp [hb]

theorem nodup (P : Places g s) {i : Nat} (hi : i < g.bps) :
    ((s.bm.maxHeap i).elems + (s.bm.freeBlock i : Multiset Nat) + {s.reserve.blocks i} +
      targetPart s.target i).Nodup := by
  rw [P.own i hi]
  exact channel_nodup g i

theorem free_nodup (P : Places g s) {i : Nat} (hi : i < g.bps) : (s.bm.freeBlock i).Nodup := by
  have h := Multiset.nodup_of_le
    (le_trans (Multiset.le_add_right _ _) (Multiset.le_add_right _ _)) (P.nodup hi)
  exact Multiset.coe_nodup.mp (Multiset.nodup_add.mp h).2.1

theorem target_out (P : Places g s) {gs : Nat → Nat} (ht : s.target = some gs) {i : Nat}
    (hi : i < g.bps) : gs i ∈ channel g i ∧ gs i ∉ s.bm.freeBlock i := by
  have hpart : targetPart s.target i = {gs i} := by rw [ht]; rfl
  refine ⟨by rw [← P.own i hi, hpart]; simp, fun hb => ?_⟩
  have hd := (Multiset.nodup_add.mp (P.nodup hi)).2.2
  have hin : gs i ∈ (s.bm.maxHeap i).elems + (s.bm.freeBlock i : Multiset Nat) +
      {s.reserve.blocks i} := by
    simp [hb]
  exact Multiset.disjoint_left.mp hd hin (by simp [hpart])

theorem count (P : Places g s) {i : Nat} (hi : i < g.bps) :
    (s.bm.maxHeap i).size + (s.bm.freeBlock i).length + 1 + (targetPart s.target i).card = g.nos := by
  have h := congrArg Multiset.card (P.own i hi)
  simp only [Multiset.card_add, Multiset.coe_card, Multiset.card_singleton, channel_card,
    (P.heap_wf i hi).card_elems] at h
  exact h

theorem heap_room (P : Places g s) {i : Nat} (hi : i < g.bps) :
    (s.bm.maxHeap i).size ≤ (s.bm.maxHeap i).max := by
  have := P.count hi
  rw [P.heap_max i hi]
  omega

theorem queue_room (P : Places g s) {i : Nat} (hi : i < g.bps) :
    (s.bm.freeBlock i).length < g.nos := by
  have := P.count hi
  omega

theorem free_ne_nil (P : Places g s) (h : isGcNeeded s.bm = false) {i : Nat} (hi : i < g.bps) :
    s.bm.freeBlock i ≠ [] := by
  have hl := P.level i hi
  intro he
  rw [he] at hl
  simp [isGcNeeded, ← hl] at h

theorem getSegment (P : Places g s) {seg : Segment}
    (h : BlockManager.getSegment g s.bm false = some (seg, bm')) :
    Places g { s with bm := bm', handed := handed } := by
  obtain ⟨t, -⟩ := getSegment_spec h
  have hins : ∀ i, i < g.bps → (s.bm.maxHeap i).insertAppend (seg.blocks i) = some (bm'.maxHeap i) :=
    fun i hi => by simpa using t.heap i hi
  have hspec := fun i (hi : i < g.bps) => Mh.insertAppend_spec (P.heap_wf i hi) (hins i hi)
  refine ⟨fun i hi => (hspec i hi).1, fun i hi => ?_, fun i hi => ?_, fun i hi => ?_⟩
  · rw [(hspec i hi).2.2.2, P.heap_max i hi]
  · rw [← P.own i hi, (hspec i hi).2.1, t.free i hi, ← Multiset.cons_coe]
    simp only [Multiset.cons_add, Multiset.add_cons]
  · have hl := P.level i hi
    rw [t.free i hi, t.free 0 g.bps_pos] at hl
    simpa using hl

theorem changeReserve (P : Places g s) {seg : Segment}
    (h : BlockManager.changeReserve g s.bm s.reserve = some (seg, bm')) :
    Places g { s with bm := bm', reserve := seg, handed := handed } := by
  obtain ⟨hfree, hins, -, -⟩ := changeReserve_spec h
  have hspec := fun i (hi : i < g.bps) => Mh.insertAppend_spec (P.heap_wf i hi) (hins i hi)
  refine ⟨fun i hi => (hspec i hi).1, fun i hi => ?_, fun i hi => ?_, fun i hi => ?_⟩
  · rw [(hspec i hi).2.2.2, P.heap_max i hi]
  · rw [← P.own i hi, (hspec i hi).2.1, hfree i hi, ← Multiset.cons_coe,
      ← Multiset.singleton_add, ← Multiset.singleton_add (seg.blocks i)]
    abel
  · have hl := P.level i hi
    rw [hfree i hi, hfree 0 g.bps_pos] at hl
    simpa using hl

theorem getGcTarget (P : Places g s) {gs : Nat → Nat} (h0 : s.target = none)
    (h : BlockManager.getGcTarget g s.bm = some (gs, bm')) :
    Places g { s with bm := bm', target := some gs } := by
  have t := getGcTargetLoop_spec P.heap_wf h
  refine ⟨t.wf, fun i hi => by rw [t.max, P.heap_max i hi], fun i hi => ?_, fun i hi => ?_⟩
  · have hown := P.own i hi
    rw [h0, t.elems i hi, ← Multiset.singleton_add] at hown
    rw [← hown, t.free]
    show (bm'.maxHeap i).elems + _ + _ + {gs i} = {gs i} + (bm'.maxHeap i).elems + _ + _ + 0
    abel
  · rw [t.free]
    exact P.level i hi

theorem trimSegment (P : Places g s) {gs : Nat → Nat} (h0 : s.target = some gs)
    (h : BlockManager.trimSegment g s.bm gs = some bm') :
    Places g { s with bm := bm', target := none, handed := handed } := by
  have tr := trimLoop_spec h
  have hfree : ∀ i, i < g.bps → bm'.freeBlock i = s.bm.freeBlock i ++ [gs i] :=
    fun i hi => tr.free i hi (P.queue_room hi)
  refine ⟨by rw [tr.heap]; exact P.heap_wf, by rw [tr.heap]; exact P.heap_max, fun i hi => ?_,
    fun i hi => ?_⟩
  · rw [← P.own i hi, h0, tr.heap, hfree i hi, ← Multiset.coe_add, Multiset.coe_singleton]
    show _ + (_ + {gs i}) + _ + 0 = _ + _ + _ + {gs i}
    abel
  · rw [hfree i hi, hfree 0 g.bps_pos, length_append, length_append, P.level i hi]
    rfl

end Places

/-! ## Every run -/

/-- What holds of the manager between two operations. -/
structure Kept (g : Geom) (s : Sys) : Prop where
  places : Places g s
  books : Books g s.bm s.handed

theorem create_kept {s : Sys} (h : Sys.create g = some s) : Kept g s := by
  unfold Sys.create at h
  split at h
  · cases h
  rename_i seg bm1 h1
  cases h
  have hchan : ∀ i, (((create g).freeBlock i : List Nat) : Multiset Nat) = channel g i := fun i => by
    simp only [create, channel, ← Multiset.map_coe]; rfl
  have B0 : Books g (create g) fun _ => none := by
    refine ⟨fun _ _ => rfl, fun k h hk => (by cases hk), fun i hi b hb hbf => ?_, fun _ => rfl⟩
    rw [← hchan i, Multiset.mem_coe] at hb
    exact absurd hb hbf
  have t := (getSegment_spec h1).1
  have hheap : ∀ i, i < g.bps → bm1.maxHeap i = Mh.init g.nos := fun i hi => by
    simpa [create] using t.heap i hi
  refine ⟨⟨fun i hi => ?_, fun i hi => ?_, fun i hi => ?_, fun i hi => ?_⟩,
    B0.getSegment (fun i _ b hb => ?_) (fun i _ => ?_) h1⟩
  · rw [hheap i hi]
    exact Mh.init_wf g.nos
  · rw [hheap i hi]
    rfl
  · rw [← hchan i, t.free i hi, hheap i hi, Mh.init_elems, ← Multiset.cons_coe,
      ← Multiset.singleton_add (seg.blocks i)]
    show 0 + _ + _ + 0 = _
    abel
  · have h := congrArg length (t.free i hi)
    have h' := congrArg length (t.free 0 g.bps_pos)
    simp only [create, length_map, length_range, length_cons] at h h'
    show (bm1.freeBlock i).length = (bm1.freeBlock 0).length
    omega
  · rw [← hchan i]
    exact hb
  · rw [← Multiset.coe_nodup, hchan i]
    exact channel_nodup g i

theorem kept_step {s s' : Sys} {op : Op} (K : Kept g s) (h : s.step g op = some s') : Kept g s' := by
  obtain ⟨P, B⟩ := K
  have hfree : ∀ i, i < g.bps → ∀ b ∈ s.bm.freeBlock i, b ∈ channel g i := fun i hi b => P.free_mem hi
  have hnd : ∀ i, i < g.bps → (s.bm.freeBlock i).Nodup := fun i hi => P.free_nodup hi
  cases op with
  | getSegment =>
    obtain ⟨seg, bm1, h1, rfl⟩ := step_getSegment h
    exact ⟨P.getSegment h1, B.getSegment hfree hnd h1⟩
  | changeReserve =>
    obtain ⟨seg, bm2, h2, rfl⟩ := step_changeReserve h
    refine ⟨P.changeReserve h2, ?_⟩
    obtain ⟨bm1, h1, h3⟩ := changeReserve_cases h2
    obtain ⟨-, -, e3, e4, em, ei⟩ := changeReserveLoop_spec h3
    exact (B.getSegment hfree hnd h1).congr e3 (fun b => by rw [e4]) em ei
  | getGcTarget =>
    obtain ⟨gs, bm1, h0, h1, rfl⟩ := step_getGcTarget h
    have t := getGcTargetLoop_spec P.heap_wf h1
    exact ⟨P.getGcTarget h0 h1, B.congr t.free (fun b => by rw [t.block]) t.map t.idx⟩
  | trimSegment =>
    obtain ⟨gs, bm1, h0, h1, rfl⟩ := step_trimSegment h
    obtain ⟨bm2, h2, B'⟩ := B.trimSegment (fun i hi => P.target_out h0 hi)
      (fun i hi => P.queue_room hi)
    obtain rfl := some.inj (h1.symm.trans h2)
    exact ⟨P.trimSegment h0 h1, B'⟩
  | work block =>
    cases h
    exact ⟨⟨P.heap_wf, P.heap_max, P.own, P.level⟩, B.congr rfl (fun _ => rfl) rfl rfl⟩

/-- The statement of `blocks_accounted`, for one state. -/
structure Accounted (g : Geom) (s : Sys) : Prop where
  /-- the blocks of a channel, each in one place and once -/
  own : ∀ i, i < g.bps → (s.bm.maxHeap i).elems + (s.bm.freeBlock i : Multiset Nat) +
    {s.reserve.blocks i} + targetPart s.target i = channel g i ∧ (channel g i).Nodup
  level : ∀ i j, i < g.bps → j < g.bps → (s.bm.freeBlock i).length = (s.bm.freeBlock j).length
  gcNeeded : ∀ i, i < g.bps → (isGcNeeded s.bm = true ↔ s.bm.freeBlock i = [])
  /-- `mh_insert_append` takes every block that the operations give it -/
  heaps : isGcNeeded s.bm = false → (∃ r, getSegment g s.bm false = some r) ∧
    ∃ r, changeReserve g s.bm s.reserve = some r
  /-- `q_enqueue` takes every block of a target, and its segment is found in `seg_map` -/
  queues : ∀ gs, s.target = some gs → (∀ i, i < g.bps → (s.bm.freeBlock i).length < g.nos) ∧
    ∃ bm', trimSegment g s.bm gs = some bm'
  map : ∀ k, s.bm.segMap k = segEntry g (s.handed k)

theorem Kept.accounted {s : Sys} (K : Kept g s) : Accounted g s := by
  obtain ⟨P, B⟩ := K
  refine ⟨fun i hi => ⟨P.own i hi, channel_nodup g i⟩, fun i j hi hj => ?_, fun i hi => ?_,
    fun h => ⟨?_, ?_⟩, fun gs h0 => ⟨fun i hi => P.queue_room hi, ?_⟩, B.map⟩
  · rw [P.level i hi, P.level j hj]
  · rw [isGcNeeded, beq_iff_eq, ← P.level i hi, length_eq_zero_iff]
  · obtain ⟨seg, bm', h'⟩ := getSegment_total false (fun i hi => P.free_ne_nil h hi)
      (fun _ i hi => P.heap_room hi)
    exact ⟨_, h'⟩
  · obtain ⟨seg, bm', h'⟩ := changeReserve_total s.reserve (fun i hi => P.free_ne_nil h hi)
      (fun i hi => P.heap_room hi)
    exact ⟨_, h'⟩
  · obtain ⟨bm', h', -⟩ := B.trimSegment (fun i hi => P.target_out h0 hi)
      (fun i hi => P.queue_room hi)
    exact ⟨bm', h'⟩

/-- In every run from `base_create` and one reserve segment, every block of a channel is in
its free queue, its heap, the reserve or the gc target, and in one of them; the free queues
are equally long; no queue or heap refuses a block; and `seg_map` holds exactly the segments
with an untrimmed block, each with the number of its trimmed blocks. -/
theorem blocks_accounted (g : Geom) {ops : List Op} {s : Sys} (h : (manager g).Exec ops s) :
    Accounted g s := by
  have K : Kept g s := h.inv (I := Kept g) ⟨fun s hs => create_kept hs, fun s op s' K hs => kept_step K hs⟩
  exact K.accounted

/-- A segment is used, collected and replaced by the reserve: segment 0, now in the heaps, and
the new reserve, segment 2, are in `seg_map`, segment 1 is not. -/
theorem blocks_accounted_four : ∃ s, (manager fourBlocks).Exec
      [.getSegment, .getGcTarget, .trimSegment, .changeReserve] s ∧
    (s.bm.segMap 0, s.bm.segMap 1, s.bm.segMap 2) = (some 0, none, some 0) ∧
    Accounted fourBlocks s := by
  obtain ⟨s, hx, hm⟩ := LTS.Exec.check (T := manager fourBlocks) (Sys.create fourBlocks)
    (fun _ _ => True) [.getSegment, .getGcTarget, .trimSegment, .changeReserve]
    (fun s => (s.bm.segMap 0, s.bm.segMap 1, s.bm.segMap 2) = (some 0, none, some 0))
    (fun s l s' _ hs => hs) (fun s h => h) (by decide +kernel)
  exact ⟨s, hx, hm, blocks_accounted fourBlocks hx⟩

end FlashDriver.BlockManager
