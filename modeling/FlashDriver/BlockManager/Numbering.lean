import FlashDriver.BlockManager.Ledger

/-!
# Page numbers (`base_get_page_num`)

The machine of `Ledger` with the page cursors of the segments that it handed
out. Any segment none of whose blocks was trimmed since may be asked for its
next page number, in any order with the others.

* `Paged`: such a segment is filled round robin, its blocks are its own,
  `used_page_num` counts its pages and the blocks in the free queues are empty.
* `page_numbers`: it yields `_PPS` numbers and then -1; a number is not
  returned again before its block is trimmed; it decodes to its block and the
  block's page counter; `base_pick_page_num` and `base_check_full` foretell
  the next answer; and trimming a block on the device clears its pages only.
-/
namespace FlashDriver.BlockManager

open List Option Function
open DataStruct FlashDriver.Core

/-! ## The machine -/

/-- The manager and the record of each segment handed out, by `seg_idx`. -/
structure Pager where
  sys : Sys
  seg : Nat → Segment

inductive Ev
  | getSegment
  | changeReserve
  | getGcTarget
  | trimSegment (gs : Nat → Nat)
  | mark (block : Nat → Block)            -- the users' bits, counters and OOB words
  | page (k : Nat) (r : Option Nat)       -- `base_get_page_num` on segment `k` returned `r`

section
variable (g : Geom)

/-- The segment was handed out and none of its blocks was trimmed since. -/
def InUse (handed : Nat → Option Handed) (k : Nat) : Bool :=
  match handed k with
  | none => false
  | some h => (range g.bps).all fun i => !h.trimmed i

namespace Pager

/-- The manager has handed out the next segment, which starts at its first block. -/
def opened (s : Pager) (sys : Sys) : Pager :=
  let k := s.sys.bm.segMapIdx
  ⟨sys, update s.seg k ⟨(sys.handed k).elim (fun _ => 0) Handed.blocks, 0, 0, k⟩⟩

/-- The users of the manager leave the page counters alone. -/
def markBlocks (s : Pager) (block : Nat → Block) : Nat → Block :=
  fun b => { block b with now := (s.sys.bm.block b).now }

def step (s : Pager) : Ev → Option Pager
  | .getSegment => (s.sys.step g .getSegment).map s.opened
  | .changeReserve => (s.sys.step g .changeReserve).map s.opened
  | .getGcTarget => (s.sys.step g .getGcTarget).map fun sys => { s with sys := sys }
  | .trimSegment gs => (s.sys.step g .trimSegment).bind fun sys =>
    match s.sys.target with
    | none => none
    | some gs' => if ∀ i ∈ range g.bps, gs i = gs' i then some { s with sys := sys } else none
  | .mark block => (s.sys.step g (.work (s.markBlocks block))).map fun sys => { s with sys := sys }
  | .page k r =>
    if InUse g s.sys.handed k then
      match getPageNum g s.sys.bm (s.seg k) with
      | none => none
      | some (r', sg, bm) =>
        if r' = r then some ⟨{ s.sys with bm := bm }, update s.seg k sg⟩ else none
    else none

def create : Option Pager := (Sys.create g).map fun sys =>
  ⟨sys, fun k => ⟨(sys.handed k).elim (fun _ => 0) Handed.blocks, 0, 0, k⟩⟩

end Pager

def pager : LTS Pager Ev where
  init s := Pager.create g = some s
  step s e s' := s.step g e = some s'

/-! ## Histories -/

/-- How many page numbers segment `k` has yielded. -/
def yielded (tr : List Ev) (k : Nat) : Nat :=
  tr.countP fun e => match e with
    | .page k' (some _) => k' = k
    | _ => false

/-- The number `p` was returned and its block was not trimmed since. -/
def Held (tr : List Ev) (p : Nat) : Prop :=
  ∃ a b k, tr = a ++ Ev.page k (some p) :: b ∧
    ∀ gs, Ev.trimSegment gs ∈ b → ∀ i, i < g.bps → gs i ≠ g.getBlockIdx p

end

variable {g : Geom}

theorem held_append {tr : List Ev} {e : Ev} {p : Nat} (h : Held g (tr ++ [e]) p) :
    (∃ k, e = .page k (some p)) ∨
      Held g tr p ∧ ∀ gs, e = .trimSegment gs → ∀ i, i < g.bps → gs i ≠ g.getBlockIdx p := by
  obtain ⟨a, b, k, he, hb⟩ := h
  rcases eq_nil_or_concat b with rfl | ⟨b, e', rfl⟩
  · obtain ⟨-, h⟩ := append_inj' he rfl
    exact .inl ⟨k, (cons.inj h).1⟩
  · rw [concat_eq_append, ← cons_append, ← append_assoc] at he
    obtain ⟨rfl, h⟩ := append_inj' he rfl
    obtain rfl := (cons.inj h).1
    rw [concat_eq_append] at hb
    refine .inr ⟨⟨a, b, k, rfl, fun gs hgs => hb gs (mem_append_left _ hgs)⟩, ?_⟩
    rintro gs rfl
    exact hb gs (by simp)

theorem inUse_iff {handed : Nat → Option Handed} {k : Nat} :
    InUse g handed k = true ↔ ∃ h, handed k = some h ∧ ∀ i, i < g.bps → h.trimmed i = false := by
  unfold InUse
  cases handed k with
  | none => simp
  | some h => simp

@[simp] theorem opened_sys (s : Pager) (sys : Sys) : (s.opened sys).sys = sys := rfl

theorem opened_seg_self {s : Pager} {sys : Sys} {h : Handed}
    (hh : sys.handed s.sys.bm.segMapIdx = some h) :
    (s.opened sys).seg s.sys.bm.segMapIdx = ⟨h.blocks, 0, 0, s.sys.bm.segMapIdx⟩ := by
  simp [Pager.opened, hh]

theorem opened_seg_of_ne {s : Pager} {sys : Sys} {k : Nat} (hk : k ≠ s.sys.bm.segMapIdx) :
    (s.opened sys).seg k = s.seg k := by
  simp [Pager.opened, hk]

/-- Segment `k`, in round `q`, has handed out the page of the block whose turn it was. -/
def Pager.turned (g : Geom) (s : Pager) (k q : Nat) : Pager :=
  let sg := s.seg k
  let b := sg.blocks sg.now
  ⟨{ s.sys with bm := s.sys.bm.setBlock b { s.sys.bm.block b with now := q + 1 } },
    update s.seg k { sg with now := if sg.now + 1 = g.bps then 0 else sg.now + 1,
                                      usedPageNum := sg.usedPageNum + 1 }⟩

@[simp] theorem turned_block_self (s : Pager) (k q : Nat) :
    ((s.turned g k q).sys.bm.block ((s.seg k).blocks (s.seg k).now)).now = q + 1 := by
  simp [Pager.turned]

theorem turned_block_other {s : Pager} {k q c : Nat} (hc : c ≠ (s.seg k).blocks (s.seg k).now) :
    (s.turned g k q).sys.bm.block c = s.sys.bm.block c := setBlock_other _ _ hc

theorem turned_segIdx (s : Pager) (k q c : Nat) :
    ((s.turned g k q).sys.bm.block c).segIdx = (s.sys.bm.block c).segIdx := by
  by_cases hc : c = (s.seg k).blocks (s.seg k).now
  · simp [Pager.turned, hc]
  · rw [turned_block_other hc]

@[simp] theorem turned_seg_self (s : Pager) (k q : Nat) :
    (s.turned g k q).seg k = { s.seg k with
      now := if (s.seg k).now + 1 = g.bps then 0 else (s.seg k).now + 1,
      usedPageNum := (s.seg k).usedPageNum + 1 } := by
  simp [Pager.turned]

theorem turned_seg_other {s : Pager} {k q j : Nat} (hj : j ≠ k) :
    (s.turned g k q).seg j = s.seg j := by
  simp [Pager.turned, hj]

theorem yielded_append (tr : List Ev) (e : Ev) (k : Nat) :
    yielded (tr ++ [e]) k = yielded tr k + yielded [e] k := by
  simp [yielded, countP_append]

theorem Fill.congr {bm bm' : BM} {s : Segment} {q : Nat} (f : Fill g bm s q)
    (h : ∀ i, i < g.bps → (bm'.block (s.blocks i)).now = (bm.block (s.blocks i)).now) :
    Fill g bm' s q :=
  ⟨f.now_lt, f.le, f.whole, fun i hi => by rw [h i hi]; exact f.count i hi⟩

/-! ## The invariant -/

structure Paged (g : Geom) (tr : List Ev) (s : Pager) : Prop where
  kept : Kept g s.sys
  erased : ∀ i, i < g.bps → ∀ b ∈ s.sys.bm.freeBlock i, (s.sys.bm.block b).now = 0
  blocks : ∀ k h, s.sys.handed k = some h → (s.seg k).blocks = h.blocks
  fill : ∀ k, InUse g s.sys.handed k = true →
    ∃ q, Fill g s.sys.bm (s.seg k) q ∧ yielded tr k = q * g.bps + (s.seg k).now
  fresh : ∀ k, s.sys.bm.segMapIdx ≤ k → yielded tr k = 0
  used : ∀ k, (s.seg k).usedPageNum = yielded tr k
  held : ∀ p, Held g tr p → g.getPageIdx p < (s.sys.bm.block (g.getBlockIdx p)).now

namespace Paged

variable {tr : List Ev} {s : Pager}

theorem held_other {e : Ev} {p : Nat} (he : ∀ k r, e ≠ .page k r) (h : Held g (tr ++ [e]) p) :
    Held g tr p := by
  rcases held_append h with ⟨k, rfl⟩ | h
  · exact absurd rfl (he k (some p))
  · exact h.1

theorem yielded_other {e : Ev} (he : ∀ k r, e ≠ .page k r) (k : Nat) :
    yielded (tr ++ [e]) k = yielded tr k := by
  rw [yielded_append]
  cases e with
  | page k' r => exact absurd rfl (he k' r)
  | _ => rfl

theorem opened (I : Paged g tr s) {e : Ev} (he : ∀ k r, e ≠ .page k r) {sys : Sys} {seg : Segment}
    (K : Kept g sys) (hseg : seg.segIdx = s.sys.bm.segMapIdx)
    (hidx : sys.bm.segMapIdx = s.sys.bm.segMapIdx + 1) (hh : sys.handed = hand s.sys.handed seg)
    (hfree : ∀ i, i < g.bps → s.sys.bm.freeBlock i = seg.blocks i :: sys.bm.freeBlock i)
    (hnow : ∀ b, (sys.bm.block b).now = (s.sys.bm.block b).now) :
    Paged g (tr ++ [e]) (s.opened sys) := by
  have hown : sys.handed s.sys.bm.segMapIdx = some ⟨seg.blocks, fun _ => false⟩ := by
    rw [hh, hand, ← hseg, update_self]
  have hoth : ∀ k, k ≠ s.sys.bm.segMapIdx → sys.handed k = s.sys.handed k := fun k hk => by
    rw [hh, hand, hseg, update_of_ne hk]
  refine ⟨K, fun i hi b hb => ?_, fun k h hk => ?_, fun k hk => ?_, fun k hk => ?_, fun k => ?_,
    fun p hp => ?_⟩
  · rw [opened_sys] at hb ⊢
    rw [hnow]
    exact I.erased i hi b (by rw [hfree i hi]; exact .tail _ hb)
  · rw [opened_sys] at hk
    by_cases hkk : k = s.sys.bm.segMapIdx
    · subst hkk
      rw [opened_seg_self hk]
    · rw [hoth k hkk] at hk
      rw [opened_seg_of_ne hkk]
      exact I.blocks k h hk
  · rw [opened_sys] at hk ⊢
    rw [yielded_other he]
    by_cases hkk : k = s.sys.bm.segMapIdx
    · refine ⟨0, ?_⟩
      subst hkk
      rw [opened_seg_self hown]
      refine ⟨Fill.fresh rfl fun i hi => ?_, ?_⟩
      · rw [hnow]
        exact I.erased i hi _ (by rw [hfree i hi]; exact mem_cons_self)
      · rw [I.fresh _ (le_rfl)]
        simp
    · have huse : InUse g s.sys.handed k = true := by
        rw [inUse_iff] at hk ⊢
        rwa [hoth k hkk] at hk
      obtain ⟨q, f, hq⟩ := I.fill k huse
      rw [opened_seg_of_ne hkk]
      exact ⟨q, f.congr fun i _ => hnow _, hq⟩
  · rw [opened_sys, hidx] at hk
    rw [yielded_other he]
    exact I.fresh k (by omega)
  · rw [yielded_other he]
    by_cases hkk : k = s.sys.bm.segMapIdx
    · subst hkk
      rw [opened_seg_self hown, I.fresh _ (le_rfl)]
    · rw [opened_seg_of_ne hkk]
      exact I.used k
  · rw [opened_sys, hnow]
    exact I.held p (held_other he hp)

theorem congr (I : Paged g tr s) {e : Ev} (he : ∀ k r, e ≠ .page k r) {sys : Sys} (K : Kept g sys)
    (hfree : sys.bm.freeBlock = s.sys.bm.freeBlock) (hh : sys.handed = s.sys.handed)
    (hidx : sys.bm.segMapIdx = s.sys.bm.segMapIdx)
    (hnow : ∀ b, (sys.bm.block b).now = (s.sys.bm.block b).now) :
    Paged g (tr ++ [e]) { s with sys := sys } := by
  refine ⟨K, fun i hi b hb => ?_, fun k h hk => ?_, fun k hk => ?_, fun k hk => ?_, fun k => ?_,
    fun p hp => ?_⟩
  · rw [hfree] at hb
    rw [hnow]
    exact I.erased i hi b hb
  · exact I.blocks k h (by rwa [hh] at hk)
  · obtain ⟨q, f, hq⟩ := I.fill k (by rwa [hh] at hk)
    exact ⟨q, f.congr fun i _ => hnow _, by rw [yielded_other he, hq]⟩
  · rw [yielded_other he]
    exact I.fresh k (by rwa [hidx] at hk)
  · rw [yielded_other he]
    exact I.used k
  · rw [hnow]
    exact I.held p (held_other he hp)

theorem trimmed (I : Paged g tr s) {gs gs' : Nat → Nat} (hgs : ∀ i, i < g.bps → gs i = gs' i)
    {bm' : BM} (h0 : s.sys.target = some gs') (h : trimSegment g s.sys.bm gs' = some bm')
    (K : Kept g { s.sys with
      bm := bm', target := none, handed := fun k => (s.sys.handed k).map (Handed.mark gs' g.bps) }) :
    Paged g (tr ++ [.trimSegment gs]) { s with sys := { s.sys with
      bm := bm', target := none, handed := fun k => (s.sys.handed k).map (Handed.mark gs' g.bps) } } := by
  have P := I.kept.places
  have B := I.kept.books
  have t := trimLoop_spec h
  have hout := fun i (hi : i < g.bps) => P.target_out h0 hi
  have hidx : bm'.segMapIdx = s.sys.bm.segMapIdx := by
    obtain ⟨bm2, h2, -, hidx, -⟩ := B.trimLoop hout (le_rfl)
    obtain rfl := some.inj (h.symm.trans h2)
    exact hidx
  have he : ∀ k r, (Ev.trimSegment gs) ≠ .page k r := fun k r => (by simp)
  refine ⟨K, fun i hi b hb => ?_, fun k h hk => ?_, fun k hk => ?_, fun k hk => ?_, fun k => ?_,
    fun p hp => ?_⟩
  · by_cases hv : ∃ j, j < g.bps ∧ gs' j = b
    · obtain ⟨j, hj, rfl⟩ := hv
      exact (t.erased j hj).1
    · rw [t.other b fun j hj hb => hv ⟨j, hj, hb⟩]
      rw [t.free i hi (P.queue_room hi), mem_append, mem_singleton] at hb
      exact I.erased i hi b (hb.resolve_right fun hb => hv ⟨i, hi, hb.symm⟩)
  · obtain ⟨h', hk', rfl⟩ := map_eq_some_iff.mp hk
    exact I.blocks k h' hk'
  · obtain ⟨h1, hk1, ht1⟩ := inUse_iff.mp hk
    obtain ⟨h', hk', rfl⟩ := map_eq_some_iff.mp hk1
    have ht : ∀ i, i < g.bps → h'.trimmed i = false ∧ h'.blocks i ≠ gs' i := by
      intro i hi
      have := ht1 i hi
      rw [mark_trimmed, Bool.or_eq_false_iff] at this
      exact ⟨this.1, by simpa [hi] using this.2⟩
    obtain ⟨q, f, hq⟩ := I.fill k (inUse_iff.mpr ⟨h', hk', fun i hi => (ht i hi).1⟩)
    refine ⟨q, f.congr fun i hi => ?_, by rw [yielded_other he, hq]⟩
    rw [I.blocks k h' hk']
    rw [t.other (h'.blocks i) fun j hj => ?_]
    by_cases hij : j = i
    · subst hij
      exact (ht j hj).2.symm
    · exact channel_ne hj hi (hout j hj).1 (B.out k h' hk' i hi (ht i hi).1).1 hij
  · rw [yielded_other he]
    exact I.fresh k (by rw [← hidx]; exact hk)
  · rw [yielded_other he]
    exact I.used k
  · rcases held_append hp with ⟨k, hk⟩ | ⟨hp, hne⟩
    · exact absurd hk (he k (some p))
    · rw [t.other _ fun i hi => by rw [← hgs i hi]; exact hne gs rfl i hi]
      exact I.held p hp

theorem own (I : Paged g tr s) {k : Nat} (hk : InUse g s.sys.handed k = true) {i : Nat}
    (hi : i < g.bps) : (s.seg k).blocks i ∈ channel g i ∧
      (s.seg k).blocks i ∉ s.sys.bm.freeBlock i ∧
      (s.sys.bm.block ((s.seg k).blocks i)).segIdx = k := by
  obtain ⟨h, hh, ht⟩ := inUse_iff.mp hk
  rw [I.blocks k h hh]
  exact I.kept.books.out k h hh i hi (ht i hi)

theorem inj (I : Paged g tr s) {k : Nat} (hk : InUse g s.sys.handed k = true) (i j : Nat)
    (hi : i < g.bps) (hj : j < g.bps) (h : (s.seg k).blocks i = (s.seg k).blocks j) : i = j := by
  by_contra hij
  exact channel_ne hi hj (I.own hk hi).1 (I.own hk hj).1 hij h

theorem page (I : Paged g tr s) {k q : Nat} (hk : InUse g s.sys.handed k = true)
    (f : Fill g s.sys.bm (s.seg k) q) (hy : yielded tr k = q * g.bps + (s.seg k).now)
    (hq : q < g.ppb) :
    Paged g (tr ++ [.page k (some (g.ppaMaker ((s.seg k).blocks (s.seg k).now) q))])
      (s.turned g k q) := by
  have P := I.kept.places
  have B := I.kept.books
  obtain ⟨hchan, hfree, hseg⟩ := I.own hk f.now_lt
  have hyield : ∀ p k', yielded [Ev.page k (some p)] k' = if k' = k then 1 else 0 := by
    intro p k'
    by_cases hkk : k' = k
    · subst hkk
      simp [yielded]
    · simp [yielded, hkk, Ne.symm hkk]
  refine ⟨⟨⟨P.heap_wf, P.heap_max, P.own, P.level⟩, B.congr rfl (turned_segIdx s k q) rfl rfl⟩,
    fun i hi c hc => ?_, fun k' h hh => ?_, fun k' hk' => ?_, fun k' hk' => ?_, fun k' => ?_,
    fun p hp => ?_⟩
  · have hcb : c ≠ (s.seg k).blocks (s.seg k).now := by
      by_cases hin : i = (s.seg k).now
      · subst hin
        exact fun hcb => hfree (hcb ▸ hc)
      · exact channel_ne hi f.now_lt (P.free_mem hi hc) hchan hin
    rw [turned_block_other hcb]
    exact I.erased i hi c hc
  · by_cases hkk : k' = k
    · subst hkk
      rw [turned_seg_self]
      exact I.blocks k' h hh
    · rw [turned_seg_other hkk]
      exact I.blocks k' h hh
  · rw [yielded_append, hyield]
    by_cases hkk : k' = k
    · subst hkk
      obtain ⟨q', f', hq'⟩ := f.advance hq (I.inj hk) (s.turned g k' q).sys.bm
        (turned_block_self s k' q) (fun c hc => by rw [turned_block_other hc])
        ((s.seg k').usedPageNum + 1)
      rw [turned_seg_self, if_pos rfl, hy]
      exact ⟨q', f', hq'.symm⟩
    · obtain ⟨q', f', hq'⟩ := I.fill k' hk'
      rw [turned_seg_other hkk, if_neg hkk]
      refine ⟨q', f'.congr fun i hi => ?_, hq'⟩
      -- A block of another segment in use carries the other segment's number.
      rw [turned_block_other]
      intro he
      have := (I.own hk' hi).2.2
      rw [he, hseg] at this
      exact hkk this.symm
  · rw [yielded_append, hyield, I.fresh k' hk', if_neg]
    rintro rfl
    obtain ⟨h, hh, -⟩ := inUse_iff.mp hk
    rw [B.fresh k' hk'] at hh
    cases hh
  · rw [yielded_append, hyield, ← I.used k']
    by_cases hkk : k' = k
    · subst hkk
      rw [turned_seg_self, if_pos rfl]
    · rw [turned_seg_other hkk, if_neg hkk, add_zero]
  · rcases held_append hp with ⟨k', hk'⟩ | ⟨hp, -⟩
    · simp only [Ev.page.injEq, some.injEq] at hk'
      rw [← hk'.2, getBlockIdx_ppaMaker g _ hq, getPageIdx_ppaMaker g _ hq, turned_block_self]
      exact Nat.lt_succ_self q
    · have hlt := I.held p hp
      by_cases hpb : g.getBlockIdx p = (s.seg k).blocks (s.seg k).now
      · rw [hpb, f.count _ f.now_lt, if_neg (lt_irrefl _)] at hlt
        rw [hpb, turned_block_self]
        exact Nat.lt_succ_of_lt hlt
      · rw [turned_block_other hpb]
        exact hlt

end Paged

/-! ## Every run -/

theorem create_paged {s : Pager} (h : Pager.create g = some s) : Paged g [] s := by
  obtain ⟨sys, hs, rfl⟩ := map_eq_some_iff.mp h
  have hnow : ∀ b, (sys.bm.block b).now = 0 := by
    unfold Sys.create at hs
    split at hs
    · cases hs
    · rename_i seg bm h1
      cases hs
      intro b
      rw [((getSegment_spec h1).1.use b).1]
      rfl
  refine ⟨create_kept hs, fun i _ b _ => hnow b, fun k h hk => ?_, fun k _ => ⟨0, ?_, ?_⟩,
    fun _ _ => rfl, fun _ => rfl, fun p hp => ?_⟩
  · dsimp only at hk ⊢
    rw [hk]
    rfl
  · exact Fill.fresh rfl fun i _ => hnow _
  · simp [yielded]
  · obtain ⟨a, b, k, hab, -⟩ := hp
    simp at hab

theorem Paged.getPageNum {tr : List Ev} {s : Pager} (I : Paged g tr s) {k : Nat}
    (hk : InUse g s.sys.handed k = true) :
    (yielded tr k = g.pps ∧ BlockManager.getPageNum g s.sys.bm (s.seg k) =
        some (none, s.seg k, s.sys.bm)) ∨
      yielded tr k < g.pps ∧ ∃ q, q < g.ppb ∧ Fill g s.sys.bm (s.seg k) q ∧
        yielded tr k = q * g.bps + (s.seg k).now ∧
        BlockManager.getPageNum g s.sys.bm (s.seg k) =
          some (some (g.ppaMaker ((s.seg k).blocks (s.seg k).now) q), (s.turned g k q).seg k,
            (s.turned g k q).sys.bm) := by
  obtain ⟨q, f, hy⟩ := I.fill k hk
  obtain ⟨hfull, hnext⟩ := f.getPageNum
  have hpps : g.pps = g.ppb * g.bps := mul_comm _ _
  rcases lt_or_ge q g.ppb with hq | hq
  · have hlt : (q + 1) * g.bps ≤ g.ppb * g.bps := Nat.mul_le_mul_right _ hq
    rw [Nat.succ_mul] at hlt
    have := f.now_lt
    refine .inr ⟨by omega, q, hq, f, hy, ?_⟩
    rw [hnext hq, turned_seg_self]
    rfl
  · have hqe : q = g.ppb := le_antisymm f.le hq
    refine .inl ⟨?_, hfull hqe⟩
    rw [hy, hqe, f.whole hqe, hpps, add_zero]

theorem paged_step {tr : List Ev} {s s' : Pager} {e : Ev} (I : Paged g tr s)
    (h : s.step g e = some s') : Paged g (tr ++ [e]) s' := by
  cases e with
  | getSegment =>
    obtain ⟨sys, hs, rfl⟩ := map_eq_some_iff.mp h
    have K := kept_step I.kept hs
    obtain ⟨seg, bm', h1, rfl⟩ := step_getSegment hs
    obtain ⟨-, -, hseg, hidx, -⟩ := getSegment_spec h1
    have t := (getSegment_spec h1).1
    exact I.opened (fun k r => (by simp)) K hseg hidx rfl t.free fun b => (t.use b).1
  | changeReserve =>
    obtain ⟨sys, hs, rfl⟩ := map_eq_some_iff.mp h
    have K := kept_step I.kept hs
    obtain ⟨seg, bm', h1, rfl⟩ := step_changeReserve hs
    obtain ⟨bm1, h2, h3⟩ := changeReserve_cases h1
    obtain ⟨-, -, hseg, hidx, -⟩ := getSegment_spec h2
    obtain ⟨hfree, -, huse, -⟩ := changeReserve_spec h1
    exact I.opened (fun k r => (by simp)) K hseg ((changeReserveLoop_spec h3).2.2.2.2.2.trans hidx) rfl hfree
      fun b => (huse b).1
  | getGcTarget =>
    obtain ⟨sys, hs, rfl⟩ := map_eq_some_iff.mp h
    have K := kept_step I.kept hs
    obtain ⟨gs, bm', h0, h1, rfl⟩ := step_getGcTarget hs
    have t := getGcTargetLoop_spec I.kept.places.heap_wf h1
    exact I.congr (fun k r => (by simp)) K t.free rfl t.idx fun b => by rw [t.block]
  | trimSegment gs =>
    obtain ⟨sys, hs, h⟩ := bind_eq_some_iff.mp h
    have K := kept_step I.kept hs
    obtain ⟨gs', bm', h0, h1, rfl⟩ := step_trimSegment hs
    rw [h0] at h
    dsimp only at h
    split at h
    · rename_i hgs
      cases h
      exact I.trimmed (fun i hi => hgs i (mem_range.mpr hi)) h0 h1 K
    · cases h
  | mark block =>
    rw [Pager.step] at h
    obtain ⟨sys, hs, rfl⟩ := map_eq_some_iff.mp h
    have K := kept_step I.kept hs
    cases hs
    exact I.congr (fun k r => (by simp)) K rfl rfl rfl fun b => rfl
  | page k r =>
    simp only [Pager.step] at h
    split at h
    · rename_i hk
      rcases I.getPageNum hk with ⟨hy, hget⟩ | ⟨-, q, hq, f, hy, hget⟩
      · rw [hget] at h
        dsimp only at h
        split at h
        · rename_i hr
          subst hr
          cases h
          rw [update_eq_self]
          refine ⟨I.kept, I.erased, I.blocks, fun k' hk' => ?_, fun k' hk' => ?_, fun k' => ?_,
            fun p hp => ?_⟩
          · rw [yielded_append]
            exact I.fill k' hk'
          · rw [yielded_append]
            exact I.fresh k' hk'
          · rw [yielded_append]
            exact I.used k'
          · rcases held_append hp with ⟨k', hk'⟩ | ⟨hp, -⟩
            · cases hk'
            · exact I.held p hp
        · cases h
      · rw [hget] at h
        dsimp only at h
        split at h
        · rename_i hr
          subst hr
          cases h
          rw [turned_seg_self]
          exact I.page hk f hy hq
        · cases h
    · cases h

/-! ## The numbering -/

theorem ppaMaker_decode (g : Geom) (ppa : Nat) :
    g.ppaMaker (g.getBlockIdx ppa) (g.getPageIdx ppa) = ppa := by
  have hm : ppa % g.bps < g.bps := Nat.mod_lt _ g.bps_pos
  have hdvd : g.bps ∣ g.pps := ⟨g.ppb, rfl⟩
  have h1 : g.punitNum (g.getBlockIdx ppa) = ppa % g.bps := by
    rw [Geom.punitNum, Geom.getBlockIdx, add_comm, Nat.add_mul_mod_self_right, Nat.mod_eq_of_lt hm]
  have h2 : g.blockNum (g.getBlockIdx ppa) = ppa / g.pps * g.pps := by
    rw [Geom.blockNum, Geom.getBlockIdx, add_comm, Nat.add_mul_div_right _ _ g.bps_pos,
      Nat.div_eq_of_lt hm, zero_add]
  have h3 : g.getPageIdx ppa * g.bps + ppa % g.bps = ppa % g.pps := by
    rw [Geom.getPageIdx, Geom.pps, Nat.mod_mul, mul_comm, add_comm]
  have h4 := Nat.div_add_mod' ppa g.pps
  rw [Geom.ppaMaker, h1, h2]
  omega

theorem foldl_clear {α : Type} (t : Nat → Option α) (f : Nat → Nat) (n ppa : Nat) :
    (range n).foldl (fun t i => update t (f i) none) t ppa =
      if ∃ i, i < n ∧ f i = ppa then none else t ppa := by
  induction n with
  | zero => simp
  | succ n ih =>
    rw [range_succ, foldl_append, foldl_cons, foldl_nil]
    by_cases hn : ppa = f n
    · rw [hn, update_self, if_pos ⟨n, Nat.lt_succ_self n, rfl⟩]
    · rw [update_of_ne hn, ih]
      refine if_congr ⟨fun ⟨i, hi, he⟩ => ⟨i, by omega, he⟩, fun ⟨i, hi, he⟩ => ⟨i, ?_, he⟩⟩ rfl rfl
      have : i ≠ n := fun hin => hn (by rw [← he, hin])
      omega

theorem posixTrimABlock_spec {α : Type} (t : Nat → Option α) {b : Nat} (hb : b < g.nos * g.bps) :
    ∃ t', posixTrimABlock g t (g.getBlockPpa b) = some t' ∧
      ∀ ppa, t' ppa = if g.getBlockIdx ppa = b then none else t ppa := by
  have hdiv : b / g.bps < g.nos := (Nat.div_lt_iff_lt_mul g.bps_pos).mpr hb
  have hle : ¬ g.getBlockPpa b > g.nop := by
    have h1 : (b / g.bps + 1) * g.pps ≤ g.nos * g.pps := Nat.mul_le_mul_right _ hdiv
    have h2 : g.punitNum b < g.pps := by
      have := g.offset_lt b g.ppb_pos
      omega
    rw [Nat.succ_mul] at h1
    unfold Geom.getBlockPpa Geom.blockNum Geom.nop
    omega
  have hmake : ∀ i, g.getBlockPpa b + i * g.bps = g.ppaMaker b i := by
    intro i
    unfold Geom.ppaMaker Geom.getBlockPpa
    omega
  refine ⟨_, by rw [posixTrimABlock, if_neg hle], fun ppa => ?_⟩
  rw [foldl_clear]
  refine if_congr ⟨fun ⟨i, hi, he⟩ => ?_, fun h => ?_⟩ rfl rfl
  · rw [← he, hmake, getBlockIdx_ppaMaker g b hi]
  · refine ⟨g.getPageIdx ppa, Nat.mod_lt _ g.ppb_pos, ?_⟩
    rw [hmake, ← h, ppaMaker_decode]

/-- What the next `base_get_page_num` on segment `k` does, and who foretells it. -/
structure NextPage (g : Geom) (tr : List Ev) (s : Pager) (k : Nat) : Prop where
  total : yielded tr k ≤ g.pps
  full : yielded tr k = g.pps → getPageNum g s.sys.bm (s.seg k) = some (none, s.seg k, s.sys.bm)
  next : yielded tr k < g.pps → ∃ p sg bm', getPageNum g s.sys.bm (s.seg k) = some (some p, sg, bm') ∧
    ¬ Held g tr p ∧ g.getBlockIdx p = (s.seg k).blocks (s.seg k).now ∧
    g.getPageIdx p = (s.sys.bm.block (g.getBlockIdx p)).now
  pick : pickPageNum g s.sys.bm (s.seg k) = (getPageNum g s.sys.bm (s.seg k)).map (·.1)
  check : ∀ type, checkFullOf g s.sys.bm (s.seg k) type = true ↔
    type ≠ .segment ∧ (getPageNum g s.sys.bm (s.seg k)).map (·.1) = some none

theorem pickPageNum_eq (bm : BM) (sg : Segment) :
    pickPageNum g bm sg = (getPageNum g bm sg).map (·.1) := by
  unfold pickPageNum getPageNum
  split
  · rfl
  · dsimp only
    split <;> rfl

theorem Paged.nextPage {tr : List Ev} {s : Pager} (I : Paged g tr s) {k : Nat}
    (hk : InUse g s.sys.handed k = true) : NextPage g tr s k := by
  have hcheck : ∀ q, Fill g s.sys.bm (s.seg k) q → (q = g.ppb ↔
      (BlockManager.getPageNum g s.sys.bm (s.seg k)).map (·.1) = some none) → ∀ type,
      (checkFullOf g s.sys.bm (s.seg k) type = true ↔ type ≠ .segment ∧
        (BlockManager.getPageNum g s.sys.bm (s.seg k)).map (·.1) = some none) := by
    intro q f hq type
    cases type with
    | segment => simp [checkFullOf]
    | block => rw [checkFullOf, f.checkFull, hq]; simp
    | page => rw [checkFullOf, f.checkFull, hq]; simp
  obtain ⟨q, f, hy⟩ := I.fill k hk
  rcases I.getPageNum hk with ⟨hfull, hget⟩ | ⟨hlt, q', hq', f', hy', hget⟩
  · refine ⟨by omega, fun _ => hget, fun h => by omega, pickPageNum_eq _ _, hcheck q f ?_⟩
    have hq : q = g.ppb := by
      rcases lt_or_ge q g.ppb with hq | hq
      · rw [f.getPageNum.2 hq] at hget
        cases hget
      · exact le_antisymm f.le hq
    rw [hget]
    simp [hq]
  · refine ⟨by omega, fun h => by omega, fun _ => ⟨_, _, _, hget, ?_, getBlockIdx_ppaMaker g _ hq', ?_⟩,
      pickPageNum_eq _ _, hcheck q' f' ?_⟩
    · intro hheld
      have hcount := I.held _ hheld
      rw [getBlockIdx_ppaMaker g _ hq', getPageIdx_ppaMaker g _ hq', f'.count _ f'.now_lt,
        if_neg (lt_irrefl _)] at hcount
      exact lt_irrefl _ hcount
    · rw [getBlockIdx_ppaMaker g _ hq', getPageIdx_ppaMaker g _ hq', f'.count _ f'.now_lt,
        if_neg (lt_irrefl _)]
    · rw [hget]
      simp
      omega

/-- In every run, a segment none of whose blocks was trimmed since it was handed out yields
`_PPS` page numbers and then -1, whatever is asked of other segments in between; a number is
returned again only after its block was trimmed; it decodes to the block it came from and to that
block's page counter; `base_pick_page_num` and, for pages and blocks, `base_check_full` foretell
the next answer. Trimming a block on the device clears exactly the pages that decode to it. -/
theorem page_numbers (g : Geom) {tr : List Ev} {s : Pager} (h : (pager g).Exec tr s) :
    (∀ k, InUse g s.sys.handed k = true → NextPage g tr s k) ∧
      ∀ (t : Nat → Option (List UInt8)) (b : Nat), b < g.nos * g.bps →
        ∃ t', posixTrimABlock g t (g.getBlockPpa b) = some t' ∧
          ∀ ppa, t' ppa = if g.getBlockIdx ppa = b then none else t ppa := by
  have I : Paged g tr s := h.history_inv (I := Paged g)
    ⟨fun s hs => create_paged hs, fun tr s e s' I hs => paged_step I hs⟩
  exact ⟨fun k hk => I.nextPage hk, fun t b hb => posixTrimABlock_spec t hb⟩

/-- Segment 1 gives its four pages and -1; its blocks are collected and segment 2 gives the
first page again. -/
def reuse : List Ev :=
  [.getSegment, .page 1 (some 4), .page 1 (some 5), .page 1 (some 6), .page 1 (some 7), .page 1 none,
    .getGcTarget, .trimSegment (fun i => i + 2), .getSegment, .page 2 (some 4)]

theorem page_numbers_reuse : ∃ s, (pager fourBlocks).Exec reuse s ∧ NextPage fourBlocks reuse s 2 := by
  obtain ⟨s, hx, hk⟩ := LTS.Exec.check (T := pager fourBlocks) (Pager.create fourBlocks)
    (fun _ _ => True) reuse (fun s => InUse fourBlocks s.sys.handed 2 = true) (fun _ _ _ _ h => h)
    (fun _ h => h) (by decide +kernel)
  exact ⟨s, hx, (page_numbers fourBlocks hx).1 2 hk⟩

/-- What `base_get_page_num` would return for segment 1. -/
def nextOfFirst (s : Pager) : Option (Option Nat) :=
  (getPageNum fourBlocks s.sys.bm (s.seg 1)).map (·.1)

/-- `base_check_full` asked with `MASTER_SEGMENT` does not see that the segment is full; and once
its blocks were trimmed, the segment yields a fifth number. -/
theorem check_full_segment :
    (∃ s, (pager fourBlocks).Exec (reuse.take 6) s ∧ nextOfFirst s = some none ∧
      checkFullOf fourBlocks s.sys.bm (s.seg 1) .page = true ∧
      checkFullOf fourBlocks s.sys.bm (s.seg 1) .segment = false) ∧
    ∃ s, (pager fourBlocks).Exec (reuse.take 8) s ∧ (nextOfFirst s).any Option.isSome = true := by
  constructor
  all_goals
    exact LTS.Exec.check (Pager.create fourBlocks) (fun _ _ => True) _ _ (fun _ _ _ _ h => h)
      (fun _ h => h) (by decide +kernel)

end FlashDriver.BlockManager
