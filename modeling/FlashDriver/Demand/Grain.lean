import FlashDriver.BlockManager.Base
import FlashDriver.Core.Packing

/-!
# Values of several grains (`algorithm/demand/dvalue.c`, `dvalue_gc.c`)

A page holds 16 grains and a value takes one or more of them. Only the first
grain of a value is marked in `grain_bitmap`, and the OOB slot of that grain
holds the value's lpa; the other slots are 0. So a collection finds the length
of a value by counting the zero slots behind it.

`_do_bulk_write_valid_grains` gathers the values of the pages that were read in
buckets by length and packs them into pages of the reserve segment, the longest
value that fits first. `none` stands for `abort()` and, in `putPages`, for going
on with the page number -1 of a reserve segment that has run out.

* `gather_pages`: the values of `n` pages, whatever their lengths, are packed
  into at most `n + (n + 1) / 3` pages. So the reserve segment does not run out
  if at most three quarters of the pages of the victim were read.
* `two_pages_to_three`: two full pages whose values take three pages, and a
  reserve segment of two pages that runs out.
-/
namespace FlashDriver.Demand.Grain

open List Option Function
open BlockManager (Geom)
open Core.Packing

variable {β : Type}

/-- mirrors include/demand_settings.h (`GRAIN_PER_PAGE`) -/
def gpp : Nat := 16

/-- The data pages: `β` is what a grain holds. -/
structure Flash (β : Type) where
  grain : Nat → Bool            -- grain_bitmap, by grain address
  bits : Nat → Bool             -- bitset of the block manager, by page
  oob : Nat → Nat → Nat         -- oob_list, by page and offset
  data : Nat → Nat → β          -- the contents, by page and offset

/-- mirrors algorithm/demand/dvalue.c:29-39 -/
def containsValidGrain (s : Flash β) (ppa : Nat) : Option Bool :=
  if (range gpp).any fun i => s.grain (ppa * gpp + i) then some true
  else if s.bits ppa then none
  else some false

/-- mirrors algorithm/demand/page.c:255-266 (`DATA`) with `invalidate_grain` -/
def invalidatePage (s : Flash β) (pga : Nat) : Option (Flash β) :=
  if s.grain pga then
    some { s with
      grain := update s.grain pga false
      bits := update s.bits (pga / gpp) false }
  else none

/-! ## Reading the victim -/

/-- mirrors `struct gc_bucket_node`; `ptr` is the grain whose buffer it points to -/
structure GcNode where
  ptr : Nat
  lpa : Nat
  deriving DecidableEq

/-- The zero slots from `k` on. -/
def zerosFrom (l : Nat → Nat) : Nat → Nat → Nat
  | 0, _ => 0
  | fuel + 1, k => if k < gpp ∧ l k = 0 then zerosFrom l fuel (k + 1) + 1 else 0

/-- mirrors algorithm/demand/dvalue_gc.c:81-84 -/
def lenAt (l : Nat → Nat) (j : Nat) : Nat := zerosFrom l gpp (j + 1) + 1

structure Gather (β : Type) where
  flash : Flash β
  bucket : Buckets GcNode       -- the head of a bucket is its last entry
  nodes : List GcNode           -- gcb_node_arr

/-- mirrors algorithm/demand/dvalue_gc.c:79-96 -/
def gatherGrain (ppa : Nat) (r : Gather β) (j : Nat) : Option (Gather β) :=
  let pga := ppa * gpp + j
  if r.flash.grain pga then
    let l := r.flash.oob ppa
    if l j = 0 then none
    else (invalidatePage r.flash pga).map fun f =>
      { flash := f
        bucket := update r.bucket (lenAt l j) (⟨pga, l j⟩ :: r.bucket (lenAt l j))
        nodes := r.nodes ++ [⟨pga, l j⟩] }
  else some r

/-- The check behind the loop over a page. -/
def leaveNone (ppa : Nat) (r : Gather β) : Option (Gather β) :=
  (containsValidGrain r.flash ppa).bind fun c => if c then none else some r

/-- mirrors algorithm/demand/dvalue_gc.c:77-99, for one page -/
def gatherPage (r : Gather β) (ppa : Nat) : Option (Gather β) :=
  ((range gpp).foldlM (gatherGrain ppa) r).bind (leaveNone ppa)

/-- mirrors algorithm/demand/dvalue_gc.c:73-99 -/
def gather (s : Flash β) (tbl : List Nat) : Option (Gather β) :=
  tbl.foldlM gatherPage ⟨s, fun _ => [], []⟩

/-! ## Writing the reserve segment -/

/-- mirrors include/container.h:179-187: a block of every channel -/
structure Seg where
  blocks : Nat → Nat
  used : Nat

/-- The pages of a segment in the order in which they are handed out, which is
also that of `for_each_page_in_seg_blocks`. -/
def Seg.page (g : Geom) (s : Seg) (k : Nat) : Nat := g.ppaMaker (s.blocks (k % g.bps)) (k / g.bps)

/-- mirrors blockmanager/base_block_manager.c:280-296; `none` is -1 -/
def Seg.getPageNum (g : Geom) (s : Seg) : Option (Nat × Seg) :=
  if s.used = g.pps then none else some (s.page g s.used, { s with used := s.used + 1 })

/-- mirrors algorithm/demand/dvalue_gc.c:114-126; `buf` are the pages as read -/
def putGrain (buf : Nat → Nat → β) (ppa : Nat) (s : Flash β) (x : Slot GcNode) : Flash β :=
  { s with
    grain := update s.grain (ppa * gpp + x.off) true
    oob := update s.oob ppa (update (s.oob ppa) x.off x.item.lpa)
    data := update s.data ppa fun i =>
      if x.off ≤ i ∧ i < x.off + x.len then buf (x.item.ptr / gpp) (x.item.ptr % gpp + (i - x.off))
      else s.data ppa i }

/-- A node with its field `ppa`, the new grain address. -/
structure Moved where
  node : GcNode
  ppa : Nat

/-- What the collection has done so far. -/
structure Out (β : Type) where
  flash : Flash β
  reserve : Seg
  moved : List Moved

/-- mirrors algorithm/demand/dvalue_gc.c:101-133, for pages filled as `ps` says -/
def putPages (g : Geom) (buf : Nat → Nat → β) : List (List (Slot GcNode)) → Out β → Option (Out β)
  | [], o => some o
  | xs :: ps, o => (o.reserve.getPageNum g).bind fun r =>
      putPages g buf ps
        { flash := xs.foldl (putGrain buf r.1) o.flash
          reserve := r.2
          moved := o.moved ++ xs.map fun x => ⟨x.item, r.1 * gpp + x.off⟩ }

/-- mirrors algorithm/demand/dvalue_gc.c:70-137 -/
def bulkWrite (g : Geom) (s : Flash β) (tbl : List Nat) (reserve : Seg) : Option (Out β) :=
  (gather s tbl).bind fun r => (pack gpp r.bucket).bind fun ps =>
    putPages g s.data ps ⟨r.flash, reserve, []⟩

/-- `copied_pages` -/
def copiedPages (s : Flash β) (tbl : List Nat) : Option Nat :=
  (gather s tbl).bind fun r => (pack gpp r.bucket).map length

/-! ## The lengths found in a page -/

theorem zerosFrom_le (l : Nat → Nat) (fuel k : Nat) (hk : k ≤ gpp) :
    k + zerosFrom l fuel k ≤ gpp := by
  induction fuel generalizing k with
  | zero => exact hk
  | succ fuel ih =>
    rw [zerosFrom]
    split
    · rename_i h
      have := ih (k + 1) h.1
      omega
    · exact hk

theorem zerosFrom_zero (l : Nat → Nat) (fuel k : Nat) :
    ∀ i, k ≤ i → i < k + zerosFrom l fuel k → l i = 0 := by
  induction fuel generalizing k with
  | zero => intro i h1 h2; rw [zerosFrom] at h2; omega
  | succ fuel ih =>
    intro i h1 h2
    rw [zerosFrom] at h2
    split at h2
    · rename_i h
      rcases Nat.eq_or_lt_of_le h1 with rfl | h1
      · exact h.2
      · exact ih (k + 1) i h1 (by omega)
    · omega

theorem lenAt_le (l : Nat → Nat) {j : Nat} (hj : j < gpp) : j + lenAt l j ≤ gpp := by
  have := zerosFrom_le l gpp (j + 1) hj
  unfold lenAt
  omega

theorem lenAt_zero (l : Nat → Nat) (j : Nat) : ∀ i, j < i → i < j + lenAt l j → l i = 0 := by
  intro i h1 h2
  unfold lenAt at h2
  exact zerosFrom_zero l gpp (j + 1) i h1 (by omega)

/-- The lengths in the buckets. -/
def lengths (b : Buckets GcNode) : Multiset Nat := (items gpp b).map Prod.fst

theorem lengths_push {b : Buckets GcNode} {k : Nat} (hk : k ≤ gpp) (x : GcNode) :
    lengths (update b k (x :: b k)) = k ::ₘ lengths b := by
  unfold lengths
  rw [items_push hk, Multiset.map_cons]

/-- The values found up to offset `m` of a page: `ls` are their lengths, and
they end before `e`, up to where no other value begins. -/
structure Found (ppa : Nat) (r r' : Gather β) (m : Nat) (ls : List Nat) (e : Nat) : Prop where
  oob : r'.flash.oob = r.flash.oob
  lengths : lengths r'.bucket = (ls : Multiset Nat) + lengths r.bucket
  sized : Sized gpp r'.bucket
  sum_le : ls.sum ≤ e
  end_le : e ≤ gpp
  zero : ∀ i, m ≤ i → i < e → r.flash.oob ppa i = 0

/-- The state after a value was found. -/
def taken (ppa : Nat) (r : Gather β) (j : Nat) : Gather β where
  flash := { r.flash with
    grain := update r.flash.grain (ppa * gpp + j) false
    bits := update r.flash.bits ((ppa * gpp + j) / gpp) false }
  bucket := update r.bucket (lenAt (r.flash.oob ppa) j)
    (⟨ppa * gpp + j, r.flash.oob ppa j⟩ :: r.bucket (lenAt (r.flash.oob ppa) j))
  nodes := r.nodes ++ [⟨ppa * gpp + j, r.flash.oob ppa j⟩]

theorem gatherGrain_cases {ppa j : Nat} {r r' : Gather β} (h : gatherGrain ppa r j = some r') :
    (r.flash.grain (ppa * gpp + j) = false ∧ r' = r) ∨
      (r.flash.grain (ppa * gpp + j) = true ∧ r.flash.oob ppa j ≠ 0 ∧ r' = taken ppa r j) := by
  unfold gatherGrain invalidatePage at h
  dsimp only at h
  split at h
  · rename_i hg
    split at h
    · cases h
    · rename_i hl
      exact .inr ⟨hg, hl, (some.inj h).symm⟩
  · rename_i hg
    exact .inl ⟨by simpa using hg, (some.inj h).symm⟩

theorem gatherGrain_found {ppa m : Nat} {r r' r'' : Gather β} {ls : List Nat} {e : Nat}
    (F : Found ppa r r' m ls e) (hm : m < gpp) (h : gatherGrain ppa r' m = some r'') :
    ∃ ls' e', Found ppa r r'' (m + 1) ls' e' := by
  obtain ⟨-, rfl⟩ | ⟨-, hl, rfl⟩ := gatherGrain_cases h
  · exact ⟨ls, e, F.oob, F.lengths, F.sized, F.sum_le, F.end_le, fun i h1 h2 =>
      F.zero i (by omega) h2⟩
  · rw [F.oob] at hl
    have hend : e ≤ m := by
      by_contra hlt
      exact hl (F.zero m (le_refl m) (by omega))
    have hle := lenAt_le (r.flash.oob ppa) hm
    have hsum := F.sum_le
    refine ⟨lenAt (r.flash.oob ppa) m :: ls, m + lenAt (r.flash.oob ppa) m, F.oob, ?_, ?_, ?_, hle,
      fun i h1 h2 => lenAt_zero _ m i h1 h2⟩
    · dsimp only [taken]
      rw [F.oob, lengths_push (by omega), F.lengths, ← Multiset.cons_coe, Multiset.cons_add]
    · dsimp only [taken]
      rw [F.oob]
      exact F.sized.push (by unfold lenAt; omega) (by omega) _
    · rw [sum_cons]
      omega

theorem gatherPage_found {ppa : Nat} {r r' : Gather β} (hs : Sized gpp r.bucket)
    (h : gatherPage r ppa = some r') :
    ∃ ls : List Nat, ls.sum ≤ gpp ∧ Sized gpp r'.bucket ∧
      lengths r'.bucket = (ls : Multiset Nat) + lengths r.bucket := by
  have hfold : ∀ m ≤ gpp, ∀ r', (range m).foldlM (gatherGrain ppa) r = some r' →
      ∃ ls e, Found ppa r r' m ls e := by
    intro m
    induction m with
    | zero =>
      intro _ r' h
      cases h
      exact ⟨[], 0, rfl, by simp, hs, Nat.le_refl 0, Nat.zero_le _, fun i _ h => by omega⟩
    | succ m ih =>
      intro hm r' h
      rw [range_succ, foldlM_append] at h
      obtain ⟨r1, h1, h2⟩ := bind_eq_some_iff.mp h
      obtain ⟨ls, e, F⟩ := ih (by omega) r1 h1
      have h2' : gatherGrain ppa r1 m = some r' := by simpa using h2
      exact gatherGrain_found F hm h2'
  unfold gatherPage at h
  obtain ⟨r1, h1, h2⟩ := bind_eq_some_iff.mp h
  obtain ⟨ls, e, F⟩ := hfold gpp (le_rfl) r1 h1
  have heq : r1 = r' := by
    unfold leaveNone at h2
    obtain ⟨c, -, h3⟩ := bind_eq_some_iff.mp h2
    split at h3
    · cases h3
    · exact some.inj h3
  subst heq
  exact ⟨ls, le_trans F.sum_le F.end_le, F.sized, F.lengths⟩

theorem gather_found {s : Flash β} {tbl : List Nat} {r : Gather β} (h : gather s tbl = some r) :
    ∃ src : List (List Nat), src.length = tbl.length ∧ (∀ p ∈ src, p.sum ≤ gpp) ∧
      Sized gpp r.bucket ∧ lengths r.bucket = (src.flatten : Multiset Nat) := by
  have hfold : ∀ (tbl : List Nat) (r r' : Gather β), Sized gpp r.bucket →
      tbl.foldlM gatherPage r = some r' →
      ∃ src : List (List Nat), src.length = tbl.length ∧ (∀ p ∈ src, p.sum ≤ gpp) ∧
        Sized gpp r'.bucket ∧
        lengths r'.bucket = (src.flatten : Multiset Nat) + lengths r.bucket := by
    intro tbl
    induction tbl with
    | nil =>
      intro r r' hs h
      cases h
      exact ⟨[], rfl, fun p hp => (by cases hp), hs, by simp⟩
    | cons p tbl ih =>
      intro r r' hs h
      rw [foldlM_cons] at h
      obtain ⟨r1, h1, h2⟩ := bind_eq_some_iff.mp h
      obtain ⟨ls, hls, hs1, hl1⟩ := gatherPage_found hs h1
      obtain ⟨src, hlen, hsrc, hs2, hl2⟩ := ih r1 r' hs1 h2
      refine ⟨ls :: src, by rw [length_cons, length_cons, hlen], fun q hq => ?_, hs2, ?_⟩
      · rcases mem_cons.mp hq with rfl | hq
        · exact hls
        · exact hsrc q hq
      · rw [hl2, hl1, flatten_cons, ← Multiset.coe_add]
        abel
  obtain ⟨src, h1, h2, h3, h4⟩ := hfold tbl _ r (fun k hk => absurd rfl hk) h
  refine ⟨src, h1, h2, h3, h4.trans ?_⟩
  simp [lengths, items]

/-! ## The pages of the reserve segment -/

theorem putPages_isSome (g : Geom) (buf : Nat → Nat → β) (ps : List (List (Slot GcNode)))
    (o : Out β) (h : o.reserve.used + ps.length ≤ g.pps) : (putPages g buf ps o).isSome := by
  induction ps generalizing o with
  | nil => rfl
  | cons xs ps ih =>
    rw [length_cons] at h
    unfold putPages Seg.getPageNum
    rw [if_neg (by omega), bind_some]
    exact ih _ (by change o.reserve.used + 1 + ps.length ≤ g.pps; omega)

/-- Values of any lengths in `n` pages take at most a third more pages, so a
fresh reserve segment has enough for three quarters of a segment. -/
theorem gather_pages (g : Geom) (s : Flash β) (tbl : List Nat) (reserve : Seg)
    (hr : reserve.used = 0) (hs : (gather s tbl).isSome) :
    (∃ n, copiedPages s tbl = some n ∧ n ≤ tbl.length + (tbl.length + 1) / 3) ∧
      (4 * tbl.length ≤ 3 * g.pps → (bulkWrite g s tbl reserve).isSome) := by
  obtain ⟨r, hg⟩ := isSome_iff_exists.mp hs
  obtain ⟨src, hlen, hsrc, hsz, hl⟩ := gather_found hg
  obtain ⟨ps, hps, -, hitems, hbest⟩ := pack_spec hsz
  have hle := pages_le hbest hitems hsrc hl
  rw [hlen] at hle
  refine ⟨⟨ps.length, by rw [copiedPages, hg, bind_some, hps, map_some], hle⟩, fun hq => ?_⟩
  rw [bulkWrite, hg, bind_some, hps, bind_some]
  exact putPages_isSome g _ ps _ (by change reserve.used + ps.length ≤ g.pps; omega)

/-- Page 0 has values of 7, 5 and 4 grains, page 1 of 6, 6 and 4. -/
def twoPages : Flash Unit where
  grain a := [0, 7, 12, 16, 22, 28].contains a
  bits _ := true
  oob p j := if p = 0 then ([1, 0, 0, 0, 0, 0, 0, 2, 0, 0, 0, 0, 3, 0, 0, 0].getD j 0)
    else ([4, 0, 0, 0, 0, 0, 5, 0, 0, 0, 0, 0, 6, 0, 0, 0].getD j 0)
  data _ _ := ()

theorem gather_pages_two :
    (gather twoPages [0, 1]).isSome = true ∧
    (∃ n, copiedPages twoPages [0, 1] = some n ∧ n ≤ 2 + (2 + 1) / 3) ∧
      (4 * 2 ≤ 3 * BlockManager.settings.pps →
        (bulkWrite BlockManager.settings twoPages [0, 1] ⟨id, 0⟩).isSome) :=
  ⟨by decide +kernel, gather_pages BlockManager.settings twoPages [0, 1] ⟨id, 0⟩ rfl
    (by decide +kernel)⟩

/-- 7 and 6 go to the first page, 6, 5 and 4 to the second, and a value of 4
grains is left; where the reserve segment has two pages, it runs out. -/
theorem two_pages_to_three : copiedPages twoPages [0, 1] = some 3 ∧ [0, 1].length < 3 ∧
    bulkWrite ⟨1, 2, 2, one_pos, Nat.two_pos, by decide⟩ twoPages [0, 1] ⟨id, 0⟩ = none :=
  ⟨by decide +kernel, by decide, isNone_iff_eq_none.mp (by decide +kernel)⟩

end FlashDriver.Demand.Grain
