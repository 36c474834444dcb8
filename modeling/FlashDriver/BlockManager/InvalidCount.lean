import FlashDriver.Core.LTS
import FlashDriver.BlockManager.Spec

/-!
# The count of invalid pages

`base_unpopulate_bit` adds one to the block's `invalid_number` whenever it is
called. The FTLs call it through their own functions: `invalidate_PPA` of the
LSM-tree, which takes the page of a piece and tries a header page twice,
`invalidate_page` of the demand FTL, which takes the page of a grain, and
`invalidate_ppa` of the page FTL. The sum over a segment of the map partition
is tested when its next victim is chosen.

The machine here has the blocks, the segments whose pages may be requested and
the bitmap of the grains. Which manager the segments come from is left open:
it hands out erased blocks that are in no other such segment, and a segment is
given up once one of its blocks is trimmed. A ghost has the pages of each block
that were invalidated since it was last trimmed.

* `invalid_le_handed`: as long as each page is invalidated once, a block has no
  more invalid pages than it has handed out, and the victim search does not
  abort.
-/
namespace FlashDriver.BlockManager.InvalidCount

open List Option Function
open FlashDriver.Core

/-- `HEADER` and `MAP`, or `DATA`. -/
inductive PageType where
  | header
  | data
  deriving DecidableEq, Repr

structure St where
  bm : BM
  segs : List Segment
  grain : Nat → Bool            -- grain_bitmap
  gone : Nat → Finset Nat       -- ghost, by block: the pages that were invalidated

/-- `NPCINPAGE` and `GRAIN_PER_PAGE` -/
def perPage : Nat := 16

section
variable (g : Geom)

/-! ## The calls -/

/-- mirrors blockmanager/base_block_manager.c:228-247; `mapPages` is
`_PPS*MAPPART_SEGS` and `none` the abort -/
def eraseBit (mapPages : Nat) (bm : BM) (ppa : Nat) : Option (Nat × BM) :=
  let bn := g.getBlockIdx ppa
  let pn := g.getPageIdx ppa
  let x := bm.block bn
  if ppa < mapPages ∧ x.invalidNumber > g.ppb then none
  else some (if x.bitset pn then 1 else 0,
    bm.setBlock bn { x with bitset := update x.bitset pn false })

def unpopulate (s : St) (ppa : Nat) : Nat × St :=
  let r := unpopulateBit g s.bm ppa
  let bn := g.getBlockIdx ppa
  (r.1, { s with bm := r.2
                 gone := update s.gone bn (insert (g.getPageIdx ppa) (s.gone bn)) })

/-- mirrors algorithm/Lsmtree/page.c:229-264 -/
def invalidatePPA (s : St) (ppa : Nat) : PageType → Bool × St
  | .data => if ppa = 2 ^ 32 - 1 then (true, s) else (true, (unpopulate g s (ppa / perPage)).2)
  | .header =>
    let r := unpopulate g s ppa
    if r.1 = 0 then (false, (unpopulate g r.2 ppa).2) else (true, r.2)

/-- mirrors algorithm/demand/page.c:255-266 and dvalue.c:50-57; `none` is the
abort on a grain that is not valid -/
def invalidatePage (s : St) (ppa : Nat) : PageType → Option (Nat × St)
  | .data =>
    if s.grain ppa then
      some (unpopulate g { s with grain := update s.grain ppa false } (ppa / perPage))
    else none
  | .header => some (unpopulate g s ppa)

/-- The blocks of a victim as `base_trim_segment` and `pbm_pt_trim_segment` leave
them. -/
def trimBlocks (bm : BM) (gs : Nat → Nat) : BM :=
  { bm with block := fun b =>
      if (range g.bps).any (gs · == b) then
        { bm.block b with invalidNumber := 0, now := 0, bitset := fun _ => false,
                          oobList := fun _ => 0 }
      else bm.block b }

/-- The segment shares no block with the victim. -/
def spared (gs : Nat → Nat) (t : Segment) : Bool :=
  (range g.bps).all fun i => (range g.bps).all fun j => gs i != t.blocks j

/-! ## Runs -/

inductive Lbl where
  | getSegment (t : Segment)
  | getPageNum (k : Nat)
  | trim (gs : Nat → Nat)
  | populateBit (ppa : Nat)
  | eraseBit (ppa : Nat)
  | validateGrain (pga : Nat)
  | invalidatePPA (ppa : Nat) (type : PageType)
  | invalidatePage (ppa : Nat) (type : PageType)
  | invalidate (ppa : Nat)              -- invalidate_ppa of the page FTL

/-- The blocks of `t` are different, erased, and in no segment in use. -/
def available (s : St) (t : Segment) : Bool :=
  t.now == 0 && (range g.bps).all fun i =>
    (s.bm.block (t.blocks i)).now == 0 &&
      ((range g.bps).all fun j => i == j || t.blocks i != t.blocks j) &&
      s.segs.all fun u => (range g.bps).all fun j => t.blocks i != u.blocks j

def step (mapPages : Nat) (s : St) : Lbl → Option St
  | .getSegment t => if available g s t then some { s with segs := s.segs ++ [t] } else none
  | .getPageNum k => s.segs[k]?.bind fun t => (getPageNum g s.bm t).map fun r =>
      { s with bm := r.2.2, segs := s.segs.set k r.2.1 }
  | .trim gs => some
      { s with bm := trimBlocks g s.bm gs
               segs := s.segs.filter (spared g gs)
               gone := fun b => if (range g.bps).any (gs · == b) then ∅ else s.gone b }
  | .populateBit ppa => some { s with bm := (populateBit g s.bm ppa).2 }
  | .eraseBit ppa => (eraseBit g mapPages s.bm ppa).map fun r => { s with bm := r.2 }
  | .validateGrain pga => some { s with grain := update s.grain pga true }
  | .invalidatePPA ppa type => some (invalidatePPA g s ppa type).2
  | .invalidatePage ppa type => (invalidatePage g s ppa type).map Prod.snd
  | .invalidate ppa => some (unpopulate g s ppa).2

def start : St := ⟨create g, [], fun _ => false, fun _ => ∅⟩

def calls (mapPages : Nat) : LTS St Lbl where
  init s := s = start g
  step s l s' := step g mapPages s l = some s'

/-! ## The victim of the map partition -/

/-- Which abort of `pbm_pt_get_gc_target` is reached. -/
inductive Stop where
  | tooMany
  | nothing
  deriving DecidableEq, Repr

/-- `now_invalid` -/
def invalidSum (bm : BM) (seg : Nat) : Nat :=
  ((range g.bps).map fun j => (bm.block (seg * g.bps + j)).invalidNumber).sum

def pickMax (bm : BM) (best : Nat × Nat) (seg : Nat) : Except Stop (Nat × Nat) :=
  if invalidSum g bm seg > g.pps then .error .tooMany
  else if invalidSum g bm seg > best.2 then .ok (seg, invalidSum g bm seg) else .ok best

/-- mirrors blockmanager/partition/pt_block_manager.c:229-275 (`MAP_S`), for the
segments below `segs` -/
def ptGetGcTarget (bm : BM) (segs : Nat) : Except Stop Nat := do
  let best ← (range segs).foldlM (pickMax g bm) (0, 0)
  if best.2 = 0 then .error .nothing else .ok best.1

/-! ## The condition -/

/-- The page was handed out since its block was trimmed, and not invalidated since. -/
def Fresh (s : St) (ppa : Nat) : Prop :=
  g.getPageIdx ppa < (s.bm.block (g.getBlockIdx ppa)).now ∧
    g.getPageIdx ppa ∉ s.gone (g.getBlockIdx ppa)

/-- A page is invalidated once; a header page is valid then, so that it is not
tried twice. -/
def Once (s : St) : Lbl → Prop
  | .invalidatePPA ppa .data => ppa = 2 ^ 32 - 1 ∨ Fresh g s (ppa / perPage)
  | .invalidatePPA ppa .header => Fresh g s ppa ∧ isValidPage g s.bm ppa = true
  | .invalidatePage ppa .data => Fresh g s (ppa / perPage)
  | .invalidatePage ppa .header => Fresh g s ppa
  | .invalidate ppa => Fresh g s ppa
  | .getSegment _ => True
  | .getPageNum _ => True
  | .trim _ => True
  | .populateBit _ => True
  | .eraseBit _ => True
  | .validateGrain _ => True

instance (s : St) (ppa : Nat) : Decidable (Fresh g s ppa) := inferInstanceAs (Decidable (_ ∧ _))

instance (s : St) (l : Lbl) : Decidable (Once g s l) := match l with
  | .invalidatePPA _ .data => inferInstanceAs (Decidable (_ ∨ _))
  | .invalidatePPA _ .header => inferInstanceAs (Decidable (_ ∧ _))
  | .invalidatePage ppa .data => inferInstanceAs (Decidable (Fresh g s (ppa / perPage)))
  | .invalidatePage ppa .header => inferInstanceAs (Decidable (Fresh g s ppa))
  | .invalidate ppa => inferInstanceAs (Decidable (Fresh g s ppa))
  | .getSegment _ => inferInstanceAs (Decidable True)
  | .getPageNum _ => inferInstanceAs (Decidable True)
  | .trim _ => inferInstanceAs (Decidable True)
  | .populateBit _ => inferInstanceAs (Decidable True)
  | .eraseBit _ => inferInstanceAs (Decidable True)
  | .validateGrain _ => inferInstanceAs (Decidable True)

end

/-! ## The invariant -/

/-- The segments in use are filled in turn and have their blocks to themselves;
`invalid_number` counts the pages that were invalidated. -/
structure Counted (g : Geom) (s : St) : Prop where
  count : ∀ b, (s.bm.block b).invalidNumber = (s.gone b).card
  handed : ∀ b, ∀ pn ∈ s.gone b, pn < (s.bm.block b).now
  le : ∀ b, (s.bm.block b).now ≤ g.ppb
  fill : ∀ t ∈ s.segs, ∃ q, Fill g s.bm t q
  inj : ∀ t ∈ s.segs, ∀ i j, i < g.bps → j < g.bps → t.blocks i = t.blocks j → i = j
  apart : (s.segs.map Segment.blocks).Pairwise fun x y =>
    ∀ i j, i < g.bps → j < g.bps → x i ≠ y j

section
variable {g : Geom} {s : St}

theorem Counted.card_le (C : Counted g s) (b : Nat) :
    (s.gone b).card ≤ (s.bm.block b).now := by
  have hsub : s.gone b ⊆ Finset.range (s.bm.block b).now := fun pn hpn =>
    Finset.mem_range.mpr (C.handed b pn hpn)
  simpa using Finset.card_le_card hsub

theorem Counted.recount (C : Counted g s) {s' : St} (hsegs : s'.segs = s.segs)
    (hnow : ∀ b, (s'.bm.block b).now = (s.bm.block b).now)
    (hcount : ∀ b, (s'.bm.block b).invalidNumber = (s'.gone b).card)
    (hhanded : ∀ b, ∀ pn ∈ s'.gone b, pn < (s.bm.block b).now) : Counted g s' where
  count := hcount
  handed b pn hpn := by rw [hnow]; exact hhanded b pn hpn
  le b := by rw [hnow]; exact C.le b
  fill t ht := by
    rw [hsegs] at ht
    obtain ⟨q, f⟩ := C.fill t ht
    exact ⟨q, f.now_lt, f.le, f.whole, fun i hi => by rw [hnow]; exact f.count i hi⟩
  inj := by rw [hsegs]; exact C.inj
  apart := by rw [hsegs]; exact C.apart

theorem setBlock_field {α : Type} (f : Block → α) (bm : BM) {bn : Nat} {x : Block}
    (h : f x = f (bm.block bn)) (b : Nat) : f ((bm.setBlock bn x).block b) = f (bm.block b) := by
  by_cases hb : b = bn
  · rw [hb, setBlock_same, h]
  · rw [setBlock_other bm x hb]

theorem Counted.setBits (C : Counted g s) (bn : Nat) (bits : Nat → Bool) :
    Counted g { s with bm := s.bm.setBlock bn { s.bm.block bn with bitset := bits } } := by
  refine C.recount rfl (setBlock_field Block.now s.bm rfl) (fun b => ?_) C.handed
  exact (setBlock_field Block.invalidNumber s.bm (by rfl) b).trans (C.count b)

theorem Counted.unpopulate (C : Counted g s) {ppa : Nat} (h : Fresh g s ppa) :
    Counted g (unpopulate g s ppa).2 := by
  obtain ⟨hlt, hnot⟩ := h
  have hcard : (s.gone (g.getBlockIdx ppa)).card + 1 ≤ g.ppb := by
    have hins : insert (g.getPageIdx ppa) (s.gone (g.getBlockIdx ppa)) ⊆
        Finset.range (s.bm.block (g.getBlockIdx ppa)).now := by
      intro pn hpn
      rcases Finset.mem_insert.mp hpn with rfl | hpn
      · exact Finset.mem_range.mpr hlt
      · exact Finset.mem_range.mpr (C.handed _ pn hpn)
    have := Finset.card_le_card hins
    rw [Finset.card_insert_of_notMem hnot, Finset.card_range] at this
    exact this.trans (C.le _)
  have hppb := g.ppb_lt
  refine C.recount rfl (setBlock_field Block.now s.bm rfl) (fun b => ?_) fun b pn hpn => ?_
  · change ((s.bm.setBlock _ _).block b).invalidNumber = (update s.gone _ _ b).card
    by_cases hb : b = g.getBlockIdx ppa
    · subst hb
      rw [setBlock_same, update_self, Finset.card_insert_of_notMem hnot, C.count,
        Nat.mod_eq_of_lt (by omega)]
    · rw [setBlock_other _ _ hb, update_of_ne hb]
      exact C.count b
  · change pn ∈ update s.gone _ _ b at hpn
    by_cases hb : b = g.getBlockIdx ppa
    · subst hb
      rw [update_self] at hpn
      rcases Finset.mem_insert.mp hpn with rfl | hpn
      · exact hlt
      · exact C.handed _ pn hpn
    · rw [update_of_ne hb] at hpn
      exact C.handed b pn hpn

theorem Counted.invalidatePPA (C : Counted g s) {ppa : Nat} {type : PageType}
    (h : Once g s (.invalidatePPA ppa type)) : Counted g (invalidatePPA g s ppa type).2 := by
  cases type with
  | data =>
    rw [InvalidCount.invalidatePPA]
    split
    · exact C
    · rename_i hppa
      exact C.unpopulate (h.resolve_left hppa)
  | header =>
    obtain ⟨hfresh, hvalid⟩ := h
    have hres : (InvalidCount.unpopulate g s ppa).1 = 1 := if_pos hvalid
    rw [InvalidCount.invalidatePPA, if_neg (by rw [hres]; decide)]
    exact C.unpopulate hfresh

theorem Counted.invalidatePage (C : Counted g s) {ppa : Nat} {type : PageType} {r : Nat × St}
    (h : Once g s (.invalidatePage ppa type)) (hr : invalidatePage g s ppa type = some r) :
    Counted g r.2 := by
  cases type with
  | data =>
    rw [InvalidCount.invalidatePage] at hr
    split at hr
    · cases hr
      have C' : Counted g { s with grain := update s.grain ppa false } :=
        C.recount rfl (fun _ => rfl) C.count C.handed
      exact C'.unpopulate h
    · cases hr
  | header =>
    cases hr
    exact C.unpopulate h

/-! ## Segments -/

theorem available_spec {t : Segment} (h : available g s t = true) :
    t.now = 0 ∧ ∀ i < g.bps, (s.bm.block (t.blocks i)).now = 0 ∧
      (∀ j < g.bps, t.blocks i = t.blocks j → i = j) ∧
      ∀ u ∈ s.segs, ∀ j < g.bps, t.blocks i ≠ u.blocks j := by
  simp only [available, Bool.and_eq_true, beq_iff_eq, List.all_eq_true, List.mem_range,
    Bool.or_eq_true, bne_iff_ne, ne_eq] at h
  obtain ⟨h0, hblocks⟩ := h
  refine ⟨h0, fun i hi => ?_⟩
  obtain ⟨⟨hnow, hinj⟩, hapart⟩ := hblocks i hi
  exact ⟨hnow, fun j hj he => (hinj j hj).resolve_right fun hne => hne he, hapart⟩

theorem Counted.getSegment (C : Counted g s) {t : Segment} (h : available g s t = true) :
    Counted g { s with segs := s.segs ++ [t] } := by
  obtain ⟨h0, hb⟩ := available_spec h
  refine ⟨C.count, C.handed, C.le, fun u hu => ?_, fun u hu => ?_, ?_⟩
  · rcases mem_append.mp hu with hu | hu
    · exact C.fill u hu
    · rw [mem_singleton.mp hu]
      exact ⟨0, Fill.fresh h0 fun i hi => (hb i hi).1⟩
  · rcases mem_append.mp hu with hu | hu
    · exact C.inj u hu
    · rw [mem_singleton.mp hu]
      exact fun i j hi hj he => (hb i hi).2.1 j hj he
  · rw [map_append, pairwise_append]
    refine ⟨C.apart, pairwise_singleton _ _, fun x hx y hy i j hi hj he => ?_⟩
    obtain ⟨u, hu, rfl⟩ := mem_map.mp hx
    obtain rfl : y = t.blocks := by simpa using hy
    exact (hb j hj).2.2 u hu i hi he.symm

theorem Counted.same (C : Counted g s) {k l : Nat} (hk : k < s.segs.length) (hl : l < s.segs.length)
    {i j : Nat} (hi : i < g.bps) (hj : j < g.bps)
    (he : (s.segs[k]).blocks i = (s.segs[l]).blocks j) : k = l := by
  have hpair := pairwise_iff_getElem.mp C.apart
  rcases Nat.lt_trichotomy k l with h | h | h
  · have := hpair k l (by simpa using hk) (by simpa using hl) h i j hi hj
    simp only [getElem_map] at this
    exact absurd he this
  · exact h
  · have := hpair l k (by simpa using hl) (by simpa using hk) h j i hj hi
    simp only [getElem_map] at this
    exact absurd he.symm this

theorem Counted.getPageNum (C : Counted g s) {k : Nat} {t : Segment} (ht : s.segs[k]? = some t)
    {r : Option Nat × Segment × BM} (hr : getPageNum g s.bm t = some r) :
    Counted g { s with bm := r.2.2, segs := s.segs.set k r.2.1 } := by
  obtain ⟨hk, hget⟩ := List.getElem?_eq_some_iff.mp ht
  have hmem : t ∈ s.segs := mem_of_getElem? ht
  obtain ⟨q, f⟩ := C.fill t hmem
  rcases lt_or_ge q g.ppb with hq | hq
  · rw [f.getPageNum.2 hq] at hr
    cases hr
    dsimp only
    have hcur : (s.bm.block (t.blocks t.now)).now = q := by
      rw [f.count t.now f.now_lt, if_neg (lt_irrefl _)]
    -- the page of a segment other than `t` is in another block
    have hother : ∀ u, ∀ l, l ≠ k → s.segs[l]? = some u → ∀ j < g.bps,
        u.blocks j ≠ t.blocks t.now := by
      intro u l hlk hu j hj he
      obtain ⟨hl, hgetu⟩ := List.getElem?_eq_some_iff.mp hu
      exact hlk (C.same hl hk hj f.now_lt (by rw [hget, hgetu]; exact he))
    refine ⟨fun b => ?_, fun b pn hpn => ?_, fun b => ?_, fun u hu => ?_, fun u hu => ?_, ?_⟩
    · exact (setBlock_field Block.invalidNumber s.bm (by rfl) b).trans (C.count b)
    · change pn < ((s.bm.setBlock _ _).block b).now
      have hold := C.handed b pn hpn
      by_cases hb : b = t.blocks t.now
      · subst hb
        rw [setBlock_same]
        dsimp only
        omega
      · rwa [setBlock_other _ _ hb]
    · change ((s.bm.setBlock _ _).block b).now ≤ _
      by_cases hb : b = t.blocks t.now
      · subst hb
        rw [setBlock_same]
        exact hq
      · rw [setBlock_other _ _ hb]
        exact C.le b
    · obtain ⟨l, hl, rfl⟩ := mem_iff_getElem.mp hu
      rw [length_set] at hl
      by_cases hlk : l = k
      · subst hlk
        rw [getElem_set_self]
        obtain ⟨q', f', -⟩ := f.advance hq (C.inj t hmem)
          (s.bm.setBlock (t.blocks t.now) { s.bm.block (t.blocks t.now) with now := q + 1 })
          (by rw [setBlock_same]) (fun b hb => by rw [setBlock_other _ _ hb]) (t.usedPageNum + 1)
        exact ⟨q', f'⟩
      · rw [getElem_set_ne (Ne.symm hlk)]
        obtain ⟨q', f'⟩ := C.fill _ (getElem_mem hl)
        refine ⟨q', f'.now_lt, f'.le, f'.whole, fun j hj => ?_⟩
        rw [setBlock_other _ _ (hother _ l hlk (getElem?_eq_getElem hl) j hj)]
        exact f'.count j hj
    · rcases mem_or_eq_of_mem_set hu with hu | rfl
      · exact C.inj u hu
      · exact C.inj t hmem
    · have hsame : (s.segs.set k { t with
            now := if t.now + 1 = g.bps then 0 else t.now + 1
            usedPageNum := t.usedPageNum + 1 }).map Segment.blocks = s.segs.map Segment.blocks := by
        rw [map_set]
        change (s.segs.map Segment.blocks).set k t.blocks = _
        rw [← hget, ← getElem_map Segment.blocks (h := by simpa using hk), set_getElem_self]
      rw [hsame]
      exact C.apart
  · rw [f.getPageNum.1 (le_antisymm f.le hq)] at hr
    cases hr
    dsimp only
    rw [← hget, set_getElem_self]
    exact C

theorem trimmed_iff {gs : Nat → Nat} {b : Nat} :
    (range g.bps).any (gs · == b) = true ↔ ∃ i < g.bps, gs i = b := by
  simp [List.any_eq_true]

theorem spared_iff {gs : Nat → Nat} {t : Segment} :
    spared g gs t = true ↔ ∀ i < g.bps, ∀ j < g.bps, gs i ≠ t.blocks j := by
  simp [spared, List.all_eq_true]

theorem Counted.trim (C : Counted g s) (gs : Nat → Nat) :
    Counted g { s with
      bm := trimBlocks g s.bm gs
      segs := s.segs.filter (spared g gs)
      gone := fun b => if (range g.bps).any (gs · == b) then ∅ else s.gone b } := by
  refine ⟨fun b => ?_, fun b pn hpn => ?_, fun b => ?_, fun t ht => ?_, fun t ht => ?_, ?_⟩
  · simp only [trimBlocks]
    split
    · rfl
    · exact C.count b
  · simp only [trimBlocks] at hpn ⊢
    split at hpn
    · cases hpn
    · rename_i hb
      rw [if_neg hb]
      exact C.handed b pn hpn
  · simp only [trimBlocks]
    split
    · exact Nat.zero_le _
    · exact C.le b
  · obtain ⟨ht, hsp⟩ := mem_filter.mp ht
    obtain ⟨q, f⟩ := C.fill t ht
    refine ⟨q, f.now_lt, f.le, f.whole, fun j hj => ?_⟩
    have hkeep : ¬ (range g.bps).any (gs · == t.blocks j) = true := by
      rw [trimmed_iff]
      rintro ⟨i, hi, he⟩
      exact spared_iff.mp hsp i hi j hj he
    simp only [trimBlocks, if_neg hkeep]
    exact f.count j hj
  · exact C.inj t (mem_filter.mp ht).1
  · exact C.apart.sublist (filter_sublist.map _)

theorem start_counted (g : Geom) : Counted g (start g) :=
  ⟨fun _ => rfl, fun _ _ h => (by cases h), fun _ => Nat.zero_le _, fun _ h => (by cases h),
    fun _ h => (by cases h), List.Pairwise.nil⟩

theorem Counted.step {mapPages : Nat} {s' : St} {l : Lbl} (C : Counted g s) (hl : Once g s l)
    (h : step g mapPages s l = some s') : Counted g s' := by
  cases l with
  | getSegment t =>
    rw [InvalidCount.step] at h
    split at h
    · rename_i hav
      cases h
      exact C.getSegment hav
    · cases h
  | getPageNum k =>
    obtain ⟨t, ht, h⟩ := bind_eq_some_iff.mp h
    obtain ⟨r, hr, rfl⟩ := map_eq_some_iff.mp h
    exact C.getPageNum ht hr
  | trim gs =>
    cases h
    exact C.trim gs
  | populateBit ppa =>
    cases h
    exact C.setBits _ _
  | eraseBit ppa =>
    obtain ⟨r, hr, rfl⟩ := map_eq_some_iff.mp h
    rw [InvalidCount.eraseBit] at hr
    split at hr
    · cases hr
    · cases hr
      exact C.setBits _ _
  | validateGrain pga =>
    cases h
    exact C.recount rfl (fun _ => rfl) C.count C.handed
  | invalidatePPA ppa type =>
    cases h
    exact C.invalidatePPA hl
  | invalidatePage ppa type =>
    obtain ⟨r, hr, rfl⟩ := map_eq_some_iff.mp h
    exact C.invalidatePage hl hr
  | invalidate ppa =>
    cases h
    exact C.unpopulate hl

theorem counted_inductive (g : Geom) (mapPages : Nat) :
    ((calls g mapPages).restrict (Once g)).Inductive (Counted g) where
  init _ h := h ▸ start_counted g
  step _ _ _ C h := C.step h.2 h.1

/-! ## The bound -/

theorem Counted.invalid_le (C : Counted g s) (b : Nat) :
    (s.bm.block b).invalidNumber ≤ (s.bm.block b).now := by
  rw [C.count]
  exact C.card_le b

theorem Counted.invalidSum_le (C : Counted g s) (seg : Nat) : invalidSum g s.bm seg ≤ g.pps := by
  have hle : ∀ x ∈ (range g.bps).map fun j => (s.bm.block (seg * g.bps + j)).invalidNumber,
      x ≤ g.ppb := by
    intro x hx
    obtain ⟨j, -, rfl⟩ := mem_map.mp hx
    exact (C.invalid_le _).trans (C.le _)
  have hsum := sum_le_card_nsmul _ _ hle
  rwa [length_map, length_range, smul_eq_mul] at hsum

theorem foldlM_pickMax (C : Counted g s) (l : List Nat) (best : Nat × Nat) :
    ∃ best', l.foldlM (pickMax g s.bm) best = .ok best' := by
  induction l generalizing best with
  | nil => exact ⟨best, rfl⟩
  | cons seg l ih =>
    have hstep : ∃ b, pickMax g s.bm best seg = .ok b := by
      rw [pickMax, if_neg (not_lt.mpr (C.invalidSum_le seg))]
      split
      · exact ⟨_, rfl⟩
      · exact ⟨_, rfl⟩
    obtain ⟨b, hb⟩ := hstep
    obtain ⟨best', h'⟩ := ih b
    exact ⟨best', by rw [foldlM_cons, hb]; exact h'⟩

end

/-- If each page is invalidated once after it was handed out, a block has no more
invalid pages than it handed out, and choosing a victim in the map partition does
not end in the abort for too many of them. -/
theorem invalid_le_handed (g : Geom) (mapPages : Nat) {tr : List Lbl} {s : St}
    (h : ((calls g mapPages).restrict (Once g)).Exec tr s) :
    (∀ b, (s.bm.block b).invalidNumber ≤ (s.bm.block b).now) ∧
      (∀ seg, invalidSum g s.bm seg ≤ g.pps) ∧
      ∀ segs, ptGetGcTarget g s.bm segs ≠ .error .tooMany := by
  have C : Counted g s := h.inv (counted_inductive g mapPages)
  refine ⟨C.invalid_le, C.invalidSum_le, fun segs he => ?_⟩
  obtain ⟨best, hbest⟩ := foldlM_pickMax C (range segs) (0, 0)
  rw [ptGetGcTarget, hbest] at he
  change (if best.2 = 0 then _ else _) = _ at he
  split at he <;> cases he

/-- One block of two pages. -/
def oneBlock : Geom := ⟨1, 2, 1, one_pos, Nat.two_pos, fourBlocks.ppb_lt⟩

/-- Four pages of two blocks are handed out, three of them invalidated in three ways. -/
theorem invalid_le_handed_three : ∃ tr s,
    ((calls fourBlocks 8).restrict (Once fourBlocks)).Exec tr s ∧
      (s.bm.block 0).invalidNumber = 2 ∧ (s.bm.block 1).invalidNumber = 1 ∧
      (∀ b, (s.bm.block b).invalidNumber ≤ (s.bm.block b).now) ∧
      (∀ seg, invalidSum fourBlocks s.bm seg ≤ fourBlocks.pps) ∧
      ∀ segs, ptGetGcTarget fourBlocks s.bm segs ≠ .error .tooMany := by
  obtain ⟨s, hx, hp⟩ := LTS.Exec.check (T := (calls fourBlocks 8).restrict (Once fourBlocks))
    (some (start fourBlocks)) (Once fourBlocks)
    ([.getSegment ⟨id, 0, 0, 0⟩] ++ replicate 4 (.getPageNum 0) ++ (range 4).map .populateBit ++
      [.invalidatePPA 0 .header, .invalidate 1, .invalidatePage 2 .header])
    (fun s => (s.bm.block 0).invalidNumber = 2 ∧ (s.bm.block 1).invalidNumber = 1)
    (fun s l s' hl hs => ⟨hs, hl⟩) (fun _ h => some.inj h.symm) (by decide +kernel)
  exact ⟨_, s, hx, hp.1, hp.2, invalid_le_handed fourBlocks 8 hx⟩

/-- Two pieces of one page are invalidated: the block has handed out one page
and counts two invalid ones. -/
theorem pieces_counted : ∃ tr s, (calls oneBlock 2).Exec tr s ∧
    (s.bm.block 0).now = 1 ∧ (s.bm.block 0).invalidNumber = 2 := by
  exact ⟨_, LTS.Exec.check (some (start oneBlock)) (fun _ _ => True)
    [.getSegment ⟨fun _ => 0, 0, 0, 0⟩, .getPageNum 0, .populateBit 0, .invalidatePPA 0 .data,
      .invalidatePPA 1 .data] _ (fun s l s' _ hs => hs) (fun _ h => some.inj h.symm) (by decide +kernel)⟩

end FlashDriver.BlockManager.InvalidCount
