import Mathlib

/-!
# The bad-segment table (`blockmanager/bb_checker.c`, `lower/bdbm_drv/bdbm_inf.c`)

The driver uses the flash in a mode that stores half as many pages in a
physical segment, so a logical segment lives in two physical ones: its own
(or, if that is bad, a replacement, `fixed_segnum`) and a partner
(`pair_segnum`). `bb_checker_fixing` chooses replacements and partners with a
scan from both ends; `bb_checker_fix_ppa` sends a page to one of the two
segments.

Segments are numbered by their first page (`origin_segnum`), as in the
source; masks and shifts of an address are written `%` and `/`. `none` is a
read below `ent[0]`.

* `fixPpa_eq`: where a page goes, as one of the two segments plus an offset.
* `TableOk.of_distinct`: if the segments used are good and distinct, the page
  map is injective and trimming a block erases its own pages only.
-/
namespace FlashDriver.BadBlock

open List Function

/-- mirrors include/settings.h:56-58 (`_PPS`) -/
def pps : Nat := 16384

/-- mirrors blockmanager/bb_checker.h:9-15 -/
structure BbNode where
  flag : Bool
  originSegnum : Nat
  deprivedFromSegnum : Nat
  fixedSegnum : Nat
  pairSegnum : Nat

/-- `checker.ent` -/
abbrev Ent := Nat → BbNode

/-- mirrors blockmanager/bb_checker.c:91-120, `bad` being what the device
reports -/
def bbCheckerStart (bad : Nat → Bool) : Ent := fun i => ⟨bad i, i * pps, 2 ^ 32 - 1, 0, 0⟩

/-! ## The scan -/

/-- `while(checker.ent[max-test_cnt].flag) test_cnt++` -/
def testCnt (ent : Ent) : Nat → Option Nat
  | 0 => if (ent 0).flag then none else some 0
  | m + 1 => if (ent (m + 1)).flag then (testCnt ent m).map (· + 1) else some 0

def skipBad (ent : Ent) (max : Int) : Option Nat := if max < 0 then none else testCnt ent max.toNat

def setFixed (ent : Ent) (start m : Nat) : Ent :=
  let ent := update ent start { ent start with fixedSegnum := (ent m).originSegnum }
  update ent m { ent m with deprivedFromSegnum := (ent start).originSegnum }

def setPair (ent : Ent) (start m : Nat) : Ent :=
  let ent := update ent start { ent start with pairSegnum := (ent m).originSegnum }
  update ent m { ent m with pairSegnum := (ent start).originSegnum }

/-- How a part of the loop body ends: with `break`, or with a new
`max_segnum`. -/
inductive Flow where
  | brk (ent : Ent)
  | go (ent : Ent) (max : Int)

/-- mirrors blockmanager/bb_checker.c:186-196 -/
def replaceBad (ent : Ent) (start : Nat) (max : Int) : Option Flow :=
  if (ent start).flag then
    (skipBad ent max).map fun (cnt : Nat) =>
      if max - cnt ≤ start then .brk ent
      else .go (setFixed ent start (max - cnt).toNat) (max - cnt - 1)
  else some (.go ent max)

/-- mirrors blockmanager/bb_checker.c:198-208: the bound is tested before
`test_cnt` is subtracted -/
def findPair (ent : Ent) (start : Nat) (max : Int) : Option Flow :=
  (skipBad ent max).map fun (cnt : Nat) =>
    if max ≤ start then .brk ent
    else .go (setPair ent start (max - cnt).toNat) (max - cnt - 1)

/-- The loop of `bb_checker_fixing`; it returns the table and `start_segnum`. -/
def fixLoop : Nat → Ent → Nat → Int → Option (Ent × Nat)
  | 0, _, _, _ => none
  | fuel + 1, ent, start, max =>
    if max < start then some (ent, start)
    else (replaceBad ent start max).bind fun
      | .brk ent => some (ent, start)
      | .go ent max => (findPair ent start max).bind fun
        | .brk ent => some (ent, start)
        | .go ent max => fixLoop fuel ent (start + 1) max

/-- mirrors blockmanager/bb_checker.c:174-210 -/
def bbCheckerFixing (rnos : Nat) (ent : Ent) : Option (Ent × Nat) :=
  fixLoop (rnos + 1) ent 0 (rnos - 1)

/-! ## Addresses -/

/-- The page inside the segment, and `shouldchg`. -/
def remap (page : Nat) : Nat × Bool :=
  if 4 ≤ page then
    if 254 ≤ page ∨ page < 6 then (page - 4, true)
    else if page % 4 < 2 then (if 6 < page then page - 6 else page, true)
    else (page, false)
  else (page, false)

/-- mirrors blockmanager/bb_checker.h:33-65 -/
def bbCheckerFixPpa (isfixing : Bool) (fixedBlock pairBlock ppa : Nat) : Nat :=
  let block := ppa / 16384
  let bus := ppa % 8
  let chip := ppa / 8 % 8
  let page := remap (ppa / 64 % 256)
  let res := bus + chip * 8 + page.1 * 64 + block * 16384
  let originRemain := res % pps
  if !page.2 && isfixing then fixedBlock + originRemain
  else if page.2 then pairBlock + originRemain
  else res

/-- The address `memio_info_push_data` and `memio_info_pull_data` use. -/
def fixPpa (ent : Ent) (ppa : Nat) : Nat :=
  let t := ent (ppa / 16384)
  bbCheckerFixPpa t.flag t.fixedSegnum t.pairSegnum ppa

/-- mirrors lower/bdbm_drv/bdbm_inf.c:143-155: the addresses handed to
`memio_trim_a_block` -/
def memioInfoTrimABlock (ent : Ent) (ppa : Nat) : List Nat :=
  let pp := ppa % 64
  let t := ent (ppa / 16384)
  [if t.flag then t.fixedSegnum + pp else ppa, t.pairSegnum + pp]

/-- The addresses of one flash block agree on bus, chip and segment; an erase
takes them all. -/
def SameBlock (a b : Nat) : Prop := a % 64 = b % 64 ∧ a / 16384 = b / 16384

/-- What trimming the block of `ppa` erases. -/
def Erased (ent : Ent) (ppa a : Nat) : Prop := ∃ lba ∈ memioInfoTrimABlock ent ppa, SameBlock lba a

/-! ## What the table is for -/

/-- The segment that holds the unmoved pages of segment `i`. -/
def BbNode.own (t : BbNode) : Nat := if t.flag then t.fixedSegnum else t.originSegnum

/-- The physical segments that segment `i` uses. -/
def segs (ent : Ent) (i : Nat) : List Nat := [(ent i).own, (ent i).pairSegnum]

def used (ent : Ent) (n : Nat) : List Nat := (range n).flatMap (segs ent)

/-- The first `n` logical segments of `rnos` can be used. -/
structure TableOk (bad : Nat → Bool) (rnos : Nat) (ent : Ent) (n : Nat) : Prop where
  good : ∀ i < n, ∀ a ∈ segs ent i, ∃ j < rnos, a = j * pps ∧ bad j = false
  distinct : (used ent n).Nodup
  injective : ∀ p q, p / 16384 < n → q / 16384 < n → fixPpa ent p = fixPpa ent q → p = q
  trims : ∀ p q, p / 16384 < n → q / 16384 < n → (Erased ent p (fixPpa ent q) ↔ SameBlock p q)

theorem remap_lt {page : Nat} (h : page < 256) : (remap page).1 < 256 := by
  unfold remap
  split
  · split
    · omega
    · split
      · split <;> omega
      · exact h
  · exact h

/-- The page that `remap` sent to `page`. -/
def unmap : Nat × Bool → Nat
  | (page, false) => page
  | (page, true) => if page < 2 ∨ 250 ≤ page then page + 4 else page + 6

theorem unmap_remap {page : Nat} (h : page < 256) : unmap (remap page) = page := by
  unfold remap
  split
  · split
    · simp only [unmap]; split <;> omega
    · split
      · rw [if_pos (by omega)]
        simp only [unmap]; split <;> omega
      · rfl
  · rfl

theorem remap_inj {p q : Nat} (hp : p < 256) (hq : q < 256) (h : remap p = remap q) : p = q := by
  rw [← unmap_remap hp, ← unmap_remap hq, h]

/-- Which of its two segments a page goes to. -/
def side (ent : Ent) (ppa : Nat) : Nat :=
  if (remap (ppa / 64 % 256)).2 then (ent (ppa / 16384)).pairSegnum else (ent (ppa / 16384)).own

/-- Where in the segment it goes. -/
def place (ppa : Nat) : Nat := ppa % 64 + (remap (ppa / 64 % 256)).1 * 64

theorem place_lt (ppa : Nat) : place ppa < pps := by
  have := remap_lt (Nat.mod_lt (ppa / 64) (by decide : 0 < 256))
  unfold place pps; omega

theorem fixPpa_eq {ent : Ent} (ho : ∀ i, (ent i).originSegnum = i * pps) (ppa : Nat) :
    fixPpa ent ppa = side ent ppa + place ppa := by
  have hlt := place_lt ppa
  have hsum : ppa % 8 + ppa / 8 % 8 * 8 = ppa % 64 := by omega
  have hres : (ppa % 8 + ppa / 8 % 8 * 8 + (remap (ppa / 64 % 256)).1 * 64 + ppa / 16384 * 16384) =
      place ppa + ppa / 16384 * pps := by unfold place pps; omega
  have hrem : (place ppa + ppa / 16384 * pps) % pps = place ppa := by
    rw [Nat.add_mul_mod_self_right, Nat.mod_eq_of_lt hlt]
  simp only [fixPpa, bbCheckerFixPpa, hres, hrem, side, BbNode.own]
  cases (remap (ppa / 64 % 256)).2 <;> cases (ent (ppa / 16384)).flag <;> simp [ho, add_comm]

section
variable {bad : Nat → Bool} {rnos : Nat} {ent : Ent} {n : Nat}

theorem side_mem (ent : Ent) (ppa : Nat) : side ent ppa ∈ segs ent (ppa / 16384) := by
  unfold side segs
  split <;> simp

theorem segs_inj (hd : (used ent n).Nodup) {i j a : Nat} (hi : i < n) (hj : j < n)
    (ha : a ∈ segs ent i) (hb : a ∈ segs ent j) : i = j := by
  have hp := pairwise_iff_getElem.mp (nodup_flatMap.mp hd).2
  have hdis : ∀ i j, i < j → j < n → List.Disjoint (segs ent i) (segs ent j) := by
    intro i j hij hj
    have h := hp i j (by simp; omega) (by simpa using hj) hij
    rw [getElem_range, getElem_range] at h
    exact h
  rcases Nat.lt_trichotomy i j with h | h | h
  · exact (hdis i j h hj ha hb).elim
  · exact h
  · exact (hdis j i h hi hb ha).elim

theorem own_ne_pair (hd : (used ent n).Nodup) {i : Nat} (hi : i < n) :
    (ent i).own ≠ (ent i).pairSegnum := by
  have := (nodup_flatMap.mp hd).1 i (mem_range.mpr hi)
  simpa [segs] using this

theorem side_inj (hd : (used ent n).Nodup) {p q : Nat} (hp : p / 16384 < n) (hq : q / 16384 < n)
    (h : side ent p = side ent q) :
    p / 16384 = q / 16384 ∧ (remap (p / 64 % 256)).2 = (remap (q / 64 % 256)).2 := by
  have hseg := segs_inj hd hp hq (side_mem ent p) (h ▸ side_mem ent q)
  have hne := own_ne_pair hd hp
  refine ⟨hseg, ?_⟩
  simp only [side, ← hseg] at h
  cases hp2 : (remap (p / 64 % 256)).2 <;> cases hq2 : (remap (q / 64 % 256)).2 <;> simp_all

theorem TableOk.of_distinct (ho : ∀ i, (ent i).originSegnum = i * pps)
    (hg : ∀ i < n, ∀ a ∈ segs ent i, ∃ j < rnos, a = j * pps ∧ bad j = false)
    (hd : (used ent n).Nodup) : TableOk bad rnos ent n := by
  have hside : ∀ p, p / 16384 < n → ∃ j, side ent p = j * pps := by
    intro p hp
    obtain ⟨j, -, hj, -⟩ := hg _ hp _ (side_mem ent p)
    exact ⟨j, hj⟩
  refine ⟨hg, hd, fun p q hp hq h => ?_, fun p q hp hq => ?_⟩
  · obtain ⟨i, hi⟩ := hside p hp
    obtain ⟨j, hj⟩ := hside q hq
    have hpl := place_lt p
    have hql := place_lt q
    rw [fixPpa_eq ho, fixPpa_eq ho, hi, hj] at h
    have hij : i = j := by unfold pps at *; omega
    subst hij
    obtain ⟨hseg, hchg⟩ := side_inj hd hp hq (hi.trans hj.symm)
    have hplace : place p = place q := by omega
    unfold place at hplace
    have hpage := remap_inj (p := p / 64 % 256) (q := q / 64 % 256) (by omega) (by omega)
      (Prod.ext (by omega) hchg)
    omega
  · obtain ⟨j, hj⟩ := hside q hq
    have hql := place_lt q
    have hmod : fixPpa ent q % 64 = q % 64 := by
      rw [fixPpa_eq ho, hj]; unfold place pps; omega
    have hdiv : fixPpa ent q / 16384 = j := by
      rw [fixPpa_eq ho, hj]; unfold pps at *; omega
    -- the two blocks that are erased lie in the two segments of `p`
    have hlba : ∀ lba ∈ memioInfoTrimABlock ent p,
        ∃ i, i * pps ∈ segs ent (p / 16384) ∧ lba / 16384 = i ∧ lba % 64 = p % 64 := by
      intro lba hl
      have hown := hg _ hp (ent (p / 16384)).own (by simp [segs])
      have hpair := hg _ hp (ent (p / 16384)).pairSegnum (by simp [segs])
      obtain ⟨i, -, hi, -⟩ := hown
      obtain ⟨i', -, hi', -⟩ := hpair
      simp only [memioInfoTrimABlock, mem_cons, not_mem_nil, or_false] at hl
      rcases hl with hl | hl
      · refine ⟨i, by simp [segs, ← hi], ?_⟩
        unfold BbNode.own at hi
        split at hl
        · rename_i hf
          rw [if_pos hf] at hi; rw [hl, hi]; unfold pps; omega
        · rename_i hf
          rw [if_neg hf, ho] at hi; rw [hl]; unfold pps at hi; omega
      · exact ⟨i', by simp [segs, ← hi'], by rw [hl, hi']; unfold pps; omega⟩
    unfold Erased SameBlock
    rw [hmod, hdiv]
    constructor
    · intro ⟨lba, hl, hm, hs⟩
      obtain ⟨i, hmem, hi, hmp⟩ := hlba lba hl
      have hij : i = j := hi.symm.trans hs
      subst hij
      exact ⟨by omega, segs_inj hd hp hq hmem (hj ▸ side_mem ent q)⟩
    · intro ⟨hm, hs⟩
      have hq2 := side_mem ent q
      rw [hj, ← hs] at hq2
      simp only [segs, mem_cons, not_mem_nil, or_false] at hq2
      rcases hq2 with h | h
      · refine ⟨if (ent (p / 16384)).flag then (ent (p / 16384)).fixedSegnum + p % 64 else p,
          by simp [memioInfoTrimABlock], ?_⟩
        unfold BbNode.own at h
        split at h
        · rename_i hf
          rw [if_pos hf, ← h]; unfold pps; omega
        · rename_i hf
          rw [if_neg hf]; rw [ho] at h; unfold pps at h; omega
      · refine ⟨(ent (p / 16384)).pairSegnum + p % 64, by simp [memioInfoTrimABlock], ?_⟩
        rw [← h]; unfold pps; omega

end

end FlashDriver.BadBlock
