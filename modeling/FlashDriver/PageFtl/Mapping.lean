import FlashDriver.BlockManager.Ownership
import FlashDriver.PageFtl.Model

/-!
# Where the page-mapping layer keeps the last value of a page

`Mapped` ties the four tables together: a mapped logical page points to a
physical page that is valid, carries the logical page in its OOB word and
holds the value last written.

Writing keeps it (`assign_inv`), garbage collection only if no victim has a
live page: `page_map_gc_update` moves a live page and never stores the new
place in `mapping`, so the entry keeps pointing into the erased block. A
victim without live pages is certain when in every channel some heap block
has none, because victims have the most invalid pages (`Owned.target_clean`).

* `reads_last_write`: along every run that collects garbage only from such
  states, every mapped page holds its last value, and reads are sent there.
* `live_pages`: there, no page is used twice or waits to be handed out.
* `stale_after_gc`: a run of five writes on a device of two segments after
  which a logical page points to an erased page.
-/
namespace FlashDriver.PageFtl

open List Option Function
open BlockManager

variable {g : Geom}

/-- `ppa` is valid, belongs to `lba` and holds `v`. -/
def HoldsAt (g : Geom) (bm : BM) (dev : Nat → Option Page) (lba ppa : Nat) (v : Page) : Prop :=
  isValidPage g bm ppa = true ∧ getOob g bm ppa = lba ∧ dev ppa = some v

structure Mapped (g : Geom) (bm : BM) (mapping : Nat → Option Nat) (dev : Nat → Option Page)
    (last : Nat → Option Page) : Prop where
  place : ∀ lba ppa, mapping lba = some ppa → ∃ b p v, p < g.ppb ∧ ppa = g.ppaMaker b p ∧
    (bm.block b).bitset p = true ∧ (bm.block b).oobList p = lba ∧ dev ppa = some v ∧
    last lba = some v
  total : ∀ lba, mapping lba = none → last lba = none

theorem Mapped.holdsAt {bm : BM} {mapping : Nat → Option Nat} {dev last : Nat → Option Page}
    (m : Mapped g bm mapping dev last) {lba : Nat} {v : Page} (hl : last lba = some v) :
    ∃ ppa, mapping lba = some ppa ∧ HoldsAt g bm dev lba ppa v := by
  cases hm : mapping lba with
  | none => rw [m.total lba hm] at hl; cases hl
  | some ppa =>
    obtain ⟨b, p, v', hp, rfl, hv, ho, hd, hl'⟩ := m.place lba ppa hm
    rw [hl] at hl'; cases hl'
    refine ⟨_, rfl, ?_, ?_, hd⟩
    · rw [isValidPage, getBlockIdx_ppaMaker g b hp, getPageIdx_ppaMaker g b hp, hv]
    · rw [getOob, getBlockIdx_ppaMaker g b hp, getPageIdx_ppaMaker g b hp, ho]

theorem Mapped.frame {bm bm' : BM} {mapping : Nat → Option Nat} {dev dev' last : Nat → Option Page}
    (m : Mapped g bm mapping dev last)
    (h : ∀ b p, p < g.ppb → (bm.block b).bitset p = true →
      (bm'.block b).bitset p = true ∧ (bm'.block b).oobList p = (bm.block b).oobList p ∧
      dev' (g.ppaMaker b p) = dev (g.ppaMaker b p)) : Mapped g bm' mapping dev' last := by
  refine ⟨fun lba ppa hm => ?_, m.total⟩
  obtain ⟨b, p, v, hp, rfl, hv, ho, hd, hl⟩ := m.place lba ppa hm
  obtain ⟨h1, h2, h3⟩ := h b p hp hv
  exact ⟨b, p, v, hp, rfl, h1, by rw [h2, ho], by rw [h3, hd], hl⟩

theorem Mapped.sameUse {bm bm' : BM} {mapping : Nat → Option Nat} {dev last : Nat → Option Page}
    (m : Mapped g bm mapping dev last) (h : SameUse bm bm') : Mapped g bm' mapping dev last :=
  m.frame fun b p _ hv => ⟨by rw [(h b).2.1]; exact hv, by rw [(h b).2.2.2], rfl⟩

theorem Mapped.drop {bm bm' : BM} {mapping : Nat → Option Nat} {dev last : Nat → Option Page}
    (m : Mapped g bm mapping dev last) {lba b p : Nat} (hlba : (bm.block b).oobList p = lba)
    (hd : Owned.Dropped bm bm' b p) :
    Mapped g bm' (update mapping lba none) dev (update last lba none) := by
  refine ⟨fun l ppa hm => ?_, fun l hm => ?_⟩
  · by_cases hl : l = lba
    · subst hl; rw [update_self] at hm; cases hm
    · rw [update_of_ne hl] at hm
      obtain ⟨b', p', v, hp', rfl, hv, ho, hdv, hlast⟩ := m.place l ppa hm
      refine ⟨b', p', v, hp', rfl, ?_, ?_, hdv, by rw [update_of_ne hl]; exact hlast⟩
      · by_cases hb : b' = b
        · subst hb
          rw [hd.bits, update_of_ne, hv]
          rintro rfl; exact hl (by rw [← ho, hlba])
        · rw [hd.other b' hb, hv]
      · by_cases hb : b' = b
        · subst hb; rw [hd.oob, ho]
        · rw [hd.other b' hb, ho]
  · by_cases hl : l = lba
    · rw [hl, update_self]
    · rw [update_of_ne hl] at hm ⊢; exact m.total l hm

theorem Mapped.write {bm bm' : BM} {mapping : Nat → Option Nat} {dev last : Nat → Option Page}
    {lba b p : Nat} (m : Mapped g bm (update mapping lba none) dev
      (update last lba none)) (hp : p < g.ppb) (hfree : (bm.block b).bitset p = false)
    (w : Owned.Wrote bm bm' b p lba) (v : Page) :
    Mapped g bm' (update mapping lba (some (g.ppaMaker b p)))
      (update dev (g.ppaMaker b p) (some v)) (update last lba (some v)) := by
  refine ⟨fun l ppa hm => ?_, fun l hm => ?_⟩
  · by_cases hl : l = lba
    · subst hl
      rw [update_self, some.injEq] at hm; subst hm
      refine ⟨b, p, v, hp, rfl, ?_, ?_, update_self .., update_self ..⟩
      · rw [w.bits, update_self]
      · rw [w.oob, update_self]
    · rw [update_of_ne hl] at hm
      obtain ⟨b', p', v', hp', rfl, hv, ho, hd, hlast⟩ := m.place l ppa
        (by rw [update_of_ne hl]; exact hm)
      rw [update_of_ne hl] at hlast
      have hne : ¬ (b' = b ∧ p' = p) := by
        rintro ⟨rfl, rfl⟩; rw [hfree] at hv; cases hv
      refine ⟨b', p', v', hp', rfl, ?_, ?_, ?_, by rw [update_of_ne hl]; exact hlast⟩
      · by_cases hb : b' = b
        · subst hb; rw [w.bits, update_of_ne fun he => hne ⟨rfl, he⟩, hv]
        · rw [w.other b' hb, hv]
      · by_cases hb : b' = b
        · subst hb; rw [w.oob, update_of_ne fun he => hne ⟨rfl, he⟩, ho]
        · rw [w.other b' hb, ho]
      · rw [update_of_ne, hd]
        intro he
        refine hne ⟨?_, ?_⟩
        · rw [← getBlockIdx_ppaMaker g b' hp', he, getBlockIdx_ppaMaker g b hp]
        · rw [← getPageIdx_ppaMaker g b' hp', he, getPageIdx_ppaMaker g b hp]
  · by_cases hl : l = lba
    · subst hl; rw [update_self] at hm; cases hm
    · rw [update_of_ne hl] at hm ⊢
      have := m.total l (by rw [update_of_ne hl]; exact hm)
      rwa [update_of_ne hl] at this

/-! ## The operations -/

structure Inv (g : Geom) (s : Ftl) (last : Nat → Option Page) : Prop where
  owned : Owned g s.bm s.active s.reserve
  mapped : Mapped g s.bm s.mapping s.dev last

theorem create_inv {s : Ftl} (h : pageMapCreate g = some s) : Inv g s fun _ => none := by
  unfold pageMapCreate at h
  split at h
  · cases h
  · rename_i reserve bm1 h1
    split at h
    · cases h
    · rename_i active bm2 h2
      cases h
      exact ⟨owned_init g h1 h2, ⟨fun _ _ hm => (by cases hm), fun _ _ => rfl⟩⟩

/-- In every channel some block of the heap has no valid page. -/
def DeadBlocks (g : Geom) (bm : BM) : Prop :=
  ∀ i, i < g.bps → ∃ b ∈ (bm.maxHeap i).elems, ∀ p, p < g.ppb → (bm.block b).bitset p = false

theorem mem_pagesInSeg {gs : Nat → Nat} {ppa : Nat} (h : ppa ∈ pagesInSeg g gs) :
    ∃ i p, i < g.bps ∧ p < g.ppb ∧ ppa = g.ppaMaker (gs i) p := by
  simp only [pagesInSeg, List.mem_flatMap, List.mem_map, List.mem_range] at h
  obtain ⟨p, hp, i, hi, rfl⟩ := h
  exact ⟨i, p, hi, hp, rfl⟩

theorem livePages_clean {bm : BM} {gs : Nat → Nat}
    (h : ∀ i, i < g.bps → ∀ p, p < g.ppb → (bm.block (gs i)).bitset p = false) :
    livePages g bm gs = [] := by
  simp only [livePages, filter_eq_nil_iff]
  intro ppa hmem
  obtain ⟨i, p, hi, hp, rfl⟩ := mem_pagesInSeg hmem
  simp [isInvalidPage, isValidPage, getBlockIdx_ppaMaker g _ hp, getPageIdx_ppaMaker g _ hp, h i hi p hp]

theorem doGc_inv {s s' : Ftl} {last : Nat → Option Page} (I : Inv g s last)
    (hfull : checkFull g s.bm s.active = true) (hdead : DeadBlocks g s.bm)
    {order : List Nat → List Nat} (hord : ∀ l, (order l).Perm l) (h : doGc g order s = some s') :
    Inv g s' last := by
  unfold doGc at h
  split at h
  · cases h
  · rename_i gs bm1 h1
    have t := getGcTargetLoop_spec I.owned.heap_wf h1
    have hclean := fun i (hi : i < g.bps) => I.owned.target_clean hfull t hdead hi
    have hlive : livePages g bm1 gs = [] := livePages_clean (by rw [t.block]; exact hclean)
    have hnil : order [] = [] := perm_nil.mp (hord [])
    simp only [hlive, hnil, map_nil, gcMoves] at h
    split at h
    · cases h
    · rename_i bm2 h2
      split at h
      · cases h
      · rename_i res bm3 h3
        cases h
        obtain ⟨ow, hsame⟩ := I.owned.collect hfull t h2 h3
        refine ⟨ow, I.mapped.frame fun b p hp hv => ?_⟩
        have hb : ∀ i, i < g.bps → gs i ≠ b := by
          rintro i hi rfl; rw [hclean i hi p hp] at hv; cases hv
        refine ⟨by rw [(hsame b hb).1]; exact hv, by rw [(hsame b hb).2], ?_⟩
        simp only [devTrim, getBlockIdx_ppaMaker g b hp]
        rw [if_neg]
        simp only [List.any_eq_true, List.mem_range, beq_iff_eq, not_exists, not_and]
        exact fun i hi he => hb i hi he.symm

theorem assignRetry_spec {n : Nat} {s s' : Ftl} {res : Nat}
    (o : Owned g s.bm s.active s.reserve) (h : assignRetry g n s = some (res, s')) :
    ∃ bm active, Owned g bm active s.reserve ∧ SameUse s.bm bm ∧
      getPageNum g bm active = some (some res, s'.active, s'.bm) ∧
      s'.mapping = s.mapping ∧ s'.dev = s.dev ∧ s'.reserve = s.reserve := by
  induction n generalizing s with
  | zero => cases h
  | succ n ih =>
    simp only [assignRetry] at h
    split at h
    · cases h
    · rename_i r seg bm h1
      cases h
      exact ⟨s.bm, s.active, o, SameUse.refl _, h1, rfl, rfl, rfl⟩
    · rename_i seg bm h1
      obtain ⟨q, f⟩ := o.fill
      have hq : q = g.ppb := by
        by_contra hne
        rw [f.getPageNum.2 (by have := f.le; omega)] at h1; cases h1
      rw [f.getPageNum.1 hq] at h1
      simp only [some.injEq, Prod.mk.injEq, true_and] at h1
      obtain ⟨rfl, rfl⟩ := h1
      split at h
      · cases h
      · rename_i seg' bm' h2
        have o' := o.newActive (f.checkFull.mpr hq) h2
        obtain ⟨bm2, act, o2, hu, hg, hm, hdv, hr⟩ := ih o' h
        exact ⟨bm2, act, o2, (getSegment_spec h2).1.use.trans hu, hg, hm, hdv, hr⟩

theorem assign_inv {n : Nat} {s s' : Ftl} {last : Nat → Option Page} (I : Inv g s last)
    {lba res : Nat} (v : Page)
    (h : assignRetry g n (match s.mapping lba with
      | some ppa => invalidatePpa g s ppa
      | none => s) = some (res, s')) :
    Inv g { validatePpa g s' res lba with
        mapping := update s'.mapping lba (some res),
        dev := update s'.dev res (some v) } (update last lba (some v)) := by
  -- the state after the old page was dropped
  have hdrop : ∃ s1, assignRetry g n s1 = some (res, s') ∧ Owned g s1.bm s1.active s1.reserve ∧
      Mapped g s1.bm (update s.mapping lba none) s1.dev (update last lba none) ∧
      s1.mapping = s.mapping := by
    cases hm : s.mapping lba with
    | none =>
      rw [hm] at h
      refine ⟨s, h, I.owned, ?_, rfl⟩
      rw [← hm, update_eq_self, ← I.mapped.total lba hm, update_eq_self]
      exact I.mapped
    | some ppa =>
      rw [hm] at h
      obtain ⟨b, p, w, hp, rfl, hv, ho, -, -⟩ := I.mapped.place lba ppa hm
      obtain ⟨hd, ow⟩ := I.owned.invalidate hp hv
      exact ⟨_, h, ow, I.mapped.drop ho hd, rfl⟩
  obtain ⟨s1, h1, o1, m1, hmap⟩ := hdrop
  obtain ⟨bm, act, o2, huse, hget, em, ed, er⟩ := assignRetry_spec o1 h1
  obtain ⟨b, p, hp, rfl, hnow, hw, o3⟩ := o2.alloc hget lba
  have hfree : (bm.block b).bitset p = false := by
    by_contra hc
    have := (o2.sound b).valid_lt p (by simpa using hc)
    omega
  refine ⟨?_, ?_⟩
  · show Owned g _ s'.active s'.reserve
    rw [er]; exact o3
  · show Mapped g _ (update s'.mapping lba _) (update s'.dev _ _) _
    rw [em, hmap, ed]
    exact (m1.sameUse huse).write hp hfree hw v

theorem pageWrite_inv {s s' : Ftl} {last : Nat → Option Page} (I : Inv g s last) {lba : Nat}
    {v : Page} (hgc : needsGc g s = true → DeadBlocks g s.bm) {order : List Nat → List Nat}
    (hord : ∀ l, (order l).Perm l) (h : pageWrite g order s lba v = some s') :
    Inv g s' (update last lba (some (stampKey lba v))) := by
  unfold pageWrite at h
  split at h
  · cases h
  · rename_i ppa s2 h2
    cases h
    unfold pageMapAssign at h2
    split at h2
    · cases h2
    · rename_i s1 h1
      have I1 : Inv g s1 last := by
        split at h1
        · rename_i hn
          have hfull : checkFull g s.bm s.active = true := by
            simp only [needsGc, Bool.and_eq_true] at hn; exact hn.1
          exact doGc_inv I hfull (hgc hn) hord h1
        · cases h1; exact I
      dsimp only at h2
      split at h2
      · cases h2
      · rename_i r s3 h3
        cases h2
        exact assign_inv I1 (stampKey lba v) h3

/-! ## Runs -/

theorem lastWrite_append (lba : Nat) (ops : List Op) (op : Op) :
    lastWrite lba (ops ++ [op]) = match op with
      | .write l v => if l = lba then some (stampKey l v) else lastWrite lba ops
      | .read _ => lastWrite lba ops := by
  cases op <;> simp [lastWrite, foldl_append]

/-- Garbage collection starts only from states with dead blocks. -/
def gcDead (g : Geom) (s : Ftl) : Op → Prop
  | .write _ _ => needsGc g s = true → DeadBlocks g s.bm
  | .read _ => True

theorem ftl_inductive (g : Geom) : ((ftlLTS g).restrict (gcDead g)).HistInductive fun ops s =>
    Inv g s fun lba => lastWrite lba ops where
  init := fun s hs => create_inv hs
  step := by
    intro ops s op s' I hs
    obtain ⟨hs, hc⟩ := hs
    cases op with
    | write lba v =>
      obtain ⟨-, order, hord, hw⟩ := hs
      have I' := pageWrite_inv I hc hord hw
      have hlast : (fun l => lastWrite l (ops ++ [.write lba v]))
          = update (fun l => lastWrite l ops) lba (some (stampKey lba v)) := by
        funext l
        rw [lastWrite_append, update_apply]
        by_cases hl : l = lba
        · simp [hl]
        · simp [hl, Ne.symm hl]
      rw [hlast]; exact I'
    | read lba =>
      obtain ⟨-, -, rfl⟩ := hs
      simpa only [lastWrite_append] using I

/-- In every state of a run that collects garbage only from states with dead
blocks, each logical page written so far is mapped to a valid page that
carries its number and its last value, and a read is sent there. -/
theorem reads_last_write (g : Geom) (ops : List Op) (s : Ftl)
    (h : ((ftlLTS g).restrict (gcDead g)).Exec ops s) (lba : Nat) (v : Page)
    (hl : lastWrite lba ops = some v) :
    ∃ ppa, s.mapping lba = some ppa ∧ pageRead s lba = some ppa ∧ HoldsAt g s.bm s.dev lba ppa v := by
  obtain ⟨ppa, hm, hh⟩ := (h.history_inv (ftl_inductive g)).mapped.holdsAt hl
  exact ⟨ppa, hm, hm, hh⟩

instance (g : Geom) (bm : BM) : Decidable (DeadBlocks g bm) :=
  @Nat.decidableBallLT _ _ fun _ _ => Multiset.decidableExistsMultiset

instance (g : Geom) (s : Ftl) : ∀ op, Decidable (gcDead g s op)
  | .write _ _ => inferInstanceAs (Decidable (_ → _))
  | .read _ => .isTrue trivial

/-- A request whose collection, if any, reads in order. -/
def stepInOrder (g : Geom) (s : Ftl) : Op → Option Ftl
  | .write lba v => if lba < g.nop then pageWrite g id s lba v else none
  | .read _ => none

theorem step_of_inOrder {s s' : Ftl} {op : Op} (h : stepInOrder g s op = some s') :
    (ftlLTS g).step s op s' := by
  cases op with
  | read lba => cases h
  | write lba v =>
    rw [stepInOrder] at h
    split at h
    · exact ⟨‹_›, id, List.Perm.refl, h⟩
    · cases h

/-- The third write collects the block of the first, which is dead by then. -/
def threeWrites : List Op := [.write 0 [0], .write 0 [1], .write 0 [2]]

theorem threeWrites_exec : ∃ s, ((ftlLTS threeBlocks).restrict (gcDead threeBlocks)).Exec threeWrites s ∧
    s.mapping 0 = some 0 := by
  exact Core.LTS.Exec.check (pageMapCreate threeBlocks) (gcDead threeBlocks) threeWrites _
    (fun s op s' hok h => ⟨step_of_inOrder h, hok⟩) (fun s h => h) (by decide +kernel)

theorem reads_last_write_tiny :
    ∃ s, ((ftlLTS threeBlocks).restrict (gcDead threeBlocks)).Exec [.write 0 [0], .write 0 [1], .write 0 [2]] s ∧
      (∃ ppa, s.mapping 0 = some ppa ∧ pageRead s 0 = some ppa ∧
        HoldsAt threeBlocks s.bm s.dev 0 ppa (stampKey 0 [2])) := by
  obtain ⟨s, hs, -⟩ := threeWrites_exec
  exact ⟨s, hs, reads_last_write threeBlocks _ s hs 0 _ rfl⟩

/-- In every state of such a run no two logical pages share a physical one, and none of them lies in
a block that is free or in reserve. -/
theorem live_pages (g : Geom) (ops : List Op) (s : Ftl)
    (h : ((ftlLTS g).restrict (gcDead g)).Exec ops s) :
    (∀ lba lba' ppa, s.mapping lba = some ppa → s.mapping lba' = some ppa → lba = lba') ∧
    ∀ lba ppa, s.mapping lba = some ppa → ∀ i < g.bps,
      g.getBlockIdx ppa ∉ s.bm.freeBlock i ∧ g.getBlockIdx ppa ≠ s.reserve.blocks i := by
  have I := h.history_inv (ftl_inductive g)
  have hlive : ∀ lba ppa, s.mapping lba = some ppa →
      getOob g s.bm ppa = lba ∧ (s.bm.block (g.getBlockIdx ppa)).now ≠ 0 := by
    intro lba ppa hm
    obtain ⟨b, p, v, hp, rfl, hvalid, hoob, -⟩ := I.mapped.place lba ppa hm
    rw [getOob, getBlockIdx_ppaMaker g b hp, getPageIdx_ppaMaker g b hp]
    exact ⟨hoob, Nat.ne_zero_of_lt ((I.owned.sound b).valid_lt p hvalid)⟩
  refine ⟨fun lba lba' ppa h1 h2 => (hlive lba ppa h1).1.symm.trans (hlive lba' ppa h2).1,
    fun lba ppa hm i hi => ⟨fun hf => ?_, fun hr => ?_⟩⟩
  · exact (hlive lba ppa hm).2 (I.owned.free_erased i hi _ hf)
  · exact (hlive lba ppa hm).2 (hr ▸ I.owned.reserve_erased i hi)

theorem live_pages_collected : ∃ s, ((ftlLTS threeBlocks).restrict (gcDead threeBlocks)).Exec threeWrites s ∧
    s.mapping 0 = some 0 ∧ threeBlocks.getBlockIdx 0 ∉ s.bm.freeBlock 0 ∧
    threeBlocks.getBlockIdx 0 ≠ s.reserve.blocks 0 := by
  obtain ⟨s, hs, hm⟩ := threeWrites_exec
  exact ⟨s, hs, hm, (live_pages threeBlocks _ s hs).2 0 0 hm 0 (by decide)⟩

/-! ## A live page in a victim -/

/-- Two segments of two two-page blocks each. -/
def pair : Geom := fourBlocks

/-- The four pages of the first segment are written, one of them twice; the
fifth write collects it, and logical page 1 is left pointing to an erased
page although its value was moved. -/
theorem stale_after_gc :
    ∃ ops s ppa, (ftlLTS pair).Exec ops s ∧ lastWrite 1 ops = some (stampKey 1 []) ∧
      pageRead s 1 = some ppa ∧ isValidPage pair s.bm ppa = false ∧ s.dev ppa = none := by
  obtain ⟨s, hs, h⟩ := Core.LTS.Exec.check (T := ftlLTS pair) (pageMapCreate pair) (fun _ _ => True)
    ([0, 1, 0, 2, 3].map fun lba => .write lba [])
    (fun s => pageRead s 1 = some 5 ∧ isValidPage pair s.bm 5 = false ∧ s.dev 5 = none)
    (fun s op s' _ h => step_of_inOrder h) (fun s h => h) (by decide +kernel)
  exact ⟨_, s, 5, hs, rfl, h⟩

end FlashDriver.PageFtl
