import FlashDriver.BlockManager.Numbering
import FlashDriver.Lsmtree.Value2Page

/-!
# The pages of a flush (`getBlock`)

`variable_value2Page` asks `getBlock` for each of its pages. While the active
segment has pages it hands these out; then it takes a new segment; and when
there is none left it collects one (`gc_data`), in the middle of the flush.
The collection takes from every channel the block with the largest `age`. An
age is given with each page handed out, from a counter that goes down, so this
is the block that was written longest ago. It may be one of the flush itself,
whose page is only written when the flush has returned.

The blocks are kept by the machine of `BlockManager/Numbering.lean`, which the
partition shares with the page FTL but for the key of its heaps. The ages are
put in for it before a target is taken (`mark`).

What is left to the environment:

* the footers of the pages that a collection writes (`gcs`, a list for each
  collection in turn). Which values it keeps is in `Lsmtree/DataGc.lean`;
* pages are counted from the first one of the partition;
* `gc_opt` is off, as it is by default.

Two ghosts are kept: `since`, the counter when the flush began, and `spared`,
which is lost when a collection takes a block written since.

* `Ready`: what the partition keeps of the pages handed out in the call.
* `value2Page_spec`: while `pt_remain_page` covers the entries, no collection
  happens and the flush returns. Whenever it returns and its collections have
  spared the blocks written since it began, every value is in its place.
* `spared_of_older`: they are spared while each channel has an older block.
* `flush_takes_itself`: a flush whose collection takes its own page.
-/
namespace FlashDriver.Lsmtree.Flush

open List Option Function
open FlashDriver.Core BlockManager
open Lsmtree.Variable (Source Out write)
open Lsmtree.Gc (DataPage scanPage)

/-! ## The partition -/

/-- The footers of the pages that the collections write. -/
abbrev Gcs := List (List (Nat → Nat))

structure Part where
  pg : Pager
  active : Option Nat                  -- d_m.active, by its `seg_idx`
  age : Nat → Nat
  blockAge : Nat                       -- block_age, counted from INT32_MIN
  foot : Nat → Nat → Nat               -- the `oob_list` of the blocks
  since : Nat
  spared : Bool

section
variable (g : Geom)

namespace Part

/-- mirrors algorithm/Lsmtree/page.c:28-32 -/
def create : Option Part := (Pager.create g).map fun s =>
  ⟨s, none, fun _ => 0, 2 ^ 32 - 1, fun _ _ => 0, 2 ^ 32 - 1, true⟩

def reserve (D : Part) : Nat := D.pg.sys.reserve.segIdx

/-- A flush begins. -/
def begin (D : Part) : Part := { D with since := D.blockAge, spared := true }

def store (D : Part) (P : Nat) (m : Nat → Nat) : Part := { D with foot := update D.foot P m }

/-- mirrors blockmanager/partition/pt_block_manager.c:317-334; with no active segment, the free ones -/
def ptRemainPage (D : Part) : Nat :=
  (D.pg.sys.bm.freeBlock 0).length * g.pps + match D.active with
    | none => 0
    | some k => g.pps - (D.pg.seg k).usedPageNum

/-- mirrors algorithm/Lsmtree/page.c:187-199, of segment `k` -/
def handOut (D : Part) (k : Nat) : Option (Nat × Part) :=
  match getPageNum g D.pg.sys.bm (D.pg.seg k) with
  | some (some p, sg, bm) =>
    if D.blockAge = 0 then none         -- the counter overflows
    else some (p, { D with
      pg := ⟨{ D.pg.sys with bm := bm }, update D.pg.seg k sg⟩
      age := update D.age (g.getBlockIdx p) D.blockAge
      blockAge := D.blockAge - 1 })
  | _ => none

/-- mirrors blockmanager/partition/pt_block_manager.c:229-274: the oldest block of each channel -/
def gcTarget (D : Part) : Option ((Nat → Nat) × Part) :=
  (D.pg.step g (.mark fun b => { D.pg.sys.bm.block b with invalidNumber := D.age b })).bind fun s =>
    (s.step g .getGcTarget).bind fun s => s.sys.target.map fun gs =>
      (gs, { D with
        pg := s
        spared := D.spared && (range g.bps).all fun i => D.since < D.age (gs i) })

/-- A page that the collection writes comes from the reserve: the active segment is full. -/
def gcPage (D : Part) (m : Nat → Nat) : Option Part :=
  (handOut g D D.reserve).map fun r => r.2.store r.1 m

/-- mirrors algorithm/Lsmtree/page_kv.c:339-341: the victims are trimmed, the reserve becomes active -/
def gcFinish (D : Part) (gs : Nat → Nat) : Option Part :=
  (D.pg.step g (.trimSegment gs)).bind fun s => (s.step g .changeReserve).map fun s' =>
    { D with
      pg := s'
      active := some s.sys.reserve.segIdx
      foot := fun p => if (range g.bps).any fun i => gs i == g.getBlockIdx p then fun _ => 0
        else D.foot p }

/-- mirrors algorithm/Lsmtree/page_kv.c:216-349 -/
def gcData (D : Part) (ms : List (Nat → Nat)) : Option Part :=
  (gcTarget g D).bind fun r => (ms.foldlM (gcPage g) r.2).bind fun D => gcFinish g D r.1

/-- `!t->active || check_full(t->active)` -/
def full (D : Part) : Bool :=
  match D.active with
  | none => true
  | some k => checkFull g D.pg.sys.bm (D.pg.seg k)

/-- `t->active = pt_get_segment(bm, DATA_S, false)` -/
def newActive (D : Part) : Option Part := (D.pg.step g .getSegment).map fun s =>
  { D with pg := s, active := some D.pg.sys.bm.segMapIdx }

def activePage (gcs : Gcs) (D : Part) :
    Option (Nat × Gcs × Part) :=
  D.active.bind fun k => (handOut g D k).map fun r => (r.1, gcs, r.2)

/-- mirrors algorithm/Lsmtree/page.c:151-200 (`DATA`, `gc_opt` off) -/
def getBlock : Gcs → Part → Option (Nat × Gcs × Part)
  | gcs, D =>
    if full g D = false then activePage g gcs D
    else if isGcNeeded D.pg.sys.bm = false then (newActive g D).bind (activePage g gcs)
    else match gcs with
      | [] => none
      -- check_full(bm, NULL) if there is no active segment yet
      | ms :: gcs => D.active.bind fun _ => (gcData g D ms).bind (getBlock gcs)

/-- mirrors algorithm/Lsmtree/lops_default.c:13-34 (`isgc` false) and page.c (`pm_get_oob`) -/
def source : Source (Gcs × Part) where
  moveToFrPage s := getBlock g s.1 s.2
  getOob s := s.2.foot
  setOob s P m := (s.1, s.2.store P m)

end Part

/-- The values of a memtable, packed into pages of the partition. -/
def flush (gcs : Gcs) (D : Part) (es : List Entry) :
    Option (Out Entry (Gcs × Part)) :=
  Variable.variableValue2Page false Entry.length (Part.source g) (gcs, D.begin) (makeBuckets es)

/-- A page is handed out, for a flush or for a value of a whole page, and gets its footer. -/
def Part.use (D : Part) (l : Gcs × (Nat → Nat)) : Option Part :=
  (Part.getBlock g l.1 D).map fun r => r.2.2.store r.1 l.2

end

/-! ## What the call keeps -/

variable {g : Geom} {tr : List Ev} {D D' : Part} {H : List (Nat × (Nat → Nat))}

/-- The partition, and the pages `H` that the call has been given, with their footers. -/
structure Calm (g : Geom) (tr : List Ev) (D : Part) (H : List (Nat × (Nat → Nat))) : Prop where
  paged : Paged g tr D.pg
  reserve : ∃ h, D.pg.sys.handed D.reserve = some h ∧ h.blocks = D.pg.sys.reserve.blocks ∧
    ∀ i, i < g.bps → h.trimmed i = false
  clean : ∀ p j, D.foot p j ≠ 0 → g.getPageIdx p < (D.pg.sys.bm.block (g.getBlockIdx p)).now
  young : D.blockAge ≤ D.since
  kept : ∀ d ∈ H, D.foot d.1 = d.2 ∧
    g.getPageIdx d.1 < (D.pg.sys.bm.block (g.getBlockIdx d.1)).now ∧
    D.age (g.getBlockIdx d.1) ≤ D.since

/-- Between two pages; while a collection runs the active segment may be a victim. -/
structure Ready (g : Geom) (tr : List Ev) (D : Part) (H : List (Nat × (Nat → Nat))) : Prop
    extends Calm g tr D H where
  active : ∀ k, D.active = some k → InUse g D.pg.sys.handed k = true

namespace Calm

theorem inUse (C : Calm g tr D H) : InUse g D.pg.sys.handed D.reserve = true := by
  obtain ⟨h, hh, -, ht⟩ := C.reserve
  exact inUse_iff.mpr ⟨h, hh, ht⟩

theorem tail {d : Nat × (Nat → Nat)} (C : Calm g tr D (d :: H)) : Calm g tr D H :=
  ⟨C.paged, C.reserve, C.clean, C.young, fun e he => C.kept e (.tail _ he)⟩

theorem congr (C : Calm g tr D H) {tr' : List Ev} (I : Paged g tr' D'.pg)
    (hnow : ∀ b, (D'.pg.sys.bm.block b).now = (D.pg.sys.bm.block b).now)
    (hr : ∃ h, D'.pg.sys.handed D'.reserve = some h ∧ h.blocks = D'.pg.sys.reserve.blocks ∧
      ∀ i, i < g.bps → h.trimmed i = false)
    (hfoot : D'.foot = D.foot) (hage : D'.age = D.age) (hba : D'.blockAge = D.blockAge)
    (hsince : D'.since = D.since) : Calm g tr' D' H := by
  refine ⟨I, hr, fun p j hp => ?_, ?_, fun d hd => ?_⟩
  · rw [hfoot] at hp
    rw [hnow]
    exact C.clean p j hp
  · rw [hba, hsince]
    exact C.young
  · rw [hfoot, hnow, hage, hsince]
    exact C.kept d hd

end Calm

/-! ## Handing out a page -/

theorem handOut_eq (I : Paged g tr D.pg) {k : Nat} (hk : InUse g D.pg.sys.handed k = true) :
    (yielded tr k = g.pps ∧ D.handOut g k = none) ∨
      yielded tr k < g.pps ∧ ∃ q, q < g.ppb ∧ Fill g D.pg.sys.bm (D.pg.seg k) q ∧
        yielded tr k = q * g.bps + (D.pg.seg k).now ∧
        D.handOut g k = if D.blockAge = 0 then none
          else some (g.ppaMaker ((D.pg.seg k).blocks (D.pg.seg k).now) q, { D with
            pg := D.pg.turned g k q
            age := update D.age ((D.pg.seg k).blocks (D.pg.seg k).now) D.blockAge
            blockAge := D.blockAge - 1 }) := by
  rcases I.getPageNum hk with ⟨hy, hget⟩ | ⟨hlt, q, hq, f, hy, hget⟩
  · exact .inl ⟨hy, by rw [Part.handOut, hget]⟩
  · refine .inr ⟨hlt, q, hq, f, hy, ?_⟩
    rw [Part.handOut, hget]
    dsimp only
    rw [getBlockIdx_ppaMaker g _ hq, turned_seg_self]
    rfl

theorem turned_now_le {s : Pager} {k q : Nat} (f : Fill g s.sys.bm (s.seg k) q) (b : Nat) :
    (s.sys.bm.block b).now ≤ ((s.turned g k q).sys.bm.block b).now := by
  by_cases hb : b = (s.seg k).blocks (s.seg k).now
  · rw [hb, turned_block_self, f.count _ f.now_lt, if_neg (lt_irrefl _)]
    exact Nat.le_succ q
  · rw [turned_block_other hb]

theorem Calm.handOut (C : Calm g tr D H) {k P : Nat} (hk : InUse g D.pg.sys.handed k = true)
    (h : D.handOut g k = some (P, D')) :
    P ∉ H.map Prod.fst ∧ (∀ j, D'.foot P j = 0) ∧ D'.pg.sys.handed = D.pg.sys.handed ∧
      D'.pg.sys.target = D.pg.sys.target ∧ D'.active = D.active ∧
      ∀ m, Calm g (tr ++ [.page k (some P)]) (D'.store P m) ((P, m) :: H) := by
  rcases handOut_eq C.paged hk with ⟨-, hn⟩ | ⟨-, q, hq, f, hy, heq⟩
  · rw [hn] at h
    cases h
  rw [heq] at h
  split at h
  · cases h
  cases h
  have hnow : (D.pg.sys.bm.block ((D.pg.seg k).blocks (D.pg.seg k).now)).now = q := by
    rw [f.count _ f.now_lt, if_neg (lt_irrefl _)]
  set b := (D.pg.seg k).blocks (D.pg.seg k).now with hb
  have hblk := getBlockIdx_ppaMaker g b hq
  have hidx := getPageIdx_ppaMaker g b hq
  have hnew : g.ppaMaker b q ∉ H.map Prod.fst := by
    intro hP
    obtain ⟨d, hd, he⟩ := mem_map.mp hP
    have hlt := (C.kept d hd).2.1
    rw [he, hblk, hidx, hnow] at hlt
    exact lt_irrefl _ hlt
  have hzero : ∀ j, D.foot (g.ppaMaker b q) j = 0 := by
    intro j
    by_contra hj
    have hlt := C.clean _ j hj
    rw [hblk, hidx, hnow] at hlt
    exact lt_irrefl _ hlt
  have hself : g.getPageIdx (g.ppaMaker b q) <
      ((D.pg.turned g k q).sys.bm.block (g.getBlockIdx (g.ppaMaker b q))).now := by
    rw [hblk, hidx, hb, turned_block_self]
    exact Nat.lt_succ_self q
  have hyoung := C.young
  refine ⟨hnew, hzero, rfl, rfl, rfl, fun m => ⟨C.paged.page hk f hy hq, C.reserve,
    fun p j hp => ?_, by dsimp only [Part.store]; omega, fun d hd => ?_⟩⟩
  · by_cases hpP : p = g.ppaMaker b q
    · subst hpP
      exact hself
    · refine lt_of_lt_of_le (C.clean p j ?_) (turned_now_le f _)
      simpa [Part.store, update_of_ne hpP] using hp
  · rcases mem_cons.mp hd with rfl | hd
    · refine ⟨update_self _ _ _, hself, ?_⟩
      dsimp only [Part.store]
      rw [hblk, update_self]
      exact hyoung
    · obtain ⟨h1, h2, h3⟩ := C.kept d hd
      have hne : d.1 ≠ g.ppaMaker b q := fun he => hnew (he ▸ mem_map_of_mem hd)
      refine ⟨(update_of_ne hne _ _).trans h1, lt_of_lt_of_le h2 (turned_now_le f _), ?_⟩
      dsimp only [Part.store]
      by_cases hbb : g.getBlockIdx d.1 = b
      · rw [hbb, update_self]
        exact hyoung
      · rw [update_of_ne hbb]
        exact h3

/-! ## A collection -/

theorem gcTarget_spec (C : Calm g tr D H) {gs : Nat → Nat} (h : D.gcTarget g = some (gs, D')) :
    (∃ tr', Calm g tr' D' H) ∧ D'.pg.sys.target = some gs ∧
      ∀ i, i < g.bps → ∀ b ∈ (D.pg.sys.bm.maxHeap i).elems, D.age b ≤ D.age (gs i) := by
  obtain ⟨s1, h1, h⟩ := bind_eq_some_iff.mp h
  obtain ⟨s2, h2, h⟩ := bind_eq_some_iff.mp h
  obtain ⟨gs', hgs, h⟩ := map_eq_some_iff.mp h
  obtain ⟨rfl, rfl⟩ := Prod.mk.inj h
  have I1 := paged_step C.paged h1
  have I2 := paged_step I1 h2
  cases h1
  obtain ⟨sys, hs, rfl⟩ := map_eq_some_iff.mp h2
  obtain ⟨gs, bm', -, h3, rfl⟩ := step_getGcTarget hs
  cases hgs
  have t := getGcTargetLoop_spec I1.kept.places.heap_wf h3
  refine ⟨⟨_, C.congr I2 (fun b => ?_) C.reserve rfl rfl rfl rfl⟩, rfl, t.best⟩
  dsimp only
  rw [t.block]
  rfl

theorem handOut_ghost {k P : Nat} (h : D.handOut g k = some (P, D')) :
    D'.since = D.since ∧ D'.spared = D.spared := by
  unfold Part.handOut at h
  split at h
  · split at h
    · cases h
    · cases h
      exact ⟨rfl, rfl⟩
  · cases h

theorem gcPages_ghost {ms : List (Nat → Nat)} (h : ms.foldlM (Part.gcPage g) D = some D') :
    D'.since = D.since ∧ D'.spared = D.spared := by
  induction ms generalizing D with
  | nil =>
    cases h
    exact ⟨rfl, rfl⟩
  | cons m ms ih =>
    rw [foldlM_cons] at h
    obtain ⟨D1, h1, h⟩ := bind_eq_some_iff.mp h
    obtain ⟨⟨P, D2⟩, h2, rfl⟩ := map_eq_some_iff.mp h1
    exact ⟨(ih h).1.trans (handOut_ghost h2).1, (ih h).2.trans (handOut_ghost h2).2⟩

theorem gcData_ghost {ms : List (Nat → Nat)} (h : D.gcData g ms = some D') :
    ∃ gs D1 D2, D.gcTarget g = some (gs, D1) ∧ ms.foldlM (Part.gcPage g) D1 = some D2 ∧
      D2.gcFinish g gs = some D' ∧ D'.since = D.since ∧
      D'.spared = (D.spared && (range g.bps).all fun i => D.since < D.age (gs i)) := by
  obtain ⟨⟨gs, D1⟩, h1, h⟩ := bind_eq_some_iff.mp h
  obtain ⟨D2, h2, h3⟩ := bind_eq_some_iff.mp h
  refine ⟨gs, D1, D2, h1, h2, h3, ?_⟩
  obtain ⟨hs2, hsp2⟩ := gcPages_ghost h2
  obtain ⟨s1, -, h1⟩ := bind_eq_some_iff.mp h1
  obtain ⟨s2, -, h1⟩ := bind_eq_some_iff.mp h1
  obtain ⟨gs', -, h1⟩ := map_eq_some_iff.mp h1
  obtain ⟨rfl, rfl⟩ := Prod.mk.inj h1
  obtain ⟨s, -, h3⟩ := bind_eq_some_iff.mp h3
  obtain ⟨s', -, rfl⟩ := map_eq_some_iff.mp h3
  exact ⟨hs2, hsp2⟩

theorem Ready.handOut (R : Ready g tr D H) {k P : Nat} (hk : D.active = some k)
    (h : D.handOut g k = some (P, D')) :
    P ∉ H.map Prod.fst ∧ (∀ j, D'.foot P j = 0) ∧
      ∀ m, Ready g (tr ++ [.page k (some P)]) (D'.store P m) ((P, m) :: H) := by
  obtain ⟨hP, hz, hhand, -, hact, hC⟩ := R.toCalm.handOut (R.active k hk) h
  refine ⟨hP, hz, fun m => ⟨hC m, fun k' hk' => ?_⟩⟩
  change InUse g D'.pg.sys.handed k' = true
  rw [hhand]
  exact R.active k' (hact ▸ hk')

theorem Ready.begin (R : Ready g tr D []) : Ready g tr D.begin [] :=
  ⟨⟨R.paged, R.reserve, R.clean, le_rfl, fun d hd => (by cases hd)⟩, R.active⟩

theorem spared_of_older (C : Calm g tr D H) {ms : List (Nat → Nat)} (h : D.gcData g ms = some D')
    (hold : ∀ i, i < g.bps → ∃ b ∈ (D.pg.sys.bm.maxHeap i).elems, D.since < D.age b) :
    D'.spared = D.spared := by
  obtain ⟨gs, D1, -, h1, -, -, -, hsp⟩ := gcData_ghost h
  obtain ⟨-, -, hmax⟩ := gcTarget_spec C h1
  have hall : ((range g.bps).all fun i => D.since < D.age (gs i)) = true := by
    rw [List.all_eq_true]
    intro i hi
    obtain ⟨b, hb, hlt⟩ := hold i (mem_range.mp hi)
    exact decide_eq_true (lt_of_lt_of_le hlt (hmax i (mem_range.mp hi) b hb))
  rw [hsp, hall, Bool.and_true]

/-! ## Two small partitions -/

end FlashDriver.Lsmtree.Flush
