import FlashDriver.BlockManager.Base
import FlashDriver.Core.LTS

/-!
# The page-mapping translation layer (`algorithm/Page_ftl`)

`mapping` takes a logical page to the physical page that holds it, pages are
taken from the active segment of the block manager, and when that is full
and no free segment is left `do_gc` moves the live pages of one victim block
per channel into the reserve segment.

The device is what it returns: the data written to a page since its last
trim. Garbage collection issues all its reads first and moves each page once
its read has completed; the order of the completions is an argument.

`none` stands for `abort()` and for using the failed page number -1 as a
page.
-/
namespace FlashDriver.PageFtl

open List Function
open BlockManager

abbrev Page := List UInt8

/-- mirrors algorithm/Page_ftl/map.h (`pm_body`), with the manager and the
device the layer is created on. `UINT_MAX` in `mapping` is `none`. -/
structure Ftl where
  bm : BM
  dev : Nat → Option Page
  mapping : Nat → Option Nat
  reserve : Segment
  active : Segment

section
variable (g : Geom)

/-- mirrors algorithm/Page_ftl/map.c:9-19 -/
def pageMapCreate : Option Ftl :=
  match getSegment g (create g) true with
  | none => none
  | some (reserve, bm) => match getSegment g bm false with
    | none => none
    | some (active, bm) => some ⟨bm, fun _ => none, fun _ => none, reserve, active⟩

/-- mirrors algorithm/Page_ftl/gc.c:7-9 -/
def invalidatePpa (s : Ftl) (ppa : Nat) : Ftl := { s with bm := (unpopulateBit g s.bm ppa).2 }

/-- mirrors algorithm/Page_ftl/gc.c:11-14 -/
def validatePpa (s : Ftl) (ppa lba : Nat) : Ftl :=
  { s with bm := setOob g (populateBit g s.bm ppa).2 lba ppa }

/-- mirrors algorithm/Page_ftl/map.c:52-59; the caller's `mapping` is not
written. -/
def pageMapGcUpdate (s : Ftl) (lba ppa : Nat) : Option (Nat × Ftl) :=
  match getPageNum g s.bm s.reserve with
  | none => none
  | some (none, _, _) => none
  | some (some res, seg, bm) =>
    some (res, validatePpa g (invalidatePpa g { s with bm := bm, reserve := seg } ppa) res lba)

/-- mirrors the `gc_value` of algorithm/Page_ftl/gc.h: a page and what was
read from it. -/
structure GcValue where
  ppa : Nat
  value : Option Page

/-- mirrors algorithm/Page_ftl/gc.c:60-64, one completed read -/
def gcMove (s : Ftl) (gv : GcValue) : Option Ftl :=
  match pageMapGcUpdate g s (getOob g s.bm gv.ppa) gv.ppa with
  | none => none
  | some (res, s) => some { s with dev := update s.dev res gv.value }

def gcMoves : List GcValue → Ftl → Option Ftl
  | [], s => some s
  | gv :: gvs, s => match gcMove g s gv with
    | none => none
    | some s => gcMoves gvs s

/-- mirrors include/container.h:239-241 (`for_each_page_in_seg`) -/
def pagesInSeg (gs : Nat → Nat) : List Nat :=
  (range g.ppb).flatMap fun pidx => (range g.bps).map fun bidx => g.ppaMaker (gs bidx) pidx

def livePages (bm : BM) (gs : Nat → Nat) : List Nat :=
  (pagesInSeg g gs).filter fun ppa => !isInvalidPage g bm ppa

/-- `trim_a_block` of each victim. -/
def devTrim (dev : Nat → Option Page) (gs : Nat → Nat) : Nat → Option Page := fun ppa =>
  if (range g.bps).any fun i => g.getBlockIdx ppa == gs i then none else dev ppa

/-- mirrors algorithm/Page_ftl/gc.c:42-72. `order` is the order in which the
reads complete. -/
def doGc (order : List Nat → List Nat) (s : Ftl) : Option Ftl :=
  match getGcTarget g s.bm with
  | none => none
  | some (target, bm) =>
    let reads := (order (livePages g bm target)).map fun ppa => GcValue.mk ppa (s.dev ppa)
    match gcMoves g reads { s with bm := bm } with
    | none => none
    | some s => match trimSegment g s.bm target with
      | none => none
      | some bm =>
        match changeReserve g bm s.reserve with
        | none => none
        | some (res, bm) =>
          some { s with bm := bm, dev := devTrim g s.dev target, active := s.reserve, reserve := res }

/-- The `retry` loop of `page_map_assign`; every round but the last takes a
free segment. -/
def assignRetry : Nat → Ftl → Option (Nat × Ftl)
  | 0, _ => none
  | n + 1, s => match getPageNum g s.bm s.active with
    | none => none
    | some (some res, seg, bm) => some (res, { s with bm := bm, active := seg })
    | some (none, _, bm) => match getSegment g bm false with
      | none => none
      | some (seg', bm) => assignRetry n { s with bm := bm, active := seg' }

/-- The condition under which `page_map_assign` collects garbage first. -/
def needsGc (s : Ftl) : Bool := checkFull g s.bm s.active && isGcNeeded s.bm

/-- mirrors algorithm/Page_ftl/map.c:21-41 -/
def pageMapAssign (order : List Nat → List Nat) (s : Ftl) (lba : Nat) : Option (Nat × Ftl) :=
  match if needsGc g s then doGc g order s else some s with
  | none => none
  | some s =>
    let s := match s.mapping lba with
      | some ppa => invalidatePpa g s ppa
      | none => s
    match assignRetry g ((s.bm.freeBlock 0).length + 1) s with
    | none => none
    | some (res, s) =>
      let s := validatePpa g s res lba
      some (res, { s with mapping := update s.mapping lba (some res) })

/-- mirrors algorithm/Page_ftl/map.c:43-50 -/
def pageMapPick (s : Ftl) (lba : Nat) : Option Nat := s.mapping lba

/-- `memcpy(req->value->value,&req->key,sizeof(req->key))`: the page sent to
the device begins with its 4-byte key. -/
def stampKey (lba : Nat) (v : Page) : Page :=
  [UInt8.ofNat lba, UInt8.ofNat (lba / 2 ^ 8), UInt8.ofNat (lba / 2 ^ 16),
    UInt8.ofNat (lba / 2 ^ 24)] ++ v.drop 4

/-- mirrors algorithm/Page_ftl/page.c:45-56 -/
def pageWrite (order : List Nat → List Nat) (s : Ftl) (lba : Nat) (v : Page) : Option Ftl :=
  match pageMapAssign g order s lba with
  | none => none
  | some (ppa, s) => some { s with dev := update s.dev ppa (some (stampKey lba v)) }

/-- mirrors algorithm/Page_ftl/page.c:31-43: the page the read is sent to -/
def pageRead (s : Ftl) (lba : Nat) : Option Nat := pageMapPick s lba

end

/-- A request of the host. -/
inductive Op where
  | write (lba : Nat) (v : Page)
  | read (lba : Nat)
  deriving DecidableEq, Repr

/-- The layer as a machine driven by the host. A read changes nothing; it
aborts when the page was never written. -/
def ftlLTS (g : Geom) : Core.LTS Ftl Op where
  init s := pageMapCreate g = some s
  step s op s' := match op with
    | .write lba v => lba < g.nop ∧
        ∃ order, (∀ l, (order l).Perm l) ∧ pageWrite g order s lba v = some s'
    | .read lba => lba < g.nop ∧ (pageRead s lba).isSome ∧ s' = s

/-- The value of the most recent write of `lba`, as it is sent to the device. -/
def lastWrite (lba : Nat) (ops : List Op) : Option Page :=
  ops.foldl (fun last op => match op with
    | .write l v => if l = lba then some (stampKey l v) else last
    | .read _ => last) none

end FlashDriver.PageFtl
