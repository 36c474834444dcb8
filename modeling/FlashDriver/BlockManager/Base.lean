import FlashDriver.DataStruct.Heap

/-!
# The base block manager (`blockmanager/base_block_manager.c`)

The manager owns `_NOS * BPS` blocks. Block `b` belongs to channel `b % BPS`;
each channel keeps its free blocks in a FIFO and the blocks that may be
collected in a heap ordered by `invalid_number`. A segment takes one block of
every channel and hands out its pages round robin.

The geometry is a parameter: the shifts of the source (`<<6`, `>>14`,
`&0xff`) are the multiplication by `BPS` and the divisions by `_PPS` and
`BPS` for the sizes of `include/settings.h`, which `settings` records.

`none` stands for `abort()` and for the undefined behaviour of following a
missing `seg_map` entry.
-/
namespace FlashDriver.BlockManager

open List Function
open DataStruct

/-- mirrors include/settings.h (`BPS`, `_PPB`, `_NOS`); page counters are
`uint16_t`. -/
structure Geom where
  bps : Nat
  ppb : Nat
  nos : Nat
  bps_pos : 0 < bps
  ppb_pos : 0 < ppb
  ppb_lt : ppb < 2 ^ 16

/-- The SLC build: 64 channels, 256 pages a block, 512 segments. -/
def settings : Geom := ⟨64, 256, 512, by decide, by decide, by decide⟩

/-- Two channels of two blocks with two pages each. -/
def fourBlocks : Geom := ⟨2, 2, 2, by decide, by decide, by decide⟩

/-- One channel of three blocks with one page each. -/
def threeBlocks : Geom := ⟨1, 1, 3, by decide, by decide, by decide⟩

namespace Geom
variable (g : Geom)

def pps : Nat := g.bps * g.ppb

def nop : Nat := g.nos * g.pps

/-- `block_num`: the first page of the block's segment. -/
def blockNum (b : Nat) : Nat := b / g.bps * g.pps

def punitNum (b : Nat) : Nat := b % g.bps

/-- mirrors include/container.h:231 (`PPAMAKER`) -/
def ppaMaker (b page : Nat) : Nat := g.punitNum b + page * g.bps + g.blockNum b

/-- mirrors blockmanager/base_block_manager.h:11 (`GETBLOCKIDX`) -/
def getBlockIdx (ppa : Nat) : Nat := ppa / g.pps * g.bps + ppa % g.bps

/-- mirrors blockmanager/base_block_manager.h:12 (`GETPAGEIDX`) -/
def getPageIdx (ppa : Nat) : Nat := ppa / g.bps % g.ppb

end Geom

/-- mirrors include/container.h:165-177 -/
structure Block where
  now : Nat := 0
  bitset : Nat → Bool := fun _ => false
  invalidNumber : Nat := 0
  segIdx : Nat := 0
  oobList : Nat → Nat := fun _ => 0     -- the OOB word of each page

/-- mirrors include/container.h:179-187 -/
structure Segment where
  blocks : Nat → Nat
  now : Nat
  usedPageNum : Nat
  segIdx : Nat

/-- mirrors blockmanager/base_block_manager.h:15-26 -/
structure BM where
  block : Nat → Block
  freeBlock : Nat → List Nat
  maxHeap : Nat → Mh Nat
  segMap : Nat → Option Nat        -- seg_idx to invalid_blocks, for the segments still in the tree
  segMapIdx : Nat

def BM.setBlock (bm : BM) (b : Nat) (x : Block) : BM := { bm with block := update bm.block b x }

section
variable (g : Geom)

/-- mirrors blockmanager/base_block_manager.c:47-50 -/
def getCnt (bm : BM) (b : Nat) : Nat := (bm.block b).invalidNumber

/-- mirrors blockmanager/base_block_manager.c:52-88 -/
def create : BM where
  block _ := {}
  freeBlock i := (range g.nos).map fun j => j * g.bps + i
  maxHeap _ := Mh.init g.nos
  segMap _ := none
  segMapIdx := 0

/-- One round of the loop in `base_get_segment`, for channel `i`. -/
def getSegmentStep (isreserve : Bool) (i : Nat) (bl : Nat → Nat) (bm : BM) :
    Option ((Nat → Nat) × BM) :=
  match bm.freeBlock i with
  | [] => none                          -- q_dequeue gave NULL: abort()
  | b :: rest =>
    let bm := { bm with freeBlock := update bm.freeBlock i rest }
    let bl := update bl i b
    let mark (bm : BM) := bm.setBlock b { bm.block b with segIdx := bm.segMapIdx }
    if isreserve then some (bl, mark bm)
    else match (bm.maxHeap i).insertAppend b with
      | none => none
      | some h => some (bl, mark { bm with maxHeap := update bm.maxHeap i h })

def getSegmentLoop (isreserve : Bool) : Nat → BM → Option ((Nat → Nat) × BM)
  | 0, bm => some (fun _ => 0, bm)
  | n + 1, bm => match getSegmentLoop isreserve n bm with
    | none => none
    | some (bl, bm) => getSegmentStep isreserve n bl bm

/-- mirrors blockmanager/base_block_manager.c:110-130 -/
def getSegment (bm : BM) (isreserve : Bool) : Option (Segment × BM) :=
  match getSegmentLoop isreserve g.bps bm with
  | none => none
  | some (bl, bm) =>
    some (⟨bl, 0, 0, bm.segMapIdx⟩,
      { bm with segMap := update bm.segMap bm.segMapIdx (some 0),
                segMapIdx := bm.segMapIdx + 1 })

def changeReserveLoop (reserve : Segment) : Nat → BM → Option BM
  | 0, bm => some bm
  | n + 1, bm => match changeReserveLoop reserve n bm with
    | none => none
    | some bm => match (bm.maxHeap n).insertAppend (reserve.blocks n) with
      | none => none
      | some h => some { bm with maxHeap := update bm.maxHeap n h }

/-- mirrors blockmanager/base_block_manager.c:132-142 -/
def changeReserve (bm : BM) (reserve : Segment) : Option (Segment × BM) :=
  match getSegment g bm true with
  | none => none
  | some (res, bm) => match changeReserveLoop reserve g.bps bm with
    | none => none
    | some bm => some (res, bm)

/-- mirrors blockmanager/base_block_manager.c:144-148 -/
def isGcNeeded (bm : BM) : Bool := (bm.freeBlock 0).length == 0

def getGcTargetLoop : Nat → BM → Option ((Nat → Nat) × BM)
  | 0, bm => some (fun _ => 0, bm)
  | n + 1, bm => match getGcTargetLoop n bm with
    | none => none
    | some (bl, bm) =>
      match (Mh.construct (getCnt bm) (bm.maxHeap n)).getMax (getCnt bm) with
      | (none, _) => none               -- abort()
      | (some b, h) => some (update bl n b, { bm with maxHeap := update bm.maxHeap n h })

/-- mirrors blockmanager/base_block_manager.c:150-161; a `__gsegment` is its
block table. -/
def getGcTarget (bm : BM) : Option ((Nat → Nat) × BM) := getGcTargetLoop g.bps bm

/-- One round of the loop in `base_trim_segment` (the device side is the
caller's). A refused `q_enqueue` is silent; a block whose segment is not in
`seg_map` dereferences a stale node. -/
def trimStep (i b : Nat) (bm : BM) : Option BM :=
  let x := bm.block b
  let bm := bm.setBlock b { x with invalidNumber := 0, now := 0, bitset := fun _ => false,
                                   oobList := fun _ => 0 }
  let q := bm.freeBlock i
  let q := if q.length = g.nos then q else q ++ [b]
  let bm := { bm with freeBlock := update bm.freeBlock i q }
  match bm.segMap x.segIdx with
  | none => none
  | some n =>
    let left := if n + 1 = g.bps then none else some (n + 1)
    some { bm with segMap := update bm.segMap x.segIdx left }

def trimLoop (gs : Nat → Nat) : Nat → BM → Option BM
  | 0, bm => some bm
  | n + 1, bm => match trimLoop gs n bm with
    | none => none
    | some bm => trimStep g n (gs n) bm

/-- mirrors blockmanager/base_block_manager.c:163-188 -/
def trimSegment (bm : BM) (gs : Nat → Nat) : Option BM := trimLoop g gs g.bps bm

/-- mirrors blockmanager/base_block_manager.c:190-203 -/
def populateBit (bm : BM) (ppa : Nat) : Nat × BM :=
  let bn := g.getBlockIdx ppa
  let pn := g.getPageIdx ppa
  let x := bm.block bn
  (if x.bitset pn then 0 else 1, bm.setBlock bn { x with bitset := update x.bitset pn true })

/-- mirrors blockmanager/base_block_manager.c:205-226; `invalid_number` is a
`uint16_t`. -/
def unpopulateBit (bm : BM) (ppa : Nat) : Nat × BM :=
  let bn := g.getBlockIdx ppa
  let pn := g.getPageIdx ppa
  let x := bm.block bn
  (if x.bitset pn then 1 else 0,
    bm.setBlock bn { x with bitset := update x.bitset pn false,
                            invalidNumber := (x.invalidNumber + 1) % 2 ^ 16 })

/-- mirrors blockmanager/base_block_manager.c:249-257 -/
def isValidPage (bm : BM) (ppa : Nat) : Bool :=
  (bm.block (g.getBlockIdx ppa)).bitset (g.getPageIdx ppa)

/-- mirrors blockmanager/base_block_manager.c:259-261 -/
def isInvalidPage (bm : BM) (ppa : Nat) : Bool := !isValidPage g bm ppa

/-- mirrors blockmanager/base_block_manager.c:263-267, for a 4-byte word -/
def setOob (bm : BM) (data ppa : Nat) : BM :=
  let bn := g.getBlockIdx ppa
  let x := bm.block bn
  bm.setBlock bn { x with oobList := update x.oobList (g.getPageIdx ppa) data }

/-- mirrors blockmanager/base_block_manager.c:269-274 -/
def getOob (bm : BM) (ppa : Nat) : Nat := (bm.block (g.getBlockIdx ppa)).oobList (g.getPageIdx ppa)

/-- mirrors blockmanager/base_block_manager.c:280-296; the inner `none` is the
return value -1. -/
def getPageNum (bm : BM) (s : Segment) : Option (Option Nat × Segment × BM) :=
  if s.now = 0 ∧ (bm.block (s.blocks (g.bps - 1))).now = g.ppb then some (none, s, bm)
  else
    let b := s.blocks s.now
    let page := (bm.block b).now
    if page > g.ppb then none           -- abort()
    else some (some (g.ppaMaker b page),
      { s with now := if s.now + 1 = g.bps then 0 else s.now + 1,
               usedPageNum := s.usedPageNum + 1 },
      bm.setBlock b { bm.block b with now := page + 1 })

/-- mirrors blockmanager/base_block_manager.c:315-335 (`MASTER_PAGE`) -/
def checkFull (bm : BM) (active : Segment) : Bool :=
  (bm.block (active.blocks (g.bps - 1))).now == g.ppb

/-- mirrors include/types.h:53-55 -/
inductive MasterType
  | segment | block | page
  deriving DecidableEq, Repr

/-- mirrors blockmanager/base_block_manager.c:315-335, for every type -/
def checkFullOf (bm : BM) (active : Segment) : MasterType → Bool
  | .segment => false
  | .block => checkFull g bm active
  | .page => checkFull g bm active

/-- mirrors blockmanager/base_block_manager.c:298-313; the inner `none` is the
return value -1. -/
def pickPageNum (bm : BM) (s : Segment) : Option (Option Nat) :=
  if s.now = 0 ∧ (bm.block (s.blocks (g.bps - 1))).now = g.ppb then some none
  else
    let b := s.blocks s.now
    let page := (bm.block b).now
    if page > g.ppb then none           -- abort()
    else some (some (g.ppaMaker b page))

/-- mirrors blockmanager/base_block_manager.h:13 (`GETBLOCKPPA`) -/
def Geom.getBlockPpa (b : Nat) : Nat := g.blockNum b + g.punitNum b

/-- mirrors lower/posix_memory/posix.c:324-341; `checker.start_block` is 0, so that
`convert_ppa` is the identity, and `PUNIT` is `BPS`. -/
def posixTrimABlock {α : Type} (segTable : Nat → Option α) (ppa : Nat) :
    Option (Nat → Option α) :=
  if ppa > g.nop then none              -- "address error!", abort()
  else some ((range g.ppb).foldl (fun t i => update t (ppa + i * g.bps) none) segTable)

end

end FlashDriver.BlockManager
