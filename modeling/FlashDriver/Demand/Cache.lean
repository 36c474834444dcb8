import Mathlib

/-!
# The coarse-grained mapping cache (`algorithm/demand/coarse.c`)

The demand FTL keeps its table of `lpa ↦ ppa` entries in translation pages of
`EPP` entries each. At most `max_cached_tpages` of them are cached; the others
are read from flash before they are consulted, and a dirty page is written
back when it is evicted.

`pt` of a cached page is the array `mem_table[idx]` itself, so the table is one
map from `lpa` to `ppa` and `pt` only records whether the pointer is set. The
LRU list holds the indices of the cached pages, most recent first. A device
operation that a function issues is part of its result.
-/
namespace FlashDriver.Demand

open Function

/-! ## Queues -/

/-- mirrors interface/queue.c:18-38 (`q_enqueue`); `none`: it returned false -/
def qEnqueue {α : Type} (size : Nat) (x : α) (q : List α) : Option (List α) :=
  if q.length = size then none else some (q ++ [x])

/-! ## Configuration -/

/-- `EPP`, `nr_valid_tentries`, `max_cached_tpages`, `wb_flush_size` and the
interface's `QSIZE`. -/
structure Cfg where
  epp : Nat
  entries : Nat
  maxCached : Nat
  flushSize : Nat
  qsize : Nat
  maxCached_pos : 0 < maxCached
  qsize_pos : 0 < qsize

/-- Three translation pages of 2048 slots, one of them cached, and a write buffer of
`flushSize` entries: the configuration of the examples. -/
def Cfg.threePages (flushSize : Nat) : Cfg :=
  ⟨2048, 6144, 1, flushSize, 4, Nat.one_pos, Nat.succ_pos 3⟩

/-- mirrors algorithm/demand/utility.h:25 (`IDX`) -/
def Cfg.idx (cfg : Cfg) (lpa : Nat) : Nat := lpa / cfg.epp

/-- mirrors algorithm/demand/utility.c:102-110 (`get_lpa`) with
`QUADRATIC_PROBING`; the sum is a `uint32_t` -/
def Cfg.getLpa (cfg : Cfg) (hash cnt : Nat) : Nat :=
  (hash + cnt + cnt * cnt) % 2 ^ 32 % (cfg.entries - 1) + 1

/-! ## State -/

inductive CmtState where
  | clean
  | dirty
  deriving DecidableEq, Repr

/-- mirrors `struct cmt_struct`; `tPpa = none` is `UINT32_MAX` and `ω` are the
requests and write-buffer entries that wait in `retry_q`. -/
structure Cmt (ω : Type) where
  tPpa : Option Nat
  pt : Bool
  state : CmtState
  isFlying : Bool
  retryQ : List ω

/-- mirrors `struct cache_member`. -/
structure Cache (ω : Type) where
  cmt : Nat → Cmt ω
  memTable : Nat → Option Nat       -- by lpa; `none` is UINT32_MAX
  lru : List Nat
  nrCached : Nat
  mapInvalid : List Nat             -- invalidate_page(_, MAP) calls
  unsaved : Nat → Bool              -- ghost: updated since it was last written to flash

variable {ω : Type}

/-- mirrors coarse.c:71-104 (`cg_member_init`) -/
def Cache.init : Cache ω :=
  ⟨fun _ => ⟨none, false, .clean, false, []⟩, fun _ => none, [], 0, [], fun _ => false⟩

def Cache.setCmt (c : Cache ω) (i : Nat) (m : Cmt ω) : Cache ω := { c with cmt := update c.cmt i m }

/-! ## Operations -/

/-- mirrors include/data_struct/lru_list.c:48-67 (`lru_update`) -/
def lruUpdate (lru : List Nat) (i : Nat) : List Nat := if i ∈ lru then i :: lru.erase i else lru

/-- mirrors coarse.c:290-299 -/
def cgIsHit (cfg : Cfg) (c : Cache ω) (lpa : Nat) : Bool := (c.cmt (cfg.idx lpa)).pt

/-- mirrors coarse.c:301-303 -/
def cgIsFull (cfg : Cfg) (c : Cache ω) : Bool := decide (cfg.maxCached ≤ c.nrCached)

/-- mirrors coarse.c:262-266 -/
def cgTouch (cfg : Cfg) (c : Cache ω) (lpa : Nat) : Cache ω :=
  { c with lru := lruUpdate c.lru (cfg.idx lpa) }

/-- mirrors coarse.c:305-317; both branches read the same array -/
def cgGetPte (c : Cache ω) (lpa : Nat) : Option Nat := c.memTable lpa

/-- mirrors coarse.c:248-260. `none` is the return value 0; otherwise `w` is
parked, unless the queue is full: the result of `q_enqueue` is ignored. -/
def cgWaitIfFlying (cfg : Cfg) (c : Cache ω) (lpa : Nat) (w : ω) : Option (Option (Cache ω)) :=
  let m := c.cmt (cfg.idx lpa)
  if m.isFlying then
    some ((qEnqueue cfg.flushSize w m.retryQ).map fun q =>
      c.setCmt (cfg.idx lpa) { m with retryQ := q })
  else none

/-- mirrors coarse.c:156-173. `none` is the return value 0; otherwise the page
that is read from flash and the new state. -/
def cgLoad (cfg : Cfg) (c : Cache ω) (lpa : Nat) : Option (Nat × Cache ω) :=
  let m := c.cmt (cfg.idx lpa)
  m.tPpa.map fun t => (t, c.setCmt (cfg.idx lpa) { m with isFlying := true })

/-- mirrors coarse.c:184-211, the first half of `cg_list_up`: make room. The
page written back, if any, goes to `t`. `none`: `lru_pop` returned NULL. -/
def cgEvict (cfg : Cfg) (c : Cache ω) (t : Nat) : Option (Option Nat × Cache ω) :=
  if cgIsFull cfg c then
    match c.lru.getLast? with
    | none => none
    | some v =>
      let m := c.cmt v
      let c := { c with lru := c.lru.dropLast, nrCached := c.nrCached - 1 }
      match m.state with
      | .dirty => some (some t,
          { c.setCmt v { m with pt := false, tPpa := some t, state := .clean } with
            unsaved := update c.unsaved v false })
      | .clean => some (none, c.setCmt v { m with pt := false })
  else some (none, c)

/-- mirrors coarse.c:213-243, the second half of `cg_list_up`: cache the page
and hand out who waited for it. -/
def cgInsert (cfg : Cfg) (c : Cache ω) (lpa : Nat) : List ω × Cache ω :=
  let i := cfg.idx lpa
  let m := c.cmt i
  let c := { c with lru := i :: c.lru, nrCached := c.nrCached + 1 }
  if m.isFlying then (m.retryQ, c.setCmt i { m with pt := true, isFlying := false, retryQ := [] })
  else ([], c.setCmt i { m with pt := true })

/-- The outcome of `cg_list_up`: the page of the write-back (`rc = 1`), who is
woken, and the new state. -/
structure Listed (ω : Type) where
  wrote : Option Nat
  woken : List ω
  cache : Cache ω

/-- mirrors coarse.c:175-246 -/
def cgListUp (cfg : Cfg) (c : Cache ω) (lpa t : Nat) : Option (Listed ω) :=
  (cgEvict cfg c t).map fun (wrote, c) =>
    let (woken, c) := cgInsert cfg c lpa
    ⟨wrote, woken, c⟩

/-- mirrors coarse.c:268-288 -/
def cgUpdate (cfg : Cfg) (c : Cache ω) (lpa ppa : Nat) : Cache ω :=
  let i := cfg.idx lpa
  let m := c.cmt i
  let c := { c with memTable := update c.memTable lpa (some ppa),
                    unsaved := update c.unsaved i true }
  if m.pt then
    let gone := if m.state = .clean then m.tPpa.toList else []
    { c.setCmt i { m with state := .dirty } with
      lru := lruUpdate c.lru i, mapInvalid := c.mapInvalid ++ gone }
  else c

end FlashDriver.Demand
