import FlashDriver.Core.LTS
import FlashDriver.Demand.Cache

/-!
# The demand FTL (`algorithm/demand/rw.c`)

`p_main` executes one request at a time. A read runs `__demand_read` until it
is answered or has to wait, for the device or for another load of the same
translation page. A write that finds the buffer full first flushes it: every
entry is given a page, and `_do_wb_mapping_update` then places the entries in
the mapping table by open addressing, dropping an entry whenever it has to wait
and taking it up again from `wb_retry_q` or `wb_master_q`. Device operations
complete at any time and in any order; `demand_end_req` then queues whoever
waited.

The system takes the labelled steps of `Lbl`; one pass through the loop of
`_do_wb_mapping_update` is `take` followed by `probe`s, one for each slot the
entry looks at. Pages come from `get_dpage` and `get_tpage`: `flush` carries
the data pages assigned to the entries, of which `get_dpage` promises that they
hold no valid data (`freshPages`), and `t` is the page `get_tpage` returns.
Range queries and the garbage collector are not part of the model.

`step` is `none` when the step is not possible or the source aborts or
misreads memory there.
-/
namespace FlashDriver.Demand

open Function

/-- mirrors demand/d_type.h (`jump_t`) -/
inductive Jump where
  | load | list | evict | complete | read | write | update
  deriving DecidableEq, Repr

/-- What waits in a queue or on the device: a read request or an entry of the
write buffer. -/
inductive Waiter (κ : Type) where
  | read (id : Nat) (key : κ)
  | entry (key : κ)
  deriving DecidableEq, Repr

/-- `hash_params->cnt`, and `params->jump` if `params` is set. -/
structure Ctx where
  cnt : Nat
  jump : Option Jump
  deriving DecidableEq, Repr

/-- An operation the device has not completed, with whom it belongs to. -/
inductive Op (κ : Type) where
  | dataRead (w : Waiter κ) (ppa : Nat)
  | mapRead (w : Waiter κ) (tPpa : Nat)
  | mapWrite (w : Waiter κ) (tPpa : Nat)
  deriving DecidableEq, Repr

inductive Res (υ : Type) where
  | notFound
  | value (v : υ)
  deriving DecidableEq, Repr

/-- The configuration with the hash function of the keys. -/
structure Sys (κ : Type) extends Cfg where
  hash : κ → Nat

variable {κ υ : Type}

def Waiter.key : Waiter κ → κ
  | .read _ k => k
  | .entry k => k

def Waiter.isEntry : Waiter κ → Bool
  | .read _ _ => false
  | .entry _ => true

def Op.owner : Op κ → Waiter κ
  | .dataRead w _ => w
  | .mapRead w _ => w
  | .mapWrite w _ => w

def Op.dataPage : Op κ → Option Nat
  | .dataRead _ p => some p
  | .mapRead _ _ => none
  | .mapWrite _ _ => none

/-- The slot that probe `cnt` for key `k` looks at. -/
def Sys.slot (sys : Sys κ) (k : κ) (cnt : Nat) : Nat := sys.getLpa (sys.hash k) cnt

structure St (κ υ : Type) where
  cache : Cache (Waiter κ)
  wb : List (κ × υ)                  -- d_member.write_buffer
  flushing : Option (κ × υ)          -- the write request that waits for the flush
  ppa : κ → Nat                      -- wb_entry->ppa
  ctx : Waiter κ → Ctx
  masterQ : List (Waiter κ)          -- d_member.wb_master_q
  retryQ : List (Waiter κ)           -- d_member.wb_retry_q
  cur : Option κ                     -- the entry the loop has taken
  updated : List κ                   -- the entries counted by `updated`
  maxTry : Nat                       -- d_member.max_try
  htable : Nat → List Nat            -- d_member.hash_table
  flash : Nat → Option (κ × υ)
  valid : Nat → Bool                 -- validity of the data pages
  invalid : List Nat                 -- invalidate_page(_, DATA) calls
  dev : List (Op κ)
  rq : List (Waiter κ)               -- the retry_q of p_main
  nextId : Nat
  done : List (Nat × κ × Res υ)      -- answered reads
  lost : List (Waiter κ)             -- ghost: dropped by a failed q_enqueue

def St.init : St κ υ where
  cache := Cache.init
  wb := []
  flushing := none
  ppa := fun _ => 0
  ctx := fun _ => ⟨0, none⟩
  masterQ := []
  retryQ := []
  cur := none
  updated := []
  maxTry := 0
  htable := fun _ => []
  flash := fun _ => none
  valid := fun _ => false
  invalid := []
  dev := []
  rq := []
  nextId := 0
  done := []
  lost := []

/-- The slot `w` is at. -/
def St.lpa (sys : Sys κ) (s : St κ υ) (w : Waiter κ) : Nat := sys.slot w.key (s.ctx w).cnt

def St.setCtx [DecidableEq κ] (s : St κ υ) (w : Waiter κ) (x : Ctx) : St κ υ :=
  { s with ctx := update s.ctx w x }

/-- `get_iparams(..)->jump = j`, and `free_iparams` for `none`. -/
def St.setJump [DecidableEq κ] (s : St κ υ) (w : Waiter κ) (j : Option Jump) : St κ υ :=
  s.setCtx w ⟨(s.ctx w).cnt, j⟩

/-- `h_params->cnt++` -/
def St.bump [DecidableEq κ] (s : St κ υ) (w : Waiter κ) : St κ υ :=
  s.setCtx w ⟨(s.ctx w).cnt + 1, (s.ctx w).jump⟩

def St.drop (s : St κ υ) (w : Waiter κ) : St κ υ := { s with lost := s.lost ++ [w] }

def St.issue (s : St κ υ) (op : Op κ) : St κ υ := { s with dev := s.dev ++ [op] }

/-- `q_enqueue(wb_entry, d_member.wb_retry_q)` for an entry,
`inf_assign_try(req)` for a read. -/
def St.retry (sys : Sys κ) (s : St κ υ) (w : Waiter κ) : St κ υ :=
  match w with
  | .entry _ => match qEnqueue sys.flushSize w s.retryQ with
    | some q => { s with retryQ := q }
    | none => s.drop w
  | .read _ _ => match qEnqueue sys.qsize w s.rq with
    | some q => { s with rq := q }
    | none => s.drop w

/-- `q_enqueue(wb_entry, d_member.wb_master_q)` -/
def St.restart (sys : Sys κ) (s : St κ υ) (w : Waiter κ) : St κ υ :=
  match qEnqueue sys.flushSize w s.masterQ with
  | some q => { s with masterQ := q }
  | none => s.drop w

/-! ## What reads and flush entries share -/

section Shared

variable [DecidableEq κ] (sys : Sys κ)

/-- mirrors rw.c:124-128 and rw.c:307-310: wait for a load that is under way,
or start one. `none`: `load` returned 0. -/
def waitOrLoad (s : St κ υ) (w : Waiter κ) : Option (St κ υ) :=
  match cgWaitIfFlying sys.toCfg s.cache (s.lpa sys w) w with
  | some (some c) => some { s with cache := c }
  | some none => some (s.drop w)
  | none => (cgLoad sys.toCfg s.cache (s.lpa sys w)).map fun (t, c) =>
      { (s.setJump w (some .list)).issue (.mapRead w t) with cache := c }

/-- mirrors coarse.c:217-243: whoever waited for the page goes on with
`GOTO_COMPLETE`. The queue holds untyped pointers; `none`: one of the other
kind than the caller's. -/
def wake (lead : Waiter κ) : List (Waiter κ) → St κ υ → Option (St κ υ)
  | [], s => some s
  | w :: ws, s =>
    if w.isEntry = lead.isEntry then
      wake lead ws ((s.setJump w (some .complete)).retry sys w)
    else none

/-- `list_up` on behalf of `w`, with its return code. -/
def listUp (s : St κ υ) (w : Waiter κ) (t : Nat) : Option (Bool × St κ υ) :=
  match cgListUp sys.toCfg s.cache (s.lpa sys w) t with
  | none => none
  | some r =>
    let s := { s with cache := r.cache }
    match r.wrote with
    | some t => (wake sys w r.woken ((s.setJump w (some .complete)).issue (.mapWrite w t))).map
        fun s => (true, s)
    | none => (wake sys w r.woken s).map fun s => (false, s)

end Shared

/-! ## Reads -/

section Reads

variable [DecidableEq κ] (sys : Sys κ)

/-- `end_req` of a read, after `FS_NOTFOUND_T` or with its value. -/
def St.answer (s : St κ υ) (i : Nat) (k : κ) (r : Res υ) : St κ υ :=
  { s with done := s.done ++ [(i, k, r)] }

/-- A read request arrives with `make_hash_params`. -/
def St.arrive (s : St κ υ) (k : κ) : St κ υ :=
  { s.setCtx (.read s.nextId k) ⟨0, none⟩ with nextId := s.nextId + 1 }

/-- mirrors rw.c:141-154 (`cache_check_complete` and `read_actual_dpage`) -/
def readCheckComplete (s : St κ υ) (i : Nat) (k : κ) : St κ υ :=
  match cgGetPte s.cache (s.lpa sys (.read i k)) with
  | none => s.answer i k .notFound
  | some p => s.issue (.dataRead (.read i k) p)

/-- mirrors rw.c:123-133 (`cache_load`) -/
def readCacheLoad (s : St κ υ) (i : Nat) (k : κ) : St κ υ :=
  match waitOrLoad sys s (.read i k) with
  | some s => s
  | none => s.answer i k .notFound

/-- mirrors rw.c:134-138 (`cache_list_up`) -/
def readListUp (s : St κ υ) (i : Nat) (k : κ) (t : Nat) : Option (St κ υ) :=
  (listUp sys s (.read i k) t).map fun
    | (true, s) => s
    | (false, s) => readCheckComplete sys s i k

/-- mirrors rw.c:94-154, from the jump on. `GOTO_READ` reaches `data_read` with
the initial `pte`. -/
def readResume (s : St κ υ) (i : Nat) (k : κ) (t : Nat) : Option Jump → Option (St κ υ)
  | some .load => some (readCacheLoad sys s i k)
  | some .list | some .evict => readListUp sys s i k t
  | some .complete => some (readCheckComplete sys s i k)
  | some .read => some (s.answer i k .notFound)
  | some .write | some .update => none
  | none =>
    match s.wb.lookup k with
    | some v => some (s.answer i k (.value v))
    | none =>
      if cgIsHit sys.toCfg s.cache (s.lpa sys (.read i k)) then
        let c := cgTouch sys.toCfg s.cache (s.lpa sys (.read i k))
        some (readCheckComplete sys { s with cache := c } i k)
      else some (readCacheLoad sys s i k)

/-- mirrors rw.c:63-158 (`__demand_read`) and demand.c:441-457 -/
def demandRead (s : St κ υ) (i : Nat) (k : κ) (t : Nat) : Option (St κ υ) :=
  if s.maxTry < (s.ctx (.read i k)).cnt then some (s.answer i k .notFound)
  else readResume sys (s.setJump (.read i k) none) i k t (s.ctx (.read i k)).jump

end Reads

/-! ## The flush -/

section Flush

variable [DecidableEq κ] (sys : Sys κ)

/-- mirrors d_htable.c:26-35; the table has `wb_flush_size * 2` buckets -/
def htableInsert (s : St κ υ) (ppa lpa : Nat) : Nat → List Nat :=
  let b := ppa % (sys.flushSize * 2)
  update s.htable b (s.htable b ++ [lpa])

/-- mirrors d_htable.c:37-46 -/
def htableFind (s : St κ υ) (ppa lpa : Nat) : Bool :=
  (s.htable (ppa % (sys.flushSize * 2))).contains lpa

/-- mirrors rw.c:357-369 (`wb_direct_update`) -/
def wbDirectUpdate (s : St κ υ) (k : κ) : St κ υ :=
  let lpa := s.lpa sys (.entry k)
  { s with
    cache := cgUpdate sys.toCfg s.cache lpa (s.ppa k)
    updated := s.updated ++ [k]
    htable := htableInsert sys s (s.ppa k) lpa
    maxTry := max (s.ctx (.entry k)).cnt s.maxTry }

/-- `invalidate_page(bm, ppa, DATA)` -/
def St.invalidate (s : St κ υ) (p : Nat) : St κ υ :=
  { s with valid := update s.valid p false, invalid := s.invalid ++ [p] }

/-- mirrors rw.c:349-355 (`wb_update`) -/
def wbUpdate (s : St κ υ) (k : κ) : St κ υ :=
  match cgGetPte s.cache (s.lpa sys (.entry k)) with
  | some p => wbDirectUpdate sys (s.invalidate p) k
  | none => wbDirectUpdate sys s k

/-- mirrors rw.c:317-346 (`wb_data_check`). A slot taken earlier in this flush
sends the entry to its next slot at once (`goto wb_retry`). -/
def wbDataCheck (s : St κ υ) (k : κ) : St κ υ :=
  match cgGetPte s.cache (s.lpa sys (.entry k)) with
  | none => wbDirectUpdate sys s k
  | some p =>
    if htableFind sys s p (s.lpa sys (.entry k)) then
      { s.bump (.entry k) with cur := some k }
    else s.issue (.dataRead (.entry k) p)

/-- mirrors rw.c:312-314 (`wb_cache_list_up`) -/
def wbListUp (s : St κ υ) (k : κ) (t : Nat) : Option (St κ υ) :=
  (listUp sys s (.entry k) t).map fun
    | (true, s) => s
    | (false, s) => wbDataCheck sys s k

/-- mirrors rw.c:306-314 (`wb_cache_load`) -/
def wbCacheLoad (s : St κ υ) (k : κ) (t : Nat) : Option (St κ υ) :=
  match waitOrLoad sys s (.entry k) with
  | some s => some s
  | none => wbListUp sys s k t

/-- mirrors rw.c:282-285: the entry is in hand and its `params` are freed -/
def St.pickUp (s : St κ υ) (k : κ) : St κ υ := { s.setJump (.entry k) none with cur := none }

/-- mirrors rw.c:286-315, from the jump on. -/
def wbResume (s : St κ υ) (k : κ) (t : Nat) : Option Jump → Option (St κ υ)
  | some .load => wbCacheLoad sys s k t
  | some .list => wbListUp sys s k t
  | some .complete => some (wbDataCheck sys s k)
  | some .update => some (wbUpdate sys s k)
  | some .evict | some .read | some .write => none
  | none =>
    if cgIsHit sys.toCfg s.cache (s.lpa sys (.entry k)) then
      let c := cgTouch sys.toCfg s.cache (s.lpa sys (.entry k))
      some (wbDataCheck sys { s with cache := c } k)
    else wbCacheLoad sys s k t

/-- mirrors rw.c:272-369, from `wb_retry` on, for the entry taken. -/
def wbProbe (s : St κ υ) (k : κ) (t : Nat) : Option (St κ υ) :=
  wbResume sys (s.pickUp k) k t (s.ctx (.entry k)).jump

/-- mirrors rw.c:265-270: the next entry, from `wb_retry_q` first. -/
def takeEntry (s : St κ υ) : Option (St κ υ) :=
  match s.retryQ, s.masterQ with
  | .entry k :: q, _ => some { s with retryQ := q, cur := some k }
  | [], .entry k :: q => some { s with masterQ := q, cur := some k }
  | _, _ => none

/-- What `get_dpage` promises of the pages it hands out: each is handed out
once, holds no valid data, and nobody is reading it. -/
def freshPages (s : St κ υ) (assign : κ → Nat) : Prop :=
  (s.wb.map fun e => assign e.1).Nodup ∧
  ∀ e ∈ s.wb, s.valid (assign e.1) = false ∧ ∀ op ∈ s.dev, op.dataPage ≠ some (assign e.1)

instance (s : St κ υ) (assign : κ → Nat) : Decidable (freshPages s assign) :=
  inferInstanceAs (Decidable (_ ∧ _))

/-- mirrors rw.c:163-261: assign a page to each entry and queue them all. -/
def beginFlush (s : St κ υ) (w : κ × υ) (assign : κ → Nat) : St κ υ :=
  { s with
    flushing := some w
    ppa := assign
    ctx := fun x => if x.isEntry then ⟨0, none⟩ else s.ctx x
    valid := fun p => s.valid p || (s.wb.any fun e => assign e.1 == p)
    masterQ := s.masterQ ++ s.wb.map fun e => .entry e.1
    updated := [] }

/-- `skiplist_insert`: the buffer is sorted and a key it holds is overwritten. -/
def wbInsert [LinearOrder κ] (k : κ) (v : υ) : List (κ × υ) → List (κ × υ)
  | [] => [(k, v)]
  | (k', v') :: wb =>
    if k = k' then (k, v) :: wb
    else if k < k' then (k, v) :: (k', v') :: wb
    else (k', v') :: wbInsert k v wb

/-- mirrors rw.c:386-409 (`_do_wb_flush`), once the device is idle. -/
def endFlush (s : St κ υ) : St κ υ :=
  { s with
    flash := fun p => (s.wb.find? fun e => s.ppa e.1 = p).or (s.flash p)
    htable := fun _ => []
    wb := []
    flushing := none }

end Flush

/-! ## Completions and steps -/

section Steps

variable [LinearOrder κ] (sys : Sys κ)

/-- mirrors rw.c:451-561 (`demand_end_req`) -/
def demandEndReq (s : St κ υ) : Op κ → St κ υ
  | .dataRead (.read i k) p => match s.flash p with
    | some (k', v) =>
      if k = k' then s.answer i k (.value v)
      else (s.bump (.read i k)).retry sys (.read i k)
    | none => (s.bump (.read i k)).retry sys (.read i k)
  | .dataRead (.entry k) p =>
    if (s.flash p).map Prod.fst = some k then
      (s.setJump (.entry k) (some .update)).retry sys (.entry k)
    else (s.bump (.entry k)).restart sys (.entry k)
  | .mapRead w _ => s.retry sys w
  | .mapWrite w _ => s.retry sys w

inductive Lbl (κ υ : Type) where
  | read (k : κ) (t : Nat)                          -- p_main takes a new read
  | resume (t : Nat)                                -- p_main takes a read from its retry_q
  | write (k : κ) (v : υ)                           -- a write with room in the buffer
  | flush (k : κ) (v : υ) (assign : κ → Nat)        -- a write that finds it full
  | take                                            -- the loop takes an entry
  | probe (t : Nat)                                 -- and looks at its slot
  | finish                                          -- the loop is done
  | complete (n : Nat)                              -- the device completes an operation

def step (s : St κ υ) : Lbl κ υ → Option (St κ υ)
  | .read k t =>
    if s.flushing.isSome then none else demandRead sys (s.arrive k) s.nextId k t
  | .resume t => match s.flushing, s.rq with
    | none, .read i k :: q => demandRead sys { s with rq := q } i k t
    | _, _ => none
  | .write k v =>
    if s.flushing.isSome ∨ s.wb.length = sys.flushSize then none
    else some { s with wb := wbInsert k v s.wb }
  | .flush k v assign =>
    if s.flushing.isNone ∧ s.wb.length = sys.flushSize then some (beginFlush s (k, v) assign)
    else none
  | .take =>
    if s.flushing.isSome ∧ s.cur = none ∧ s.updated.length < sys.flushSize then takeEntry s
    else none
  | .probe t => match s.cur with
    | some k => wbProbe sys s k t
    | none => none
  | .finish => match s.flushing with
    | some (k, v) =>
      if s.cur = none ∧ sys.flushSize ≤ s.updated.length ∧ s.masterQ = [] ∧ s.retryQ = [] ∧
          s.dev = [] then
        let s := endFlush s
        some { s with wb := wbInsert k v s.wb }
      else none
    | none => none
  | .complete n => s.dev[n]?.map fun op => demandEndReq sys { s with dev := s.dev.eraseIdx n } op

/-- What `get_dpage` promises of the pages a step assigns. -/
def promised (s : St κ υ) : Lbl κ υ → Prop
  | .flush _ _ assign => freshPages s assign
  | _ => True

instance (s : St κ υ) : (l : Lbl κ υ) → Decidable (promised s l)
  | .flush _ _ assign => inferInstanceAs (Decidable (freshPages s assign))
  | .read _ _ => isTrue trivial
  | .resume _ => isTrue trivial
  | .write _ _ => isTrue trivial
  | .take => isTrue trivial
  | .probe _ => isTrue trivial
  | .finish => isTrue trivial
  | .complete _ => isTrue trivial

/-- Runs of the FTL, given pages as `get_dpage` promises them. -/
def demandLTS : Core.LTS (St κ υ) (Lbl κ υ) where
  init s := s = St.init
  step s l s' := step sys s l = some s' ∧ promised s l

end Steps

end FlashDriver.Demand
