import FlashDriver.BlockManager.Numbering
import FlashDriver.Lsmtree.Table

/-!
# The device in memory (`lower/posix_memory/posix.c`)

`posix_create` allocates `seg_table` with `NOP` entries. The functions of the
device translate an address by the first block of the checker and test it
twice: `PPA > _NOP`, which lets `NOP` itself pass, and `SOP*PPA >= TS`, where
the product is one of 32-bit numbers and `TS` has 64 bits.

An access outside the table or outside a page is an error here, apart from
`abort()`.

* `guard_iff`: for an address that passes the first test, the second one
  aborts only at `NOP`, and only on a device of less than 4 GiB.
* `address_check`: at which addresses the functions stay inside the table.
* `posixTrimABlock_eq`: on the address of a block of the manager the trim is
  the one on unbounded numbers.
* `erase_write_read`: a page of a trimmed block.
-/
namespace FlashDriver.Lower.Posix

open List Option Function
open Core.Bytes Lsmtree

/-- What `posix_create` (lower/posix_memory/posix.c:157-187) enters from the settings; `PUNIT` is
`BPS`. -/
structure LowerInfo extends BlockManager.Geom where
  sop : UInt32                  -- SOP, PAGESIZE
  sop_pos : 0 < sop.toNat
  fits : toGeom.nop + toGeom.pps ≤ 2 ^ 32

namespace LowerInfo
variable (li : LowerInfo)

/-- `TS`; `TOTALSIZE` is `_NOP` pages. -/
def ts : Nat := li.sop.toNat * li.nop

end LowerInfo

/-- mirrors include/container.h:25-35, what the device uses of a `value_set` -/
structure ValueSet where
  value : Buffer
  dmatag : Int

/-- mirrors include/container.h:83-93, what the device uses of an `algo_req` -/
structure AlgoReq where
  ppa : UInt32
  type : UInt8
  typeLower : UInt8

structure Device where
  segTable : Nat → Option Page          -- seg_table[i].storage
  reqTypeCnt : UInt8 → Nat

inductive Fault
  | abort
  | outOfTable
  | outOfPage
  deriving DecidableEq

/-- A request as `end_req` gets it, with the device then. -/
structure Ended where
  dev : Device
  value : ValueSet
  req : AlgoReq

/-! ## The functions -/

section
variable (li : LowerInfo)

/-- mirrors lower/posix_memory/posix.c:157-187 -/
def posixCreate : Device := ⟨fun _ => none, fun _ => 0⟩

/-- mirrors lower/posix_memory/posix.c:217-219; `startBlock` is `checker.start_block`. -/
def convertPpa (startBlock ppa : UInt32) : UInt32 := ppa - startBlock * UInt32.ofNat li.pps

/-- What writing and reading begin with (lower/posix_memory/posix.c:223-236, 258-275, 448-466). -/
def addressTest {β : Type} (p : UInt32) (value : ValueSet) (rest : Except Fault β) :
    Except Fault β :=
  if p.toNat > li.nop then .error .abort                        -- "address error!"
  else if value.dmatag = -1 then .error .abort                  -- "dmatag -1 error!"
  else if (li.sop * p).toNat ≥ li.ts then .error .abort         -- "write error", "read error"
  else rest

/-- `seg_table[i].storage` -/
def Device.storage (d : Device) (i : UInt32) : Except Fault (Option Page) :=
  if i.toNat < li.nop then .ok (d.segTable i.toNat) else .error .outOfTable

def Device.setStorage (d : Device) (i : UInt32) (p : Option Page) : Except Fault Device :=
  if i.toNat < li.nop then .ok { d with segTable := update d.segTable i.toNat p }
  else .error .outOfTable

/-- `req_type_cnt[type]++`, of `LREQ_TYPE_NUM` counters -/
def Device.count (d : Device) (type : UInt8) : Device :=
  if type < 11 then { d with reqTypeCnt := update d.reqTypeCnt type (d.reqTypeCnt type + 1) }
  else d

/-- mirrors lower/posix_memory/posix.c:213-215 -/
def convertType (type : UInt8) : UInt8 := type &&& 0x7f

/-- `memcpy(dst, src, size)` between pages -/
def memcpy (dst src : Page) (size : UInt32) : Except Fault Page :=
  match store pageSize dst 0 (slice src 0 size.toNat) with
  | some p => .ok p
  | none => .error .outOfPage

/-- mirrors lower/posix_memory/posix.c:239-251 -/
def writePage (p size : UInt32) (value : ValueSet) (req : AlgoReq) (fresh : Page) (d : Device) :
    Except Fault Ended := do
  let d := d.count (convertType req.type)
  match ← d.storage li p with
  | some _ => .error .abort
  | none =>
    let page ← memcpy fresh value.value size
    let d ← d.setStorage li p (some page)
    .ok ⟨d, value, req⟩

/-- mirrors lower/posix_memory/posix.c:220-253; `fresh` is what `malloc` returns. -/
def posixPushData (startBlock ppa size : UInt32) (value : ValueSet) (req : AlgoReq)
    (fresh : Page) (d : Device) : Except Fault Ended :=
  let p := convertPpa li startBlock ppa
  addressTest li p value (writePage li p size value req fresh d)

/-- `if(req->type_lower!=1 && req->type_lower!=0) req->type_lower=0;` -/
def AlgoReq.clearLower (req : AlgoReq) : AlgoReq :=
  if req.typeLower ≠ 1 ∧ req.typeLower ≠ 0 then { req with typeLower := 0 } else req

/-- mirrors lower/posix_memory/posix.c:277-291 -/
def readPage (p size : UInt32) (value : ValueSet) (req : AlgoReq) (d : Device) :
    Except Fault Ended := do
  let d := d.count (convertType req.type)
  match ← d.storage li p with
  | none => .ok ⟨d, value, { req with typeLower := 1 }⟩         -- "not populated!"
  | some page =>
    let v ← memcpy value.value page size
    .ok ⟨d, { value with value := v }, { req with typeLower := 1 }⟩

/-- mirrors lower/posix_memory/posix.c:255-292 -/
def posixPullData (startBlock ppa size : UInt32) (value : ValueSet) (req : AlgoReq) (d : Device) :
    Except Fault Ended :=
  let p := convertPpa li startBlock ppa
  addressTest li p value (readPage li p size value req.clearLower d)

/-- mirrors lower/posix_memory/pipe_lower.c:82-105: the loop is that of `array_find_keyset`. -/
def findPpaFrom (body : Page) (key : Key) : Except Fault UInt32 :=
  match findKeyset body key with
  | none => .error .outOfPage
  | some none => .ok 0xffffffff
  | some (some target) => .ok target.ppa

/-- mirrors lower/posix_memory/posix.c:463-485 -/
def searchPage (p : UInt32) (key : Key) (value : ValueSet) (req : AlgoReq) (d : Device) :
    Except Fault Ended := do
  let d := d.count 1                                            -- MAPPINGR
  match ← d.storage li p with
  | none => .error .abort                                       -- "not populated!"
  | some page =>
    let res ← findPpaFrom page key
    if res = 0xffffffff then .ok ⟨d, value, { req with type := 0xff }⟩
    else .ok ⟨d, value, { req with ppa := res }⟩

/-- mirrors lower/posix_memory/posix.c:446-489 -/
def posixReadHw (startBlock ppa : UInt32) (key : Key) (value : ValueSet) (req : AlgoReq)
    (d : Device) : Except Fault Ended :=
  let p := convertPpa li startBlock ppa
  addressTest li p value (searchPage li p key value req.clearLower d)

/-- The body of the loop of `posix_trim_a_block`. -/
def trimPage (p : UInt32) (d : Device) (i : Nat) : Except Fault Device :=
  d.setStorage li (p + UInt32.ofNat (i * li.bps)) none

/-- mirrors lower/posix_memory/posix.c:324-341 -/
def posixTrimABlock (startBlock ppa : UInt32) (d : Device) : Except Fault Device :=
  let p := convertPpa li startBlock ppa
  if p.toNat > li.nop then .error .abort                        -- "address error!"
  else (range li.ppb).foldlM (trimPage li p) (d.count 0)   -- TRIM

end

/-! ## The two tests -/

section
variable {li : LowerInfo} {p : UInt32}

theorem nop_lt (li : LowerInfo) : li.nop < 2 ^ 32 := by
  have hpps : 0 < li.pps := Nat.mul_pos li.bps_pos li.ppb_pos
  have := li.fits
  omega

theorem guard_iff (hp : p.toNat ≤ li.nop) :
    (li.sop * p).toNat ≥ li.ts ↔ p.toNat = li.nop ∧ li.ts < 2 ^ 32 := by
  rw [UInt32.toNat_mul, LowerInfo.ts]
  have hmul : li.sop.toNat * p.toNat ≤ li.sop.toNat * li.nop := Nat.mul_le_mul_left _ hp
  constructor
  · intro h
    have hmod := Nat.mod_lt (li.sop.toNat * p.toNat) (show 0 < 2 ^ 32 by decide)
    have hle := Nat.mod_le (li.sop.toNat * p.toNat) (2 ^ 32)
    refine ⟨Nat.eq_of_mul_eq_mul_left li.sop_pos ?_, ?_⟩ <;> omega
  · rintro ⟨he, hlt⟩
    rw [he, Nat.mod_eq_of_lt hlt]


/-- No access outside the table; an address that is not in it aborts. -/
def Checked {β : Type} (li : LowerInfo) (p : UInt32) (r : Except Fault β) : Prop :=
  r ≠ .error .outOfTable ∧ (li.nop ≤ p.toNat → r = .error .abort)

theorem addressTest_checked {β : Type} {value : ValueSet} {rest : Except Fault β}
    (hp : p.toNat ≠ li.nop ∨ li.ts < 2 ^ 32)
    (hrest : p.toNat < li.nop → rest ≠ .error .outOfTable) :
    Checked li p (addressTest li p value rest) := by
  unfold addressTest
  split
  · exact ⟨by simp, fun _ => rfl⟩
  · rename_i hle
    split
    · exact ⟨by simp, fun _ => rfl⟩
    · split
      · exact ⟨by simp, fun _ => rfl⟩
      · rename_i hguard
        rw [guard_iff (by omega)] at hguard
        have hlt : p.toNat < li.nop := by omega
        exact ⟨hrest hlt, fun h => by omega⟩

theorem addressTest_passes {β : Type} {value : ValueSet} (rest : Except Fault β)
    (hp : p.toNat = li.nop) (hts : 2 ^ 32 ≤ li.ts) (hd : value.dmatag ≠ -1) :
    addressTest li p value rest = rest := by
  have hguard : ¬ (li.sop * p).toNat ≥ li.ts := by
    rw [guard_iff (by omega)]
    omega
  rw [addressTest, if_neg (by omega), if_neg hd, if_neg hguard]

theorem addressTest_iff {α β : Type} {f : α → ValueSet → Except Fault β}
    (hin : p.toNat < li.nop → ∀ a v, f a v ≠ .error .outOfTable)
    (hout : li.nop ≤ p.toNat → ∀ a v, f a v = .error .outOfTable) (a : α) :
    (∀ a v, Checked li p (addressTest li p v (f a v))) ↔ p.toNat ≠ li.nop ∨ li.ts < 2 ^ 32 := by
  constructor
  · intro h
    by_contra hc
    simp only [not_or, not_not, not_lt] at hc
    obtain ⟨hp, hts⟩ := hc
    have hv := (h a ⟨fun _ => 0, 0⟩).1
    rw [addressTest_passes _ hp hts (by decide)] at hv
    exact hv (hout hp.ge a _)
  · intro hp a v
    exact addressTest_checked hp fun hlt => hin hlt a v

end

/-! ## Writing and reading -/

section
variable {li : LowerInfo} {p : UInt32}

theorem storage_eq (d : Device) (h : p.toNat < li.nop) :
    d.storage li p = .ok (d.segTable p.toNat) := if_pos h

theorem storage_out (d : Device) (h : li.nop ≤ p.toNat) :
    d.storage li p = .error .outOfTable := if_neg (not_lt.mpr h)

theorem setStorage_eq (d : Device) (h : p.toNat < li.nop) (page : Option Page) :
    d.setStorage li p page = .ok { d with segTable := update d.segTable p.toNat page } :=
  if_pos h

theorem setStorage_out (d : Device) (h : li.nop ≤ p.toNat) (page : Option Page) :
    d.setStorage li p page = .error .outOfTable := if_neg (not_lt.mpr h)

theorem memcpy_ne (dst src : Page) (size : UInt32) : memcpy dst src size ≠ .error .outOfTable := by
  unfold memcpy
  split <;> simp

theorem findPpaFrom_ne (body : Page) (key : Key) : findPpaFrom body key ≠ .error .outOfTable := by
  unfold findPpaFrom
  split <;> simp

theorem writePage_in (h : p.toNat < li.nop) (size : UInt32) (value : ValueSet) (req : AlgoReq)
    (fresh : Page) (d : Device) : writePage li p size value req fresh d ≠ .error .outOfTable := by
  unfold writePage
  dsimp only
  rw [storage_eq _ h]
  cases (d.count (convertType req.type)).segTable p.toNat with
  | some _ => simp [bind, Except.bind]
  | none =>
    have hne := memcpy_ne fresh value.value size
    cases hm : memcpy fresh value.value size with
    | error e => simpa [bind, Except.bind, hm] using hne
    | ok page => simp [bind, Except.bind, setStorage_eq _ h]

theorem readPage_in (h : p.toNat < li.nop) (size : UInt32) (value : ValueSet) (req : AlgoReq)
    (d : Device) : readPage li p size value req d ≠ .error .outOfTable := by
  unfold readPage
  dsimp only
  rw [storage_eq _ h]
  cases (d.count (convertType req.type)).segTable p.toNat with
  | none => simp [bind, Except.bind]
  | some page =>
    have hne := memcpy_ne value.value page size
    cases hm : memcpy value.value page size with
    | error e => simpa [bind, Except.bind, hm] using hne
    | ok v => simp [bind, Except.bind, hm]

theorem searchPage_in (h : p.toNat < li.nop) (key : Key) (value : ValueSet) (req : AlgoReq)
    (d : Device) : searchPage li p key value req d ≠ .error .outOfTable := by
  unfold searchPage
  dsimp only
  rw [storage_eq _ h]
  cases (d.count 1).segTable p.toNat with
  | none => simp [bind, Except.bind]
  | some page =>
    have hne := findPpaFrom_ne page key
    cases hm : findPpaFrom page key with
    | error e => simpa [bind, Except.bind, hm] using hne
    | ok res =>
      simp only [bind, Except.bind, hm]
      split <;> simp

theorem storage_first {β : Type} (d : Device) (h : li.nop ≤ p.toNat)
    (k : Option Page → Except Fault β) : (d.storage li p >>= k) = .error .outOfTable := by
  rw [storage_out _ h]
  rfl

variable {startBlock ppa : UInt32}

theorem posixPushData_iff :
    (∀ size value req fresh d, Checked li (convertPpa li startBlock ppa)
      (posixPushData li startBlock ppa size value req fresh d)) ↔
    (convertPpa li startBlock ppa).toNat ≠ li.nop ∨ li.ts < 2 ^ 32 := by
  rw [← addressTest_iff (p := convertPpa li startBlock ppa)
    (f := fun (a : UInt32 × AlgoReq × Page × Device) v =>
      writePage li (convertPpa li startBlock ppa) a.1 v a.2.1 a.2.2.1 a.2.2.2)
    (fun h a v => writePage_in h a.1 v a.2.1 a.2.2.1 a.2.2.2) (fun h a v => storage_first _ h _)
    ⟨0, ⟨0, 0, 0⟩, fun _ => 0, posixCreate⟩]
  exact ⟨fun h a v => h a.1 v a.2.1 a.2.2.1 a.2.2.2,
    fun h size value req fresh d => h ⟨size, req, fresh, d⟩ value⟩

theorem posixPullData_iff :
    (∀ size value req d, Checked li (convertPpa li startBlock ppa)
      (posixPullData li startBlock ppa size value req d)) ↔
    (convertPpa li startBlock ppa).toNat ≠ li.nop ∨ li.ts < 2 ^ 32 := by
  rw [← addressTest_iff (p := convertPpa li startBlock ppa)
    (f := fun (a : UInt32 × AlgoReq × Device) v =>
      readPage li (convertPpa li startBlock ppa) a.1 v a.2.1.clearLower a.2.2)
    (fun h a v => readPage_in h a.1 v _ a.2.2) (fun h a v => storage_first _ h _)
    ⟨0, ⟨0, 0, 0⟩, posixCreate⟩]
  exact ⟨fun h a v => h a.1 v a.2.1 a.2.2, fun h size value req d => h ⟨size, req, d⟩ value⟩

theorem posixReadHw_iff :
    (∀ key value req d, Checked li (convertPpa li startBlock ppa)
      (posixReadHw li startBlock ppa key value req d)) ↔
    (convertPpa li startBlock ppa).toNat ≠ li.nop ∨ li.ts < 2 ^ 32 := by
  rw [← addressTest_iff (p := convertPpa li startBlock ppa)
    (f := fun (a : Key × AlgoReq × Device) v =>
      searchPage li (convertPpa li startBlock ppa) a.1 v a.2.1.clearLower a.2.2)
    (fun h a v => searchPage_in h a.1 v _ a.2.2) (fun h a v => storage_first _ h _)
    ⟨[], ⟨0, 0, 0⟩, posixCreate⟩]
  exact ⟨fun h a v => h a.1 v a.2.1 a.2.2, fun h key value req d => h ⟨key, req, d⟩ value⟩

/-! ## Trimming -/

theorem toNat_page {i : Nat} (hp : p.toNat ≤ li.nop) (hi : i < li.ppb) :
    (p + UInt32.ofNat (i * li.bps)).toNat = p.toNat + i * li.bps := by
  have hfits := li.fits
  have hmul : i * li.bps < li.pps := by
    rw [BlockManager.Geom.pps, mul_comm]
    exact Nat.mul_lt_mul_of_pos_left hi li.bps_pos
  have hof : (UInt32.ofNat (i * li.bps)).toNat = i * li.bps :=
    UInt32.toNat_ofNat_of_lt' (show i * li.bps < 2 ^ 32 by omega)
  rw [UInt32.toNat_add, hof, Nat.mod_eq_of_lt (by omega)]

theorem foldlM_trimPage (hp : p.toNat ≤ li.nop) (d : Device) {n : Nat} (hn : n ≤ li.ppb)
    (h : ∀ i, i < n → p.toNat + i * li.bps < li.nop) :
    (range n).foldlM (trimPage li p) d = .ok { d with
        segTable := (range n).foldl
          (fun t i => update t (p.toNat + i * li.bps) none) d.segTable } := by
  induction n with
  | zero => rfl
  | succ n ih =>
    have hpage := toNat_page hp (show n < li.ppb by omega)
    rw [range_succ, foldlM_append, ih (by omega) fun i hi => h i (by omega), foldl_append]
    have hlt := h n (Nat.lt_succ_self n)
    rw [← hpage] at hlt
    change (trimPage li p _ n >>= fun d' => pure d') = _
    rw [trimPage, setStorage_eq _ hlt, hpage]
    rfl

theorem foldlM_trimPage_out (hp : p.toNat ≤ li.nop) (d : Device) {n : Nat} (hn : n ≤ li.ppb)
    (h : ∃ i, i < n ∧ li.nop ≤ p.toNat + i * li.bps) :
    (range n).foldlM (trimPage li p) d = .error .outOfTable := by
  induction n with
  | zero =>
    obtain ⟨i, hi, -⟩ := h
    omega
  | succ n ih =>
    rw [range_succ, foldlM_append]
    by_cases hex : ∃ i, i < n ∧ li.nop ≤ p.toNat + i * li.bps
    · rw [ih (by omega) hex]
      rfl
    · have hall : ∀ i, i < n → p.toNat + i * li.bps < li.nop := by
        simpa using hex
      obtain ⟨i, hi, hout⟩ := h
      have hin : i = n := by
        by_contra hne
        exact hex ⟨i, by omega, hout⟩
      subst hin
      rw [foldlM_trimPage hp d (by omega) hall]
      change (trimPage li p _ i >>= fun d' => pure d') = _
      rw [trimPage, setStorage_out _ (by rw [toNat_page hp (by omega)]; exact hout)]
      rfl

theorem pages_lt_iff (a : Nat) :
    (∀ i, i < li.ppb → a + i * li.bps < li.nop) ↔ a + (li.ppb - 1) * li.bps < li.nop := by
  have hpos := li.ppb_pos
  constructor
  · exact fun h => h _ (by omega)
  · intro h i hi
    have hle : i * li.bps ≤ (li.ppb - 1) * li.bps := Nat.mul_le_mul_right _ (by omega)
    omega

theorem posixTrimABlock_iff :
    (∀ d, Checked li (convertPpa li startBlock ppa) (posixTrimABlock li startBlock ppa d)) ↔
    li.nop < (convertPpa li startBlock ppa).toNat ∨
      (convertPpa li startBlock ppa).toNat + (li.ppb - 1) * li.bps < li.nop := by
  unfold posixTrimABlock
  dsimp only
  generalize convertPpa li startBlock ppa = p
  by_cases hlt : li.nop < p.toNat
  · simp only [hlt, true_or, iff_true]
    exact fun d => ⟨by simp, fun _ => rfl⟩
  · simp only [hlt, false_or]
    rw [← pages_lt_iff]
    constructor
    · intro h
      by_contra hc
      have hex : ∃ i, i < li.ppb ∧ li.nop ≤ p.toNat + i * li.bps := by simpa using hc
      exact (h posixCreate).1 (foldlM_trimPage_out (by omega) _ (le_rfl) hex)
    · intro h d
      rw [foldlM_trimPage (by omega) _ (le_rfl) h]
      have h0 := h 0 li.ppb_pos
      exact ⟨by simp, fun hle => by omega⟩

theorem posixTrimABlock_eq (d : Device) {b : Nat} (hb : b < li.nos * li.bps) :
    ∃ t d', BlockManager.posixTrimABlock li.toGeom d.segTable (li.getBlockPpa b) = some t ∧
      posixTrimABlock li 0 (UInt32.ofNat (li.getBlockPpa b)) d = .ok d' ∧ d'.segTable = t := by
  have hpages : ∀ i, i < li.ppb → li.getBlockPpa b + i * li.bps < li.nop := by
    intro i hi
    have hdiv : b / li.bps < li.nos := (Nat.div_lt_iff_lt_mul li.bps_pos).mpr hb
    have hseg : (b / li.bps + 1) * li.pps ≤ li.nos * li.pps := Nat.mul_le_mul_right _ hdiv
    have hoff := li.offset_lt b hi
    rw [Nat.succ_mul] at hseg
    unfold BlockManager.Geom.getBlockPpa BlockManager.Geom.blockNum BlockManager.Geom.nop
    omega
  have hfirst := hpages 0 li.ppb_pos
  have hnop := nop_lt li
  have hconv : (convertPpa li 0 (UInt32.ofNat (li.getBlockPpa b))).toNat = li.getBlockPpa b := by
    simp only [convertPpa, UInt32.zero_mul, UInt32.sub_zero]
    exact UInt32.toNat_ofNat_of_lt' (show li.getBlockPpa b < 2 ^ 32 by omega)
  rw [posixTrimABlock, BlockManager.posixTrimABlock]
  rw [hconv, if_neg (by omega), if_neg (by omega), foldlM_trimPage (by omega) _ (le_rfl)
    (by rw [hconv]; exact hpages), hconv]
  exact ⟨_, _, rfl, rfl, rfl⟩

theorem addressTest_eq {β : Type} {value : ValueSet} (rest : Except Fault β) (hp : p.toNat < li.nop)
    (hd : value.dmatag ≠ -1) : addressTest li p value rest = rest := by
  rw [addressTest, if_neg (by omega), if_neg hd, if_neg (by rw [guard_iff (by omega)]; omega)]

theorem memcpy_eq (dst src : Page) {size : UInt32} (h : size.toNat ≤ pageSize) :
    memcpy dst src size = .ok (write dst 0 (slice src 0 size.toNat)) := by
  rw [memcpy, store_eq (by simpa using h)]

theorem count_segTable (d : Device) (t : UInt8) : (d.count t).segTable = d.segTable := by
  unfold Device.count
  split <;> rfl

/-- A page of a trimmed block can be written and is read back; of the others, those of the block are
empty and those of other blocks kept. -/
theorem erase_write_read (d : Device) (value dst : ValueSet) (req req' : AlgoReq) (fresh : Page)
    {size : UInt32} (hp : p.toNat < li.nop) (hsize : size.toNat ≤ pageSize)
    (hv : value.dmatag ≠ -1) (hdst : dst.dmatag ≠ -1) :
    ∃ d1 e1 e2, posixTrimABlock li 0 (UInt32.ofNat (li.getBlockPpa (li.getBlockIdx p.toNat))) d = .ok d1 ∧
      posixPushData li 0 p size value req fresh d1 = .ok e1 ∧
      posixPullData li 0 p size dst req' e1.dev = .ok e2 ∧
      slice e2.value.value 0 size.toNat = slice value.value 0 size.toNat ∧
      ∀ q ≠ p.toNat, e1.dev.segTable q =
        if li.getBlockIdx q = li.getBlockIdx p.toNat then none else d.segTable q := by
  have hb : li.getBlockIdx p.toNat < li.nos * li.bps := by
    have hseg : p.toNat / li.pps < li.nos := (Nat.div_lt_iff_lt_mul li.pps_pos).mpr hp
    have hmul := Nat.mul_le_mul_right li.bps hseg
    have hmod := Nat.mod_lt p.toNat li.bps_pos
    rw [Nat.succ_mul] at hmul
    exact (Nat.add_lt_add_left hmod _).trans_le hmul
  have hconv : convertPpa li 0 p = p := by simp [convertPpa]
  obtain ⟨_, d1, ht, hd1, rfl⟩ := posixTrimABlock_eq d hb
  obtain ⟨_, ht', hclear⟩ := BlockManager.posixTrimABlock_spec d.segTable hb
  obtain rfl := some.inj (ht.symm.trans ht')
  have hnone : d1.segTable p.toNat = none := by rw [hclear, if_pos rfl]
  have hself := fun m => slice_write_self m 0 (slice value.value 0 size.toNat)
  simp only [length_slice] at hself
  refine ⟨d1, ?_⟩
  simp only [posixPushData, posixPullData, hconv, addressTest_eq _ hp hv, addressTest_eq _ hp hdst,
    writePage, readPage, storage_eq _ hp, setStorage_eq _ hp, count_segTable, hnone, memcpy_eq _ _ hsize,
    bind, Except.bind]
  refine ⟨_, _, hd1, rfl, by simp only [update_self]; rfl, ?_, fun q hq => ?_⟩
  · rw [hself fresh, hself]
  · exact (update_of_ne hq _ _).trans (hclear q)

/-- Which addresses the functions of the device check: writing and reading all but `NOP`, which a
device of less than 4 GiB rejects as well; trimming those whose whole block lies in the table,
and those above `NOP`. -/
theorem address_check (li : LowerInfo) (startBlock ppa : UInt32) :
    ((∀ size value req fresh d, Checked li (convertPpa li startBlock ppa)
        (posixPushData li startBlock ppa size value req fresh d)) ↔
      (convertPpa li startBlock ppa).toNat ≠ li.nop ∨ li.ts < 2 ^ 32) ∧
    ((∀ size value req d, Checked li (convertPpa li startBlock ppa)
        (posixPullData li startBlock ppa size value req d)) ↔
      (convertPpa li startBlock ppa).toNat ≠ li.nop ∨ li.ts < 2 ^ 32) ∧
    ((∀ key value req d, Checked li (convertPpa li startBlock ppa)
        (posixReadHw li startBlock ppa key value req d)) ↔
      (convertPpa li startBlock ppa).toNat ≠ li.nop ∨ li.ts < 2 ^ 32) ∧
    ((∀ d, Checked li (convertPpa li startBlock ppa) (posixTrimABlock li startBlock ppa d)) ↔
      li.nop < (convertPpa li startBlock ppa).toNat ∨
        (convertPpa li startBlock ppa).toNat + (li.ppb - 1) * li.bps < li.nop) :=
  ⟨posixPushData_iff, posixPullData_iff, posixReadHw_iff, posixTrimABlock_iff⟩

end

theorem settings_fits : BlockManager.settings.nop + BlockManager.settings.pps ≤ 2 ^ 32 := by decide

/-- The SLC build: 64 GiB in pages of 8 KiB. -/
def settings : LowerInfo := { BlockManager.settings with
  sop := 8192, sop_pos := Nat.succ_pos 8191, fits := settings_fits }

/-- Two pages of block 9 and one of block 10 were written. -/
def threeWritten : Device := ⟨fun q => if q ∈ [9, 10, 73] then some fun _ => 1 else none, fun _ => 0⟩

theorem erase_write_read_written : ∃ d1 e1 e2,
    posixTrimABlock settings 0 (UInt32.ofNat (settings.getBlockPpa 9)) threeWritten = .ok d1 ∧
    posixPushData settings 0 9 512 ⟨fun _ => 7, 0⟩ ⟨9, 0, 0⟩ (fun _ => 0) d1 = .ok e1 ∧
    posixPullData settings 0 9 512 ⟨fun _ => 0, 0⟩ ⟨9, 0, 0⟩ e1.dev = .ok e2 ∧
    slice e2.value.value 0 512 = replicate 512 7 ∧
    e1.dev.segTable 73 = none ∧ e1.dev.segTable 10 = some fun _ => 1 := by
  obtain ⟨d1, e1, e2, htrim, hpush, hpull, hdata, hother⟩ := @erase_write_read settings 9 threeWritten
    ⟨fun _ => 7, 0⟩ ⟨fun _ => 0, 0⟩ _ _ _ 512 (by decide) (by decide) (by decide) (by decide)
  refine ⟨d1, e1, e2, htrim, hpush, hpull, hdata.trans ?_, ?_, ?_⟩
  · simp [slice]
  · exact hother 73 (by decide)
  · exact hother 10 (by decide)

/-- The address `NOP` passes both tests: `8192 * 2^23` is zero in 32 bits. -/
theorem nop_passes :
    (∀ size value req d, value.dmatag ≠ -1 →
      posixPullData settings 0 8388608 size value req d = .error .outOfTable) ∧
    ∀ d, posixTrimABlock settings 0 8388600 d = .error .outOfTable := by
  constructor
  · intro size value req d hd
    have hp : (convertPpa settings 0 8388608).toNat = settings.nop := by decide
    rw [posixPullData, addressTest_passes _ hp (by decide) hd]
    exact storage_first _ hp.ge _
  · intro d
    have hp : (convertPpa settings 0 8388600).toNat = 8388600 := by decide
    rw [posixTrimABlock, hp, if_neg (by decide)]
    exact foldlM_trimPage_out (by decide) _ (le_rfl) ⟨1, by decide, by decide⟩

end FlashDriver.Lower.Posix
