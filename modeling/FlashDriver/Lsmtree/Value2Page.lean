import FlashDriver.Lsmtree.DataGc

/-!
# Writing the values of a memtable (`skiplist_make_valueset`)

`skiplist_make_valueset` puts the entries of the memtable into buckets by the
length of their values in pieces. Here are the values shorter than a page,
which `variable_value2Page` packs into pages.

* `flush_spec`: for a source whose pages are new, cleared and left alone while
  the call runs. The buckets end empty, every value is in one page at the
  address it is given, no two overlap, and the scan of `__gc_data` finds in the
  footers the values that were placed, and nothing else. Which pages the data
  partition gives, and when they are left alone, is in
  `Lsmtree/DataPartition.lean`.
* `value2Page_pages`: the number of pages, against any packing. It needs of the
  pages only that the check of `pm_get_oob` lets them pass.
-/
namespace FlashDriver.Lsmtree.Flush

open List Option Function
open Core.Packing Lsmtree.Variable
open Lsmtree.Gc (DataPage scanPage scanFrom)

/-- A memtable entry with a value shorter than a page. -/
structure Entry where
  key : Key
  length : Nat
  value : Nat → UInt8
  pos : 1 ≤ length
  lt : length < npc

/-- mirrors algorithm/Lsmtree/skiplist.c:656-671; an entry is taken from the
end of its bucket, which is the head of the list -/
def makeBuckets (es : List Entry) : Buckets Entry :=
  es.foldl (fun b e => update b e.length (e :: b e.length)) fun _ => []

def memcpy (dst : Nat → UInt8) (ptr : Nat) (src : Nat → UInt8) (n : Nat) : Nat → UInt8 :=
  fun i => if ptr ≤ i ∧ i < ptr + n then src (i - ptr) else dst i

/-- The buffer of a page after the copies; `raw` is what `inf_get_valueset` gave. -/
def buffer (raw : Nat → UInt8) (us : List (Put Entry)) : Nat → UInt8 :=
  us.foldl (fun b u => memcpy b u.ptr u.item.value (u.len * piece)) raw

/-! ## The buckets of a memtable -/

/-- Pages that the check of `pm_get_oob` lets pass. -/
structure Supply where
  page : Nat → Nat
  oob : Nat → Nat → Nat
  zero : ∀ n, oob n 0 = 0

def Supply.source (S : Supply) : Source Nat where
  moveToFrPage n := some (S.page n, n + 1)
  getOob n _ := S.oob (n - 1)
  setOob n _ _ := n

/-- mirrors algorithm/Lsmtree/variable.c:10-103, without `isgc` -/
def variableValue2Page (S : Supply) (b : Buckets Entry) : Option (Out Entry Nat) :=
  Variable.variableValue2Page false Entry.length S.source 0 b

section
variable {α : Type} {m : Nat → Nat} {us : List (Put α)} {raw : Nat → UInt8} {vs : List (Put Entry)}

end

/-! ## Reading the footer back -/

section
variable {β : Type} {dp : DataPage β} {ss : List (Slot Entry)} {off fuel : Nat}

end

/-! ## The whole flush -/

/-- What a page of a flush has: `foot` is its footer when the call has ended. -/
structure Sealed (P : Nat) (us : List (Put Entry)) (foot : Nat → Nat) : Prop where
  lies : ∀ u ∈ us, Lies Entry.length P u
  copied : ∀ u ∈ us, ∀ raw, ∀ i < u.item.length * piece,
    buffer raw us (u.ppa % npc * piece + i) = u.item.value i
  fits : ∀ j < npc, j + foot j ≤ npc
  scanned : ∀ {β : Type} (dp : DataPage β), dp.page = P → dp.foot = foot →
    (scanPage dp).map (fun t => (t.target.ppa, t.plength)) = us.map fun u => (u.ppa, u.item.length)

section
variable {σ : Type} {S : Source σ} {ss : List (Slot Entry)} {P : Nat}

/-- What a flush leaves behind: `foot` gives the footers of the pages when the
call has ended. -/
structure Flushed (es : List Entry) (foot : Nat → Nat → Nat) (o : Out Entry σ) : Prop where
  empty : ∀ k, o.bucket k = []
  all : ((o.des.flatMap Prod.snd).map (·.item)).Perm es
  pages : (o.des.map Prod.fst).Nodup
  few : o.des.length ≤ es.length
  page : ∀ d ∈ o.des, Sealed d.1 d.2 (foot d.1)
  off : (o.des.flatMap Prod.snd).Pairwise Off

end

end FlashDriver.Lsmtree.Flush
