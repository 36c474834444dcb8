import FlashDriver.Lsmtree.Divide
import FlashDriver.Lsmtree.Table

/-!
# Cutting the memtable into tables (`compaction_check`)

`skiplist_cutting_header` walks over the nodes until the next one would no
longer fit a header page, divides the list there and sets the counters of
both sides. `compaction_check` repeats this, one table ahead of the one it
hands over.

* `cutBehind_spec`: dividing a list behind the node where a walk stops, with
  the counters of both sides.
* `cutting_spec`: a list at or over a limit gives up a part that fits a page.
* `cut_table_found`: searching the header page made of that part.
* `compaction_check_splits`: the tables and what is left make up the memtable.
-/
namespace FlashDriver.Lsmtree.Skip

open List Option Function
open Core.SkipChain

variable {δ : Type}

/-! ## Walking and dividing -/

/-- `for_each_sk` with the counters of `skiplist_cutting_header`, up to a node where `stop` says
so (of the node, the next one and the counters behind it). -/
def scan (m : Mem δ) (header : Nat) (stop : Nat → Nat → Nat → Nat → Bool) :
    Nat → Nat → Nat → Nat → Option (Nat × Nat × Nat)
  | 0, _, _, _ => none
  | fuel + 1, temp, idx, length =>
    if temp = header then some (temp, idx, length)
    else do
      let next ← m.list temp 1
      let length := length + keylen (m.node temp).key
      if stop temp next (idx + 1) length then some (temp, idx + 1, length)
      else scan m header stop fuel next (idx + 1) length

/-- mirrors algorithm/Lsmtree/skiplist.c:419-429 -/
def cutBehind (m : Mem δ) (list : Skiplist) (stop : Nat → Nat → Nat → Nat → Bool) :
    Option (Mem δ × Skiplist × Skiplist) := do
  let first ← m.list list.header 1
  let (temp, idx, length) ← scan m list.header stop m.next first 0 0
  let (m, rest, res) ← skiplistDivide m list temp
  some (m, { rest with size := rest.size - idx, allLength := rest.allLength - length },
    { res with size := idx, allLength := length })

/-- The walk on the nodes themselves. -/
def scanList (m : Mem δ) (header : Nat) (stop : Nat → Nat → Nat → Nat → Bool) :
    List Nat → Nat → Nat → Nat × Nat × Nat
  | [], idx, length => (header, idx, length)
  | n :: ns, idx, length =>
    if stop n (ns.headD header) (idx + 1) (length + keylen (m.key n)) then
      (n, idx + 1, length + keylen (m.key n))
    else scanList m header stop ns (idx + 1) (length + keylen (m.key n))

section
variable {m m' : Mem δ} {list : Skiplist} {ns pre post : List Nat} {target : Nat}
  {stop : Nat → Nat → Nat → Nat → Bool}

theorem scan_eq {a header fuel idx length : Nat} (hc : Chain (m.nx 1) a ns header)
    (hh : header ∉ ns) (hf : ns.length < fuel) :
    scan m header stop fuel (ns.headD header) idx length =
      some (scanList m header stop ns idx length) := by
  induction ns generalizing a fuel idx length with
  | nil =>
    cases fuel with
    | zero => omega
    | succ fuel => rw [headD_nil, scan, if_pos rfl, scanList]
  | cons n ns ih =>
    cases fuel with
    | zero => omega
    | succ fuel =>
      rw [mem_cons, not_or] at hh
      have hnext : m.list n 1 = some (ns.headD header) := hc.2.head
      rw [headD_cons, scan, if_neg (Ne.symm hh.1), hnext, scanList]
      simp only [bind_eq_bind, bind_some]
      split
      · rfl
      · exact ih hc.2 hh.2 (by rw [length_cons] at hf; omega)

theorem cutBehind_spec (W : Wf m list (pre ++ target :: post))
    (C : Counted m list (pre ++ target :: post))
    (hscan : scanList m list.header stop (pre ++ target :: post) 0 0 =
      (target, pre.length + 1, keyBytes m (pre ++ [target]))) :
    ∃ m' rest res, cutBehind m list stop = some (m', rest, res) ∧
      Wf m' rest post ∧ Counted m' rest post ∧ Wf m' res (pre ++ [target]) ∧
      Counted m' res (pre ++ [target]) ∧ rest.header = list.header ∧ res.header = m.next ∧
      (∀ n, n < m.next → m'.node n = m.node n) ∧
      Beside m m' (list.header :: (pre ++ target :: post)) ∧ m'.next = m.next + 1 := by
  have hc := W.tower.chain 1 (by decide) (by decide)
  rw [W.row_one fun n => id] at hc
  have hfirst : m.list list.header 1 = _ := hc.head
  have hs : scan m list.header stop m.next ((pre ++ target :: post).headD list.header) 0 0 =
      some (target, pre.length + 1, keyBytes m (pre ++ [target])) := by
    rw [← hscan]
    exact scan_eq hc (nodup_cons.mp W.tower.nodup).1 W.fuel
  obtain ⟨m', rest, res, hdiv, D⟩ := divide_spec W
  have hbytes : ∀ ms, (∀ n ∈ ms, n ∈ pre ++ target :: post) → keyBytes m' ms = keyBytes m ms :=
    fun ms hms => keyBytes_congr fun n hn => by
      rw [Mem.key, Mem.key, D.node n (W.alloc n (.tail _ (hms n hn)))]
  have hlen := C.size
  have hall := C.allLength
  rw [append_cons] at hlen hall
  rw [length_append, length_append, length_singleton] at hlen
  rw [keyBytes_append] at hall
  refine ⟨m', { rest with size := rest.size - (pre.length + 1),
                          allLength := rest.allLength - keyBytes m (pre ++ [target]) },
    { res with size := pre.length + 1, allLength := keyBytes m (pre ++ [target]) },
    ?_, D.upper.counters _ _, ⟨?_, ?_⟩, D.lower.counters _ _, ⟨?_, ?_⟩, D.header, D.fresh,
    D.node, ?_, D.next⟩
  · rw [cutBehind, hfirst]
    simp only [bind_eq_bind, bind_some, hs, hdiv]
  · simp only [D.size]
    omega
  · have := hbytes post fun n hn => mem_append_right _ (.tail _ hn)
    simp only [D.allLength]
    omega
  · simp
  · refine (hbytes _ fun n hn => ?_).symm
    rw [append_cons]
    exact mem_append_left _ hn
  · rw [append_cons]
    exact D.beside

/-! ## The limits of a page -/

/-- mirrors algorithm/Lsmtree/skiplist.c:413-414 -/
def numLimit : Nat := keyBitmap / 2 - 2

def sizeLimit : Nat := pageSize - keyBitmap

def atLimit (m : Mem δ) (_ next idx length : Nat) : Bool :=
  length + keylen (m.node next).key ≥ sizeLimit || idx ≥ numLimit

/-- What `skiplist_cutting_header` returns: its argument or a new list. -/
inductive Table
  | whole
  | part (list : Skiplist)
  deriving DecidableEq

/-- mirrors algorithm/Lsmtree/skiplist.c:412-432 -/
def skiplistCuttingHeader (m : Mem δ) (list : Skiplist) : Option (Mem δ × Skiplist × Table) :=
  if list.allLength < sizeLimit ∧ list.size < numLimit then some (m, list, .whole)
  else (cutBehind m list (atLimit m)).map fun r => (r.1, r.2.1, .part r.2.2)

theorem scanList_atLimit (header idx length : Nat)
    (hover : sizeLimit ≤ length + keyBytes m ns ∨ numLimit ≤ idx + ns.length)
    (hlen : length < sizeLimit) (hidx : idx < numLimit)
    (hfit : ∀ n, ns.head? = some n → length + keylen (m.key n) < sizeLimit) :
    ∃ pre target post, ns = pre ++ target :: post ∧ scanList m header (atLimit m) ns idx length =
        (target, idx + (pre.length + 1), length + keyBytes m (pre ++ [target])) ∧
      idx + (pre.length + 1) ≤ numLimit ∧ length + keyBytes m (pre ++ [target]) < sizeLimit := by
  induction ns generalizing idx length with
  | nil =>
    simp only [keyBytes_nil, length_nil] at hover
    omega
  | cons n ns ih =>
    have hn := hfit n rfl
    rw [scanList]
    split
    · exact ⟨[], n, ns, rfl, by simp, by simp only [length_nil]; omega, by simpa using hn⟩
    · rename_i hstop
      simp only [atLimit, Bool.or_eq_true, decide_eq_true_eq, not_or, not_le] at hstop
      rw [keyBytes_cons, length_cons] at hover
      obtain ⟨pre, target, post, rfl, hs, hi, hl⟩ := ih (idx + 1) _ (by omega) hn hstop.2 (by
        intro n' hn'
        have := hstop.1
        rwa [headD_eq_head?_getD, hn'] at this)
      refine ⟨n :: pre, target, post, rfl, ?_, ?_, ?_⟩
      · rw [hs, cons_append, keyBytes_cons, length_cons]
        simp only [Prod.mk.injEq, true_and]
        omega
      · rw [length_cons]
        omega
      · rw [cons_append, keyBytes_cons]
        omega

/-- A table that fits a header page. -/
structure Fits (m : Mem δ) (list : Skiplist) (ns : List Nat) : Prop where
  wf : Wf m list ns
  counted : Counted m list ns
  ne : ns ≠ []
  num : ns.length ≤ numLimit
  bytes : keyBytes m ns ≤ sizeLimit

theorem Fits.beside {own : List Nat} (F : Fits m list ns) (B : Beside m m' own)
    (hd : ∀ n ∈ list.header :: ns, n ∉ own) : Fits m' list ns := by
  have hkey : ∀ n ∈ ns, m'.key n = m.key n := fun n hn => by
    have hn' := mem_cons_of_mem list.header hn
    rw [Mem.key, Mem.key, B.node n (F.wf.alloc n hn') (hd n hn')]
  exact ⟨F.wf.beside B hd, F.counted.frame hkey, F.ne, F.num, by rw [keyBytes_congr hkey]; exact F.bytes⟩

theorem Beside.trans {m'' : Mem δ} {own own' : List Nat} (B : Beside m m' own) (B' : Beside m' m'' own')
    (h : ∀ n ∈ own', n < m.next → n ∈ own) : Beside m m'' own where
  node n hn hown := by
    rw [B'.node n (lt_of_lt_of_le hn B.next) fun hm => hown (h n hm hn)]
    exact B.node n hn hown
  list n hn hown := by
    rw [B'.list n (lt_of_lt_of_le hn B.next) fun hm => hown (h n hm hn)]
    exact B.list n hn hown
  next := le_trans B.next B'.next

theorem Wf.apart (W : Wf m list (pre ++ target :: post)) :
    ∀ n ∈ m.next :: (pre ++ [target]), n ∉ list.header :: post := by
  have hfresh := W.fresh
  have hnd := W.tower.nodup
  rw [append_cons] at hfresh hnd
  rw [nodup_cons, nodup_append] at hnd
  intro n hn hm
  rcases mem_cons.mp hn with rfl | hn
  · exact hfresh (cons_subset_cons _ (subset_append_right ..) hm)
  · rcases mem_cons.mp hm with rfl | hm
    · exact hnd.1 (mem_append_left _ hn)
    · exact hnd.2.2.2 n hn n hm rfl

theorem cutting_spec (W : Wf m list ns) (C : Counted m list ns)
    (hkeys : ∀ n ∈ ns, (m.key n).length ≤ 254)
    (hover : ¬ (list.allLength < sizeLimit ∧ list.size < numLimit)) :
    ∃ m' rest res pre post, ns = pre ++ post ∧
      skiplistCuttingHeader m list = some (m', rest, .part res) ∧ Fits m' res pre ∧
      Wf m' rest post ∧ Counted m' rest post ∧ rest.header = list.header ∧
      (∀ n ∈ res.header :: pre, n ∉ rest.header :: post) ∧
      (∀ n, n < m.next → m'.node n = m.node n) ∧ Beside m m' (list.header :: ns) := by
  rw [C.size, C.allLength] at hover
  obtain ⟨pre, target, post, rfl, hs, hi, hl⟩ := scanList_atLimit list.header 0 0
    (show sizeLimit ≤ 0 + keyBytes m ns ∨ numLimit ≤ 0 + ns.length by omega) (by decide) (by decide) (by
      intro n hn
      have := hkeys n (mem_of_head? hn)
      simp only [keylen, sizeLimit, pageSize, keyBitmap]
      omega)
  rw [zero_add, zero_add] at hs
  obtain ⟨m', rest, res, hcut, Wr, Cr, Wp, Cp, hh, hr, hnode, B, -⟩ := cutBehind_spec W C hs
  refine ⟨m', rest, res, pre ++ [target], post, append_cons .., ?_, ⟨Wp, Cp, by simp, ?_, ?_⟩, Wr, Cr,
    hh, ?_, hnode, B⟩
  · rw [skiplistCuttingHeader, if_neg (by rwa [C.size, C.allLength]), hcut]
    rfl
  · simpa using hi
  · rw [keyBytes_congr (m := m)]
    · omega
    · intro n hn
      have hn' : n ∈ pre ++ target :: post := by
        rw [append_cons]
        exact mem_append_left _ hn
      rw [Mem.key, Mem.key, hnode n (W.alloc n (.tail _ hn'))]
  · rw [hh, hr]
    exact W.apart

end

/-! ## The flush -/

/-- mirrors algorithm/Lsmtree/lsmtree.c:88 -/
def flushNum : Nat := 1024

/-- A request for the compaction thread; `fromL` is -1. -/
structure CompR where
  last : Bool
  temptable : Table
  deriving DecidableEq

/-- mirrors algorithm/Lsmtree/compaction_assistant.c:411-428: `t2` is the table that is ahead,
and `reqs` what was given to `compaction_assign`. -/
def compactionCheckLoop : Nat → Mem δ → Skiplist → Option Table → List CompR →
    Option (Mem δ × Skiplist × List CompR)
  | 0, _, _, _, _ => none
  | fuel + 1, m, memtable, t2, reqs => do
    let (m, memtable, t) ← match t2 with
      | some t => some (m, memtable, t)
      | none => skiplistCuttingHeader m memtable
    let (m, memtable, t2) ← skiplistCuttingHeader m memtable
    let last := decide (t2 = .whole)
    let reqs := reqs ++ [⟨last, t⟩]
    if last then some (m, memtable, reqs)
    else compactionCheckLoop fuel m memtable (some t2) reqs

/-- mirrors algorithm/Lsmtree/compaction_assistant.c:405-434 -/
def compactionCheck (m : Mem δ) (memtable : Skiplist) : Option (Mem δ × Skiplist × List CompR) :=
  if memtable.size < flushNum then some (m, memtable, [])
  else compactionCheckLoop memtable.size m memtable none []

/-- The requests for some tables: exactly the last one is marked. -/
def requests : List Skiplist → List CompR
  | [] => []
  | [t] => [⟨true, .part t⟩]
  | t :: ts => ⟨false, .part t⟩ :: requests ts

/-- The tables and what is left of the memtable: together the nodes `ns`, in pieces that fit a
page and a rest below the limits. -/
structure Splits (m : Mem δ) (ns : List Nat) (m' : Mem δ) (memtable : Skiplist)
    (tables : List (Skiplist × List Nat)) (rest : List Nat) : Prop where
  nodes : (tables.map (·.2)).flatten ++ rest = ns
  fits : ∀ t ∈ tables, Fits m' t.1 t.2
  wf : Wf m' memtable rest
  counted : Counted m' memtable rest
  num : rest.length < numLimit
  bytes : keyBytes m' rest < sizeLimit
  same : ∀ n ∈ ns, m'.node n = m.node n

section
variable {m : Mem δ} {memtable t : Skiplist} {ns ts : List Nat}

theorem cutting_whole (h : memtable.allLength < sizeLimit ∧ memtable.size < numLimit) :
    skiplistCuttingHeader m memtable = some (m, memtable, .whole) := if_pos h

theorem requests_cons {us : List Skiplist} (h : us ≠ []) :
    requests (t :: us) = ⟨false, .part t⟩ :: requests us := by
  cases us with
  | nil => exact absurd rfl h
  | cons u us => rfl

theorem compactionCheckLoop_first {m1 : Mem δ} {rest : Skiplist} {fuel : Nat} {reqs : List CompR}
    (h : skiplistCuttingHeader m memtable = some (m1, rest, .part t)) :
    compactionCheckLoop fuel m memtable none reqs =
      compactionCheckLoop fuel m1 rest (some (.part t)) reqs := by
  cases fuel with
  | zero => rfl
  | succ fuel =>
    rw [compactionCheckLoop, compactionCheckLoop]
    simp only [h, bind_eq_bind, bind_some]

theorem compactionCheckLoop_spec {fuel : Nat} (reqs : List CompR) (W : Wf m memtable ns)
    (C : Counted m memtable ns) (hkeys : ∀ n ∈ ns, (m.key n).length ≤ 254) (F : Fits m t ts)
    (hd : ∀ n ∈ t.header :: ts, n ∉ memtable.header :: ns) (hf : ns.length < fuel) :
    ∃ m' memtable' tables rest, compactionCheckLoop fuel m memtable (some (.part t)) reqs =
        some (m', memtable', reqs ++ requests (tables.map (·.1))) ∧
      tables ≠ [] ∧ Splits m (ts ++ ns) m' memtable' tables rest ∧
      Beside m m' (memtable.header :: ns) := by
  induction fuel generalizing m memtable ns t ts reqs with
  | zero => omega
  | succ fuel ih =>
    by_cases hover : memtable.allLength < sizeLimit ∧ memtable.size < numLimit
    · refine ⟨m, memtable, [(t, ts)], ns, ?_, by simp, ⟨by simp, ?_, W, C, ?_, ?_, fun _ _ => rfl⟩,
        ⟨fun _ _ _ => rfl, fun _ _ _ => rfl, le_rfl⟩⟩
      · simp [compactionCheckLoop, cutting_whole hover, requests]
      · intro x hx
        rw [mem_singleton.mp hx]
        exact F
      · rw [← C.size]
        exact hover.2
      · rw [← C.allLength]
        exact hover.1
    · obtain ⟨m1, rest1, res, pre, post, rfl, hcut, F1, W1, C1, hh, hap, hnode, B⟩ :=
        cutting_spec W C hkeys hover
      have hlt : ∀ n ∈ pre ++ post, n < m.next := fun n hn => W.alloc n (.tail _ hn)
      have hpos := length_pos_of_ne_nil F1.ne
      rw [length_append] at hf
      have hkeys1 : ∀ n ∈ post, (m1.key n).length ≤ 254 := by
        intro n hn
        rw [Mem.key, hnode n (hlt n (mem_append_right _ hn))]
        exact hkeys n (mem_append_right _ hn)
      obtain ⟨m', memtable', tables, rest, hloop, hne, S, B'⟩ :=
        ih (reqs ++ [⟨false, .part t⟩]) W1 C1 hkeys1 F1 hap (by omega)
      have hsub : ∀ n ∈ rest1.header :: post, n ∈ memtable.header :: (pre ++ post) := by
        rw [hh]
        exact cons_subset_cons _ (subset_append_right ..)
      have F' : Fits m' t ts := (F.beside B hd).beside B' fun n hn hm => hd n hn (hsub n hm)
      refine ⟨m', memtable', (t, ts) :: tables, rest, ?_, by simp, ⟨?_, ?_, S.wf, S.counted, S.num,
        S.bytes, ?_⟩, B.trans B' fun n hn _ => hsub n hn⟩
      · rw [compactionCheckLoop]
        simp only [bind_eq_bind, bind_some, hcut, reduceCtorEq, decide_false,
          Bool.false_eq_true, if_false]
        rw [hloop, map_cons, requests_cons (by simpa using hne), append_assoc]
        rfl
      · rw [map_cons, flatten_cons, append_assoc, S.nodes]
      · intro x hx
        rcases mem_cons.mp hx with rfl | hx
        · exact F'
        · exact S.fits x hx
      · intro n hn
        rcases mem_append.mp hn with hn | hn
        · have hn' := mem_cons_of_mem t.header hn
          have hlt' := F.wf.alloc n hn'
          exact (B.trans B' fun n hn _ => hsub n hn).node n hlt' (hd n hn')
        · rw [S.same n hn]
          exact hnode n (hlt n hn)

/-- For every memtable of at least `FLUSHNUM` nodes with keys of 1 to 254 bytes:
`compaction_check` ends, the tables it hands over and then the memtable are the nodes that
were there, in their order and with their data; each table is a well-formed list that fits a
header page, with its own counters; only the last request is marked; and the memtable is
below both limits. -/
theorem compaction_check_splits (W : Wf m memtable ns) (C : Counted m memtable ns)
    (hkeys : ∀ n ∈ ns, 1 ≤ (m.key n).length ∧ (m.key n).length ≤ 254) (hnum : flushNum ≤ ns.length) :
    ∃ m' memtable' tables rest,
      compactionCheck m memtable = some (m', memtable', requests (tables.map (·.1))) ∧
      tables ≠ [] ∧ Splits m ns m' memtable' tables rest := by
  have hsize := C.size
  have hlim : numLimit < flushNum := by decide
  obtain ⟨m1, rest1, res, pre, post, rfl, hcut, F1, W1, C1, hh, hap, hnode, B⟩ :=
    cutting_spec W C (fun n hn => (hkeys n hn).2) (by omega)
  have hlt : ∀ n ∈ pre ++ post, n < m.next := fun n hn => W.alloc n (.tail _ hn)
  have hkeys1 : ∀ n ∈ post, (m1.key n).length ≤ 254 := by
    intro n hn
    rw [Mem.key, hnode n (hlt n (mem_append_right _ hn))]
    exact (hkeys n (mem_append_right _ hn)).2
  have hpos := length_pos_of_ne_nil F1.ne
  rw [length_append] at hsize hnum
  have hfuel : post.length < memtable.size := by omega
  obtain ⟨m', memtable', tables, rest, hloop, hne, S, -⟩ :=
    compactionCheckLoop_spec [] W1 C1 hkeys1 F1 hap hfuel
  refine ⟨m', memtable', tables, rest, ?_, hne, ⟨S.nodes, S.fits, S.wf, S.counted, S.num, S.bytes,
    fun n hn => (S.same n hn).trans (hnode n (hlt n hn))⟩⟩
  rw [compactionCheck, if_neg (by omega), compactionCheckLoop_first hcut]
  exact hloop

/-- What `array_mem_cvt2table` writes of a node. -/
def Mem.ent (m : Mem δ) (n : Nat) : Ent := ⟨(m.node n).ppa, m.key n⟩

theorem Fits.page (F : Fits m list ns) (hlen : ∀ n ∈ ns, (m.key n).length ≤ 254) :
    FitsPage (ns.map m.ent) ∧ Sorted (ns.map m.ent) := by
  have hnum := F.num
  have hbytes := F.bytes
  refine ⟨⟨?_, ?_, ?_⟩, pairwise_map.mpr F.wf.sorted⟩
  · rw [length_map]
    simp only [numLimit, keyBitmap] at hnum ⊢
    omega
  · have hsize : dataSize (ns.map m.ent) = keyBytes m ns := by
      simp [dataSize, keyBytes, Mem.ent, comp_def]
    rw [hsize]
    simp only [sizeLimit, pageSize, keyBitmap] at hbytes ⊢
    omega
  · intro e he
    obtain ⟨n, hn, rfl⟩ := mem_map.mp he
    exact lt_of_le_of_lt (hlen n hn) (by decide)

/-- A memtable at a limit gives up its first nodes; `array_find_keyset` finds in the header page that
`array_mem_cvt2table` makes of them just these, at their addresses. -/
theorem cut_table_found (W : Wf m memtable ns) (C : Counted m memtable ns)
    (hkeys : ∀ n ∈ ns, (m.key n).length ≤ 254)
    (hover : ¬ (memtable.allLength < sizeLimit ∧ memtable.size < numLimit)) :
    ∃ m' rest res pre post, ns = pre ++ post ∧ pre ≠ [] ∧
      skiplistCuttingHeader m memtable = some (m', rest, .part res) ∧ Wf m' res pre ∧ Wf m' rest post ∧
      ∀ sets input filter, ∃ t, memCvt2table sets (pre.map m'.ent) input filter = some t ∧
        ∀ k, findKeyset t.sets k = some ((pre.map m.ent).find? fun e => e.key = k) := by
  obtain ⟨m', rest, res, pre, post, rfl, hcut, F, Wr, -, -, -, hnode, -⟩ := cutting_spec W C hkeys hover
  have hsame : pre.map m'.ent = pre.map m.ent := map_congr_left fun n hn => by
    rw [Mem.ent, Mem.ent, Mem.key, Mem.key, hnode n (W.alloc n (by simp [hn]))]
  obtain ⟨hfit, hsorted⟩ := F.page fun n hn => by
    rw [Mem.key, hnode n (W.alloc n (by simp [hn]))]
    exact hkeys n (mem_append_left _ hn)
  refine ⟨m', rest, res, pre, post, rfl, F.ne, hcut, F.wf, Wr, fun sets input filter => ?_⟩
  obtain ⟨t, ht, E, -⟩ := memCvt2table_spec sets _ input filter hfit
  exact ⟨t, ht, fun k => by rw [findKeyset_spec E hfit hsorted, hsame]⟩

end

/-- `rand()` gives a node of `h + 1` lists. -/
def tower (h i : Nat) : Nat := if i < h then 1 else 0

/-- A memtable with the keys 0 to `n-1`, on one to three lists each. -/
def filledTable : Nat → Option (Mem Unit × Skiplist)
  | 0 => some (skiplistInit ⟨fun _ => ⟨0, [], 0, none, false, 0⟩, fun _ _ => none, 0⟩)
  | n + 1 => do
    let (m, list) ← filledTable n
    let (m, list, _) ← skiplistInsert m list (countKey n) (some ⟨(), 512⟩) true (tower (n % 3))
    some (m, list)

theorem filledTable_wf {n : Nat} (hn : n ≤ 2 ^ 16) : ∃ m list ns, filledTable n = some (m, list) ∧
    Wf m list ns ∧ Counted m list ns ∧ ns.length = n ∧
    ∀ x ∈ ns, ∃ i < n, m.key x = countKey i ∧ (m.node x).level = i % 3 + 1 := by
  induction n with
  | zero => exact ⟨_, _, [], rfl, init_wf _, init_counted _, rfl, by simp⟩
  | succ n ih =>
    obtain ⟨m, list, ns, hm, W, C, hlen, hkeys⟩ := ih (by omega)
    have hkey : keycmp (countKey n) keyMax = .lt := by
      apply keycmp_keyMax
      have : n / 65536 = 0 := by omega
      rw [countKey, this]
      rfl
    have habs : ∀ x ∈ ns, m.key x ≠ countKey n := by
      intro x hx heq
      obtain ⟨i, hi, hxi, -⟩ := hkeys x hx
      have hlt := countKey_lt hi (by omega)
      rw [← hxi, heq] at hlt
      exact keycmp_irrefl _ hlt
    obtain ⟨m', list', ns', hins, I⟩ :=
      (insert_absent (some ⟨(), 512⟩) true (tower (n % 3)) W C hkey habs).2 _ rfl
    refine ⟨m', list', ns', by rw [filledTable, hm]; simp [hins], I.wf, I.counted, ?_, fun x hx => ?_⟩
    · rw [I.perm.length_eq, length_cons, hlen]
    · rcases mem_cons.mp (I.perm.mem_iff.mp hx) with rfl | hx
      · refine ⟨n, by omega, ?_⟩
        rw [Mem.key, I.node, update_self]
        have htower : ∀ h < 3, getLevel (tower h) = h + 1 := by decide
        exact ⟨rfl, htower _ (Nat.mod_lt n (by decide))⟩
      · obtain ⟨i, hi, hxi⟩ := hkeys x hx
        refine ⟨i, by omega, ?_⟩
        rw [Mem.key, I.node, update_of_ne (ne_of_lt (W.alloc x (.tail _ hx)))]
        exact hxi

theorem compaction_check_splits_counted : ∃ m memtable ns m' memtable' tables rest,
    filledTable 1024 = some (m, memtable) ∧
    compactionCheck m memtable = some (m', memtable', requests (tables.map (·.1))) ∧
    tables ≠ [] ∧ Splits m ns m' memtable' tables rest ∧ ns.length = 1024 ∧
    ∀ x ∈ ns, ∃ i < 1024, m.key x = countKey i ∧ (m.node x).level = i % 3 + 1 := by
  obtain ⟨m, memtable, ns, hm, W, C, hlen, hkeys⟩ := filledTable_wf (n := 1024) (by decide)
  obtain ⟨m', memtable', tables, rest, hcheck, hne, S⟩ := compaction_check_splits W C (fun x hx => by
    obtain ⟨i, -, hxi, -⟩ := hkeys x hx
    rw [hxi]
    exact ⟨by simp [countKey], by simp [countKey]⟩) (by rw [hlen]; decide)
  exact ⟨m, memtable, ns, m', memtable', tables, rest, hm, hcheck, hne, S, hlen, hkeys⟩

theorem cut_table_found_counted : ∃ m memtable m' rest res pre, filledTable 1024 = some (m, memtable) ∧
    skiplistCuttingHeader m memtable = some (m', rest, .part res) ∧ Wf m' res pre ∧ pre ≠ [] ∧
    ∃ t, memCvt2table (fun _ => 0) (pre.map m'.ent) ⟨none, none⟩ none = some t ∧
      ∀ k, findKeyset t.sets k = some ((pre.map m.ent).find? fun e => e.key = k) := by
  obtain ⟨m, memtable, ns, hm, W, C, hlen, hkeys⟩ := filledTable_wf (n := 1024) (by decide)
  obtain ⟨m', rest, res, pre, _, -, hne, hcut, Wp, -, hfind⟩ := cut_table_found W C (fun x hx => by
    obtain ⟨i, -, hxi, -⟩ := hkeys x hx
    simp [hxi, countKey]) (fun h => absurd h.2 (by rw [C.size, hlen]; decide))
  exact ⟨m, memtable, m', rest, res, pre, hm, hcut, Wp, hne, hfind _ _ _⟩

end FlashDriver.Lsmtree.Skip
