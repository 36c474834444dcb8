import FlashDriver.Core.BackMap
import FlashDriver.Demand.Cache
import FlashDriver.Demand.Grain
import FlashDriver.Lsmtree.MapPartition

/-!
# Translation pages (`algorithm/demand/page.c`, `coarse.c`, `dvalue_gc.c`)

Translation pages are written by an eviction from the mapping cache, by the
mapping update of a data collection, and by `tpage_gc` itself, which both may
call when they need a page. They lie in the map partition of the block manager
(`Lsmtree/MapPartition.lean`); `t_active` and `t_reserve` are its active and
reserve segment. The first word of a page's OOB area is the index of its cmt.

`cg_list_up` and `_do_bulk_mapping_update` are split at the calls of
`get_tpage`, so that the states in which these find the tables are states of
the system: a popped victim that is still dirty, and cmts whose page is
invalidated and not yet written anew.

* `trans_pages`: in every such state the clean cmts with a page and the valid
  map pages belong together one to one, no page has been invalidated twice
  between two writes of it, and a run of `tpage_gc` keeps this and leaves no
  valid page in its victim.
-/
namespace FlashDriver.Demand.Trans

open List Option Function
open Core.BackMap (Ev TwoWay Once written written_write written_invalidate)
open Demand.Grain (Moved)
open Lsmtree.HeaderPage (Geom M ptGetSegment getPageNum ptGetGcTarget ptTrimSegment
  validatePPA unpopulateBit pagesIn Rows InUse invSum validIn take trimmed mem_pagesIn
  pagesIn_nodup page_div ok_bind ok_map ok_of_toOption)

variable {ω : Type}

structure St (ω : Type) where
  cache : Cache ω
  map : Lsmtree.HeaderPage.St
  oob : Nat → Nat               -- the first word of oob_list, by page
  log : List (Ev Nat)           -- ghost: writes and invalidations of map pages, newest first

/-- mirrors algorithm/demand/page.c:25-33 and coarse.c:71-104 -/
def St.init (g : Geom) : St ω := ⟨.init, .init g, fun _ => 0, []⟩

section
variable (cfg : Cfg) (g : Geom)

/-! ## Pages -/

/-- mirrors algorithm/demand/page.c:255-266 (`MAP`) -/
def invalidatePage (s : St ω) (p : Nat) : St ω :=
  { s with map := unpopulateBit g s.map p, log := .invalidate p :: s.log }

/-- mirrors algorithm/demand/page.c:248-253 -/
def validatePage (s : St ω) (p : Nat) : M (St ω) :=
  (validatePPA s.map p).map fun m => { s with map := m }

/-- mirrors algorithm/demand/utility.c:116-135 (`MAP`) -/
def setOob (s : St ω) (i p : Nat) : St ω := { s with oob := update s.oob p i }

/-- `li->write` -/
def writePage (s : St ω) (p : Nat) : St ω := { s with log := .write p :: s.log }

def setTPpa (s : St ω) (i : Nat) (t : Option Nat) : St ω :=
  { s with cache := s.cache.setCmt i { s.cache.cmt i with tPpa := t } }

/-! ## Collecting the map partition -/

/-- One page of algorithm/demand/page.c:42-56 (`MAP`). -/
def readValidPage (r : St ω × List Nat) (p : Nat) : St ω × List Nat :=
  if r.1.map.bits p then (invalidatePage g r.1 p, r.2 ++ [p]) else r

/-- mirrors algorithm/demand/page.c:35-59 (`MAP`); `lpa_list` points to the OOB
area of the page -/
def bulkReadValidPages (s : St ω) (seg : Nat) : St ω × List Nat :=
  (pagesIn g seg).foldl (readValidPage g) (s, [])

/-- One round of algorithm/demand/page.c:66-87 (`MAP`). -/
def writeValidPage (s : St ω) (p : Nat) : M (St ω) :=
  match s.map.reserve.bind (getPageNum g s.map) with
  | none => .error .other
  | some r => (validatePage (writePage { s with map := r.1 } r.2) r.2).map fun s =>
      let s := setOob s (s.oob p) r.2
      setTPpa s (s.oob p) (some r.2)

/-- What `pt_trim_segment` and the lines behind it do to the roles of the
segments; mirrors algorithm/demand/page.c:216-221 -/
def rotate (s : St ω) (seg : Nat) : M (St ω) := do
  let m ← ptTrimSegment g s.map seg
  let r ← ptGetSegment g { m with active := m.reserve }
  .ok { s with
    map := { r.1 with reserve := some r.2 }
    oob := fun p => if p / g.pps = seg then 0 else s.oob p }

/-- mirrors algorithm/demand/page.c:202-227 -/
def tpageGc (s : St ω) : M (St ω) := do
  let seg ← ptGetGcTarget g s.map
  let r := bulkReadValidPages g s seg
  let s ← r.2.foldlM (writeValidPage g) r.1
  rotate g s seg

/-- `!t_active || check_full(t_active)` -/
def activeFull (m : Lsmtree.HeaderPage.St) : Bool :=
  match m.active with
  | none => true
  | some a => m.used a == g.pps

/-- mirrors algorithm/demand/page.c:231-240 -/
def renewActive (s : St ω) : M (St ω) :=
  if activeFull g s.map then
    if s.map.free.isEmpty then tpageGc g s
    else (ptGetSegment g s.map).map fun r => { s with map := { r.1 with active := some r.2 } }
  else .ok s

/-- mirrors algorithm/demand/page.c:241-245 -/
def nextPage (s : St ω) : M (St ω × Nat) :=
  match s.map.active.bind (getPageNum g s.map) with
  | none => .error .other
  | some r => (validatePage { s with map := r.1 } r.2).map fun s => (s, r.2)

/-- mirrors algorithm/demand/page.c:229-246 -/
def getTpage (s : St ω) : M (St ω × Nat) := do
  let s ← renewActive g s
  nextPage g s

/-! ## The mapping cache -/

/-- The page that was just taken is written for cmt `i`: the lines behind
`get_tpage` in algorithm/demand/coarse.c:198-205 and dvalue_gc.c:200-206 -/
def writeTpage (s : St ω) (i t : Nat) : St ω :=
  let c := s.cache.setCmt i { s.cache.cmt i with tPpa := some t, state := .clean }
  setOob (writePage { s with cache := { c with unsaved := update c.unsaved i false } } t) i t

/-- mirrors algorithm/demand/coarse.c:185-189 -/
def popVictim (s : St ω) (v : Nat) : St ω :=
  { s with cache := { s.cache.setCmt v { s.cache.cmt v with pt := false } with
    lru := s.cache.lru.dropLast, nrCached := s.cache.nrCached - 1 } }

/-- mirrors algorithm/demand/coarse.c:213-243 -/
def insertPage (s : St ω) (lpa : Nat) : St ω := { s with cache := (cgInsert cfg s.cache lpa).2 }

/-- mirrors algorithm/demand/coarse.c:268-288 -/
def update (s : St ω) (lpa ppa : Nat) : St ω :=
  let c := cgUpdate cfg s.cache lpa ppa
  (c.mapInvalid.drop s.cache.mapInvalid.length).foldl (invalidatePage g) { s with cache := c }

/-! ## The mapping update of a data collection -/

/-- mirrors algorithm/demand/dvalue_gc.c:148-149; the comparison is by lpa -/
def sortNodes (nodes : List Moved) : List Moved :=
  nodes.insertionSort fun a b => a.node.lpa ≤ b.node.lpa

/-- mirrors algorithm/demand/dvalue_gc.c:156-178, with `skip_update` -/
def readNode (s : St ω) (n : Moved) : St ω × Bool :=
  if cgIsHit cfg s.cache n.node.lpa then (update cfg g s n.node.lpa n.ppa, true)
  else match (s.cache.cmt (cfg.idx n.node.lpa)).tPpa with
    | none => (s, false)
    | some t => (setTPpa (invalidatePage g s t) (cfg.idx n.node.lpa) none, false)

/-- The entries of a translation page are set. -/
def setEntry (s : St ω) (n : Moved) : St ω :=
  { s with cache := { s.cache with
    memTable := Function.update s.cache.memTable n.node.lpa (some n.ppa) } }

/-- mirrors algorithm/demand/dvalue_gc.c:191-206: `n` and the nodes `same` behind
it are of one translation page -/
def writeGroup (s : St ω) (n : Moved) (same : List (Moved × Bool)) : M (St ω) := do
  let r ← getTpage g (same.foldl (fun s m => setEntry s m.1) (setEntry s n))
  .ok (writeTpage r.1 (cfg.idx n.node.lpa) r.2)

/-! ## Runs -/

/-- What the thread is in the middle of. -/
inductive Work where
  | idle
  | evict (v lpa : Nat)                             -- cg_list_up, before get_tpage
  | read (todo : List Moved) (done : List (Moved × Bool))
  | write (todo : List (Moved × Bool))              -- with skip_update

structure Sys (ω : Type) where
  st : St ω
  work : Work

inductive Lbl where
  | listUp (lpa : Nat)
  | update (lpa ppa : Nat)
  | gcMap (nodes : List Moved)
  | go                                              -- the next part of what was begun

/-- mirrors algorithm/demand/coarse.c:184-211 up to `get_tpage`, and the rest of
`cg_list_up` where no page is written -/
def beginListUp (s : St ω) (lpa : Nat) : M (Sys ω) :=
  if cgIsFull cfg s.cache then
    match s.cache.lru.getLast? with
    | none => .error .other
    | some v => match (s.cache.cmt v).state with
      | .dirty => .ok ⟨popVictim s v, .evict v lpa⟩
      | .clean => .ok ⟨insertPage cfg (popVictim s v) lpa, .idle⟩
  else .ok ⟨insertPage cfg s lpa, .idle⟩

/-- Of the nodes behind `n`, those of its translation page and the others. -/
def sameIdx (n : Moved) (m : Moved × Bool) : Bool := cfg.idx m.1.node.lpa == cfg.idx n.node.lpa

/-- The next part of what was begun. -/
def go (s : St ω) : Work → M (Sys ω)
  | .idle => .error .other
  | .evict v lpa => (getTpage g s).map fun r => ⟨insertPage cfg (writeTpage r.1 v r.2) lpa, .idle⟩
  | .read [] done => .ok ⟨s, .write done⟩
  | .read (n :: todo) done =>
    let r := readNode cfg g s n
    .ok ⟨r.1, .read todo (done ++ [(n, r.2)])⟩
  | .write [] => .ok ⟨s, .idle⟩
  | .write ((_, true) :: todo) => .ok ⟨s, .write todo⟩
  | .write ((n, false) :: todo) =>
    (writeGroup cfg g s n (todo.takeWhile (sameIdx cfg n))).map fun s =>
      ⟨s, .write (todo.dropWhile (sameIdx cfg n))⟩

def exec (x : Sys ω) : Lbl → M (Sys ω)
  | .go => go cfg g x.st x.work
  | .listUp lpa => match x.work with
    | .idle => beginListUp cfg x.st lpa
    | _ => .error .other
  | .update lpa ppa => match x.work with
    | .idle => .ok ⟨update cfg g x.st lpa ppa, .idle⟩
    | _ => .error .other
  | .gcMap nodes => match x.work with
    | .idle => .ok ⟨x.st, .read (sortNodes nodes) []⟩
    | _ => .error .other

/-- Without a segment for the reserve, `page_create` aborts. -/
def transLTS : Core.LTS (Sys ω) Lbl where
  init x := 0 < g.segs ∧ x = ⟨.init g, .idle⟩
  step x l x' := exec cfg g x l = .ok x'

end

/-! ## Addresses of translation pages -/

/-- The page of a cmt that is clean. -/
def addr (c : Cache ω) (i : Nat) : Option Nat :=
  match (c.cmt i).state with
  | .clean => (c.cmt i).tPpa
  | .dirty => none

/-- The addresses without those of the cmts in `l`, which are being moved. -/
def hide (l : List Nat) (a : Nat → Option Nat) (i : Nat) : Option Nat := if i ∈ l then none else a i

theorem hide_nil (a : Nat → Option Nat) : hide [] a = a := by
  funext i
  simp [hide]

theorem update_hide (l : List Nat) (a : Nat → Option Nat) (i : Nat) :
    Function.update (hide l a) i none = hide (l ++ [i]) a := by
  funext j
  by_cases h : j = i
  · subst h; simp [hide]
  · simp [hide, h]

theorem hide_update {l : List Nat} {a : Nat → Option Nat} {i : Nat} (hi : i ∉ l) (p : Option Nat) :
    Function.update (hide (i :: l) a) i p = hide l (Function.update a i p) := by
  funext j
  by_cases h : j = i
  · subst h; simp [hide, hi]
  · simp [hide, h]

/-- The map partition and the addresses `a` belong together. -/
structure Mapped (g : Geom) (s : St ω) (a : Nat → Option Nat) : Prop where
  rows : Rows g s.map
  two : TwoWay a s.map.bits s.oob
  log : s.map.bits = written s.log
  once : Once s.log

/-- Between two calls. -/
structure Sound (g : Geom) (s : St ω) : Prop where
  mapped : Mapped g s (addr s.cache)
  reserve : ∃ r, s.map.reserve = some r ∧ InUse g s.map r ∧ s.map.used r = 0
  active : ∀ a, s.map.active = some a → InUse g s.map a ∧ s.map.reserve ≠ some a

/-- Only the pages of clean cmts are other ones. -/
structure Moves (c c' : Cache ω) : Prop where
  rest : c' = { c with cmt := c'.cmt }
  cmt : ∀ i, c'.cmt i = { c.cmt i with tPpa := (c'.cmt i).tPpa }
  same : ∀ i, addr c i = none → c'.cmt i = c.cmt i

section
variable {cfg : Cfg} {g : Geom} {s s' : St ω} {a : Nat → Option Nat}

theorem Moves.refl (c : Cache ω) : Moves c c := ⟨rfl, fun _ => rfl, fun _ _ => rfl⟩

theorem addr_congr {c c' : Cache ω} {i : Nat} (h : c'.cmt i = c.cmt i) : addr c' i = addr c i := by
  unfold addr
  rw [h]

theorem Moves.addr_none {c c' : Cache ω} (h : Moves c c') {i : Nat} (hi : addr c i = none) :
    addr c' i = none :=
  (addr_congr (h.same i hi)).trans hi

theorem Moves.trans {c c' c'' : Cache ω} (h : Moves c c') (h' : Moves c' c'') : Moves c c'' := by
  refine ⟨?_, fun i => ?_, fun i hi => (h'.same i (h.addr_none hi)).trans (h.same i hi)⟩
  · rw [h'.rest, h.rest]
  · rw [h'.cmt i, h.cmt i]

theorem Moves.state {c c' : Cache ω} (h : Moves c c') (i : Nat) :
    (c'.cmt i).state = (c.cmt i).state := by rw [h.cmt i]

theorem Moves.pt {c c' : Cache ω} (h : Moves c c') (i : Nat) : (c'.cmt i).pt = (c.cmt i).pt := by
  rw [h.cmt i]

/-! ## Single pages -/

theorem Mapped.invalidate (A : Mapped g s a) {i p : Nat} (hi : a i = some p) :
    Mapped g (invalidatePage g s p) (Function.update a i none) := by
  have hp := A.two.isLive i p hi
  refine ⟨A.rows.unpopulate hp, A.two.release hi, ?_, ?_, A.once⟩
  · change Function.update s.map.bits p false = written (.invalidate p :: s.log)
    rw [written_invalidate, A.log]
  · rw [← A.log]
    exact hp

/-- The state after the next page of segment `r` was taken and written for cmt
`i`. -/
structure Claimed (g : Geom) (s s' : St ω) (r i : Nat) : Prop where
  map : s'.map = take g s.map r
  oob : s'.oob = Function.update s.oob (r * g.pps + s.map.used r) i
  log : s'.log = .write (r * g.pps + s.map.used r) :: s.log

theorem Mapped.claim (A : Mapped g s a) {r i : Nat} (hr : InUse g s.map r)
    (hroom : s.map.used r < g.pps) (hi : a i = none) (C : Claimed g s s' r i) :
    Mapped g s' (Function.update a i (some (r * g.pps + s.map.used r))) := by
  refine ⟨?_, ?_, ?_, ?_⟩
  · rw [C.map]
    exact A.rows.take hr hroom
  · rw [C.map, C.oob]
    exact A.two.claim hi (A.rows.next_free hroom)
  · rw [C.map, C.log, written_write, ← A.log]
    rfl
  · rw [C.log]
    exact A.once

/-! ## Collecting -/

theorem foldl_readValidPage {l : List Nat} (hl : l.Nodup) (s : St ω) (acc : List Nat) :
    l.foldl (readValidPage g) (s, acc) =
      ((l.filter s.map.bits).foldl (invalidatePage g) s, acc ++ l.filter s.map.bits) := by
  induction l generalizing s acc with
  | nil => simp
  | cons p l ih =>
    rw [nodup_cons] at hl
    rw [foldl_cons, readValidPage]
    by_cases hp : s.map.bits p = true
    · -- the rest of the list does not contain `p`, so its valid pages stay the same
      have hrest : l.filter (invalidatePage g s p).map.bits = l.filter s.map.bits := by
        refine filter_congr fun q hq => ?_
        exact update_of_ne (fun he : q = p => hl.1 (he ▸ hq)) _ _
      rw [if_pos hp, ih hl.2, hrest, filter_cons_of_pos hp, foldl_cons,
        append_assoc, singleton_append]
    · rw [if_neg hp, ih hl.2, filter_cons_of_neg hp]

/-- What invalidating the pages `ps` leaves as it is. -/
structure Invalidated (g : Geom) (s s' : St ω) (ps : List Nat) : Prop where
  cache : s'.cache = s.cache
  oob : s'.oob = s.oob
  used : s'.map.used = s.map.used
  free : s'.map.free = s.map.free
  active : s'.map.active = s.map.active
  reserve : s'.map.reserve = s.map.reserve
  bits : ∀ q, s'.map.bits q = true → s.map.bits q = true ∧ q ∉ ps

theorem foldl_invalidatePage (g : Geom) (s : St ω) (ps : List Nat) :
    Invalidated g s (ps.foldl (invalidatePage g) s) ps := by
  induction ps generalizing s with
  | nil => exact ⟨rfl, rfl, rfl, rfl, rfl, rfl, fun q hq => ⟨hq, not_mem_nil⟩⟩
  | cons p ps ih =>
    have I := ih (invalidatePage g s p)
    refine ⟨I.cache, I.oob, I.used, I.free, I.active, I.reserve, fun q hq => ?_⟩
    obtain ⟨hb, hn⟩ := I.bits q hq
    have hne : q ≠ p := by
      rintro rfl
      simp [invalidatePage, unpopulateBit] at hb
    refine ⟨?_, fun hm => ?_⟩
    · simpa only [invalidatePage, unpopulateBit, update_of_ne hne] using hb
    · exact (mem_cons.mp hm).elim hne hn

theorem Mapped.invalidateAll {ps l : List Nat} (hps : ps.Nodup)
    (hlive : ∀ p ∈ ps, s.map.bits p = true) (A : Mapped g s (hide l (addr s.cache))) :
    Mapped g (ps.foldl (invalidatePage g) s) (hide (l ++ ps.map s.oob) (addr s.cache)) := by
  induction ps generalizing s l with
  | nil => simpa using A
  | cons p ps ih =>
    rw [nodup_cons] at hps
    have A1 := A.invalidate (A.two.addr_eq p (hlive p mem_cons_self))
    rw [update_hide] at A1
    have hrest : ∀ q ∈ ps, (invalidatePage g s p).map.bits q = true := by
      intro q hq
      have hne : q ≠ p := fun he => hps.1 (he ▸ hq)
      simpa only [invalidatePage, unpopulateBit, Function.update_of_ne hne] using
        hlive q (.tail _ hq)
    have A2 := ih hps.2 hrest A1
    rw [append_assoc, singleton_append] at A2
    exact A2

/-- While the pages `todo` of `seg` wait to be written to the reserve segment. -/
structure Copying (g : Geom) (s : St ω) (seg : Nat) (todo : List Nat) : Prop where
  mapped : Mapped g s (hide (todo.map s.oob) (addr s.cache))
  nodup : (todo.map s.oob).Nodup
  pages : ∀ p ∈ todo, p / g.pps = seg
  owner : ∀ p ∈ todo, addr s.cache (s.oob p) ≠ none
  inUse : InUse g s.map seg
  reserve : ∃ r, s.map.reserve = some r ∧ InUse g s.map r ∧ r ≠ seg ∧
    s.map.used r + todo.length < g.pps
  empty : ∀ p, p / g.pps = seg → s.map.bits p = false

theorem addr_setTPpa {i : Nat} (hi : addr s.cache i ≠ none) (p : Nat) :
    addr (setTPpa s i (some p)).cache = Function.update (addr s.cache) i (some p) := by
  have hclean : (s.cache.cmt i).state = .clean := by
    unfold addr at hi
    split at hi
    · assumption
    · exact absurd rfl hi
  funext j
  by_cases h : j = i
  · subst h
    simp [addr, setTPpa, Cache.setCmt, hclean]
  · rw [update_of_ne h]
    exact addr_congr (update_of_ne h _ _)

theorem moves_setTPpa {i : Nat} (hi : addr s.cache i ≠ none) (p : Option Nat) :
    Moves s.cache (setTPpa s i p).cache := by
  refine ⟨rfl, fun j => ?_, fun j hj => ?_⟩
  · by_cases h : j = i
    · subst h; simp [setTPpa, Cache.setCmt]
    · simp [setTPpa, Cache.setCmt, update_of_ne h]
  · have h : j ≠ i := fun h => hi (h ▸ hj)
    exact update_of_ne h _ _

theorem Copying.write {seg p : Nat} {todo : List Nat} (C : Copying g s seg (p :: todo)) :
    ∃ s', writeValidPage g s p = .ok s' ∧ Copying g s' seg todo ∧ Moves s.cache s'.cache := by
  obtain ⟨r, hres, hr, hrs, hroom⟩ := C.reserve
  rw [length_cons] at hroom
  have hlt : s.map.used r < g.pps := by omega
  obtain ⟨m, hpage, hval⟩ := C.mapped.rows.getPageNum hlt
  have hdiv := (page_div g (a := r) hlt).1
  have hne : ∀ q, q / g.pps = seg → q ≠ r * g.pps + s.map.used r := by
    intro q hq he
    rw [he, hdiv] at hq
    exact hrs hq
  have hown := C.owner p mem_cons_self
  have hseg := C.pages p mem_cons_self
  -- the OOB word of `p` is read again after that of the new page was set
  refine ⟨setTPpa (setOob { s with
      map := take g s.map r
      log := .write (r * g.pps + s.map.used r) :: s.log } (s.oob p) (r * g.pps + s.map.used r))
    (s.oob p) (some (r * g.pps + s.map.used r)), ?_, ?_, moves_setTPpa hown _⟩
  · unfold writeValidPage
    rw [hres, bind_some, hpage]
    simp only [validatePage, writePage, hval, Except.map, setOob, update_of_ne (hne p hseg)]
  · have hoob : ∀ q ∈ todo, Function.update s.oob (r * g.pps + s.map.used r) (s.oob p) q = s.oob q :=
      fun q hq => update_of_ne (hne q (C.pages q (.tail _ hq))) _ _
    have hmap : todo.map (Function.update s.oob (r * g.pps + s.map.used r) (s.oob p)) =
        todo.map s.oob := map_congr_left hoob
    have hnd := C.nodup
    rw [map_cons, nodup_cons] at hnd
    have haddr := addr_setTPpa (s := setOob { s with
      map := take g s.map r
      log := .write (r * g.pps + s.map.used r) :: s.log } (s.oob p) (r * g.pps + s.map.used r))
      hown (r * g.pps + s.map.used r)
    refine ⟨?_, ?_, fun q hq => C.pages q (.tail _ hq), fun q hq => ?_, ?_, ?_, fun q hq => ?_⟩
    · rw [haddr]
      change Mapped g _ (hide (todo.map (Function.update s.oob (r * g.pps + s.map.used r) (s.oob p))) _)
      rw [hmap, ← hide_update hnd.1]
      refine C.mapped.claim hr hlt ?_ ⟨rfl, rfl, rfl⟩
      simp [hide]
    · change (todo.map (Function.update s.oob (r * g.pps + s.map.used r) (s.oob p))).Nodup
      rw [hmap]
      exact hnd.2
    · rw [haddr]
      change Function.update (addr s.cache) (s.oob p) _
        (Function.update s.oob (r * g.pps + s.map.used r) (s.oob p) q) ≠ none
      have hqp : s.oob q ≠ s.oob p := fun he => hnd.1 (he ▸ mem_map_of_mem hq)
      rw [hoob q hq, update_of_ne hqp]
      exact C.owner q (.tail _ hq)
    · exact ⟨C.inUse.lt, C.inUse.not_free⟩
    · refine ⟨r, hres, ⟨hr.lt, hr.not_free⟩, hrs, ?_⟩
      change Function.update s.map.used r (s.map.used r + 1) r + todo.length < g.pps
      rw [update_self]
      omega
    · change Function.update s.map.bits (r * g.pps + s.map.used r) true q = false
      rw [update_of_ne (hne q hq)]
      exact C.empty q hq

theorem Copying.writeAll {seg : Nat} {todo : List Nat} (C : Copying g s seg todo) :
    ∃ s', todo.foldlM (writeValidPage g) s = .ok s' ∧ Copying g s' seg [] ∧
      Moves s.cache s'.cache := by
  induction todo generalizing s with
  | nil => exact ⟨s, rfl, C, .refl _⟩
  | cons p todo ih =>
    obtain ⟨s1, h1, C1, M1⟩ := C.write
    obtain ⟨s2, h2, C2, M2⟩ := ih C1
    refine ⟨s2, ?_, C2, M1.trans M2⟩
    rw [foldlM_cons, h1]
    exact h2

/-- The active segment has room for a page. -/
structure Ready (g : Geom) (s : St ω) (a : Nat) : Prop where
  sound : Sound g s
  active : s.map.active = some a
  room : s.map.used a < g.pps

theorem Copying.rotate {seg : Nat} (C : Copying g s seg []) :
    ∃ s' a, rotate g s seg = .ok s' ∧ Ready g s' a ∧ s'.cache = s.cache ∧
      ∀ p, p / g.pps = seg → s'.map.bits p = false := by
  obtain ⟨r, hres, hr, hrs, hroom⟩ := C.reserve
  have A := C.mapped
  rw [map_nil, hide_nil] at A
  have R := (A.rows.trim C.inUse).roles (trimmed g s.map seg).reserve (trimmed g s.map seg).reserve
  obtain ⟨a, rest, hf⟩ : ∃ a rest, s.map.free ++ [seg] = a :: rest :=
    exists_cons_of_ne_nil (by simp)
  obtain ⟨hget, R', hlt, hnot, hfresh⟩ := R.getSegment (a := a) hf
  have hbits : (trimmed g s.map seg).bits = s.map.bits := by
    funext p
    simp only [trimmed]
    split
    · rename_i hp
      exact (C.empty p hp).symm
    · rfl
  have hra : r ∉ a :: rest := by
    rw [← hf, mem_append, mem_singleton, not_or]
    exact ⟨hr.not_free, hrs⟩
  rw [mem_cons, not_or] at hra
  refine ⟨{ s with
      map := { trimmed g s.map seg with
        free := rest
        nowAssign := (trimmed g s.map seg).nowAssign + 1
        active := some r
        reserve := some a }
      oob := fun p => if p / g.pps = seg then 0 else s.oob p }, r, ?_,
    ⟨⟨⟨R'.roles (some r) (some a), ?_, ?_, A.once⟩, ⟨a, rfl, ⟨hlt, hnot⟩, hfresh⟩,
      fun b hb => ?_⟩, rfl, ?_⟩, rfl, fun p hp => ?_⟩
  · unfold Trans.rotate
    rw [A.rows.trimSegment C.inUse]
    change (ptGetSegment g _ >>= _) = _
    rw [hget]
    change Except.ok _ = Except.ok _
    rw [show (trimmed g s.map seg).reserve = some r from hres]
  · change TwoWay (addr s.cache) (trimmed g s.map seg).bits _
    rw [hbits]
    refine A.two.congr_back fun p hp => if_neg fun he => ?_
    rw [C.empty p he] at hp
    cases hp
  · change (trimmed g s.map seg).bits = _
    rw [hbits, A.log]
  · cases hb
    exact ⟨⟨hr.lt, hra.2⟩, fun h => hra.1 (some.inj h).symm⟩
  · change Function.update s.map.used seg 0 r < g.pps
    rw [update_of_ne hrs]
    omega
  · change (trimmed g s.map seg).bits p = false
    rw [hbits]
    exact C.empty p hp

theorem Sound.copying (S : Sound g s) {seg : Nat} (hlt : seg < g.segs)
    (hinv : 0 < invSum g s.map seg) :
    Copying g (bulkReadValidPages g s seg).1 seg (bulkReadValidPages g s seg).2 ∧
      (bulkReadValidPages g s seg).1.cache = s.cache := by
  have hread : bulkReadValidPages g s seg =
      (((pagesIn g seg).filter s.map.bits).foldl (invalidatePage g) s,
        (pagesIn g seg).filter s.map.bits) := by
    rw [bulkReadValidPages, foldl_readValidPage (pagesIn_nodup g seg), nil_append]
  have hlive : ∀ p ∈ (pagesIn g seg).filter s.map.bits, s.map.bits p = true :=
    fun p hp => (mem_filter.mp hp).2
  have hnd : ((pagesIn g seg).filter s.map.bits).Nodup := (pagesIn_nodup g seg).filter _
  have A := S.mapped
  have R := A.rows
  have hown : ∀ p, s.map.bits p = true → addr s.cache (s.oob p) = some p := A.two.addr_eq
  have hcount : ((pagesIn g seg).filter s.map.bits).length = validIn g s.map seg :=
    countP_eq_length_filter.symm
  have hsum := R.counted seg
  have hle := R.used_le seg
  obtain ⟨r, hres, hr, hzero⟩ := S.reserve
  have hrs : r ≠ seg := by
    rintro rfl
    have := R.counted r
    omega
  rw [hread]
  have I := foldl_invalidatePage g s ((pagesIn g seg).filter s.map.bits)
  rw [← hide_nil (addr s.cache)] at A
  have A' := A.invalidateAll hnd hlive
  rw [nil_append] at A'
  have hused : InUse g s.map seg := R.inUse hlt hinv
  refine ⟨⟨?_, ?_, fun p hp => ?_, fun p hp => ?_, ⟨hlt, ?_⟩, ⟨r, ?_, ⟨hr.lt, ?_⟩, hrs, ?_⟩,
    fun p hp => ?_⟩, I.cache⟩
  · rw [I.oob, I.cache]
    exact A'
  · rw [I.oob]
    refine List.Nodup.map_on (fun p hp q hq he => ?_) hnd
    have h1 := hown p (hlive p hp)
    rw [he, hown q (hlive q hq)] at h1
    exact (some.inj h1).symm
  · exact mem_pagesIn.mp (mem_filter.mp hp).1
  · rw [I.oob, I.cache, hown p (hlive p hp)]
    exact some_ne_none p
  · rw [I.free]
    exact hused.not_free
  · rw [I.reserve]
    exact hres
  · rw [I.free]
    exact hr.not_free
  · rw [I.used, hzero, hcount]
    omega
  · by_contra hb
    obtain ⟨h1, h2⟩ := I.bits p (by simpa using hb)
    exact h2 (mem_filter.mpr ⟨mem_pagesIn.mpr hp, h1⟩)

theorem Sound.tpageGc (S : Sound g s) :
    (∃ seg s' a, ptGetGcTarget g s.map = .ok seg ∧ tpageGc g s = .ok s' ∧ Ready g s' a ∧
        Moves s.cache s'.cache ∧ ∀ p, p / g.pps = seg → s'.map.bits p = false) ∨
      (tpageGc g s = .error .other ∧ ∀ seg < g.segs, invSum g s.map seg = 0) := by
  rcases S.mapped.rows.gcTarget with ⟨seg, hseg, hlt, hinv, -⟩ | ⟨hseg, hnone⟩
  · obtain ⟨C, hc⟩ := S.copying hlt hinv
    obtain ⟨s1, h1, C1, M1⟩ := C.writeAll
    obtain ⟨s2, a, h2, hready, hc2, hempty⟩ := C1.rotate
    refine .inl ⟨seg, s2, a, hseg, ?_, hready, ?_, hempty⟩
    · unfold Trans.tpageGc
      rw [hseg]
      exact (congrArg (fun x : M (St ω) => x >>= fun s => rotate g s seg) h1).trans h2
    · rw [hc2, ← hc]
      exact M1
  · refine .inr ⟨?_, hnone⟩
    unfold Trans.tpageGc
    rw [hseg]
    rfl

/-! ## Taking a page -/

theorem Sound.renewActive (S : Sound g s) :
    (∃ s' a, renewActive g s = .ok s' ∧ Ready g s' a ∧ Moves s.cache s'.cache) ∨
      (renewActive g s = .error .other ∧ ∀ seg < g.segs, invSum g s.map seg = 0) := by
  unfold Trans.renewActive
  by_cases hfull : activeFull g s.map = true
  · rw [if_pos hfull]
    cases hf : s.map.free with
    | nil =>
      rw [if_pos isEmpty_nil]
      rcases S.tpageGc with ⟨-, s', a, -, h, hready, hm, -⟩ | h
      · exact .inl ⟨s', a, h, hready, hm⟩
      · exact .inr h
    | cons a rest =>
      rw [if_neg (by simp)]
      obtain ⟨hget, R, hlt, hnot, hfresh⟩ := S.mapped.rows.getSegment hf
      obtain ⟨r, hres, hr, hzero⟩ := S.reserve
      have hrf := hr.not_free
      rw [hf, mem_cons, not_or] at hrf
      refine .inl ⟨{ s with map := { s.map with
          free := rest, nowAssign := s.map.nowAssign + 1, active := some a } }, a,
        by rw [hget]; rfl, ⟨⟨⟨R.roles (some a) s.map.reserve, S.mapped.two, S.mapped.log,
          S.mapped.once⟩, ⟨r, hres, ⟨hr.lt, hrf.2⟩, hzero⟩, fun b hb => ?_⟩, rfl, ?_⟩, .refl _⟩
      · cases hb
        exact ⟨⟨hlt, hnot⟩, fun h => hrf.1 (some.inj (hres.symm.trans h))⟩
      · change s.map.used a < g.pps
        rw [hfresh]
        exact g.pps_pos
  · rw [if_neg hfull]
    cases ha : s.map.active with
    | none => simp [activeFull, ha] at hfull
    | some a =>
      have hle := S.mapped.rows.used_le a
      have hne : s.map.used a ≠ g.pps := by simpa [activeFull, ha] using hfull
      exact .inl ⟨s, a, rfl, ⟨S, ha, by omega⟩, .refl _⟩

/-- The state after `get_tpage` took the next page of the active segment. -/
def taken (g : Geom) (s : St ω) (a : Nat) : St ω := { s with map := take g s.map a }

theorem Sound.getTpage (S : Sound g s) :
    (∃ s' a, getTpage g s = .ok (taken g s' a, a * g.pps + s'.map.used a) ∧ Ready g s' a ∧
        Moves s.cache s'.cache) ∨
      (getTpage g s = .error .other ∧ ∀ seg < g.segs, invSum g s.map seg = 0) := by
  unfold Trans.getTpage
  rcases S.renewActive with ⟨s', a, h, hready, hm⟩ | ⟨h, hnone⟩
  · refine .inl ⟨s', a, ?_, hready, hm⟩
    obtain ⟨m, hpage, hval⟩ := hready.sound.mapped.rows.getPageNum hready.room
    rw [h]
    change nextPage g s' = _
    unfold nextPage
    rw [hready.active, bind_some, hpage]
    simp only [validatePage, hval, Except.map, taken]
  · refine .inr ⟨?_, hnone⟩
    rw [h]
    rfl

theorem addr_writeTpage (s : St ω) (i t : Nat) :
    addr (writeTpage s i t).cache = Function.update (addr s.cache) i (some t) := by
  funext j
  by_cases h : j = i
  · subst h
    simp [addr, writeTpage, setOob, writePage, Cache.setCmt]
  · rw [update_of_ne h]
    exact addr_congr (update_of_ne h _ _)

theorem Ready.write {b : Nat} (S : Ready g s b) {i : Nat} (hi : addr s.cache i = none) :
    Sound g (writeTpage (taken g s b) i (b * g.pps + s.map.used b)) := by
  obtain ⟨hb, hbr⟩ := S.sound.active b S.active
  obtain ⟨r, hres, hr, hzero⟩ := S.sound.reserve
  refine ⟨?_, ⟨r, hres, ⟨hr.lt, hr.not_free⟩, ?_⟩, fun c hc => ?_⟩
  · rw [addr_writeTpage]
    exact S.sound.mapped.claim hb S.room hi ⟨rfl, rfl, rfl⟩
  · have hne : r ≠ b := fun he => hbr (he ▸ hres)
    change Function.update s.map.used b (s.map.used b + 1) r = 0
    rw [update_of_ne hne]
    exact hzero
  · obtain ⟨h1, h2⟩ := S.sound.active c hc
    exact ⟨⟨h1.lt, h1.not_free⟩, h2⟩

theorem Sound.getWrite (S : Sound g s) {r : St ω × Nat} (h : Trans.getTpage g s = .ok r) {i : Nat}
    (hi : addr s.cache i = none) :
    Sound g (writeTpage r.1 i r.2) ∧ ∃ c, Moves s.cache c ∧ r.1.cache = c := by
  rcases S.getTpage with ⟨s', a, h', hready, hm⟩ | ⟨h', -⟩
  · rw [h'] at h
    cases h
    exact ⟨hready.write (hm.addr_none hi), s'.cache, hm, rfl⟩
  · rw [h'] at h
    cases h

/-! ## The parts of the calls -/

/-- Pages that are not cached are clean, `v` apart. -/
def CleanBut (c : Cache ω) (v : Option Nat) : Prop :=
  ∀ i, v ≠ some i → (c.cmt i).pt = false → (c.cmt i).state = .clean

/-- The nodes that the second loop does not skip are of translation pages whose
old page is invalidated. -/
structure Waits (cfg : Cfg) (c : Cache ω) (todo : List (Moved × Bool)) : Prop where
  skip : ∀ x ∈ todo, x.2 = (c.cmt (cfg.idx x.1.node.lpa)).pt
  gone : ∀ x ∈ todo, x.2 = false → addr c (cfg.idx x.1.node.lpa) = none

def Sorted (nodes : List Moved) : Prop := nodes.Pairwise fun a b => a.node.lpa ≤ b.node.lpa

/-- What holds in the middle of a call. -/
def Begun (cfg : Cfg) (c : Cache ω) : Work → Prop
  | .idle => CleanBut c none
  | .evict v _ => CleanBut c (some v) ∧ (c.cmt v).state = .dirty
  | .read todo done => CleanBut c none ∧ Sorted (done.map Prod.fst ++ todo) ∧ Waits cfg c done
  | .write todo => CleanBut c none ∧ Sorted (todo.map Prod.fst) ∧ Waits cfg c todo

structure Inv (cfg : Cfg) (g : Geom) (x : Sys ω) : Prop where
  sound : Sound g x.st
  begun : Begun cfg x.st.cache x.work

theorem Sound.congr (S : Sound g s) {c : Cache ω} (h : addr c = addr s.cache) :
    Sound g { s with cache := c } := by
  refine ⟨?_, S.reserve, S.active⟩
  change Mapped g _ (addr c)
  rw [h]
  exact ⟨S.mapped.rows, S.mapped.two, S.mapped.log, S.mapped.once⟩

theorem addr_popVictim (s : St ω) (v : Nat) : addr (popVictim s v).cache = addr s.cache := by
  funext j
  by_cases h : j = v
  · subst h
    simp [addr, popVictim, Cache.setCmt]
  · exact addr_congr (update_of_ne h _ _)

theorem cmt_popVictim (s : St ω) {v i : Nat} (h : i ≠ v) :
    (popVictim s v).cache.cmt i = s.cache.cmt i :=
  update_of_ne h _ _

theorem cmt_insertPage (cfg : Cfg) (s : St ω) (lpa i : Nat) :
    ((insertPage cfg s lpa).cache.cmt i).state = (s.cache.cmt i).state ∧
      ((insertPage cfg s lpa).cache.cmt i).tPpa = (s.cache.cmt i).tPpa ∧
      (((insertPage cfg s lpa).cache.cmt i).pt = false → (s.cache.cmt i).pt = false) := by
  unfold insertPage cgInsert
  by_cases h : i = cfg.idx lpa
  · subst h
    dsimp only
    split <;> simp [Cache.setCmt]
  · dsimp only
    split <;> simp [Cache.setCmt, update_of_ne h]

theorem Sound.insertPage (S : Sound g s) (cfg : Cfg) (lpa : Nat) :
    Sound g (insertPage cfg s lpa) := by
  refine S.congr (funext fun i => ?_)
  obtain ⟨h1, h2, -⟩ := cmt_insertPage cfg s lpa i
  unfold Trans.insertPage at h1 h2
  unfold addr
  rw [h1, h2]

theorem CleanBut.insertPage (h : CleanBut s.cache none) (cfg : Cfg) (lpa : Nat) :
    CleanBut (insertPage cfg s lpa).cache none := by
  intro i hi hp
  obtain ⟨h1, -, h3⟩ := cmt_insertPage cfg s lpa i
  rw [h1]
  exact h i hi (h3 hp)

theorem cmt_cgUpdate (cfg : Cfg) (c : Cache ω) (lpa ppa : Nat) :
    (cgUpdate cfg c lpa ppa).cmt = if (c.cmt (cfg.idx lpa)).pt then
        Function.update c.cmt (cfg.idx lpa) { c.cmt (cfg.idx lpa) with state := .dirty }
      else c.cmt := by
  unfold cgUpdate
  dsimp only
  split <;> rfl

/-- The page that `cg_update` invalidates. -/
def outdated (cfg : Cfg) (c : Cache ω) (lpa : Nat) : Option Nat :=
  if (c.cmt (cfg.idx lpa)).pt then addr c (cfg.idx lpa) else none

theorem update_eq (cfg : Cfg) (g : Geom) (s : St ω) (lpa ppa : Nat) :
    update cfg g s lpa ppa = { (outdated cfg s.cache lpa).toList.foldl (invalidatePage g) s with
      cache := cgUpdate cfg s.cache lpa ppa } := by
  have hgone : (cgUpdate cfg s.cache lpa ppa).mapInvalid =
      s.cache.mapInvalid ++ (outdated cfg s.cache lpa).toList := by
    unfold cgUpdate outdated addr
    dsimp only
    split
    · cases (s.cache.cmt (cfg.idx lpa)).state <;> rfl
    · exact (append_nil _).symm
  unfold update
  dsimp only
  rw [hgone, drop_left]
  cases outdated cfg s.cache lpa <;> rfl

theorem Sound.update (S : Sound g s) (cfg : Cfg) (lpa ppa : Nat) :
    Sound g (update cfg g s lpa ppa) := by
  have haddr : addr (cgUpdate cfg s.cache lpa ppa) =
      if (s.cache.cmt (cfg.idx lpa)).pt then Function.update (addr s.cache) (cfg.idx lpa) none
      else addr s.cache := by
    by_cases hpt : (s.cache.cmt (cfg.idx lpa)).pt = true
    · rw [if_pos hpt]
      funext j
      by_cases h : j = cfg.idx lpa
      · subst h
        simp [addr, cmt_cgUpdate, hpt]
      · rw [update_of_ne h]
        refine addr_congr ?_
        rw [cmt_cgUpdate, if_pos hpt]
        exact update_of_ne h _ _
    · rw [if_neg hpt]
      refine funext fun j => addr_congr ?_
      rw [cmt_cgUpdate, if_neg hpt]
  rw [update_eq]
  unfold outdated
  split
  · rename_i hpt
    rw [if_pos hpt] at haddr
    cases ht : addr s.cache (cfg.idx lpa) with
    | none =>
      refine S.congr (haddr.trans ?_)
      rw [← ht]
      exact update_eq_self ..
    | some t =>
      have A := S.mapped.invalidate ht
      rw [← haddr] at A
      obtain ⟨r, hres, hr, hzero⟩ := S.reserve
      refine ⟨⟨A.rows, A.two, A.log, A.once⟩, ⟨r, hres, ⟨hr.lt, hr.not_free⟩, hzero⟩, fun b hb => ?_⟩
      obtain ⟨h1, h2⟩ := S.active b hb
      exact ⟨⟨h1.lt, h1.not_free⟩, h2⟩
  · rename_i hpt
    rw [if_neg hpt] at haddr
    exact S.congr haddr

theorem cmt_update (cfg : Cfg) (g : Geom) (s : St ω) (lpa ppa i : Nat) :
    ((update cfg g s lpa ppa).cache.cmt i).pt = (s.cache.cmt i).pt ∧
      ((s.cache.cmt i).pt = false → (update cfg g s lpa ppa).cache.cmt i = s.cache.cmt i) := by
  rw [update_eq]
  dsimp only
  rw [cmt_cgUpdate]
  split
  · rename_i hpt
    by_cases h : i = cfg.idx lpa
    · subst h
      rw [Function.update_self]
      exact ⟨rfl, fun hf => by rw [hpt] at hf; cases hf⟩
    · rw [Function.update_of_ne h]
      exact ⟨rfl, fun _ => rfl⟩
  · exact ⟨rfl, fun _ => rfl⟩

theorem CleanBut.update (h : CleanBut s.cache none) (cfg : Cfg) (g : Geom) (lpa ppa : Nat) :
    CleanBut (update cfg g s lpa ppa).cache none := by
  intro i hi hp
  obtain ⟨h1, h2⟩ := cmt_update cfg g s lpa ppa i
  rw [h1] at hp
  rw [h2 hp]
  exact h i hi hp

/-- A round of the first loop of the mapping update: the page of a cmt that is
not cached is invalidated, and the address is forgotten. -/
structure NodeRead (cfg : Cfg) (g : Geom) (s s' : St ω) (n : Moved) (b : Bool) : Prop where
  sound : Sound g s'
  pt : ∀ i, (s'.cache.cmt i).pt = (s.cache.cmt i).pt
  state : ∀ i, (s.cache.cmt i).pt = false → (s'.cache.cmt i).state = (s.cache.cmt i).state
  addr : ∀ i, (s.cache.cmt i).pt = false → addr s.cache i = none → addr s'.cache i = none
  skip : b = (s.cache.cmt (cfg.idx n.node.lpa)).pt
  gone : b = false → Trans.addr s'.cache (cfg.idx n.node.lpa) = none

theorem Sound.readNode (S : Sound g s) (hc : CleanBut s.cache none) (cfg : Cfg) (n : Moved) :
    NodeRead cfg g s (readNode cfg g s n).1 n (readNode cfg g s n).2 := by
  unfold Trans.readNode cgIsHit
  split
  · rename_i hpt
    have hcmt := cmt_update cfg g s n.node.lpa n.ppa
    exact ⟨S.update cfg _ _, fun i => (hcmt i).1, fun i hi => by rw [(hcmt i).2 hi],
      fun i hi ha => (addr_congr ((hcmt i).2 hi)).trans ha, hpt.symm, fun h => by cases h⟩
  · rename_i hpt
    have hpt : (s.cache.cmt (cfg.idx n.node.lpa)).pt = false := by simpa using hpt
    have hclean := hc (cfg.idx n.node.lpa) (by simp) hpt
    have haddr : addr s.cache (cfg.idx n.node.lpa) = (s.cache.cmt (cfg.idx n.node.lpa)).tPpa := by
      unfold addr
      rw [hclean]
    split
    · rename_i ht
      exact ⟨S, fun _ => rfl, fun _ _ => rfl, fun _ _ h => h, hpt.symm, fun _ => haddr.trans ht⟩
    · rename_i t ht
      have hset : addr (setTPpa (invalidatePage g s t) (cfg.idx n.node.lpa) none).cache =
          Function.update (addr s.cache) (cfg.idx n.node.lpa) none := by
        funext j
        by_cases h : j = cfg.idx n.node.lpa
        · subst h
          simp [addr, setTPpa, invalidatePage, Cache.setCmt, hclean]
        · rw [update_of_ne h]
          exact addr_congr (update_of_ne h _ _)
      have hcmt : ∀ i, (setTPpa (invalidatePage g s t) (cfg.idx n.node.lpa) none).cache.cmt i =
          { s.cache.cmt i with
            tPpa := ((setTPpa (invalidatePage g s t) (cfg.idx n.node.lpa) none).cache.cmt i).tPpa } :=
        fun i => by
          by_cases h : i = cfg.idx n.node.lpa
          · subst h; simp [setTPpa, invalidatePage, Cache.setCmt]
          · simp [setTPpa, invalidatePage, Cache.setCmt, update_of_ne h]
      have A := S.mapped.invalidate (haddr.trans ht)
      rw [← hset] at A
      obtain ⟨r, hres, hr, hzero⟩ := S.reserve
      refine ⟨⟨⟨A.rows, A.two, A.log, A.once⟩, ⟨r, hres, ⟨hr.lt, hr.not_free⟩, hzero⟩, fun b hb => ?_⟩,
        fun i => by rw [hcmt i], fun i _ => by rw [hcmt i], fun i _ hi => ?_, hpt.symm,
        fun _ => by rw [hset, update_self]⟩
      · obtain ⟨h1, h2⟩ := S.active b hb
        exact ⟨⟨h1.lt, h1.not_free⟩, h2⟩
      · rw [hset]
        by_cases h : i = cfg.idx n.node.lpa
        · rw [h, update_self]
        · rw [update_of_ne h]
          exact hi

theorem cmt_written {c : Cache ω} (hm : Moves s.cache c) {r : St ω × Nat} (hr : r.1.cache = c)
    (i j : Nat) :
    ((writeTpage r.1 i r.2).cache.cmt j).pt = (s.cache.cmt j).pt ∧
      ((writeTpage r.1 i r.2).cache.cmt j).state =
        if j = i then .clean else (s.cache.cmt j).state := by
  subst hr
  by_cases h : j = i
  · subst h
    simp [writeTpage, setOob, writePage, Cache.setCmt, hm.pt]
  · simp [writeTpage, setOob, writePage, Cache.setCmt, h, hm.pt, hm.state]

theorem Sorted.idx_ne {n : Moved} {b : Bool} {todo : List (Moved × Bool)} {cfg : Cfg}
    (h : Sorted (((n, b) :: todo).map Prod.fst)) :
    ∀ x ∈ todo.dropWhile (sameIdx cfg n), cfg.idx x.1.node.lpa ≠ cfg.idx n.node.lpa := by
  have hmono : ∀ {a b : Nat}, a ≤ b → cfg.idx a ≤ cfg.idx b := Nat.div_le_div_right
  rw [map_cons] at h
  obtain ⟨hle, htail⟩ := pairwise_cons.mp h
  cases hd : todo.dropWhile (sameIdx cfg n) with
  | nil => intro x hx; cases hx
  | cons y rest =>
    have hy : sameIdx cfg n y = false := by
      have := head?_dropWhile_not (sameIdx cfg n) todo
      rw [hd] at this
      simpa using this
    have hmem : ∀ z ∈ y :: rest, z ∈ todo := fun z hz =>
      (dropWhile_sublist _).subset (hd ▸ hz)
    have hrest : Sorted ((y :: rest).map Prod.fst) :=
      htail.sublist (hd ▸ (dropWhile_sublist _).map Prod.fst)
    rw [map_cons] at hrest
    have hny : cfg.idx n.node.lpa ≤ cfg.idx y.1.node.lpa :=
      hmono (hle y.1 (mem_map_of_mem (hmem y mem_cons_self)))
    have hne : cfg.idx y.1.node.lpa ≠ cfg.idx n.node.lpa := by simpa [sameIdx] using hy
    intro x hx
    rcases mem_cons.mp hx with rfl | hx
    · exact hne
    · have := hmono ((pairwise_cons.mp hrest).1 x.1 (mem_map_of_mem hx))
      omega

theorem Sound.writeGroup (S : Sound g s) {n : Moved} {same : List (Moved × Bool)}
    (h : Trans.writeGroup cfg g s n same = .ok s') (hi : addr s.cache (cfg.idx n.node.lpa) = none) :
    Sound g s' ∧ (∀ j, (s'.cache.cmt j).pt = (s.cache.cmt j).pt ∧ (s'.cache.cmt j).state =
        if j = cfg.idx n.node.lpa then .clean else (s.cache.cmt j).state) ∧
      ∀ j, j ≠ cfg.idx n.node.lpa → addr s.cache j = none → addr s'.cache j = none := by
  -- the entries are in `mem_table`, which the addresses do not depend on
  have hset : ∀ (l : List (Moved × Bool)) (t : St ω), ∃ m, l.foldl (fun s m => setEntry s m.1) t =
      { t with cache := { t.cache with memTable := m } } := by
    intro l
    induction l with
    | nil => exact fun t => ⟨t.cache.memTable, rfl⟩
    | cons x l ih => exact fun t => ih (setEntry t x.1)
  obtain ⟨m, hm⟩ := hset same (setEntry s n)
  unfold Trans.writeGroup at h
  rw [hm] at h
  have S1 : Sound g { s with cache := { s.cache with memTable := m } } := S.congr rfl
  obtain ⟨r, hg, hr⟩ := ok_bind h
  cases hr
  obtain ⟨S2, c, hm, hc⟩ := S1.getWrite hg hi
  refine ⟨S2, fun j => cmt_written hm hc _ j, fun j hj ha => ?_⟩
  rw [addr_writeTpage, Function.update_of_ne hj, hc]
  exact hm.addr_none ha

/-! ## Whole runs -/

theorem Inv.init (hg : 0 < g.segs) : Inv cfg g (⟨.init g, .idle⟩ : Sys ω) := by
  refine ⟨⟨⟨Rows.init hg, ⟨fun _ _ h => ?_, fun _ _ h => ?_, fun _ h => ?_⟩, rfl, trivial⟩,
    ⟨0, rfl, ⟨hg, fun h => ?_⟩, rfl⟩, fun _ h => ?_⟩, fun _ _ _ => rfl⟩
  · cases h
  · cases h
  · cases h
  · change 0 ∈ (range g.segs).tail at h
    obtain ⟨n, hn⟩ := Nat.exists_eq_succ_of_ne_zero (ne_of_gt hg)
    simp [hn, range_succ_eq_map] at h
  · cases h

theorem Inv.beginListUp {x' : Sys ω} {lpa : Nat} (S : Sound g s) (hc : CleanBut s.cache none)
    (h : beginListUp cfg s lpa = .ok x') : Inv cfg g x' := by
  unfold Trans.beginListUp at h
  split at h
  · split at h
    · cases h
    · rename_i v hv
      have S1 : Sound g (popVictim s v) := S.congr (addr_popVictim s v)
      have hother : ∀ i, i ≠ v → ((popVictim s v).cache.cmt i).pt = false →
          ((popVictim s v).cache.cmt i).state = .clean := by
        intro i hi hp
        rw [cmt_popVictim s hi] at hp ⊢
        exact hc i (by simp) hp
      have hstate : ((popVictim s v).cache.cmt v).state = (s.cache.cmt v).state := by
        simp [popVictim, Cache.setCmt]
      split at h
      · rename_i hd
        cases h
        exact ⟨S1, fun i hi => hother i fun he => hi (by rw [he]), hstate.trans hd⟩
      · rename_i hd
        cases h
        refine ⟨S1.insertPage cfg lpa, CleanBut.insertPage (fun i hi hp => ?_) cfg lpa⟩
        by_cases he : i = v
        · rw [he]
          exact hstate.trans hd
        · exact hother i he hp
  · cases h
    exact ⟨S.insertPage cfg lpa, hc.insertPage cfg lpa⟩

theorem Inv.go {x' : Sys ω} {w : Work} (I : Inv cfg g ⟨s, w⟩) (h : go cfg g s w = .ok x') :
    Inv cfg g x' := by
  obtain ⟨S, hb⟩ := I
  dsimp only at S hb
  cases w with
  | idle => cases h
  | evict v lpa =>
    obtain ⟨hc, hd⟩ := hb
    have hi : addr s.cache v = none := by
      unfold addr
      rw [hd]
    obtain ⟨r, hg, rfl⟩ := ok_map h
    obtain ⟨S1, c, hm, hcache⟩ := S.getWrite hg hi
    refine ⟨S1.insertPage cfg lpa, CleanBut.insertPage (fun i _ hp => ?_) cfg lpa⟩
    obtain ⟨h1, h2⟩ := cmt_written hm hcache v i
    rw [h2]
    split
    · rfl
    · rename_i hne
      rw [h1] at hp
      exact hc i (fun he => hne (some.inj he).symm) hp
  | read todo done =>
    obtain ⟨hc, hs, hw⟩ := hb
    cases todo with
    | nil =>
      cases h
      rw [append_nil] at hs
      exact ⟨S, hc, hs, hw⟩
    | cons n todo =>
      cases h
      have N := S.readNode hc cfg n
      refine ⟨N.sound, fun i hi hp => ?_, ?_, fun x hx => ?_, fun x hx hf => ?_⟩
      · rw [N.pt i] at hp
        rw [N.state i hp]
        exact hc i hi hp
      · rw [map_append, append_assoc]
        exact hs
      · rw [N.pt]
        rcases mem_append.mp hx with hx | hx
        · exact hw.skip x hx
        · rw [mem_singleton.mp hx]
          exact N.skip
      · rcases mem_append.mp hx with hx | hx
        · exact N.addr _ (hw.skip x hx ▸ hf) (hw.gone x hx hf)
        · rw [mem_singleton.mp hx] at hf ⊢
          exact N.gone hf
  | write todo =>
    obtain ⟨hc, hs, hw⟩ := hb
    match todo with
    | [] =>
      cases h
      exact ⟨S, hc⟩
    | (n, true) :: todo =>
      cases h
      exact ⟨S, hc, hs.tail, fun x hx => hw.skip x (.tail _ hx), fun x hx =>
        hw.gone x (.tail _ hx)⟩
    | (n, false) :: todo =>
      obtain ⟨s1, hg, rfl⟩ := ok_map h
      obtain ⟨S1, hcmt, haddr⟩ := S.writeGroup hg (hw.gone (n, false) mem_cons_self rfl)
      have hsub : ∀ x ∈ todo.dropWhile (sameIdx cfg n), x ∈ (n, false) :: todo := fun x hx =>
        .tail _ ((dropWhile_sublist _).subset hx)
      refine ⟨S1, fun i hi hp => ?_, ?_, fun x hx => ?_, fun x hx hf => ?_⟩
      · rw [(hcmt i).1] at hp
        rw [(hcmt i).2]
        split
        · rfl
        · exact hc i hi hp
      · exact hs.tail.sublist ((dropWhile_sublist _).map _)
      · rw [(hcmt _).1]
        exact hw.skip x (hsub x hx)
      · exact haddr _ (hs.idx_ne x hx) (hw.gone x (hsub x hx) hf)

theorem inv_inductive (cfg : Cfg) (g : Geom) :
    (transLTS cfg g : Core.LTS (Sys ω) Lbl).Inductive (Inv cfg g) := by
  refine ⟨fun x hx => hx.2 ▸ Inv.init hx.1, fun x l x' I h => ?_⟩
  obtain ⟨s, w⟩ := x
  change exec cfg g ⟨s, w⟩ l = .ok x' at h
  cases l with
  | go => exact I.go h
  | listUp lpa =>
    cases w with
    | idle => exact Inv.beginListUp I.sound I.begun h
    | _ => cases h
  | update lpa ppa =>
    cases w with
    | idle =>
      cases h
      exact ⟨I.sound.update cfg lpa ppa, CleanBut.update I.begun cfg g lpa ppa⟩
    | _ => cases h
  | gcMap nodes =>
    cases w with
    | idle =>
      cases h
      exact ⟨I.sound, I.begun, pairwise_insertionSort _ nodes, fun _ hx => (by cases hx),
        fun _ hx => (by cases hx)⟩
    | _ => cases h

/-- The clean cmts that have a page, and the valid map pages. -/
structure PagesOk (g : Geom) (s : St ω) : Prop where
  page : ∀ i t, (s.cache.cmt i).state = .clean → (s.cache.cmt i).tPpa = some t →
    t / g.pps < g.segs ∧ s.map.bits t = true ∧ s.oob t = i
  distinct : ∀ i j t, (s.cache.cmt i).state = .clean → (s.cache.cmt j).state = .clean →
    (s.cache.cmt i).tPpa = some t → (s.cache.cmt j).tPpa = some t → i = j
  owner : ∀ p, s.map.bits p = true →
    ∃! i, (s.cache.cmt i).state = .clean ∧ (s.cache.cmt i).tPpa = some p
  once : ∀ l1 l2 l3 p, s.log = l1 ++ .invalidate p :: (l2 ++ .invalidate p :: l3) → Ev.write p ∈ l2

theorem Sound.pagesOk (S : Sound g s) : PagesOk g s := by
  have hiff : ∀ i t, addr s.cache i = some t ↔
      (s.cache.cmt i).state = .clean ∧ (s.cache.cmt i).tPpa = some t := by
    intro i t
    unfold addr
    cases (s.cache.cmt i).state <;> simp
  have A := S.mapped
  refine ⟨fun i t hc ht => ?_, fun i j t hi hj hti htj => ?_, fun p hp => ?_, fun l1 l2 l3 p h => ?_⟩
  · have ha := (hiff i t).mpr ⟨hc, ht⟩
    have hlive := A.two.isLive i t ha
    exact ⟨A.rows.inside t hlive, hlive, A.two.back_eq i t ha⟩
  · exact A.two.inj ((hiff i t).mpr ⟨hi, hti⟩) ((hiff j t).mpr ⟨hj, htj⟩)
  · have ha := A.two.addr_eq p hp
    refine ⟨s.oob p, (hiff _ _).mp ha, fun j hj => ?_⟩
    exact A.two.inj ((hiff j p).mpr hj) ha
  · have ho := A.once
    rw [h] at ho
    exact ho.between

/-- In every state between and within the calls, translation pages and clean
cmts belong together, and a collection of the map partition keeps this. -/
theorem trans_pages (cfg : Cfg) (g : Geom) {tr : List Lbl} {x : Sys ω}
    (h : (transLTS cfg g).Exec tr x) :
    PagesOk g x.st ∧ ∀ seg s', ptGetGcTarget g x.st.map = .ok seg → tpageGc g x.st = .ok s' →
      PagesOk g s' ∧ ∀ p, p / g.pps = seg → s'.map.bits p = false := by
  have I : Inv cfg g x := h.inv (inv_inductive cfg g)
  refine ⟨I.sound.pagesOk, fun seg s' hseg hgc => ?_⟩
  rcases I.sound.tpageGc with ⟨seg', s'', a, hseg', hgc', hready, -, hempty⟩ | ⟨hgc', -⟩
  · rw [hseg'] at hseg
    cases hseg
    rw [hgc'] at hgc
    cases hgc
    exact ⟨hready.sound.pagesOk, hempty⟩
  · rw [hgc'] at hgc
    cases hgc

/-- Four translation pages of one entry, one of them cached. -/
def fourPages : Cfg := ⟨1, 4, 1, 1, 1, Nat.one_pos, Nat.one_pos⟩

/-- Pages 2 to 5 are written for cmts 0, 1, 0 and 2, and cmt 0 is dirty when it
is evicted again: segment 1 is collected, which moves the page of cmt 1 from 3
to 0, and cmt 0 is written to page 1. -/
theorem trans_pages_moved : ∃ tr, ∃ x : Sys Unit,
    (transLTS fourPages Lsmtree.HeaderPage.small).Exec tr x ∧ (x.st.cache.cmt 1).tPpa = some 0 ∧
      (x.st.cache.cmt 0).tPpa = some 1 ∧ PagesOk Lsmtree.HeaderPage.small x.st := by
  obtain ⟨x, he, hp⟩ := Core.LTS.Exec.check (T := transLTS fourPages Lsmtree.HeaderPage.small)
    (some (⟨.init Lsmtree.HeaderPage.small, .idle⟩ : Sys Unit)) (fun _ _ => True)
    [.listUp 0, .update 0 7, .listUp 1, .go, .update 1 7, .listUp 0, .go, .update 0 8, .listUp 2,
      .go, .update 2 9, .listUp 0, .go, .update 0 9, .listUp 3, .go]
    (fun x => (x.st.cache.cmt 1).tPpa = some 0 ∧ (x.st.cache.cmt 0).tPpa = some 1)
    (fun x l x' _ h => ok_of_toOption h) (fun _ h => ⟨Nat.succ_pos 2, some.inj h.symm⟩)
    (by decide +kernel)
  exact ⟨_, x, he, hp.1, hp.2, (trans_pages fourPages Lsmtree.HeaderPage.small he).1⟩

end

end FlashDriver.Demand.Trans
