import FlashDriver.Demand.Cache

/-!
# The fine-grained mapping cache (`algorithm/demand/fine.c`)

The fine-grained cache holds single entries of translation pages. A page has a
flag for each of its entries and the number of flags that are set; the cache has
the number of entries in all, which decides when it is full. All pages are in
the LRU list, and an eviction takes all entries of the last one.

`fg_list_up` counts an entry without looking at its flag, and so do its loops
over the requests that wait for the page. `fg_update` of an entry that is not
cached sets the flag and counts it for the page, but not for the cache, and
leaves the page clean.

* `fg_accounting`: over any sequence of operations the counters are right and
  updated pages dirty as long as each entry is listed once, and updated only
  while it is cached; otherwise not.
-/
namespace FlashDriver.Demand.Fine

open List Function

/-! ## State -/

/-- `EPP`, `nr_valid_tpages`, `max_cached_tentries` and `wb_flush_size`. -/
structure Geo where
  epp : Nat
  tpages : Nat
  maxEntries : Nat
  flushSize : Nat

/-- mirrors algorithm/demand/utility.h:25 (`IDX`) -/
def Geo.idx (g : Geo) (lpa : Nat) : Nat := lpa / g.epp

/-- mirrors algorithm/demand/utility.h:26 (`OFFSET`) -/
def Geo.offset (g : Geo) (lpa : Nat) : Nat := lpa % g.epp

/-- mirrors `struct cmt_struct`; a request that waits is given by its lpa. -/
structure Cmt where
  tPpa : Option Nat             -- `none` is UINT32_MAX
  state : CmtState
  isFlying : Bool
  retryQ : List Nat
  isCached : Nat → Bool         -- by offset
  cachedCnt : Nat

/-- mirrors `struct cache_member`. -/
structure Cache where
  cmt : Nat → Cmt
  memTable : Nat → Option Nat   -- by lpa
  lru : List Nat
  nrCached : Int
  unsaved : Nat → Bool          -- ghost: updated since the page was last written

/-- mirrors algorithm/demand/fine.c:73-108 -/
def Cache.init (g : Geo) : Cache where
  cmt _ := ⟨none, .clean, false, [], fun _ => false, 0⟩
  memTable _ := none
  lru := (range g.tpages).reverse
  nrCached := 0
  unsaved _ := false

def Cache.setCmt (c : Cache) (i : Nat) (m : Cmt) : Cache := { c with cmt := update c.cmt i m }

/-! ## Operations -/

/-- mirrors algorithm/demand/fine.c:345-347 -/
def fgIsFull (g : Geo) (c : Cache) : Bool := decide ((g.maxEntries : Int) ≤ c.nrCached)

/-- mirrors algorithm/demand/fine.c:334-343 -/
def fgIsHit (g : Geo) (c : Cache) (lpa : Nat) : Bool := (c.cmt (g.idx lpa)).isCached (g.offset lpa)

/-- mirrors algorithm/demand/fine.c:201-240: the page `victim` is evicted; one
that is dirty is written to `t`. -/
def evictPage (c : Cache) (victim t : Nat) : Bool × Cache :=
  let m := c.cmt victim
  let lru := victim :: c.lru.dropLast
  let noEntry := fun _ : Nat => false
  let nr := c.nrCached - m.cachedCnt
  match m.state with
  | .dirty => (true, { c.setCmt victim
          { m with tPpa := some t, state := .clean, isCached := noEntry, cachedCnt := 0 } with
        lru := lru, nrCached := nr, unsaved := update c.unsaved victim false })
  | .clean => (false, { c.setCmt victim { m with isCached := noEntry, cachedCnt := 0 } with
        lru := lru, nrCached := nr })

/-- mirrors algorithm/demand/fine.c:190-241; `none`: `lru_pop` returned NULL -/
def fgEvict (g : Geo) (c : Cache) (t : Nat) : Option (Bool × Cache) :=
  if fgIsFull g c then c.lru.getLast?.map fun v => evictPage c v t else some (false, c)

/-- The three lines that list an entry of page `i`. -/
def listEntry (c : Cache) (i off : Nat) : Cache :=
  let m := c.cmt i
  { c.setCmt i { m with isCached := update m.isCached off true
                        cachedCnt := m.cachedCnt + 1 } with
    nrCached := c.nrCached + 1 }

inductive Jump where
  | load
  | complete
  deriving DecidableEq, Repr

/-- mirrors algorithm/demand/fine.c:253-269 and 271-288: the loops over `retry_q` -/
def wakeUp (g : Geo) (i : Nat) : List Nat → Cache → List (Nat × Jump) × Cache
  | [], c => ([], c)
  | lpa :: q, c =>
    if fgIsFull g c then
      let r := wakeUp g i q c
      ((lpa, .load) :: r.1, r.2)
    else
      let r := wakeUp g i q (listEntry c i (g.offset lpa))
      ((lpa, .complete) :: r.1, r.2)

/-- Which argument of `fg_list_up` is not NULL. -/
inductive Caller where
  | req
  | wbEntry
  | neither
  deriving DecidableEq, Repr

/-- mirrors algorithm/demand/fine.c:243-290 -/
def fgInsert (g : Geo) (c : Cache) (lpa : Nat) (who : Caller) : List (Nat × Jump) × Cache :=
  let i := g.idx lpa
  let c := listEntry c i (g.offset lpa)
  let m := c.cmt i
  if m.isFlying then
    if who = .neither then ([], c.setCmt i { m with isFlying := false })
    else wakeUp g i m.retryQ (c.setCmt i { m with isFlying := false, retryQ := [] })
  else ([], c)

/-- The outcome of `fg_list_up`: the return value, who is woken, the new state. -/
structure Listed where
  rc : Bool
  woken : List (Nat × Jump)
  cache : Cache

/-- mirrors algorithm/demand/fine.c:180-293; `t` is what `get_tpage` returns -/
def fgListUp (g : Geo) (c : Cache) (lpa : Nat) (who : Caller) (t : Nat) : Option Listed :=
  (fgEvict g c t).map fun r =>
    let w := fgInsert g r.2 lpa who
    ⟨r.1, w.1, w.2⟩

/-- mirrors algorithm/demand/fine.c:161-178; the second part is the return value -/
def fgLoad (g : Geo) (c : Cache) (lpa : Nat) : Cache × Bool :=
  let m := c.cmt (g.idx lpa)
  if m.tPpa = none then (c, false)
  else (c.setCmt (g.idx lpa) { m with isFlying := true }, true)

/-- mirrors algorithm/demand/fine.c:295-307; the result of `q_enqueue` is ignored -/
def fgWaitIfFlying (g : Geo) (c : Cache) (lpa : Nat) : Cache × Bool :=
  let m := c.cmt (g.idx lpa)
  if m.isFlying then
    (c.setCmt (g.idx lpa) { m with retryQ := (qEnqueue g.flushSize lpa m.retryQ).getD m.retryQ },
      true)
  else (c, false)

/-- mirrors algorithm/demand/fine.c:309-313 -/
def fgTouch (g : Geo) (c : Cache) (lpa : Nat) : Cache :=
  { c with lru := lruUpdate c.lru (g.idx lpa) }

/-- mirrors algorithm/demand/fine.c:315-332 -/
def fgUpdate (g : Geo) (c : Cache) (lpa pte : Nat) : Cache :=
  let i := g.idx lpa
  let m := c.cmt i
  let c := { c with memTable := update c.memTable lpa (some pte),
                    unsaved := update c.unsaved i true }
  if m.isCached (g.offset lpa) then c.setCmt i { m with state := .dirty }
  else c.setCmt i { m with isCached := update m.isCached (g.offset lpa) true
                           cachedCnt := m.cachedCnt + 1 }

/-! ## Runs -/

inductive Op where
  | listUp (lpa : Nat) (who : Caller) (t : Nat)
  | update (lpa pte : Nat)
  | load (lpa : Nat)
  | waitIfFlying (lpa : Nat)
  | touch (lpa : Nat)

def Op.lpa : Op → Nat
  | .listUp lpa _ _ => lpa
  | .update lpa _ => lpa
  | .load lpa => lpa
  | .waitIfFlying lpa => lpa
  | .touch lpa => lpa

def exec (g : Geo) (c : Cache) : Op → Option Cache
  | .listUp lpa who t => (fgListUp g c lpa who t).map Listed.cache
  | .update lpa pte => some (fgUpdate g c lpa pte)
  | .load lpa => some (fgLoad g c lpa).1
  | .waitIfFlying lpa => some (fgWaitIfFlying g c lpa).1
  | .touch lpa => some (fgTouch g c lpa)

/-- The entries of a page whose flag is set. -/
def Cmt.entries (g : Geo) (m : Cmt) : Finset Nat :=
  (Finset.range g.epp).filter fun off => m.isCached off = true

structure Accounted (g : Geo) (c : Cache) : Prop where
  page : ∀ i < g.tpages, (c.cmt i).cachedCnt = ((c.cmt i).entries g).card
  total : c.nrCached = ∑ i ∈ Finset.range g.tpages, ((c.cmt i).cachedCnt : Int)
  dirty : ∀ i < g.tpages, c.unsaved i = true → (c.cmt i).state = .dirty

/-- The counters are right after each operation. -/
def Kept (g : Geo) (c : Cache) : List Op → Prop
  | [] => True
  | o :: ops => ∃ c', exec g c o = some c' ∧ Accounted g c' ∧ Kept g c' ops

/-! ## What is listed -/

/-- `fg_list_up` evicts page `i`. -/
def Goes (g : Geo) (c : Cache) (i : Nat) : Prop := fgIsFull g c = true ∧ c.lru.getLast? = some i

/-- How many more entries fit behind the first one. -/
def room (g : Geo) (c : Cache) : Nat :=
  let freed := if fgIsFull g c then (c.lru.getLast?.map fun v => (c.cmt v).cachedCnt).getD 0 else 0
  (g.maxEntries - (c.nrCached - freed + 1)).toNat

/-- The offsets that `fg_list_up` counts: that of its lpa, and those of the
requests it wakes while there is room. -/
def counted (g : Geo) (c : Cache) (lpa : Nat) (who : Caller) : List Nat :=
  let m := c.cmt (g.idx lpa)
  g.offset lpa :: if m.isFlying = true ∧ who ≠ .neither then
    (m.retryQ.take (room g c)).map g.offset else []

/-- What has to hold before an operation: what is listed is listed once and not
yet cached, and only cached entries are updated. -/
def Sound (g : Geo) (c : Cache) : Op → Prop
  | .listUp lpa who _ => (counted g c lpa who).Nodup ∧
    ∀ off ∈ counted g c lpa who, (c.cmt (g.idx lpa)).isCached off = false ∨ Goes g c (g.idx lpa)
  | .update lpa _ => fgIsHit g c lpa = true
  | .load _ => True
  | .waitIfFlying _ => True
  | .touch _ => True

def Guarded (g : Geo) (c : Cache) : List Op → Prop
  | [] => True
  | o :: ops => Sound g c o ∧ ∀ c', exec g c o = some c' → Guarded g c' ops

/-! ## Listing entries -/

/-- `c'` is `c` after the entries `offs` of page `i` were counted. -/
structure ListedAs (c c' : Cache) (i : Nat) (offs : List Nat) : Prop where
  cnt : (c'.cmt i).cachedCnt = (c.cmt i).cachedCnt + offs.length
  flag : ∀ off, (c'.cmt i).isCached off = true ↔ (c.cmt i).isCached off = true ∨ off ∈ offs
  state : (c'.cmt i).state = (c.cmt i).state
  other : ∀ j, j ≠ i → c'.cmt j = c.cmt j
  total : c'.nrCached = c.nrCached + offs.length
  unsaved : c'.unsaved = c.unsaved
  lru : c'.lru = c.lru

section
variable {g : Geo} {c c' c'' : Cache} {i : Nat} {offs offs' : List Nat}

theorem ListedAs.refl (c : Cache) (i : Nat) : ListedAs c c i [] :=
  ⟨rfl, fun off => by simp, rfl, fun _ _ => rfl, by simp, rfl, rfl⟩

theorem ListedAs.trans (h : ListedAs c c' i offs) (h' : ListedAs c' c'' i offs') :
    ListedAs c c'' i (offs ++ offs') where
  cnt := by rw [h'.cnt, h.cnt, length_append, add_assoc]
  flag off := by rw [h'.flag, h.flag, mem_append, or_assoc]
  state := h'.state.trans h.state
  other j hj := (h'.other j hj).trans (h.other j hj)
  total := by rw [h'.total, h.total, length_append]; push_cast; omega
  unsaved := h'.unsaved.trans h.unsaved
  lru := h'.lru.trans h.lru

theorem ListedAs.setCmt (c : Cache) (i : Nat) (m : Cmt) (hcnt : m.cachedCnt = (c.cmt i).cachedCnt)
    (hflag : m.isCached = (c.cmt i).isCached) (hstate : m.state = (c.cmt i).state) :
    ListedAs c (c.setCmt i m) i [] where
  cnt := by simp [Cache.setCmt, hcnt]
  flag off := by simp [Cache.setCmt, hflag]
  state := by simp [Cache.setCmt, hstate]
  other j hj := by simp [Cache.setCmt, hj]
  total := by simp [Cache.setCmt]
  unsaved := rfl
  lru := rfl

theorem listEntry_listed (c : Cache) (i off : Nat) : ListedAs c (listEntry c i off) i [off] where
  cnt := by simp [listEntry, Cache.setCmt]
  flag o := by
    by_cases h : o = off
    · simp [listEntry, Cache.setCmt, h]
    · simp [listEntry, Cache.setCmt, h]
  state := by simp [listEntry, Cache.setCmt]
  other j hj := by simp [listEntry, Cache.setCmt, hj]
  total := by simp [listEntry, Cache.setCmt]
  unsaved := rfl
  lru := rfl

theorem wakeUp_listed (q : List Nat) (c : Cache) :
    ListedAs c (wakeUp g i q c).2 i ((q.take (g.maxEntries - c.nrCached).toNat).map g.offset) := by
  induction q generalizing c with
  | nil => simpa [wakeUp] using ListedAs.refl c i
  | cons lpa q ih =>
    rw [wakeUp]
    split
    · rename_i hfull
      have hge : (g.maxEntries : Int) ≤ c.nrCached := of_decide_eq_true hfull
      have hnone : (g.maxEntries - c.nrCached).toNat = 0 := by omega
      have hrest := ih c
      rw [hnone] at hrest ⊢
      exact hrest
    · rename_i hfull
      have hlt : c.nrCached < (g.maxEntries : Int) := by simpa [fgIsFull] using hfull
      obtain ⟨k, hk⟩ : ∃ k, (g.maxEntries - c.nrCached).toNat = k + 1 :=
        ⟨(g.maxEntries - c.nrCached).toNat - 1, by omega⟩
      have hone := listEntry_listed c i (g.offset lpa)
      have hrest := ih (listEntry c i (g.offset lpa))
      have hk' : (g.maxEntries - (listEntry c i (g.offset lpa)).nrCached).toNat = k := by
        rw [hone.total, length_singleton]; omega
      rw [hk'] at hrest
      rw [hk, take_succ_cons, map_cons]
      exact hone.trans hrest

theorem fgInsert_listed (c : Cache) (lpa : Nat) (who : Caller) :
    ListedAs c (fgInsert g c lpa who).2 (g.idx lpa) (g.offset lpa ::
      if (c.cmt (g.idx lpa)).isFlying = true ∧ who ≠ .neither then
        ((c.cmt (g.idx lpa)).retryQ.take (g.maxEntries - (c.nrCached + 1)).toNat).map g.offset
      else []) := by
  have hone := listEntry_listed c (g.idx lpa) (g.offset lpa)
  have hfly : ((listEntry c (g.idx lpa) (g.offset lpa)).cmt (g.idx lpa)).isFlying =
      (c.cmt (g.idx lpa)).isFlying := by simp [listEntry, Cache.setCmt]
  have hq : ((listEntry c (g.idx lpa) (g.offset lpa)).cmt (g.idx lpa)).retryQ =
      (c.cmt (g.idx lpa)).retryQ := by simp [listEntry, Cache.setCmt]
  rw [fgInsert, hfly, hq]
  cases hc : (c.cmt (g.idx lpa)).isFlying with
  | false =>
    rw [if_neg (by simp), if_neg (by simp)]
    exact hone
  | true =>
    rw [if_pos rfl]
    by_cases hwho : who = .neither
    · rw [if_pos hwho, if_neg (by simp [hwho])]
      exact hone.trans (ListedAs.setCmt _ _ _ rfl rfl rfl)
    · rw [if_neg hwho, if_pos ⟨rfl, hwho⟩]
      have hset := ListedAs.setCmt (listEntry c (g.idx lpa) (g.offset lpa)) (g.idx lpa)
        { (listEntry c (g.idx lpa) (g.offset lpa)).cmt (g.idx lpa) with
          isFlying := false, retryQ := [] } rfl rfl rfl
      have hwake := @wakeUp_listed g (g.idx lpa) (c.cmt (g.idx lpa)).retryQ
        ((listEntry c (g.idx lpa) (g.offset lpa)).setCmt (g.idx lpa)
          { (listEntry c (g.idx lpa) (g.offset lpa)).cmt (g.idx lpa) with
            isFlying := false, retryQ := [] })
      rw [hset.total, hone.total, length_singleton, length_nil, Nat.cast_zero, add_zero,
        Nat.cast_one] at hwake
      exact (hone.trans hset).trans hwake

end

/-! ## Counting -/

theorem card_union_list (s : Finset Nat) (l : List Nat) :
    (s ∪ l.toFinset).card = s.card + l.length ↔ l.Nodup ∧ ∀ x ∈ l, x ∉ s := by
  have hle := Finset.card_union_le s l.toFinset
  have hlen := l.toFinset_card_le
  constructor
  · intro h
    have hdisj : Disjoint s l.toFinset := Finset.card_union_eq_card_add_card.mp (by omega)
    refine ⟨?_, fun x hx hs => Finset.disjoint_left.mp hdisj hs (mem_toFinset.mpr hx)⟩
    exact Multiset.toFinset_card_eq_card_iff_nodup.mp (show l.toFinset.card = l.length by omega)
  · rintro ⟨hnd, hout⟩
    have hdisj : Disjoint s l.toFinset :=
      Finset.disjoint_right.mpr fun x hx => hout x (mem_toFinset.mp hx)
    rw [Finset.card_union_of_disjoint hdisj, toFinset_card_of_nodup hnd]

theorem sum_change {n i : Nat} (hi : i < n) (d : Int) {f f' : Nat → Int} (hf : f' i = f i + d)
    (hother : ∀ j, j ≠ i → f' j = f j) :
    ∑ j ∈ Finset.range n, f' j = ∑ j ∈ Finset.range n, f j + d := by
  have hterm : ∀ j, f' j = f j + if j = i then d else 0 := by
    intro j
    by_cases h : j = i
    · rw [h, hf, if_pos rfl]
    · rw [hother j h, if_neg h, add_zero]
  simp only [hterm, Finset.sum_add_distrib, Finset.sum_ite_eq', Finset.mem_range, hi, if_true]

section
variable {g : Geo} {c c' : Cache} {i : Nat} {offs : List Nat}

theorem mem_entries {m : Cmt} {off : Nat} :
    off ∈ m.entries g ↔ off < g.epp ∧ m.isCached off = true := by
  rw [Cmt.entries, Finset.mem_filter, Finset.mem_range]

theorem ListedAs.entries (h : ListedAs c c' i offs) (hoffs : ∀ off ∈ offs, off < g.epp) :
    (c'.cmt i).entries g = (c.cmt i).entries g ∪ offs.toFinset := by
  ext off
  rw [Finset.mem_union, mem_entries, mem_entries, mem_toFinset, h.flag]
  constructor
  · rintro ⟨hlt, hc | hm⟩
    · exact .inl ⟨hlt, hc⟩
    · exact .inr hm
  · rintro (⟨hlt, hc⟩ | hm)
    · exact ⟨hlt, .inl hc⟩
    · exact ⟨hoffs off hm, .inr hm⟩

theorem ListedAs.accounted_iff (h : ListedAs c c' i offs) (A : Accounted g c) (hi : i < g.tpages)
    (hoffs : ∀ off ∈ offs, off < g.epp) :
    Accounted g c' ↔ offs.Nodup ∧ ∀ off ∈ offs, (c.cmt i).isCached off = false := by
  have hpage : (c'.cmt i).cachedCnt = ((c'.cmt i).entries g).card ↔
      offs.Nodup ∧ ∀ off ∈ offs, (c.cmt i).isCached off = false := by
    rw [h.cnt, h.entries hoffs, A.page i hi, eq_comm, card_union_list]
    refine and_congr_right fun _ => forall₂_congr fun off hoff => ?_
    rw [mem_entries, Bool.eq_false_iff]
    exact ⟨fun hn hc => hn ⟨hoffs off hoff, hc⟩, fun hn hc => hn hc.2⟩
  rw [← hpage]
  refine ⟨fun A' => A'.page i hi, fun hc => ⟨fun j hj => ?_, ?_, fun j hj hu => ?_⟩⟩
  · by_cases hji : j = i
    · rw [hji, hc]
    · rw [h.other j hji, A.page j hj]
  · rw [h.total, A.total]
    refine (sum_change hi offs.length ?_ fun j hj => ?_).symm
    · rw [h.cnt, Nat.cast_add]
    · rw [h.other j hj]
  · rw [h.unsaved] at hu
    by_cases hji : j = i
    · rw [hji, h.state]
      exact A.dirty i hi (hji ▸ hu)
    · rw [h.other j hji]
      exact A.dirty j hj hu

/-! ## Steps -/

/-- The LRU list has pages only, and at least one. -/
structure Placed (g : Geo) (c : Cache) : Prop where
  ne : c.lru ≠ []
  lt : ∀ i ∈ c.lru, i < g.tpages

/-- An eviction keeps the counters right, and takes the flags of the victim. -/
structure EvictedAs (g : Geo) (c c' : Cache) : Prop where
  accounted : Accounted g c'
  placed : Placed g c'
  flag : ∀ i off, (c'.cmt i).isCached off = true ↔ (c.cmt i).isCached off = true ∧ ¬ Goes g c i
  flying : ∀ i, (c'.cmt i).isFlying = (c.cmt i).isFlying
  queue : ∀ i, (c'.cmt i).retryQ = (c.cmt i).retryQ
  room : room g c = (g.maxEntries - (c'.nrCached + 1)).toNat

theorem evictPage_cmt (c : Cache) (v t : Nat) :
    ((evictPage c v t).2.cmt v).isCached = (fun _ => false) ∧
      ((evictPage c v t).2.cmt v).cachedCnt = 0 ∧
      ((evictPage c v t).2.cmt v).isFlying = (c.cmt v).isFlying ∧
      ((evictPage c v t).2.cmt v).retryQ = (c.cmt v).retryQ ∧
      ∀ j, j ≠ v → (evictPage c v t).2.cmt j = c.cmt j := by
  unfold evictPage
  dsimp only
  split
  · exact ⟨by simp [Cache.setCmt], by simp [Cache.setCmt], by simp [Cache.setCmt],
      by simp [Cache.setCmt], fun j hj => by simp [Cache.setCmt, hj]⟩
  · exact ⟨by simp [Cache.setCmt], by simp [Cache.setCmt], by simp [Cache.setCmt],
      by simp [Cache.setCmt], fun j hj => by simp [Cache.setCmt, hj]⟩

theorem evictPage_rest (c : Cache) (v t : Nat) :
    (evictPage c v t).2.lru = v :: c.lru.dropLast ∧
      (evictPage c v t).2.nrCached = c.nrCached - (c.cmt v).cachedCnt := by
  unfold evictPage
  dsimp only
  split <;> exact ⟨rfl, rfl⟩

theorem evictPage_dirty (A : Accounted g c) {v t j : Nat} (hj : j < g.tpages)
    (h : (evictPage c v t).2.unsaved j = true) : ((evictPage c v t).2.cmt j).state = .dirty := by
  revert h
  unfold evictPage
  dsimp only
  split
  · intro h
    by_cases hjv : j = v
    · simp [hjv] at h
    · have hu : c.unsaved j = true := by simpa [hjv] using h
      simpa [Cache.setCmt, hjv] using A.dirty j hj hu
  · rename_i hs
    intro h
    have hd := A.dirty j hj h
    have hjv : j ≠ v := by
      rintro rfl
      rw [hs] at hd
      cases hd
    simpa [Cache.setCmt, hjv] using hd

theorem evictPage_accounted (A : Accounted g c) {v t : Nat} (hv : v < g.tpages) :
    Accounted g (evictPage c v t).2 := by
  obtain ⟨hflag, hcnt, -, -, hother⟩ := evictPage_cmt c v t
  refine ⟨fun j hj => ?_, ?_, fun j hj h => evictPage_dirty A hj h⟩
  · by_cases hjv : j = v
    · rw [hjv, hcnt, Cmt.entries, hflag]
      simp
    · rw [hother j hjv, A.page j hj]
  · rw [(evictPage_rest c v t).2, A.total]
    refine (sum_change hv (-((c.cmt v).cachedCnt : Int)) ?_ fun j hj => by rw [hother j hj]).symm
    rw [hcnt]
    omega

theorem fgEvict_evicted (A : Accounted g c) (P : Placed g c) (t : Nat) :
    ∃ rc c', fgEvict g c t = some (rc, c') ∧ EvictedAs g c c' := by
  rw [fgEvict]
  split
  · rename_i hfull
    obtain ⟨xs, v, hlru⟩ := (eq_nil_or_concat c.lru).resolve_left P.ne
    rw [concat_eq_append] at hlru
    have hlast : c.lru.getLast? = some v := by rw [hlru, getLast?_concat]
    have hv : v < g.tpages := P.lt v (by rw [hlru]; simp)
    obtain ⟨hflag, hcnt, hfly, hq, hother⟩ := evictPage_cmt c v t
    obtain ⟨hl, hnr⟩ := evictPage_rest c v t
    refine ⟨_, _, by rw [hlast]; rfl, evictPage_accounted A hv, ⟨?_, ?_⟩, fun i off => ?_,
      fun i => ?_, fun i => ?_, ?_⟩
    · rw [hl]; simp
    · intro j hj
      rw [hl] at hj
      rcases mem_cons.mp hj with rfl | hj
      · exact hv
      · exact P.lt j (mem_of_mem_dropLast hj)
    · by_cases hiv : i = v
      · rw [hiv, hflag]
        simp [Goes, hfull, hlast]
      · rw [hother i hiv]
        simp [Goes, hlast, Ne.symm hiv]
    · by_cases hiv : i = v
      · rw [hiv, hfly]
      · rw [hother i hiv]
    · by_cases hiv : i = v
      · rw [hiv, hq]
      · rw [hother i hiv]
    · rw [Fine.room, if_pos hfull, hlast, hnr]
      rfl
  · rename_i hfull
    refine ⟨false, c, rfl, A, P, fun i off => ?_, fun _ => rfl, fun _ => rfl, ?_⟩
    · simp [Goes, hfull]
    · rw [Fine.room, if_neg hfull, Nat.cast_zero, sub_zero]

theorem Accounted.setCmt (A : Accounted g c) (m : Cmt) (hcnt : m.cachedCnt = (c.cmt i).cachedCnt)
    (hflag : m.isCached = (c.cmt i).isCached) (hstate : m.state = (c.cmt i).state)
    (hi : i < g.tpages) : Accounted g (c.setCmt i m) :=
  ((ListedAs.setCmt c i m hcnt hflag hstate).accounted_iff A hi (by simp)).mpr (by simp)

theorem fgUpdate_hit (A : Accounted g c) {lpa : Nat} (hlpa : g.idx lpa < g.tpages) (pte : Nat)
    (hit : fgIsHit g c lpa = true) : Accounted g (fgUpdate g c lpa pte) := by
  rw [fgUpdate, if_pos (by exact hit)]
  refine ⟨fun j hj => ?_, ?_, fun j hj hu => ?_⟩
  · by_cases hji : j = g.idx lpa
    · subst hji
      simpa [Cache.setCmt, Cmt.entries] using A.page _ hlpa
    · simpa [Cache.setCmt, hji] using A.page j hj
  · refine A.total.trans (Finset.sum_congr rfl fun j _ => ?_)
    by_cases hji : j = g.idx lpa
    · simp [Cache.setCmt, hji]
    · simp [Cache.setCmt, hji]
  · by_cases hji : j = g.idx lpa
    · simp [Cache.setCmt, hji]
    · have hu' : c.unsaved j = true := by simpa [Cache.setCmt, hji] using hu
      simpa [Cache.setCmt, hji] using A.dirty j hj hu'

theorem fgUpdate_accounted_iff (A : Accounted g c) {lpa : Nat} (hlpa : g.idx lpa < g.tpages)
    (pte : Nat) : Accounted g (fgUpdate g c lpa pte) ↔ fgIsHit g c lpa = true := by
  refine ⟨fun A' => ?_, fgUpdate_hit A hlpa pte⟩
  by_contra hmiss
  -- the entry is counted for its page only
  have hsum : ∑ j ∈ Finset.range g.tpages, (((fgUpdate g c lpa pte).cmt j).cachedCnt : Int) =
      ∑ j ∈ Finset.range g.tpages, ((c.cmt j).cachedCnt : Int) + 1 := by
    rw [fgUpdate, if_neg (by exact hmiss)]
    refine sum_change hlpa 1 (by simp [Cache.setCmt]) fun j hj => by simp [Cache.setCmt, hj]
  have htotal : (fgUpdate g c lpa pte).nrCached = c.nrCached := by
    rw [fgUpdate, if_neg (by exact hmiss)]
    rfl
  have := A'.total
  rw [htotal, hsum, A.total] at this
  omega

theorem fgListUp_accounted_iff (A : Accounted g c) (P : Placed g c) {lpa : Nat}
    (hlpa : g.idx lpa < g.tpages) (hepp : 0 < g.epp) (who : Caller) (t : Nat) :
    ∃ c', (fgListUp g c lpa who t).map Listed.cache = some c' ∧ Placed g c' ∧
      (Accounted g c' ↔ Sound g c (.listUp lpa who t)) := by
  obtain ⟨rc, c1, hev, V⟩ := fgEvict_evicted A P t
  have L := @fgInsert_listed g c1 lpa who
  rw [V.flying, V.queue, ← V.room] at L
  refine ⟨_, by rw [fgListUp, hev]; rfl, ⟨by rw [L.lru]; exact V.placed.ne,
    by rw [L.lru]; exact V.placed.lt⟩, ?_⟩
  have hoffs : ∀ off ∈ counted g c lpa who, off < g.epp := by
    intro off hoff
    rcases mem_cons.mp hoff with rfl | hoff
    · exact Nat.mod_lt _ hepp
    · split at hoff
      · obtain ⟨q, -, rfl⟩ := mem_map.mp hoff
        exact Nat.mod_lt _ hepp
      · cases hoff
  refine (L.accounted_iff V.accounted hlpa hoffs).trans ?_
  refine and_congr_right fun _ => forall₂_congr fun off _ => ?_
  rw [← Bool.not_eq_true, V.flag, not_and_or, not_not, Bool.not_eq_true]

theorem exec_accounted_iff (A : Accounted g c) (P : Placed g c) {o : Op}
    (ho : o.lpa < g.tpages * g.epp) :
    ∃ c', exec g c o = some c' ∧ Placed g c' ∧ (Accounted g c' ↔ Sound g c o) := by
  have hepp : 0 < g.epp := by
    rcases Nat.eq_zero_or_pos g.epp with h | h
    · rw [h, mul_zero] at ho
      omega
    · exact h
  have hidx : g.idx o.lpa < g.tpages := Nat.div_lt_of_lt_mul (Nat.mul_comm _ _ ▸ ho)
  cases o with
  | listUp lpa who t => exact fgListUp_accounted_iff A P hidx hepp who t
  | update lpa pte =>
    refine ⟨_, rfl, ?_, fgUpdate_accounted_iff A hidx pte⟩
    rw [fgUpdate]
    split <;> exact ⟨P.ne, P.lt⟩
  | load lpa =>
    refine ⟨_, rfl, ?_, ?_⟩
    · rw [fgLoad]
      split <;> exact ⟨P.ne, P.lt⟩
    · rw [fgLoad]
      split
      · exact iff_of_true A trivial
      · exact iff_of_true (A.setCmt _ rfl rfl rfl hidx) trivial
  | waitIfFlying lpa =>
    refine ⟨_, rfl, ?_, ?_⟩
    · rw [fgWaitIfFlying]
      split <;> exact ⟨P.ne, P.lt⟩
    · rw [fgWaitIfFlying]
      split
      · exact iff_of_true (A.setCmt _ rfl rfl rfl hidx) trivial
      · exact iff_of_true A trivial
  | touch lpa =>
    refine ⟨_, rfl, ⟨?_, ?_⟩, iff_of_true ⟨A.page, A.total, A.dirty⟩ trivial⟩
    · change lruUpdate c.lru (g.idx lpa) ≠ []
      rw [lruUpdate]
      split
      · simp
      · exact P.ne
    · intro j hj
      change j ∈ lruUpdate c.lru (g.idx lpa) at hj
      rw [lruUpdate] at hj
      split at hj
      · rcases mem_cons.mp hj with rfl | hj
        · exact hidx
        · exact P.lt j (mem_of_mem_erase hj)
      · exact P.lt j hj

theorem kept_iff (A : Accounted g c) (P : Placed g c) {ops : List Op}
    (ho : ∀ o ∈ ops, o.lpa < g.tpages * g.epp) : Kept g c ops ↔ Guarded g c ops := by
  induction ops generalizing c with
  | nil => exact Iff.rfl
  | cons o ops ih =>
    obtain ⟨c1, h1, P1, hstep⟩ := exec_accounted_iff A P (ho o mem_cons_self)
    have hrest := fun A1 => ih A1 P1 fun o' ho' => ho o' (.tail _ ho')
    rw [Kept, Guarded, h1]
    constructor
    · rintro ⟨c', he, A1, hkept⟩
      cases he
      refine ⟨hstep.mp A1, fun c' he => ?_⟩
      cases he
      exact (hrest A1).mp hkept
    · rintro ⟨hsound, hnext⟩
      have A1 := hstep.mpr hsound
      exact ⟨c1, rfl, A1, (hrest A1).mpr (hnext c1 rfl)⟩

end

/-- After each operation of a sequence the counters of the pages and of the cache
are right and the pages with unsaved updates are dirty, exactly if each list-up
counts entries once and only entries that are not cached, and each update is of
a cached entry. -/
theorem fg_accounting (g : Geo) (ops : List Op) (ho : ∀ o ∈ ops, o.lpa < g.tpages * g.epp) :
    Kept g (.init g) ops ↔ Guarded g (.init g) ops := by
  rcases eq_nil_or_concat ops with rfl | ⟨os, o, rfl⟩
  · exact Iff.rfl
  have hpages : g.tpages ≠ 0 := by
    intro h0
    have := ho o (by simp)
    rw [h0, zero_mul] at this
    omega
  have A : Accounted g (.init g) :=
    ⟨fun i _ => by simp [Cache.init, Cmt.entries], by simp [Cache.init], fun i _ h => by cases h⟩
  have P : Placed g (.init g) := by
    refine ⟨?_, fun i hi => ?_⟩
    · simpa [Cache.init] using hpages
    · simpa [Cache.init] using hi
  exact kept_iff A P ho

/-- One translation page with four entries, three of them cached at a time. -/
def onePage : Geo := ⟨4, 1, 3, 8⟩

instance (g : Geo) (c : Cache) : ∀ o, Decidable (Sound g c o)
  | .listUp .. => inferInstanceAs (Decidable (_ ∧ ∀ _ ∈ _, _ ∨ _ ∧ _))
  | .update .. => inferInstanceAs (Decidable (_ = _))
  | .load _ | .waitIfFlying _ | .touch _ => .isTrue trivial

instance Guarded.decide (g : Geo) (c : Cache) : ∀ ops, Decidable (Guarded g c ops)
  | [] => .isTrue trivial
  | o :: ops =>
    have : DecidablePred fun c' => Guarded g c' ops := fun c' => Guarded.decide g c' ops
    inferInstanceAs (Decidable (Sound g c o ∧ ∀ c' ∈ exec g c o, Guarded g c' ops))

/-- Two translation pages of four entries, four entries cached at a time: entries of both pages are
listed up, two of them by one load, and both pages are evicted when dirty. -/
theorem fg_accounting_two : Kept ⟨4, 2, 4, 8⟩ (.init ⟨4, 2, 4, 8⟩)
    [.listUp 0 .wbEntry 9, .update 0 7, .listUp 4 .wbEntry 9, .touch 4, .load 5, .waitIfFlying 6,
      .listUp 5 .req 9, .listUp 7 .wbEntry 9, .update 7 8, .listUp 0 .wbEntry 9] :=
  (fg_accounting _ _ (by decide)).mpr (by decide +kernel)

def counts (c : Cache) : Nat × Nat × Int :=
  ((c.cmt 0).cachedCnt, ((c.cmt 0).entries onePage).card, c.nrCached)

/-- A request for an entry that is being loaded: it is counted twice. And an
update of an entry that was evicted: it is not counted for the cache, and its
page stays clean. -/
theorem counters_drift :
    ([Op.listUp 0 .wbEntry 9, .update 0 7, .listUp 1 .wbEntry 9, .listUp 2 .wbEntry 9,
        .listUp 3 .wbEntry 9, .load 0, .waitIfFlying 0, .listUp 0 .req 9].foldlM (exec onePage)
      (.init onePage)).map counts = some (3, 2, 3) ∧
    ([Op.listUp 0 .wbEntry 9, .listUp 1 .wbEntry 9, .listUp 2 .wbEntry 9, .listUp 3 .wbEntry 9,
        .update 0 7].foldlM (exec onePage) (.init onePage)).map
      (fun c => (counts c, (c.cmt 0).state)) = some ((2, 2, 1), .clean) := by
  decide +kernel

end FlashDriver.Demand.Fine
