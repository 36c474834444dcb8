import FlashDriver.Core.DList

/-!
# The cache of header pages (`algorithm/Lsmtree/cache.c`)

The cached runs are in a doubly linked list with the last used one on top. A
compaction locks the entries of the runs it reads. An eviction goes up from the
bottom to the first entry that is not locked; `cache_get` takes it out of the
list, but for `top`, which `cache_delete` sets.

A cell of the list is given by its address, and its fields by functions of the
address. An access to a cell that was freed, or through NULL, gives `none`.

`Lru` is what the cache is for: the list of the cached runs with their locks.
It has the evictions of the code as they are, one too many each time the limit
is enforced (`n_size-m_size+1`).

What is left out, and what is assumed of the callers:

* the pages themselves (`cache_data`, `cache_nocpy_data_ptr`), which belong to
  the runs, the statistics, and `cache_print` and `cache_free`;
* an operation is not interrupted by another (`cache_lock`);
* a run is inserted only if it is not cached, and updated, locked and unlocked
  only if it is. `ent->c_entry=cache_insert(...)` is one step.

Results:

* `cache_list`: whatever is done to the cache, it is the list that `Lru` says,
  its links are sound, no freed cell is used, and an eviction takes the
  unlocked entry closest to the bottom. Of `cache_update` it says when the entry
  is on top after the call.
* `update_empties`: an update that frees its own entry.
* `cache_bound`: as long as no run is inserted into a cache that is just full,
  the cache keeps its size limit; and that insertion exceeds it.
-/
namespace FlashDriver.Lsmtree.HeaderCache

open List Option Function
open Core.DList (Links Linked)

/-- mirrors algorithm/Lsmtree/cache.h:6-22; `links` has the fields `up` and
`down` of the cells, and `top` and `bottom`. -/
structure Cache where
  links : Links Nat
  mSize : Int
  nSize : Int
  maxSize : Int
  entry : Nat → Nat             -- by cell: the run
  locked : Nat → Bool           -- by cell
  alive : Nat → Bool            -- by cell: allocated and not freed
  brk : Nat                     -- the cells from here on were never allocated
  cEntry : Nat → Option Nat     -- by run: c_entry

/-- mirrors algorithm/Lsmtree/cache.c:11-20 -/
def Cache.init (noe : Nat) : Cache where
  links := ⟨fun _ => none, fun _ => none, none, none⟩
  mSize := noe
  nSize := 0
  maxSize := noe
  entry _ := 0
  locked _ := false
  alive _ := false
  brk := 0
  cEntry _ := none

/-- The cell that a pointer points to. -/
def deref (c : Cache) (p : Option Nat) : Option Nat :=
  p.bind fun a => if c.alive a then some a else none

/-- `p->up=v` -/
def setUp (c : Cache) (p v : Option Nat) : Option Cache :=
  (deref c p).map fun a => { c with links := { c.links with up := update c.links.up a v } }

/-- `p->down=v` -/
def setDown (c : Cache) (p v : Option Nat) : Option Cache :=
  (deref c p).map fun a =>
    { c with links := { c.links with down := update c.links.down a v } }

def setTop (c : Cache) (p : Option Nat) : Cache := { c with links := { c.links with top := p } }

def setBottom (c : Cache) (p : Option Nat) : Cache :=
  { c with links := { c.links with bottom := p } }

/-! ## Eviction -/

/-- `while(res && res->locked)`, with `c_cnt`; at most as many rounds as there are
cells. -/
def skipLocked (c : Cache) : Nat → Option Nat → Bool → Option (Option Nat × Bool)
  | 0, _, _ => none
  | _ + 1, none, cnt => some (none, cnt)
  | fuel + 1, some a, cnt => (deref c (some a)).bind fun a =>
    if c.locked a then skipLocked c fuel (c.links.up a) false else some (some a, cnt)

/-- mirrors algorithm/Lsmtree/cache.c:174-188 -/
def unlinkRes (c : Cache) (a : Nat) : Option Cache :=
  if some a = c.links.bottom then
    (setDown c (c.links.up a) none).map fun c => setBottom c (c.links.up a)
  else if c.links.up a ≠ none then
    (setDown c (c.links.up a) (c.links.down a)).bind fun c =>
      setUp c (c.links.down a) (c.links.up a)
  else setUp c (c.links.down a) none

/-- mirrors algorithm/Lsmtree/cache.c:155-196; the result is the run that goes -/
def cacheGet (c : Cache) : Option (Cache × Option Nat) :=
  if c.nSize = 0 then some (c, none)
  else (skipLocked c (c.brk + 1) c.links.bottom true).bind fun r =>
    match r.1 with
    | none => some (c, none)
    | some a =>
      if c.links.up a = none ∧ r.2 = true then
        some (setTop (setBottom c none) none, some (c.entry a))
      else if r.2 = true ∧ c.locked a = true then some (c, none)
      else (unlinkRes c a).map fun c => (c, some (c.entry a))

/-- The last lines of `cache_delete` and `cache_delete_entry_only`. -/
def release (c : Cache) (r a : Nat) : Cache :=
  { c with
    nSize := c.nSize - 1
    alive := update c.alive a false
    cEntry := update c.cEntry r none }

/-- mirrors algorithm/Lsmtree/cache.c:71-88 -/
def cacheDelete (c : Cache) : Option Nat → Option (Cache × Bool)
  | none => some (c, false)
  | some r =>
    if c.nSize = 0 then some (c, false)
    else (deref c (c.cEntry r)).map fun a =>
      if some a = c.links.bottom then (release (setBottom c (c.links.up a)) r a, true)
      else if some a = c.links.top then (release (setTop c (c.links.down a)) r a, true)
      else (release c r a, true)

/-- mirrors algorithm/Lsmtree/cache.c:22-24; whether an entry was removed -/
def cacheEvict (c : Cache) : Option (Cache × Bool) := (cacheGet c).bind fun r => cacheDelete r.1 r.2

/-- `for(i=0; i<target; i++) cache_evict(c)` -/
def evictTimes : Nat → Cache → Option Cache
  | 0, c => some c
  | n + 1, c => (cacheEvict c).bind fun r => evictTimes n r.1

/-- The loop of `cache_insert`, which is left when nothing was removed. -/
def makeRoom : Nat → Cache → Option (Cache × Bool)
  | 0, c => some (c, true)
  | n + 1, c => (cacheEvict c).bind fun r => if r.2 then makeRoom n r.1 else some (r.1, false)

/-! ## Operations -/

/-- mirrors algorithm/Lsmtree/cache.c:26-36 -/
def cacheSizeUpdate (c : Cache) (m : Int) : Option Cache :=
  if m < 0 then some c
  else (if c.nSize > m then evictTimes (c.nSize - m).toNat c else some c).map fun c =>
    { c with mSize := if m > c.maxSize then c.maxSize else m }

/-- The new cell of `cache_insert`, and `ent->c_entry=cache_insert(...)`. -/
def allocate (c : Cache) (r : Nat) : Cache :=
  { c with
    nSize := c.nSize + 1
    entry := update c.entry c.brk r
    locked := update c.locked c.brk false
    alive := update c.alive c.brk true
    cEntry := update c.cEntry r (some c.brk)
    brk := c.brk + 1 }

/-- mirrors algorithm/Lsmtree/cache.c:47-69 -/
def insertTop (c : Cache) (r : Nat) : Option Cache :=
  let a := c.brk
  let c := allocate c r
  if c.links.bottom = none then
    let c := setTop (setBottom c (some a)) (some a)
    (setDown c (some a) none).bind fun c => setUp c (some a) none
  else
    (setUp c c.links.top (some a)).bind fun c =>
      (setDown c (some a) c.links.top).bind fun c => setUp (setTop c (some a)) (some a) none

/-- mirrors algorithm/Lsmtree/cache.c:38-70, with the assignment of the result -/
def cacheInsert (c : Cache) (r : Nat) : Option Cache :=
  if c.mSize = 0 then some c
  else if c.mSize < c.nSize then
    (makeRoom (c.nSize - c.mSize + 1).toNat c).bind fun x =>
      if x.2 then insertTop x.1 r else some x.1
  else insertTop c r

/-- mirrors algorithm/Lsmtree/cache.c:98-116 -/
def unlinkEntry (c : Cache) (a : Nat) : Option Cache :=
  if c.links.bottom = c.links.top ∧ c.links.top = some a then some (setTop (setBottom c none) none)
  else if c.links.top = some a then
    (setUp c (c.links.down a) none).map fun c => setTop c (c.links.down a)
  else if c.links.bottom = some a then
    (setDown c (c.links.up a) none).map fun c => setBottom c (c.links.up a)
  else (setDown c (c.links.up a) (c.links.down a)).bind fun c =>
    setUp c (c.links.down a) (c.links.up a)

/-- mirrors algorithm/Lsmtree/cache.c:90-122 -/
def cacheDeleteEntryOnly (c : Cache) (r : Nat) : Option Cache :=
  if c.nSize = 0 ∨ c.cEntry r = none then some c
  else (deref c (c.cEntry r)).bind fun a => (unlinkEntry c a).map fun c => release c r a

/-- mirrors algorithm/Lsmtree/cache.c:130-140, for a cell that is not on top -/
def unlinkBelow (c : Cache) (a : Nat) : Option Cache :=
  if c.links.bottom = some a then
    (setDown c (c.links.up a) none).map fun c => setBottom c (c.links.up a)
  else (setDown c (c.links.up a) (c.links.down a)).bind fun c =>
    setUp c (c.links.down a) (c.links.up a)

/-- mirrors algorithm/Lsmtree/cache.c:130-145, for a cell that is not on top -/
def moveTop (c : Cache) (a : Nat) : Option Cache :=
  (unlinkBelow c a).bind fun c =>
    (setUp c c.links.top (some a)).bind fun c => (setUp c (some a) none).bind fun c =>
      (setDown c (some a) c.links.top).map fun c => setTop c (some a)

/-- mirrors algorithm/Lsmtree/cache.c:124-153 -/
def cacheUpdate (c : Cache) (r : Nat) : Option Cache :=
  (deref c (c.cEntry r)).bind fun a =>
    if c.links.top = some a then some c
    else (moveTop c a).bind fun c =>
      if c.mSize < c.nSize then evictTimes (c.nSize - c.mSize + 1).toNat c else some c

/-- mirrors algorithm/Lsmtree/cache.c:234-242 -/
def cacheEntryLock (c : Cache) (r : Nat) (lock : Bool) : Option Cache :=
  (deref c (c.cEntry r)).map fun a => { c with locked := update c.locked a lock }

/-! ## What the cache is for -/

/-- The cached runs from the top down, with their locks. -/
structure Lru where
  items : List (Nat × Bool)
  mSize : Int
  maxSize : Int

namespace Lru

def init (noe : Nat) : Lru := ⟨[], noe, noe⟩

def nSize (s : Lru) : Int := s.items.length

/-- Without the entry closest to the bottom that is not locked. -/
def dropLast (items : List (Nat × Bool)) : List (Nat × Bool) :=
  (items.reverse.eraseP fun i => !i.2).reverse

def evict (s : Lru) : Lru := { s with items := dropLast s.items }

/-- How many entries can be evicted. -/
def free (s : Lru) : Nat := s.items.countP fun i => !i.2

def sizeUpdate (s : Lru) (m : Int) : Lru :=
  if m < 0 then s else { evict^[(s.nSize - m).toNat] s with mSize := min m s.maxSize }

/-- Room is made as long as there is an entry that can go. -/
def insert (s : Lru) (r : Nat) : Lru :=
  if s.mSize = 0 then s
  else
    let k := if s.mSize < s.nSize then (s.nSize - s.mSize + 1).toNat else 0
    let s' := evict^[k] s
    if k ≤ s.free then { s' with items := (r, false) :: s'.items } else s'

def delete (s : Lru) (r : Nat) : Lru := { s with items := s.items.eraseP fun i => i.1 = r }

/-- The entry of `r` moves to the top. -/
def toTop (items : List (Nat × Bool)) (r : Nat) : List (Nat × Bool) :=
  (items.find? fun i => i.1 = r).toList ++ items.eraseP fun i => i.1 = r

/-- The entry moves to the top, and if it was not there the limit is enforced. -/
def update (s : Lru) (r : Nat) : Lru :=
  let k := if s.items.head?.map Prod.fst ≠ some r ∧ s.mSize < s.nSize then
    (s.nSize - s.mSize + 1).toNat else 0
  evict^[k] { s with items := toTop s.items r }

def setLock (s : Lru) (r : Nat) (lock : Bool) : Lru :=
  { s with items := s.items.map fun i => if i.1 = r then (r, lock) else i }

end Lru

/-! ## Sequences of operations -/

inductive Op where
  | insert (r : Nat)
  | update (r : Nat)
  | deleteEntryOnly (r : Nat)
  | evict
  | sizeUpdate (m : Int)
  | lock (r : Nat)
  | unlock (r : Nat)

def exec (c : Cache) : Op → Option Cache
  | .insert r => cacheInsert c r
  | .update r => cacheUpdate c r
  | .deleteEntryOnly r => cacheDeleteEntryOnly c r
  | .evict => (cacheEvict c).map Prod.fst
  | .sizeUpdate m => cacheSizeUpdate c m
  | .lock r => cacheEntryLock c r true
  | .unlock r => cacheEntryLock c r false

def Lru.exec (s : Lru) : Op → Lru
  | .insert r => s.insert r
  | .update r => s.update r
  | .deleteEntryOnly r => s.delete r
  | .evict => s.evict
  | .sizeUpdate m => s.sizeUpdate m
  | .lock r => s.setLock r true
  | .unlock r => s.setLock r false

/-- What an operation is applied to: `cache_insert` to a run that is not cached,
the others to one that is. -/
def Lru.Allowed (s : Lru) : Op → Prop
  | .insert r => r ∉ s.items.map Prod.fst
  | .update r => r ∈ s.items.map Prod.fst
  | .lock r => r ∈ s.items.map Prod.fst
  | .unlock r => r ∈ s.items.map Prod.fst
  | .deleteEntryOnly _ => True
  | .evict => True
  | .sizeUpdate _ => True

def run (c : Cache) : List Op → Option Cache
  | [] => some c
  | o :: ops => (exec c o).bind fun c => run c ops

def Lru.run (s : Lru) : List Op → Lru
  | [] => s
  | o :: ops => (s.exec o).run ops

def Lru.Legal (s : Lru) : List Op → Prop
  | [] => True
  | o :: ops => s.Allowed o ∧ (s.exec o).Legal ops

/-! ## The cells -/

/-- The cells `as` are the cached ones, from the top down. -/
structure Stored (c : Cache) (as : List Nat) : Prop where
  linked : Linked c.links as
  alive : ∀ a, c.alive a = true ↔ a ∈ as
  fresh : ∀ a ∈ as, a < c.brk
  back : ∀ a ∈ as, c.cEntry (c.entry a) = some a
  cached : ∀ r a, c.cEntry r = some a → a ∈ as ∧ c.entry a = r
  count : c.nSize = as.length

/-- The runs of the cells and their locks. -/
def shown (c : Cache) (as : List Nat) : List (Nat × Bool) := as.map fun a => (c.entry a, c.locked a)

def unlinked (c : Cache) (a : Nat) : Cache := { c with links := c.links.unlink a }

section
variable {c c' : Cache} {as xs ys : List Nat} {a r u d : Nat} {v : Option Nat}

theorem deref_eq (h : c.alive a = true) : deref c (some a) = some a := if_pos h

theorem setUp_eq (h : c.alive a = true) :
    setUp c (some a) v = some { c with links := { c.links with up := update c.links.up a v } } := by
  rw [setUp, deref_eq h, map_some]

theorem setDown_eq (h : c.alive a = true) :
    setDown c (some a) v =
      some { c with links := { c.links with down := update c.links.down a v } } := by
  rw [setDown, deref_eq h, map_some]

theorem update_eq_ite (f : Nat → Option Nat) (u : Nat) (v : Option Nat) :
    update f u v = fun b => if some u = some b then v else f b := by
  funext b
  by_cases h : b = u
  · simp [h]
  · rw [update_of_ne h, if_neg fun he => h (some.inj he).symm]

/-! The four places of a cell: the code has the cases in different orders. -/

theorem unlinked_only (hup : c.links.up a = none) (hdown : c.links.down a = none) :
    setTop (setBottom c none) none = unlinked c a := by
  simp [setTop, setBottom, unlinked, Links.unlink, Links.bridge, hup, hdown]

theorem unlinked_bottom (hu : c.alive u = true) (hup : c.links.up a = some u)
    (hdown : c.links.down a = none) :
    (setDown c (c.links.up a) none).map (fun c => setBottom c (c.links.up a)) =
      some (unlinked c a) := by
  rw [hup, setDown_eq hu, map_some, update_eq_ite]
  simp [setBottom, unlinked, Links.unlink, Links.bridge, hup, hdown]

theorem unlinked_top (hd : c.alive d = true) (hup : c.links.up a = none)
    (hdown : c.links.down a = some d) :
    (setUp c (c.links.down a) none).map (fun c => setTop c (c.links.down a)) =
      some (unlinked c a) := by
  rw [hdown, setUp_eq hd, map_some, update_eq_ite]
  simp [setTop, unlinked, Links.unlink, Links.bridge, hup, hdown]

theorem unlinked_mid (hu : c.alive u = true) (hd : c.alive d = true) (hua : u ≠ a)
    (hup : c.links.up a = some u) (hdown : c.links.down a = some d) :
    ((setDown c (c.links.up a) (c.links.down a)).bind fun c =>
      setUp c (c.links.down a) (c.links.up a)) = some (unlinked c a) := by
  rw [hup, setDown_eq hu, bind_some]
  dsimp only
  rw [update_of_ne (Ne.symm hua), hup, hdown, setUp_eq (by exact hd), update_eq_ite, update_eq_ite]
  simp [unlinked, Links.unlink, Links.bridge, hup, hdown]

theorem Stored.nodup (S : Stored c as) : as.Nodup := S.linked.nodup

theorem Stored.up_eq (S : Stored c (xs ++ a :: ys)) : c.links.up a = xs.getLast? :=
  (S.linked.cell xs a ys rfl).1

theorem Stored.down_eq (S : Stored c (xs ++ a :: ys)) : c.links.down a = ys.head? :=
  (S.linked.cell xs a ys rfl).2

theorem Stored.entry_inj (S : Stored c as) {b : Nat} (ha : a ∈ as) (hb : b ∈ as)
    (h : c.entry a = c.entry b) : a = b := by
  have := S.back a ha
  rw [h, S.back b hb] at this
  exact (some.inj this).symm

theorem Stored.not_mem (S : Stored c (xs ++ a :: ys)) : a ∉ xs ++ ys := by
  have hnd := S.nodup
  rw [nodup_append, nodup_cons] at hnd
  rw [mem_append]
  rintro (h | h)
  · exact hnd.2.2 a h a mem_cons_self rfl
  · exact hnd.2.1.1 h

theorem Stored.bottom_iff (S : Stored c (xs ++ a :: ys)) : c.links.bottom = some a ↔ ys = [] := by
  rw [S.linked.bottom]
  cases ys with
  | nil => simp
  | cons d ys =>
    rw [getLast?_append_cons, getLast?_cons_cons]
    exact iff_of_false (fun h => S.not_mem (mem_append_right _ (mem_of_getLast? h))) nofun

theorem Stored.above (S : Stored c (xs ++ a :: ys)) (hxs : xs ≠ []) :
    ∃ u, c.alive u = true ∧ u ≠ a ∧ c.links.up a = some u := by
  have hup := S.up_eq
  obtain ⟨us, u, rfl⟩ := (eq_nil_or_concat xs).resolve_left hxs
  rw [concat_eq_append, getLast?_concat] at hup
  refine ⟨u, (S.alive u).mpr (by simp), ?_, hup⟩
  rintro rfl
  exact S.not_mem (by simp)

theorem Stored.released (S : Stored c (xs ++ a :: ys)) :
    Stored (release (unlinked c a) (c.entry a) a) (xs ++ ys) := by
  have ha := S.not_mem
  have hsub : ∀ b ∈ xs ++ ys, b ∈ xs ++ a :: ys := fun b hb => by
    rcases mem_append.mp hb with h | h
    · exact mem_append_left _ h
    · exact mem_append_right _ (.tail _ h)
  have hamem : a ∈ xs ++ a :: ys := mem_append_right _ mem_cons_self
  refine ⟨S.linked.unlink, fun b => ?_, fun b hb => S.fresh b (hsub b hb), fun b hb => ?_,
    fun r b h => ?_, ?_⟩
  · change update c.alive a false b = true ↔ _
    by_cases hba : b = a
    · subst hba
      simp [ha]
    · rw [update_of_ne hba, S.alive]
      simp [hba]
  · have hne : c.entry b ≠ c.entry a := fun he => ha (S.entry_inj (hsub b hb) hamem he ▸ hb)
    change update c.cEntry (c.entry a) none (c.entry b) = some b
    rw [update_of_ne hne]
    exact S.back b (hsub b hb)
  · change update c.cEntry (c.entry a) none r = some b at h
    have hr : r ≠ c.entry a := by
      rintro rfl
      simp at h
    rw [update_of_ne hr] at h
    obtain ⟨hb, he⟩ := S.cached r b h
    have hba : b ≠ a := by
      rintro rfl
      exact hr he.symm
    refine ⟨?_, he⟩
    simpa [hba] using hb
  · change c.nSize - 1 = _
    rw [S.count, length_append, length_append, length_cons]
    omega

/-! ## Eviction -/

theorem Stored.walk (S : Stored c as) {zs ws : List Nat} (h : as = zs ++ ws) {fuel : Nat}
    (hf : zs.length < fuel) (cnt : Bool) :
    (∃ xs a ys, zs = xs ++ a :: ys ∧ c.locked a = false ∧ (∀ b ∈ ys, c.locked b = true) ∧
        skipLocked c fuel zs.getLast? cnt = some (some a, cnt && ys.isEmpty)) ∨
      ((∀ b ∈ zs, c.locked b = true) ∧
        skipLocked c fuel zs.getLast? cnt = some (none, cnt && zs.isEmpty)) := by
  induction zs using reverseRecOn generalizing ws fuel cnt with
  | nil =>
    obtain ⟨fuel, rfl⟩ : ∃ n, fuel = n + 1 := ⟨fuel - 1, by omega⟩
    exact .inr ⟨fun b hb => (by cases hb), by simp [skipLocked]⟩
  | append_singleton zs b ih =>
    obtain ⟨fuel, rfl⟩ : ∃ n, fuel = n + 1 := ⟨fuel - 1, by omega⟩
    rw [length_append, length_singleton] at hf
    have hsplit : as = zs ++ b :: ws := by rw [h]; simp
    have hup : c.links.up b = zs.getLast? := (S.linked.cell zs b ws hsplit).1
    have hb : c.alive b = true := (S.alive b).mpr (by rw [hsplit]; simp)
    rw [getLast?_concat, skipLocked, deref_eq hb, bind_some, hup]
    cases hl : c.locked b with
    | false => exact .inl ⟨zs, b, [], by simp, hl, fun x hx => (by cases hx), by simp⟩
    | true =>
      have hf' : zs.length < fuel := by omega
      rcases ih hsplit hf' false with ⟨xs, a, ys, rfl, ha, hys, hr⟩ | ⟨hzs, hr⟩
      · refine .inl ⟨xs, a, ys ++ [b], by simp, ha, fun x hx => ?_, by rw [hr]; simp⟩
        rcases mem_append.mp hx with hx | hx
        · exact hys x hx
        · rw [mem_singleton.mp hx]
          exact hl
      · refine .inr ⟨fun x hx => ?_, by rw [hr]; simp⟩
        rcases mem_append.mp hx with hx | hx
        · exact hzs x hx
        · rw [mem_singleton.mp hx]
          exact hl

theorem Stored.length_le (S : Stored c as) : as.length ≤ c.brk := by
  have hsub : as ⊆ range c.brk := fun a ha => mem_range.mpr (S.fresh a ha)
  simpa using (S.nodup.subperm hsub).length_le

theorem Stored.nSize_ne (S : Stored c (xs ++ a :: ys)) : c.nSize ≠ 0 := by
  rw [S.count, length_append, length_cons]
  omega

theorem Stored.ends_ne (S : Stored c (xs ++ a :: ys)) :
    (unlinked c a).links.top ≠ some a ∧ (unlinked c a).links.bottom ≠ some a := by
  have hl : Linked (unlinked c a).links (xs ++ ys) := S.linked.unlink
  rw [hl.top, hl.bottom]
  exact ⟨fun h => S.not_mem (mem_of_head? h), fun h => S.not_mem (mem_of_getLast? h)⟩

theorem Stored.cacheDelete_eq (S : Stored c (xs ++ a :: ys)) :
    cacheDelete (unlinked c a) (some (c.entry a)) =
      some (release (unlinked c a) (c.entry a) a, true) := by
  have hmem : a ∈ xs ++ a :: ys := mem_append_right _ mem_cons_self
  obtain ⟨htop, hbottom⟩ := S.ends_ne
  have hderef : deref (unlinked c a) ((unlinked c a).cEntry (c.entry a)) = some a := by
    change deref (unlinked c a) (c.cEntry (c.entry a)) = some a
    rw [S.back a hmem]
    exact deref_eq ((S.alive a).mpr hmem)
  rw [cacheDelete, if_neg (by exact S.nSize_ne), hderef, map_some,
    if_neg (fun h => hbottom h.symm), if_neg (fun h => htop h.symm)]

theorem Stored.cacheEvict_at (S : Stored c (xs ++ a :: ys)) (ha : c.locked a = false)
    (hskip : skipLocked c (c.brk + 1) c.links.bottom true = some (some a, ys.isEmpty)) :
    cacheEvict c = some (release (unlinked c a) (c.entry a) a, true) := by
  have hmem : a ∈ xs ++ a :: ys := mem_append_right _ mem_cons_self
  have hup := S.up_eq
  have hdown := S.down_eq
  rw [cacheEvict, cacheGet, if_neg S.nSize_ne, hskip, bind_some]
  dsimp only
  cases ys with
  | nil =>
    by_cases hxs : xs = []
    · subst hxs
      rw [if_pos ⟨hup, rfl⟩, bind_some, unlinked_only hup hdown]
      exact S.cacheDelete_eq
    · obtain ⟨u, hu, -, hup⟩ := S.above hxs
      rw [if_neg (by simp [hup]), if_neg (by simp [ha]), unlinkRes, if_pos (S.bottom_iff.mpr rfl).symm,
        unlinked_bottom hu hup hdown, map_some, bind_some]
      exact S.cacheDelete_eq
  | cons d ys =>
    have hd : c.alive d = true := (S.alive d).mpr (by simp)
    have hne : some a ≠ c.links.bottom := fun h => nomatch S.bottom_iff.mp h.symm
    rw [if_neg (by simp), if_neg (by simp), unlinkRes, if_neg hne]
    by_cases hxs : xs = []
    · subst hxs
      -- the cell is on top of locked ones: `cache_delete` sets `top`
      obtain ⟨c1, hc1, hset⟩ := map_eq_some_iff.mp (unlinked_top hd hup hdown)
      have hsame : c1.nSize = c.nSize ∧ c1.cEntry = c.cEntry ∧ c1.alive = c.alive ∧
          c1.entry = c.entry ∧ c1.links.bottom = c.links.bottom ∧ c1.links.top = c.links.top := by
        rw [hdown, head?_cons, setUp_eq hd] at hc1
        cases hc1
        exact ⟨rfl, rfl, rfl, rfl, rfl, rfl⟩
      obtain ⟨hn, hce, hal, hen, hbo, hto⟩ := hsame
      have hderef : deref c1 (c1.cEntry (c.entry a)) = some a := by
        rw [hce, S.back a hmem]
        exact deref_eq (by rw [hal]; exact (S.alive a).mpr hmem)
      rw [if_neg (by simp [hup]), hc1, map_some, bind_some]
      rw [cacheDelete, if_neg (by rw [hn]; exact S.nSize_ne), hen, hderef, map_some,
        if_neg (by rw [hbo]; exact hne), if_pos (by rw [hto, S.linked.top]; rfl), hset]
    · obtain ⟨u, hu, hua, hup⟩ := S.above hxs
      rw [if_pos (by simp [hup]), unlinked_mid hu hd hua hup hdown, map_some, bind_some]
      exact S.cacheDelete_eq

theorem Stored.evicts (S : Stored c as) :
    (∃ xs a ys, as = xs ++ a :: ys ∧ c.locked a = false ∧ (∀ b ∈ ys, c.locked b = true) ∧
        cacheEvict c = some (release (unlinked c a) (c.entry a) a, true)) ∨
      ((∀ b ∈ as, c.locked b = true) ∧ cacheEvict c = some (c, false)) := by
  have hlen := S.length_le
  rcases S.walk (append_nil _).symm (Nat.lt_succ_of_le hlen) true with
    ⟨xs, a, ys, rfl, ha, hys, hskip⟩ | ⟨hall, hskip⟩
  · rw [← S.linked.bottom, Bool.true_and] at hskip
    exact .inl ⟨xs, a, ys, rfl, ha, hys, S.cacheEvict_at ha hskip⟩
  · refine .inr ⟨hall, ?_⟩
    rw [← S.linked.bottom] at hskip
    rw [cacheEvict, cacheGet]
    split
    · rfl
    · rw [hskip]
      rfl

/-! ## The other operations on the cells -/

theorem push_links {L : Links Nat} {q : Nat} (hq : L.top = some q) (hb : L.bottom ≠ none)
    (a : Nat) :
    ({ up := update (update L.up q (some a)) a none
       down := update L.down a L.top
       top := some a, bottom := L.bottom } : Links Nat) = L.push a := by
  rw [Links.push, if_neg hb]
  congr 1
  · funext b
    by_cases hba : b = a
    · simp [hba]
    · rw [update_of_ne hba, if_neg hba, update_eq_ite, hq]
  · funext b
    by_cases hba : b = a
    · simp [hba]
    · rw [update_of_ne hba, if_neg hba]

theorem Stored.insertTop (S : Stored c as) (hr : c.cEntry r = none) :
    insertTop c r = some { allocate c r with links := c.links.push c.brk } ∧
      Stored { allocate c r with links := c.links.push c.brk } (c.brk :: as) := by
  have hfresh : c.brk ∉ as := fun h => absurd (S.fresh _ h) (lt_irrefl _)
  have halive : (allocate c r).alive c.brk = true := by simp [allocate]
  constructor
  · rw [HeaderCache.insertTop]
    cases as with
    | nil =>
      have htop : c.links.top = none := S.linked.top
      have hbottom : c.links.bottom = none := S.linked.bottom
      dsimp only
      rw [if_pos (by exact hbottom), setDown_eq (by exact halive), bind_some,
        setUp_eq (by exact halive), update_eq_ite, update_eq_ite]
      simp [Links.push, setTop, setBottom, allocate, htop, hbottom, eq_comm]
    | cons q as =>
      have htop : c.links.top = some q := S.linked.top
      have hbottom : c.links.bottom ≠ none := by rw [S.linked.bottom]; simp
      have hqa : q ≠ c.brk := fun h => hfresh (h ▸ (.head _))
      have hq : (allocate c r).alive q = true := by
        change update c.alive c.brk true q = true
        rw [update_of_ne hqa]
        exact (S.alive q).mpr mem_cons_self
      dsimp only
      rw [if_neg (by exact hbottom)]
      rw [show (allocate c r).links.top = some q from htop, setUp_eq hq, bind_some,
        setDown_eq (by exact halive), bind_some, setUp_eq (by exact halive),
        ← push_links htop hbottom]
      rfl
  · refine ⟨S.linked.push hfresh, fun b => ?_, fun b hb => ?_, fun b hb => ?_, fun r' b h => ?_, ?_⟩
    · change update c.alive c.brk true b = true ↔ _
      by_cases hb : b = c.brk
      · simp [hb]
      · rw [update_of_ne hb, S.alive]
        simp [hb]
    · change b < c.brk + 1
      rcases mem_cons.mp hb with rfl | hb
      · omega
      · have := S.fresh b hb
        omega
    · change update c.cEntry r (some c.brk) (update c.entry c.brk r b) = some b
      rcases mem_cons.mp hb with rfl | hb
      · simp
      · have hne : b ≠ c.brk := fun h => hfresh (h ▸ hb)
        have her : c.entry b ≠ r := by
          rintro rfl
          rw [S.back b hb] at hr
          cases hr
        rw [update_of_ne hne, update_of_ne her]
        exact S.back b hb
    · change update c.cEntry r (some c.brk) r' = some b at h
      change b ∈ c.brk :: as ∧ update c.entry c.brk r b = r'
      by_cases hr' : r' = r
      · subst hr'
        rw [update_self] at h
        cases h
        simp
      · rw [update_of_ne hr'] at h
        obtain ⟨hb, he⟩ := S.cached r' b h
        have hne : b ≠ c.brk := fun h => hfresh (h ▸ hb)
        rw [update_of_ne hne]
        exact ⟨.tail _ hb, he⟩
    · change c.nSize + 1 = _
      rw [S.count, length_cons]
      omega

theorem Stored.unlinkBelow (S : Stored c (xs ++ a :: ys)) (hxs : xs ≠ []) :
    unlinkBelow c a = some (unlinked c a) := by
  have hdown := S.down_eq
  obtain ⟨u, hu, hua, hup⟩ := S.above hxs
  rw [HeaderCache.unlinkBelow]
  cases ys with
  | nil => rw [if_pos (S.bottom_iff.mpr rfl), unlinked_bottom hu hup hdown]
  | cons d ys =>
    have hd : c.alive d = true := (S.alive d).mpr (by simp)
    rw [if_neg (fun h => nomatch S.bottom_iff.mp h), unlinked_mid hu hd hua hup hdown]

theorem Stored.top_ne (S : Stored c (xs ++ a :: ys)) (hxs : xs ≠ []) : c.links.top ≠ some a := by
  obtain ⟨x, xs, rfl⟩ := exists_cons_of_ne_nil hxs
  rw [S.linked.top]
  intro h
  exact S.not_mem (by simp [show x = a by simpa using h])

theorem Stored.unlinkEntry (S : Stored c (xs ++ a :: ys)) :
    unlinkEntry c a = some (unlinked c a) := by
  have hup := S.up_eq
  have hdown := S.down_eq
  have htop := S.linked.top
  have hbottom := S.linked.bottom
  rw [HeaderCache.unlinkEntry]
  by_cases hxs : xs = []
  · subst hxs
    cases ys with
    | nil => rw [if_pos (by simp [htop, hbottom]), unlinked_only hup hdown]
    | cons d ys =>
      have hd : c.alive d = true := (S.alive d).mpr (by simp)
      have hne : c.links.bottom ≠ some a := fun h => nomatch S.bottom_iff.mp h
      rw [if_neg (fun h => hne (h.1.trans h.2)), if_pos (by simp [htop]), unlinked_top hd hup hdown]
  · rw [if_neg (fun h => S.top_ne hxs h.2), if_neg (S.top_ne hxs)]
    exact S.unlinkBelow hxs

theorem Stored.perm {as' : List Nat} {L : Links Nat} (S : Stored c as) (hl : Linked L as')
    (hp : as'.Perm as) : Stored { c with links := L } as' where
  linked := hl
  alive b := (S.alive b).trans hp.mem_iff.symm
  fresh b hb := S.fresh b (hp.mem_iff.mp hb)
  back b hb := S.back b (hp.mem_iff.mp hb)
  cached r b h := ⟨hp.mem_iff.mpr (S.cached r b h).1, (S.cached r b h).2⟩
  count := by rw [hp.length_eq]; exact S.count

theorem Stored.moveTop (S : Stored c (xs ++ a :: ys)) (hxs : xs ≠ []) :
    moveTop c a = some { c with links := (c.links.unlink a).push a } ∧
      Stored { c with links := (c.links.unlink a).push a } (a :: (xs ++ ys)) := by
  have ha : c.alive a = true := (S.alive a).mpr (by simp)
  obtain ⟨q, us, rfl⟩ := exists_cons_of_ne_nil hxs
  have hl : Linked (c.links.unlink a) (q :: us ++ ys) := S.linked.unlink
  have htop : (c.links.unlink a).top = some q := hl.top
  have hbottom : (c.links.unlink a).bottom ≠ none := by rw [hl.bottom]; simp
  have hq : c.alive q = true := (S.alive q).mpr (by simp)
  constructor
  · rw [HeaderCache.moveTop, S.unlinkBelow hxs, bind_some,
      show (unlinked c a).links.top = some q from htop, setUp_eq (by exact hq), bind_some,
      setUp_eq (by exact ha), bind_some, setDown_eq (by exact ha), map_some,
      ← push_links htop hbottom]
    rfl
  · exact S.perm (hl.push S.not_mem) (perm_middle.symm)

end

/-! ## The abstract cache -/

section
variable {xs ys items : List (Nat × Bool)} {i : Nat × Bool} {r : Nat}

theorem dropLast_at (hi : i.2 = false) (hys : ∀ j ∈ ys, j.2 = true) :
    Lru.dropLast (xs ++ i :: ys) = xs ++ ys := by
  have hskip : ∀ j ∈ ys.reverse, ¬ (!j.2) = true := fun j hj => by
    simp [hys j (mem_reverse.mp hj)]
  rw [Lru.dropLast, reverse_append, reverse_cons, append_assoc,
    eraseP_append_right _ hskip, singleton_append, eraseP_cons_of_pos (by simp [hi]),
    reverse_append, reverse_reverse, reverse_reverse]

theorem dropLast_locked (h : ∀ j ∈ items, j.2 = true) : Lru.dropLast items = items := by
  rw [Lru.dropLast, eraseP_of_forall_not, reverse_reverse]
  exact fun j hj => by simp [h j (mem_reverse.mp hj)]

theorem find_at (ys : List (Nat × Bool)) (i : Nat × Bool) (hx : i.1 ∉ xs.map Prod.fst) :
    ((xs ++ i :: ys).find? fun j => j.1 = i.1) = some i ∧
      ((xs ++ i :: ys).eraseP fun j => j.1 = i.1) = xs ++ ys := by
  have hskip : ∀ j ∈ xs, ¬ decide (j.1 = i.1) = true := fun j hj he =>
    hx (mem_map.mpr ⟨j, hj, of_decide_eq_true he⟩)
  constructor
  · rw [find?_append, find?_eq_none.mpr hskip, none_or, find?_cons_of_pos (by simp)]
  · rw [eraseP_append_right _ hskip, eraseP_cons_of_pos (by simp)]

theorem Lru.update_at {s : Lru} (hi : s.items = xs ++ i :: ys) (hx : i.1 ∉ xs.map Prod.fst) :
    s.update i.1 =
      Lru.evict^[if xs ≠ [] ∧ s.mSize < s.nSize then (s.nSize - s.mSize + 1).toNat else 0]
        { s with items := i :: (xs ++ ys) } := by
  obtain ⟨hfind, herase⟩ := find_at ys i hx
  have hhead : s.items.head?.map Prod.fst ≠ some i.1 ↔ xs ≠ [] := by
    rw [hi]
    cases xs with
    | nil => simp
    | cons q xs =>
      have hq : q.1 ≠ i.1 := fun he => hx (by simp [he])
      simp [hq]
  simp only [Lru.update, hhead]
  rw [Lru.toTop, hi, hfind, herase]
  rfl

theorem last_unlocked (items : List (Nat × Bool)) :
    (∃ xs i ys, items = xs ++ i :: ys ∧ i.2 = false ∧ ∀ j ∈ ys, j.2 = true) ∨
      ∀ j ∈ items, j.2 = true := by
  induction items using reverseRecOn with
  | nil => exact .inr fun j hj => (by cases hj)
  | append_singleton items i ih =>
    by_cases hi : i.2 = true
    · rcases ih with ⟨xs, j, ys, rfl, hj, hys⟩ | hall
      · refine .inl ⟨xs, j, ys ++ [i], by simp, hj, fun k hk => ?_⟩
        rcases mem_append.mp hk with hk | hk
        · exact hys k hk
        · exact mem_singleton.mp hk ▸ hi
      · refine .inr fun k hk => ?_
        rcases mem_append.mp hk with hk | hk
        · exact hall k hk
        · exact mem_singleton.mp hk ▸ hi
    · exact .inl ⟨items, i, [], rfl, Bool.eq_false_iff.mpr hi, fun j hj => (by cases hj)⟩

end

/-- The cache is the list that `s` says. -/
def Refines (c : Cache) (s : Lru) : Prop :=
  ∃ as, Stored c as ∧ s.items = shown c as ∧ s.mSize = c.mSize ∧ s.maxSize = c.maxSize

section
variable {c : Cache} {s : Lru} {r : Nat}

theorem Refines.nSize_eq (R : Refines c s) : s.nSize = c.nSize := by
  obtain ⟨as, S, hi, -, -⟩ := R
  rw [Lru.nSize, hi, S.count, shown, length_map]

theorem Refines.mSize_eq (R : Refines c s) : s.mSize = c.mSize := by
  obtain ⟨-, -, -, hm, -⟩ := R
  exact hm

theorem Stored.init (noe : Nat) : Stored (.init noe) [] where
  linked := ⟨nodup_nil, rfl, rfl, fun xs a ys h => by simp at h⟩
  alive a := by simp [Cache.init]
  fresh a h := nomatch h
  back a h := nomatch h
  cached r a h := by cases h
  count := rfl

theorem shown_split (c : Cache) (xs ys : List Nat) (a : Nat) :
    shown c (xs ++ a :: ys) = shown c xs ++ (c.entry a, c.locked a) :: shown c ys := by
  rw [shown, map_append, map_cons]
  rfl

theorem Refines.evict (R : Refines c s) :
    ∃ c' b, cacheEvict c = some (c', b) ∧ Refines c' s.evict ∧
      ((b = true ∧ s.free = s.evict.free + 1) ∨ (b = false ∧ s.free = 0 ∧ s.evict = s)) := by
  obtain ⟨as, S, hi, hm, hx⟩ := R
  rcases S.evicts with ⟨xs, a, ys, rfl, ha, hys, h⟩ | ⟨hall, h⟩
  · have hitems := hi.trans (shown_split c xs ys a)
    have hlock : ∀ j ∈ shown c ys, j.2 = true := fun j hj => by
      obtain ⟨b, hb, rfl⟩ := mem_map.mp hj
      exact hys b hb
    have hevict : s.evict.items = shown c xs ++ shown c ys := by
      rw [Lru.evict, hitems, dropLast_at (by exact ha) hlock]
    refine ⟨_, true, h, ⟨xs ++ ys, S.released, ?_, hm, hx⟩, .inl ⟨rfl, ?_⟩⟩
    · rw [hevict, shown, shown, ← map_append]
      rfl
    · rw [Lru.free, Lru.free, hevict, hitems, countP_append, countP_append,
        countP_cons_of_pos (by simp [ha])]
      omega
  · have hlock : ∀ j ∈ s.items, j.2 = true := fun j hj => by
      rw [hi] at hj
      obtain ⟨b, hb, rfl⟩ := mem_map.mp hj
      exact hall b hb
    have hevict : s.evict = s := by rw [Lru.evict, dropLast_locked hlock]
    refine ⟨c, false, h, by rw [hevict]; exact ⟨as, S, hi, hm, hx⟩, .inr ⟨rfl, ?_, hevict⟩⟩
    exact countP_eq_zero.mpr fun j hj => by simp [hlock j hj]

theorem Refines.evictTimes (R : Refines c s) (n : Nat) :
    ∃ c', evictTimes n c = some c' ∧ Refines c' (Lru.evict^[n] s) := by
  induction n generalizing c s with
  | zero => exact ⟨c, rfl, R⟩
  | succ n ih =>
    obtain ⟨c1, b, h, R1, -⟩ := R.evict
    obtain ⟨c', h', R'⟩ := ih R1
    exact ⟨c', by rw [HeaderCache.evictTimes, h, bind_some, h'], R'⟩

theorem Refines.makeRoom (R : Refines c s) (n : Nat) :
    ∃ c', makeRoom n c = some (c', decide (n ≤ s.free)) ∧ Refines c' (Lru.evict^[n] s) := by
  induction n generalizing c s with
  | zero => exact ⟨c, rfl, R⟩
  | succ n ih =>
    obtain ⟨c1, b, h, R1, ⟨rfl, hfree⟩ | ⟨rfl, hfree, hsame⟩⟩ := R.evict
    · obtain ⟨c', h', R'⟩ := ih R1
      refine ⟨c', ?_, R'⟩
      rw [HeaderCache.makeRoom, h, bind_some, if_pos rfl, h', hfree]
      simp
    · refine ⟨c1, ?_, ?_⟩
      · rw [HeaderCache.makeRoom, h, bind_some, if_neg (by simp), hfree]
        simp
      · rw [hsame] at R1
        rwa [iterate_fixed hsame]

theorem Refines.cEntry_none (R : Refines c s) (h : r ∉ s.items.map Prod.fst) :
    c.cEntry r = none := by
  obtain ⟨as, S, hi, -, -⟩ := R
  by_contra hne
  obtain ⟨a, ha⟩ := Option.ne_none_iff_exists'.mp hne
  obtain ⟨hmem, he⟩ := S.cached r a ha
  refine h ?_
  rw [hi, shown, List.map_map]
  exact List.mem_map.mpr ⟨a, hmem, he⟩

theorem Refines.insertTop (R : Refines c s) (h : r ∉ s.items.map Prod.fst) :
    ∃ c', insertTop c r = some c' ∧ Refines c' { s with items := (r, false) :: s.items } := by
  have hr := R.cEntry_none h
  obtain ⟨as, S, hi, hm, hx⟩ := R
  obtain ⟨h', S'⟩ := S.insertTop hr
  refine ⟨_, h', c.brk :: as, S', ?_, hm, hx⟩
  have hsame : ∀ b ∈ as, b ≠ c.brk := fun b hb he => absurd (S.fresh b hb) (by omega)
  change (r, false) :: s.items = (update c.entry c.brk r c.brk,
    update c.locked c.brk false c.brk) :: as.map fun b =>
      (update c.entry c.brk r b, update c.locked c.brk false b)
  rw [update_self, update_self, hi, shown]
  congr 1
  refine map_congr_left fun b hb => ?_
  rw [update_of_ne (hsame b hb), update_of_ne (hsame b hb)]

theorem evict_sub (s : Lru) (n : Nat) (h : r ∉ s.items.map Prod.fst) :
    r ∉ (Lru.evict^[n] s).items.map Prod.fst := by
  induction n generalizing s with
  | zero => exact h
  | succ n ih =>
    refine ih s.evict fun hm => h ?_
    obtain ⟨i, hi, rfl⟩ := mem_map.mp hm
    have : i ∈ s.items.reverse := mem_of_mem_eraseP (mem_reverse.mp hi)
    exact mem_map_of_mem (mem_reverse.mp this)

theorem evict_head {i : Nat × Bool} {rest : List (Nat × Bool)} (hr : i.1 ∉ rest.map Prod.fst)
    (m M : Int) (n : Nat) : (Lru.evict^[n] ⟨i :: rest, m, M⟩).items.head?.map Prod.fst = some i.1 ↔
      i.2 = true ∨ n ≤ rest.countP fun j => !j.2 := by
  induction n generalizing rest with
  | zero => simp
  | succ n ih =>
    change (Lru.evict^[n] ⟨Lru.dropLast (i :: rest), m, M⟩).items.head?.map Prod.fst = _ ↔ _
    rcases last_unlocked rest with ⟨xs, j, ys, rfl, hj, hys⟩ | hall
    · rw [← cons_append, dropLast_at hj hys, cons_append, ih fun h => hr ?_,
        countP_append, countP_append, countP_cons_of_pos (by simp [hj])]
      · exact or_congr_right (by omega)
      · rw [map_append, mem_append] at h ⊢
        exact h.imp_right (mem_cons_of_mem _)
    · have hzero : (rest.countP fun j => !j.2) = 0 :=
        countP_eq_zero.mpr fun j hj => by simp [hall j hj]
      by_cases hi : i.2 = true
      · rw [dropLast_locked (fun j hj => ?_), ih hr]
        · simp [hi]
        · rcases mem_cons.mp hj with rfl | hj
          · exact hi
          · exact hall j hj
      · rw [show i :: rest = [] ++ i :: rest from rfl,
          dropLast_at (Bool.eq_false_iff.mpr hi) hall, hzero, nil_append]
        refine iff_of_false (fun h => ?_) (by simp [hi])
        have hsub := evict_sub ⟨rest, m, M⟩ n hr
        obtain ⟨j, hj, he⟩ := map_eq_some_iff.mp h
        exact hsub (mem_map.mpr ⟨j, mem_of_head? hj, he⟩)

theorem evict_sizes (s : Lru) (n : Nat) :
    (Lru.evict^[n] s).mSize = s.mSize ∧ (Lru.evict^[n] s).maxSize = s.maxSize := by
  induction n generalizing s with
  | zero => exact ⟨rfl, rfl⟩
  | succ n ih => exact ih s.evict

theorem Refines.cacheInsert (R : Refines c s) (h : r ∉ s.items.map Prod.fst) :
    ∃ c', cacheInsert c r = some c' ∧ Refines c' (s.insert r) := by
  rw [HeaderCache.cacheInsert, Lru.insert, R.mSize_eq, R.nSize_eq]
  split
  · exact ⟨c, rfl, R⟩
  · split
    · obtain ⟨c1, h1, R1⟩ := R.makeRoom (c.nSize - c.mSize + 1).toNat
      rw [h1, bind_some]
      by_cases hfree : (c.nSize - c.mSize + 1).toNat ≤ s.free
      · obtain ⟨c', h', R'⟩ := R1.insertTop (evict_sub s _ h)
        refine ⟨c', by rw [if_pos (decide_eq_true hfree), h'], ?_⟩
        rwa [if_pos hfree]
      · refine ⟨c1, by rw [if_neg (by simpa using hfree)], ?_⟩
        rwa [if_neg hfree]
    · obtain ⟨c', h', R'⟩ := R.insertTop h
      exact ⟨c', h', by rwa [if_pos (Nat.zero_le _)]⟩

theorem Refines.cacheSizeUpdate (R : Refines c s) (m : Int) :
    ∃ c', cacheSizeUpdate c m = some c' ∧ Refines c' (s.sizeUpdate m) := by
  rw [HeaderCache.cacheSizeUpdate, Lru.sizeUpdate, R.nSize_eq]
  split
  · exact ⟨c, rfl, R⟩
  · obtain ⟨c1, h1, as, S, hi, hm, hx⟩ := R.evictTimes (c.nSize - m).toNat
    have hloop : (if c.nSize > m then HeaderCache.evictTimes (c.nSize - m).toNat c else some c) =
        some c1 := by
      split
      · exact h1
      · rw [← h1, show (c.nSize - m).toNat = 0 by omega]
        rfl
    have hmax : s.maxSize = c1.maxSize := (evict_sizes s _).2.symm.trans hx
    refine ⟨{ c1 with mSize := if m > c1.maxSize then c1.maxSize else m },
      by rw [hloop, map_some], as,
      ⟨S.linked, S.alive, S.fresh, S.back, S.cached, S.count⟩, hi, ?_, hx⟩
    change min m s.maxSize = if m > c1.maxSize then c1.maxSize else m
    split <;> omega

theorem Stored.entry_not_mem {a : Nat} {xs ys : List Nat} (S : Stored c (xs ++ a :: ys)) :
    c.entry a ∉ (shown c xs).map Prod.fst ∧
      c.entry a ∉ (shown c xs ++ shown c ys).map Prod.fst := by
  have hrest : c.entry a ∉ (shown c (xs ++ ys)).map Prod.fst := by
    rw [shown, List.map_map]
    intro hmem
    obtain ⟨b, hb, he⟩ := mem_map.mp hmem
    have hb' : b ∈ xs ++ a :: ys := by
      rw [mem_append] at hb ⊢
      exact hb.imp_right (mem_cons_of_mem _)
    exact S.not_mem (S.entry_inj hb' (by simp) he ▸ hb)
  rw [shown, map_append] at hrest
  refine ⟨fun h => hrest ?_, hrest⟩
  rw [map_append]
  exact mem_append_left _ h

theorem Refines.split (R : Refines c s) (hr : r ∈ s.items.map Prod.fst) :
    ∃ xs a ys, Stored c (xs ++ a :: ys) ∧ c.cEntry r = some a ∧ c.entry a = r ∧
      r ∉ (shown c xs).map Prod.fst ∧ s.items = shown c (xs ++ a :: ys) ∧ s.mSize = c.mSize ∧
      s.maxSize = c.maxSize := by
  obtain ⟨as, S, hi, hm, hx⟩ := R
  rw [hi, shown, List.map_map] at hr
  obtain ⟨a, ha, rfl⟩ := mem_map.mp hr
  obtain ⟨xs, ys, rfl⟩ := append_of_mem ha
  exact ⟨xs, a, ys, S, S.back a ha, rfl, S.entry_not_mem.1, hi, hm, hx⟩

theorem Refines.cacheDeleteEntryOnly (R : Refines c s) (r : Nat) :
    ∃ c', cacheDeleteEntryOnly c r = some c' ∧ Refines c' (s.delete r) := by
  by_cases hr : r ∈ s.items.map Prod.fst
  · obtain ⟨xs, a, ys, S, hce, rfl, hxs, hi, hm, hx⟩ := R.split hr
    have ha : c.alive a = true := (S.alive a).mpr (by simp)
    refine ⟨release (unlinked c a) (c.entry a) a, ?_, xs ++ ys, S.released, ?_, hm, hx⟩
    · rw [HeaderCache.cacheDeleteEntryOnly, if_neg (by simp [S.nSize_ne, hce]), hce, deref_eq ha,
        bind_some, S.unlinkEntry, map_some]
    · rw [Lru.delete, hi, shown_split, (find_at (shown c ys) (c.entry a, c.locked a) hxs).2, shown,
        shown, ← map_append]
      rfl
  · refine ⟨c, by rw [HeaderCache.cacheDeleteEntryOnly, if_pos (.inr (R.cEntry_none hr))], ?_⟩
    have hkeep : s.delete r = s := by
      rw [Lru.delete, eraseP_of_forall_not]
      exact fun i hi he => hr (mem_map.mpr ⟨i, hi, of_decide_eq_true he⟩)
    rwa [hkeep]

theorem Refines.cacheUpdate (R : Refines c s) (hr : r ∈ s.items.map Prod.fst) :
    ∃ c', cacheUpdate c r = some c' ∧ Refines c' (s.update r) := by
  have hn := R.nSize_eq
  obtain ⟨xs, a, ys, S, hce, rfl, hxs, hi, hm, hx⟩ := R.split hr
  have ha : c.alive a = true := (S.alive a).mpr (by simp)
  rw [HeaderCache.cacheUpdate, hce, deref_eq ha, bind_some,
    Lru.update_at (hi.trans (shown_split c xs ys a)) hxs, hm, hn]
  cases xs with
  | nil =>
    rw [if_pos (by rw [S.linked.top]; rfl), if_neg (by simp [shown])]
    exact ⟨c, rfl, _, S, rfl, rfl, hx⟩
  | cons q xs =>
    obtain ⟨hmove, S'⟩ := S.moveTop (cons_ne_nil q xs)
    rw [if_neg (S.top_ne (cons_ne_nil q xs)), hmove, bind_some]
    have R' : Refines { c with links := (c.links.unlink a).push a }
        ⟨(c.entry a, c.locked a) :: (shown c (q :: xs) ++ shown c ys), c.mSize, s.maxSize⟩ :=
      ⟨_, S', by simp [shown], rfl, hx⟩
    have hne : shown c (q :: xs) ≠ [] := by simp [shown]
    by_cases hover : c.mSize < c.nSize
    · rw [if_pos hover, if_pos ⟨hne, hover⟩]
      exact R'.evictTimes _
    · rw [if_neg hover, if_neg fun h => hover h.2]
      exact ⟨_, rfl, R'⟩

theorem Refines.cacheEntryLock (R : Refines c s) (hr : r ∈ s.items.map Prod.fst) (lock : Bool) :
    ∃ c', cacheEntryLock c r lock = some c' ∧ Refines c' (s.setLock r lock) := by
  obtain ⟨xs, a, ys, S, hce, rfl, hxs, hi, hm, hx⟩ := R.split hr
  have ha : c.alive a = true := (S.alive a).mpr (by simp)
  refine ⟨{ c with locked := update c.locked a lock }, ?_, xs ++ a :: ys,
    ⟨S.linked, S.alive, S.fresh, S.back, S.cached, S.count⟩, ?_, hm, hx⟩
  · rw [HeaderCache.cacheEntryLock, hce, deref_eq ha, map_some]
  · rw [Lru.setLock, hi, shown, shown, List.map_map]
    refine map_congr_left fun b hb => ?_
    by_cases hba : b = a
    · simp [hba]
    · have hne : c.entry b ≠ c.entry a := fun he => hba (S.entry_inj hb (by simp) he)
      simp [hne, hba]

/-! ## Sequences -/

theorem Refines.exec (R : Refines c s) {o : Op} (h : s.Allowed o) :
    ∃ c', exec c o = some c' ∧ Refines c' (s.exec o) := by
  cases o with
  | insert r => exact R.cacheInsert h
  | update r => exact R.cacheUpdate h
  | deleteEntryOnly r => exact R.cacheDeleteEntryOnly r
  | evict =>
    obtain ⟨c', b, hc, R', -⟩ := R.evict
    exact ⟨c', by rw [HeaderCache.exec, hc, map_some], R'⟩
  | sizeUpdate m => exact R.cacheSizeUpdate m
  | lock r => exact R.cacheEntryLock h true
  | unlock r => exact R.cacheEntryLock h false

theorem Refines.run {ops : List Op} (R : Refines c s) (h : s.Legal ops) :
    ∃ c', run c ops = some c' ∧ Refines c' (s.run ops) := by
  induction ops generalizing c s with
  | nil => exact ⟨c, rfl, R⟩
  | cons o ops ih =>
    obtain ⟨c1, h1, R1⟩ := R.exec h.1
    obtain ⟨c', h', R'⟩ := ih R1 h.2
    exact ⟨c', by rw [HeaderCache.run, h1, bind_some, h'], R'⟩

end

/-- An eviction of the cells `as` removes the one closest to the bottom that is
not locked, or nothing. -/
def EvictsLast (c : Cache) (as : List Nat) : Prop :=
  (∃ xs a ys, as = xs ++ a :: ys ∧ c.locked a = false ∧ (∀ b ∈ ys, c.locked b = true) ∧
      ∃ c', cacheEvict c = some (c', true) ∧ Stored c' (xs ++ ys)) ∨
    (∀ b ∈ as, c.locked b = true) ∧ cacheEvict c = some (c, false)

/-- `cache_update` moves the run to the top and then evicts, one more than the limit asks for.
The run stays on top if nothing is evicted, if it is locked, or if enough others can go. -/
def OnTop (c : Cache) (as : List Nat) : Prop :=
  ∀ xs a ys, as = xs ++ a :: ys → ∃ c' as', cacheUpdate c (c.entry a) = some c' ∧ Stored c' as' ∧
    (as'.head?.map c'.entry = some (c.entry a) ↔ xs = [] ∨ c.nSize ≤ c.mSize ∨ c.locked a = true ∨
      (c.nSize - c.mSize + 1).toNat ≤ (xs ++ ys).countP fun b => !c.locked b)

theorem Stored.onTop {c : Cache} {as : List Nat} (S : Stored c as) : OnTop c as := by
  rintro xs a ys rfl
  have R : Refines c ⟨shown c (xs ++ a :: ys), c.mSize, c.maxSize⟩ := ⟨_, S, rfl, rfl, rfl⟩
  obtain ⟨hxs, hrest⟩ := S.entry_not_mem
  obtain ⟨c', hc, as', S', hi, -, -⟩ := R.cacheUpdate (r := c.entry a) (by simp [shown])
  refine ⟨c', as', hc, S', ?_⟩
  have hup := Lru.update_at (s := ⟨shown c (xs ++ a :: ys), c.mSize, c.maxSize⟩)
    (i := (c.entry a, c.locked a)) (shown_split c xs ys a) hxs
  have hshown : as'.head?.map c'.entry = (shown c' as').head?.map Prod.fst := by
    cases as' <;> rfl
  have hcount : ((shown c xs ++ shown c ys).countP fun j => !j.2) =
      (xs ++ ys).countP fun b => !c.locked b := by
    rw [shown, shown, ← map_append, countP_map]
    rfl
  have hnil : shown c xs ≠ [] ↔ xs ≠ [] := by simp [shown]
  rw [hup, R.nSize_eq] at hi
  rw [hshown, ← hi, evict_head (i := (c.entry a, c.locked a)) hrest, hcount]
  simp only [hnil]
  by_cases hx : xs = []
  · simp [hx]
  · by_cases hm : c.mSize < c.nSize
    · rw [if_pos ⟨hx, hm⟩]
      simp [hx, Int.not_le.mpr hm]
    · rw [if_neg fun h => hm h.2]
      simp [Int.not_lt.mp hm]

/-- After every sequence of operations that are applied to runs that are, or are
not, cached as they expect, the cells are one list that is linked in both
directions, and it is the one the operations of `Lru` lead to. -/
theorem cache_list (noe : Nat) (ops : List Op) (h : (Lru.init noe).Legal ops) :
    ∃ c as, run (.init noe) ops = some c ∧ Stored c as ∧
      shown c as = ((Lru.init noe).run ops).items ∧
      (∀ a ∈ as, ∀ b ∈ as, c.links.up b = some a ↔ c.links.down a = some b) ∧
      EvictsLast c as ∧ OnTop c as := by
  have R : Refines (.init noe) (.init noe) := ⟨[], .init noe, rfl, rfl, rfl⟩
  obtain ⟨c, hc, as, S, hi, -, -⟩ := R.run h
  refine ⟨c, as, hc, S, hi.symm, fun a ha b hb => S.linked.up_iff_down ha hb, ?_, S.onTop⟩
  rcases S.evicts with ⟨xs, a, ys, rfl, ha, hys, he⟩ | hall
  · exact .inl ⟨xs, a, ys, rfl, ha, hys, _, he, S.released⟩
  · exact .inr hall

/-- The update moves run 6 up, the fourth run exceeds the limit, and the eviction passes the
locked one. -/
theorem cache_list_locked :
    ∃ c as, run (.init 3) [.insert 5, .insert 6, .lock 5, .insert 7, .update 6, .insert 8,
        .evict, .insert 9] = some c ∧
      Stored c as ∧ shown c as = [(9, false), (8, false), (6, false), (5, true)] ∧
      (∀ a ∈ as, ∀ b ∈ as, c.links.up b = some a ↔ c.links.down a = some b) ∧
      EvictsLast c as ∧ OnTop c as :=
  cache_list 3 [.insert 5, .insert 6, .lock 5, .insert 7, .update 6, .insert 8, .evict, .insert 9]
    (by simp [Lru.Legal, Lru.Allowed, Lru.exec, Lru.insert, Lru.init, Lru.nSize, Lru.update,
      Lru.toTop, Lru.setLock, Lru.evict, Lru.dropLast])

/-- A cache for one run takes two, and the update of the lower one evicts both. -/
theorem update_empties : (Lru.init 1).Legal [.insert 5, .insert 6, .update 5] ∧
    ∃ c, run (.init 1) [.insert 5, .insert 6] = some c ∧ c.links.bottom = c.cEntry 5 ∧
      c.links.bottom ≠ none ∧ ∃ c', cacheUpdate c 5 = some c' ∧ c'.links.top = none ∧
        c'.nSize = 0 ∧ c'.cEntry 5 = none := by
  refine ⟨by simp [Lru.Legal, Lru.Allowed, Lru.exec, Lru.insert, Lru.init, Lru.nSize], ?_⟩
  exact ⟨_, rfl, rfl, by decide, _, rfl, rfl, rfl, rfl⟩

/-! ## The size limit -/

def Within (c : Cache) : Prop := c.nSize ≤ c.mSize ∧ c.mSize ≤ c.maxSize

/-- The limit is kept after each operation. -/
def Capped (c : Cache) : List Op → Prop
  | [] => True
  | o :: ops => ∃ c', exec c o = some c' ∧ Within c' ∧ Capped c' ops

/-- No run is inserted into a cache that is just full. -/
def Roomy (c : Cache) : List Op → Prop
  | [] => True
  | o :: ops => (∀ r, o = .insert r → c.mSize = 0 ∨ c.nSize < c.mSize) ∧
    ∀ c', exec c o = some c' → Roomy c' ops

section
variable {c : Cache} {s : Lru} {r : Nat} {o : Op}

def Lru.Unlocked (s : Lru) : Prop := ∀ i ∈ s.items, i.2 = false

theorem dropLast_unlocked (h : s.Unlocked) :
    s.evict.Unlocked ∧ s.evict.items.length = s.items.length - 1 := by
  rcases eq_nil_or_concat s.items with hi | ⟨xs, i, hi⟩
  · rw [Lru.Unlocked, Lru.evict, hi]
    exact ⟨fun j hj => (nomatch hj), rfl⟩
  · rw [concat_eq_append] at hi
    have hlast : i.2 = false := h i (by simp [hi])
    have hnone : ∀ j ∈ ([] : List (Nat × Bool)), j.2 = true := fun j hj => nomatch hj
    have hevict : s.evict.items = xs := by
      rw [Lru.evict, hi, dropLast_at hlast hnone, append_nil]
    refine ⟨fun j hj => h j ?_, by rw [hevict, hi]; simp⟩
    rw [hevict] at hj
    rw [hi]
    exact mem_append_left _ hj

theorem evicted_unlocked (h : s.Unlocked) (n : Nat) :
    (Lru.evict^[n] s).Unlocked ∧ (Lru.evict^[n] s).items.length = s.items.length - n := by
  induction n generalizing s with
  | zero => exact ⟨h, rfl⟩
  | succ n ih =>
    obtain ⟨h1, hlen⟩ := dropLast_unlocked h
    obtain ⟨h', hlen'⟩ := ih h1
    exact ⟨h', by rw [iterate_succ_apply, hlen', hlen]; omega⟩

theorem toTop_perm (items : List (Nat × Bool)) (r : Nat) : (Lru.toTop items r).Perm items := by
  induction items with
  | nil => exact List.Perm.refl _
  | cons i items ih =>
    rw [Lru.toTop]
    by_cases h : i.1 = r
    · rw [find?_cons_of_pos (by simp [h]), eraseP_cons_of_pos (by simp [h])]
      exact List.Perm.refl _
    · rw [find?_cons_of_neg (by simp [h]), eraseP_cons_of_neg (by simp [h])]
      exact perm_middle.trans (ih.cons i)

def Lru.Within (s : Lru) : Prop := s.nSize ≤ s.mSize ∧ s.mSize ≤ s.maxSize

theorem Refines.within_iff (R : Refines c s) : Within c ↔ s.Within := by
  have hn := R.nSize_eq
  obtain ⟨as, S, hi, hm, hx⟩ := R
  rw [HeaderCache.Within, Lru.Within, hn, hm, hx]

theorem Lru.Within.exec (hw : s.Within) (hu : s.Unlocked) (h : s.Allowed o)
    (hl : ∀ r, o ≠ .lock r) :
    (s.exec o).Unlocked ∧
      ((s.exec o).Within ↔ ∀ r, o = .insert r → s.mSize = 0 ∨ s.nSize < s.mSize) := by
  obtain ⟨hn, hm⟩ := hw
  have hfit : ¬ s.mSize < s.nSize := by omega
  cases o with
  | insert r =>
    rw [Lru.exec, Lru.insert]
    split
    · rename_i h0
      exact ⟨hu, fun _ _ _ => .inl h0, fun _ => ⟨hn, hm⟩⟩
    · rename_i h0
      rw [if_pos (Nat.zero_le _)]
      refine ⟨fun i hi => ?_, fun hw' _ _ => .inr ?_, fun hroom => ⟨?_, hm⟩⟩
      · rcases mem_cons.mp hi with rfl | hi
        · rfl
        · exact hu i hi
      · have hlen := hw'.1
        simp only [Lru.nSize, iterate_zero, id_eq, length_cons, Nat.cast_add, Nat.cast_one] at hlen
        simp only [Lru.nSize]
        omega
      · have hlt := (hroom r rfl).resolve_left h0
        simp only [Lru.nSize] at hlt
        simp only [Lru.nSize, iterate_zero, id_eq, length_cons, Nat.cast_add, Nat.cast_one]
        omega
  | update r =>
    have hp := toTop_perm s.items r
    rw [Lru.exec, Lru.update, if_neg fun h => hfit h.2]
    refine ⟨fun i hi => hu i (hp.mem_iff.mp hi), iff_of_true ⟨?_, hm⟩ nofun⟩
    change ((Lru.toTop s.items r).length : Int) ≤ s.mSize
    rw [hp.length_eq]
    exact hn
  | deleteEntryOnly r =>
    refine ⟨fun i hi => hu i (mem_of_mem_eraseP hi), iff_of_true ⟨?_, hm⟩ nofun⟩
    have hlen : (s.delete r).items.length ≤ s.items.length := eraseP_sublist.length_le
    exact le_trans (Int.ofNat_le.mpr hlen) hn
  | evict =>
    obtain ⟨hu', hlen⟩ := dropLast_unlocked hu
    refine ⟨hu', iff_of_true ⟨?_, hm⟩ nofun⟩
    change (s.evict.items.length : Int) ≤ s.mSize
    rw [hlen]
    simp only [Lru.nSize] at hn
    omega
  | sizeUpdate m =>
    rw [Lru.exec, Lru.sizeUpdate]
    split
    · exact ⟨hu, iff_of_true ⟨hn, hm⟩ nofun⟩
    · obtain ⟨hu', hlen⟩ := evicted_unlocked hu (s.nSize - m).toNat
      have hmax := (evict_sizes s (s.nSize - m).toNat).2
      refine ⟨hu', iff_of_true ⟨?_, ?_⟩ nofun⟩
      · change ((Lru.evict^[(s.nSize - m).toNat] s).items.length : Int) ≤ min m s.maxSize
        rw [hlen]
        simp only [Lru.nSize] at hn ⊢
        omega
      · change min m s.maxSize ≤ (Lru.evict^[(s.nSize - m).toNat] s).maxSize
        rw [hmax]
        exact min_le_right _ _
  | lock r => exact absurd rfl (hl r)
  | unlock r =>
    refine ⟨fun i hi => ?_, iff_of_true ⟨?_, hm⟩ nofun⟩
    · obtain ⟨j, hj, rfl⟩ := mem_map.mp hi
      split
      · rfl
      · exact hu j hj
    · change ((s.items.map _).length : Int) ≤ s.mSize
      rw [length_map]
      exact hn

theorem Refines.capped_iff {ops : List Op} (R : Refines c s) (hw : Within c) (hu : s.Unlocked)
    (h : s.Legal ops) (hl : ∀ r, Op.lock r ∉ ops) : Capped c ops ↔ Roomy c ops := by
  induction ops generalizing c s with
  | nil => exact Iff.rfl
  | cons o ops ih =>
    obtain ⟨c1, h1, R1⟩ := R.exec h.1
    obtain ⟨hu1, hstep⟩ := (R.within_iff.mp hw).exec hu h.1 fun r he => hl r (by simp [he])
    have hrest := fun hw1 => ih R1 hw1 hu1 h.2 fun r hr => hl r (.tail _ hr)
    rw [← R1.within_iff, R.mSize_eq, R.nSize_eq] at hstep
    rw [Capped, Roomy, h1]
    constructor
    · rintro ⟨c', he, hw1, hcap⟩
      cases he
      refine ⟨hstep.mp hw1, fun c' he => ?_⟩
      cases he
      exact (hrest hw1).mp hcap
    · rintro ⟨hroom, hnext⟩
      have hw1 := hstep.mpr hroom
      exact ⟨c1, rfl, hw1, (hrest hw1).mpr (hnext c1 rfl)⟩

end

/-- Without locks, the size limit is kept after each of the operations exactly if
no run is inserted while the cache is just full. -/
theorem cache_bound (noe : Nat) (ops : List Op) (h : (Lru.init noe).Legal ops)
    (hl : ∀ r, Op.lock r ∉ ops) : Capped (.init noe) ops ↔ Roomy (.init noe) ops := by
  have R : Refines (.init noe) (.init noe) := ⟨[], .init noe, rfl, rfl, rfl⟩
  have hw : Within (.init noe) := ⟨Int.natCast_nonneg noe, le_refl _⟩
  exact R.capped_iff hw (fun i hi => nomatch hi) h hl

theorem cache_bound_shrunk :
    Capped (.init 2) [.insert 5, .sizeUpdate 1, .update 5] ↔
      Roomy (.init 2) [.insert 5, .sizeUpdate 1, .update 5] :=
  cache_bound 2 [.insert 5, .sizeUpdate 1, .update 5]
    (by simp [Lru.Legal, Lru.Allowed, Lru.exec, Lru.insert, Lru.init, Lru.sizeUpdate, Lru.nSize])
    (by simp)

/-- Two runs in a cache for one. -/
theorem insert_exceeds :
    (run (.init 1) [.insert 5, .insert 6]).map (fun c => (c.nSize, c.mSize)) = some (2, 1) := by
  decide

end FlashDriver.Lsmtree.HeaderCache
