import FlashDriver.Core.LTS
import FlashDriver.Lsmtree.Find

/-!
# Point lookups (`__lsm_get`)

A get looks into the memtable and the table that is being flushed, and then goes through
the levels. On a level whose header pages are on flash it stops at the run that may have
its key: if the page is in the cache it is looked up at once, if another request reads it
already the get is parked in `waitreq` of the run, else the get reads it itself. When the
page is there its reader looks up its own key and those of the parked ones, and who has
not been found goes on with the next level.

With `hw_read` nobody is parked: the device looks for the key in the page itself, and
gives `UINT_MAX` where it does not find it.

All of this is done by one thread; the device only puts requests back into the queue.
Whether a header page is in the cache, and whether the data page of a request is the one
kept by `lsm_data_cache_insert`, is left open.

* `Inv`: where a request is, and who reads for the parked ones.
* `point_get`: every request ends once, with the page of the first mapping of its key,
  as long as nobody is parked at a run that has its key, `UINT_MAX` is not met in a level
  kept in memory nor by the device, and no filter rejects a key of its level.
-/
namespace FlashDriver.Lsmtree.PointGet

open List Option Function
open FlashDriver.Core (LTS)

/-! ## The tree -/

/-- The address of a key that was removed, `UINT_MAX`. -/
def tombstone : Nat := 2 ^ 32 - 1

/-- The levels, and what `skiplist_find` finds in the memtable and in the table that is
being flushed: `some none` is a node with a value, `some (some p)` one with an address
only. -/
structure Tree where
  hwRead : Bool
  cfg : Cfg Nat
  disk : Disk Nat
  ordered : ∀ i, (disk i).Ordered
  memtable : Key → Option (Option Nat)
  temptable : Key → Option (Option Nat)

/-- The header page of a run. -/
def Tree.page (T : Tree) (e : Nat × Nat) : Run Nat := runAt (T.disk e.1).runs e.2

/-! ## Requests -/

/-- How a request ends: with the value in memory, with a data page, as removed or as not
found. -/
inductive Outcome where
  | memory
  | page (q : Nat)
  | deleted
  | notFound
  deriving DecidableEq, Repr

/-- `parked e`: in `waitreq` of the run `e`. -/
inductive Place where
  | idle
  | headerRead (e : Nat × Nat)
  | queued
  | parked (e : Nat × Nat)
  | dataRead (q : Nat)
  | ended
  deriving DecidableEq, Repr

/-- `level`, `run` and `bypass` are `temp_data[0]`, `temp_data[1]` and `temp_data[3]`; `ppa`
is what the device has found; `outcomes` are the calls of `end_req`. -/
structure ReqSt where
  place : Place
  level : Nat
  run : Nat
  bypass : Nat
  ppa : Nat
  outcomes : List Outcome

structure St (ι : Type) where
  req : ι → ReqSt
  flying : Nat × Nat → Bool
  waitreq : Nat × Nat → List ι

def St.init {ι : Type} : St ι := ⟨fun _ => ⟨.idle, 0, 0, 0, 0, []⟩, fun _ => false, fun _ => []⟩

section
variable {ι : Type} [DecidableEq ι]

def St.setReq (s : St ι) (r : ι) (x : ReqSt) : St ι := { s with req := update s.req r x }

/-- `end_req` -/
def ReqSt.finish (x : ReqSt) (o : Outcome) : ReqSt :=
  { x with place := .ended, outcomes := x.outcomes ++ [o] }

/-- mirrors algorithm/Lsmtree/lsmtree.c:797-812: the key was found with the address `p`;
`hit` says whether `lsm_data_cache_check` has its page -/
def ReqSt.serve (x : ReqSt) (p : Nat) (hit : Bool) : ReqSt :=
  if p = tombstone then x.finish .deleted
  else if hit then x.finish (.page (p / npc))
  else { x with place := .dataRead (p / npc) }

/-- mirrors algorithm/Lsmtree/lsmtree.c:753-785: a parked request whose run has been read; the
address is halved, and not compared with `UINT_MAX` -/
def ReqSt.wake (x : ReqSt) (found : Option Nat) (hit : Bool) : ReqSt :=
  let x := { x with bypass := x.bypass + 1 }
  match found with
  | some p =>
    if hit then x.finish (.page (p / 2 / npc))
    else { x with place := .dataRead (p / 2 / npc) }
  | none => { x with place := .queued }

/-- mirrors algorithm/Lsmtree/lsmtree.c:950 -/
def ReqSt.clearBypass (x : ReqSt) : ReqSt :=
  { x with bypass := if x.bypass = 1 then 0 else x.bypass }

variable (T : Tree) (key : ι → Key)

/-- The loop over `waitreq`. -/
def wakeAll (e : Nat × Nat) (hit : ι → Bool) (ws : List ι) (s : St ι) : St ι :=
  ws.foldl (fun s w => s.setReq w ((s.req w).wake (lookup (T.page e) (key w)) (hit w))) s

/-- mirrors algorithm/Lsmtree/lsmtree.c:749-791: the reader of run `e` has its page -/
def release (s : St ι) (e : Nat × Nat) (hit : ι → Bool) : St ι :=
  let s := wakeAll T key e hit (s.waitreq e) s
  { s with flying := update s.flying e false, waitreq := update s.waitreq e [] }

/-- mirrors algorithm/Lsmtree/lsmtree.c:949-1012, with what `lsm_get` does on `NOTFOUND` -/
def search (s : St ι) (r : ι) (level run : Nat) (cached : Nat × Nat → Bool) (hit : Bool) : St ι :=
  let x := (s.req r).clearBypass
  match lsmFindRun T.cfg T.disk (key r) level run with
  | .notFound => s.setReq r (x.finish .notFound)
  | .caching _ p => s.setReq r { x with place := .dataRead (p / npc) }
  | .found l n =>
    let x := { x with level := l, run := 0 }
    match if cached (l, n) then lookup (T.page (l, n)) (key r) else none with
    | some p => s.setReq r (x.serve p hit)
    | none =>
      if T.hwRead = false ∧ s.flying (l, n) = true then
        { s.setReq r { x with place := .parked (l, n) } with
            waitreq := update s.waitreq (l, n) (s.waitreq (l, n) ++ [r]) }
      else
        { s.setReq r { x with place := .headerRead (l, n) } with
            flying := update s.flying (l, n) true }

/-- The answer of the device, where `UINT_MAX` stands for none. -/
def hwFind (e : Nat × Nat) (k : Key) : Option Nat := (lookup (T.page e) k).filter (· ≠ tombstone)

/-- mirrors algorithm/Lsmtree/lsmtree.c:412-428 and 614-634: the request is queued again -/
def ReqSt.headerDone (x : ReqSt) (e : Nat × Nat) (k : Key) : ReqSt :=
  if T.hwRead then
    match hwFind T e k with
    | some p => { x with place := .queued, ppa := p, bypass := 2 }
    | none => { x with place := .queued, bypass := 1 }
  else { x with place := .queued }

/-- `get` is the first call of `lsm_get`, `retry` a later one; `headerDone` and `dataDone`
are `lsm_end_req`. -/
inductive Act (ι : Type) where
  | get (r : ι) (cached : Nat × Nat → Bool) (hit : Bool)
  | headerDone (r : ι)
  | retry (r : ι) (cached : Nat × Nat → Bool) (hit : ι → Bool)
  | dataDone (r : ι)

/-- mirrors algorithm/Lsmtree/lsmtree.c:892-909 -/
def getFirst (s : St ι) (r : ι) (cached : Nat × Nat → Bool) (hit : Bool) : St ι :=
  match (T.memtable (key r)).or (T.temptable (key r)) with
  | some none => s.setReq r ((s.req r).finish .memory)
  | some (some p) => s.setReq r ((s.req r).serve p hit)
  | none => search T key s r 0 0 cached hit

/-- mirrors algorithm/Lsmtree/lsmtree.c:910-947 -/
def getAgain (s : St ι) (r : ι) (cached : Nat × Nat → Bool) (hit : ι → Bool) : Option (St ι) :=
  let x := s.req r
  if x.bypass ≠ 0 then
    if T.hwRead = true ∧ x.bypass = 2 then
      some (s.setReq r { x with place := .dataRead (x.ppa / npc) })
    else some (search T key s r x.level (x.run + 1) cached (hit r))
  else
    (findRun (T.disk x.level) (key r)).map fun n =>
      let s := release T key s (x.level, n) hit
      match lookup (T.page (x.level, n)) (key r) with
      | some p => s.setReq r ((s.req r).serve p (hit r))
      | none => search T key s r x.level (x.run + 1) cached (hit r)

def step (s : St ι) : Act ι → Option (St ι)
  | .get r cached hit =>
    if (s.req r).place = .idle then some (getFirst T key s r cached hit) else none
  | .headerDone r =>
    match (s.req r).place with
    | .headerRead e => some (s.setReq r ((s.req r).headerDone T e (key r)))
    | _ => none
  | .retry r cached hit =>
    if (s.req r).place = .queued then getAgain T key s r cached hit else none
  | .dataDone r =>
    match (s.req r).place with
    | .dataRead q => some (s.setReq r ((s.req r).finish (.page q)))
    | _ => none

def lookups : LTS (St ι) (Act ι) where
  init s := s = .init
  step s a s' := step T key s a = some s'

/-! ## What a request should end with -/

def Outcome.ofPpa (p : Nat) : Outcome := if p = tombstone then .deleted else .page (p / npc)

def Tree.memory (T : Tree) (k : Key) : Option (Option Nat) := (T.memtable k).or (T.temptable k)

/-- The memtables first, then the first level that has the key. -/
def Tree.expected (T : Tree) (k : Key) : Outcome :=
  match T.memory k with
  | some none => .memory
  | some (some p) => .ofPpa p
  | none =>
    match firstMapping T.cfg T.disk k with
    | some p => .ofPpa p
    | none => .notFound

/-- What level `i` has for a key. -/
def Tree.at (T : Tree) (i : Nat) (k : Key) : Option Nat := lookup (T.disk i).runs.flatten k

/-- The levels before `i` do not have the key. -/
def Tree.Clear (T : Tree) (k : Key) (i : Nat) : Prop := ∀ j, j < i → T.at j k = none

instance (T : Tree) (k : Key) (i : Nat) : Decidable (T.Clear k i) :=
  inferInstanceAs (Decidable (∀ j, j < i → T.at j k = none))

/-- The first level that has the key does not have it rejected by its filter. -/
def Tree.Passes (T : Tree) (k : Key) : Prop :=
  ∀ i, i < T.cfg.levelN → T.Clear k i → T.at i k ≠ none → filterSkips T.cfg T.disk i k = false

instance (T : Tree) (k : Key) : Decidable (T.Passes k) :=
  inferInstanceAs (Decidable (∀ i, i < T.cfg.levelN → _))

/-- The search does not meet `UINT_MAX` in a level kept in memory or through the device, and
is not parked at a run that has the key, at an address that halving takes to another page. -/
def Meets (s : St ι) (r : ι) (cached : Nat × Nat → Bool) : Found Nat → Prop
  | .notFound => True
  | .caching _ p => p ≠ tombstone
  | .found l n => cached (l, n) = false → ∀ p ∈ lookup (T.page (l, n)) (key r),
      if T.hwRead then p ≠ tombstone else s.flying (l, n) = true → p < npc

instance (s : St ι) (r : ι) (cached : Nat × Nat → Bool) :
    ∀ f, Decidable (Meets T key s r cached f)
  | .notFound => inferInstanceAs (Decidable True)
  | .caching _ p => inferInstanceAs (Decidable (p ≠ tombstone))
  | .found l n => inferInstanceAs (Decidable (_ → ∀ p ∈ lookup (T.page (l, n)) (key r), _))

def SearchOk (s : St ι) (r : ι) (level run : Nat) (cached : Nat × Nat → Bool) : Prop :=
  T.Passes (key r) ∧ Meets T key s r cached (lsmFindRun T.cfg T.disk (key r) level run)

instance (s : St ι) (r : ι) (level run : Nat) (cached : Nat × Nat → Bool) :
    Decidable (SearchOk T key s r level run cached) :=
  inferInstanceAs (Decidable (_ ∧ _))

/-- The condition on a step, for the calls that search the levels. -/
def Served (s : St ι) : Act ι → Prop
  | .get r cached _ => T.memory (key r) = none → SearchOk T key s r 0 0 cached
  | .retry r cached _ =>
    (s.req r).bypass ≠ 2 → ((s.req r).bypass = 0 → T.at (s.req r).level (key r) = none) →
      SearchOk T key s r (s.req r).level ((s.req r).run + 1) cached
  | _ => True

instance (s : St ι) : ∀ a, Decidable (Served T key s a)
  | .get r cached _ =>
    inferInstanceAs (Decidable (T.memory (key r) = none → SearchOk T key s r 0 0 cached))
  | .retry r cached _ => inferInstanceAs (Decidable (_ → (_ → _) →
      SearchOk T key s r (s.req r).level ((s.req r).run + 1) cached))
  | .headerDone _ => inferInstanceAs (Decidable True)
  | .dataDone _ => inferInstanceAs (Decidable True)

/-! ## The search through the levels -/

variable {T} {key} {k : Key} {e : Nat × Nat} {x : ReqSt}

theorem firstMapping_of_clear {i p : Nat} (hi : i < T.cfg.levelN) (hc : T.Clear k i)
    (hp : T.at i k = some p) : firstMapping T.cfg T.disk k = some p := by
  obtain ⟨m, hm⟩ := Nat.exists_eq_add_of_lt hi
  have hsplit : range T.cfg.levelN = range i ++ i :: (range m).map (i + 1 + ·) := by
    rw [hm, Nat.add_right_comm, range_add, range_succ, append_assoc]
    rfl
  refine findSome?_eq_some_iff.mpr ⟨_, i, _, hsplit, hp, fun j hj => ?_⟩
  exact hc j (mem_range.mp hj)

theorem firstMapping_none (hc : T.Clear k T.cfg.levelN) : firstMapping T.cfg T.disk k = none :=
  findSome?_eq_none_iff.mpr fun j hj => hc j (mem_range.mp hj)

theorem Tree.Clear.succ {i : Nat} (hc : T.Clear k i) (hn : T.at i k = none) :
    T.Clear k (i + 1) := by
  intro j hj
  rcases Nat.lt_succ_iff_lt_or_eq.mp hj with hj | rfl
  · exact hc j hj
  · exact hn

theorem at_of_findRun {i n : Nat} (h : findRun (T.disk i) k = some n) :
    lookup (T.page (i, n)) k = T.at i k := lookup_findRun (T.ordered i) h

theorem at_of_findRun_none {i : Nat} (h : findRun (T.disk i) k = none) : T.at i k = none := by
  have hnil : (T.disk i).runs = [] := by
    by_contra hne
    obtain ⟨r, hr, -⟩ := findRun_spec (T.ordered i) hne k
    rw [h] at hr
    cases hr
  simp [Tree.at, hnil, lookup]

/-- What is known when `lsm_find_run` returns, for a search from level `i` on. -/
def Sought (T : Tree) (k : Key) (i : Nat) : Found Nat → Prop
  | .notFound => T.Clear k T.cfg.levelN
  | .caching l p => l < T.cfg.levelN ∧ T.Clear k l ∧ T.at l k = some p
  | .found l n => i ≤ l ∧ l < T.cfg.levelN ∧ T.Clear k l ∧ findRun (T.disk l) k = some n

theorem Sought.mono {i j : Nat} (hij : i ≤ j) : ∀ {f : Found Nat}, Sought T k j f → Sought T k i f
  | .notFound, h => h
  | .caching _ _, h => h
  | .found _ _, h => ⟨le_trans hij h.1, h.2⟩

theorem findLevel_sought (hp : T.Passes k) {n i : Nat} (hn : i + n = T.cfg.levelN)
    (hc : T.Clear k i) : Sought T k i (findLevel T.cfg T.disk k n i) := by
  induction n generalizing i with
  | zero =>
    rw [add_zero] at hn
    rw [hn] at hc
    exact hc
  | succ n ih =>
    have hnext : T.at i k = none → Sought T k i (findLevel T.cfg T.disk k n (i + 1)) :=
      fun h => (ih (by omega) (hc.succ h)).mono (Nat.le_succ i)
    rw [findLevel]
    split
    · rename_i hskip
      refine hnext ?_
      by_contra h
      rw [hp i (by omega) hc h] at hskip
      cases hskip
    · split
      · rename_i hnone
        exact hnext (at_of_findRun_none hnone)
      · rename_i r hr
        split
        · split
          · rename_i p hl
            exact ⟨by omega, hc, (at_of_findRun hr).symm.trans hl⟩
          · rename_i hl
            exact hnext ((at_of_findRun hr).symm.trans hl)
        · exact ⟨le_refl i, by omega, hc, hr⟩

/-- The level that `lsm_find_run` starts with. -/
def startLevel (level run : Nat) : Nat := if run = 0 then level else level + 1

theorem startLevel_succ (level run : Nat) : startLevel level (run + 1) = level + 1 :=
  if_neg (Nat.succ_ne_zero run)

theorem lsmFindRun_sought (hp : T.Passes k) {level run : Nat}
    (hl : startLevel level run ≤ T.cfg.levelN) (hc : T.Clear k (startLevel level run)) :
    Sought T k (startLevel level run) (lsmFindRun T.cfg T.disk k level run) :=
  findLevel_sought hp (Nat.add_sub_cancel' hl) hc

theorem expected_of_at (hm : T.memory k = none) {i p : Nat} (hi : i < T.cfg.levelN)
    (hc : T.Clear k i) (hp : T.at i k = some p) : T.expected k = .ofPpa p := by
  simp only [Tree.expected, hm, firstMapping_of_clear hi hc hp]

theorem expected_notFound (hm : T.memory k = none) (hc : T.Clear k T.cfg.levelN) :
    T.expected k = .notFound := by
  simp only [Tree.expected, hm, firstMapping_none hc]

theorem ofPpa_page {p : Nat} (h : p ≠ tombstone) : Outcome.ofPpa p = .page (p / npc) := if_neg h

/-! ## Where a request is -/

/-- The levels are being searched. -/
structure Searching (T : Tree) (k : Key) (x : ReqSt) : Prop where
  outcomes : x.outcomes = []
  memory : T.memory k = none
  level_lt : x.level < T.cfg.levelN
  run : x.run = 0

/-- The search has come to run `e`. -/
structure AtRun (T : Tree) (k : Key) (x : ReqSt) (e : Nat × Nat) : Prop
    extends Searching T k x where
  bypass : x.bypass = 0
  level : x.level = e.1
  run_of : findRun (T.disk e.1) k = some e.2
  clear : T.Clear k e.1

theorem AtRun.expected (h : AtRun T k x e) {p : Nat} (hp : lookup (T.page e) k = some p) :
    T.expected k = .ofPpa p :=
  expected_of_at h.memory (h.level ▸ h.level_lt) h.clear ((at_of_findRun h.run_of).symm.trans hp)

theorem AtRun.clear_next (h : AtRun T k x e) (hp : lookup (T.page e) k = none) :
    T.Clear k (x.level + 1) := by
  rw [h.level]
  exact h.clear.succ ((at_of_findRun h.run_of).symm.trans hp)

/-- Why a request is in the queue: it has read its run, its run does not have its key, or the
device has found its key. -/
inductive Queued (T : Tree) (k : Key) (x : ReqSt) : Prop
  | read (n : Nat) (hw : T.hwRead = false) (h : AtRun T k x (x.level, n))
  | passed (hb : x.bypass = 1) (h : Searching T k x) (hc : T.Clear k (x.level + 1))
  | known (hb : x.bypass = 2) (hw : T.hwRead = true) (h : Searching T k x)
      (he : T.expected k = .page (x.ppa / npc))

def Fine (T : Tree) (k : Key) (x : ReqSt) : Prop :=
  match x.place with
  | .idle => x.outcomes = [] ∧ x.bypass = 0
  | .headerRead e => AtRun T k x e ∧ (T.hwRead = true → ∀ p ∈ lookup (T.page e) k, p ≠ tombstone)
  | .queued => Queued T k x
  | .parked e => T.hwRead = false ∧ AtRun T k x e ∧ ∀ p ∈ lookup (T.page e) k, p < npc
  | .dataRead q => x.outcomes = [] ∧ T.expected k = .page q
  | .ended => x.outcomes = [T.expected k]

theorem Searching.with_place (h : Searching T k x) (pl : Place) (b a : Nat) :
    Searching T k { x with place := pl, bypass := b, ppa := a } :=
  ⟨h.outcomes, h.memory, h.level_lt, h.run⟩

theorem AtRun.with_place (h : AtRun T k x e) (pl : Place) :
    AtRun T k { x with place := pl } e :=
  ⟨⟨h.outcomes, h.memory, h.level_lt, h.run⟩, h.bypass, h.level, h.run_of, h.clear⟩

theorem Fine.finish (h : x.outcomes = []) {o : Outcome} (he : T.expected k = o) :
    Fine T k (x.finish o) := by
  simp [Fine, ReqSt.finish, h, he]

theorem Fine.dataRead (h : x.outcomes = []) {q : Nat} (he : T.expected k = .page q) :
    Fine T k { x with place := .dataRead q } := ⟨h, he⟩

theorem half_page {p : Nat} (h : p < npc) : p / 2 / npc = p / npc := by
  unfold npc at *
  omega

theorem Fine.wake (h : AtRun T k x e) (hp : ∀ p ∈ lookup (T.page e) k, p < npc)
    (hit : Bool) : Fine T k (x.wake (lookup (T.page e) k) hit) := by
  cases hl : lookup (T.page e) k with
  | some p =>
    have hlt := hp p hl
    have he : T.expected k = .page (p / 2 / npc) := by
      rw [half_page hlt, ← ofPpa_page (by unfold npc tombstone at *; omega)]
      exact h.expected hl
    simp only [ReqSt.wake]
    split
    · exact .finish h.outcomes he
    · exact .dataRead h.outcomes he
  | none =>
    exact .passed (congrArg (· + 1) h.bypass) (h.toSearching.with_place _ _ _) (h.clear_next hl)

theorem Fine.headerDone (h : AtRun T k x e)
    (hp : T.hwRead = true → ∀ p ∈ lookup (T.page e) k, p ≠ tombstone) :
    Fine T k (x.headerDone T e k) := by
  unfold ReqSt.headerDone
  split
  · rename_i hw
    cases hl : lookup (T.page e) k with
    | some p =>
      have hne := hp hw p hl
      simp only [hwFind, hl, Option.filter, hne, ne_eq, not_false_eq_true, decide_true, if_true]
      exact .known rfl hw (h.toSearching.with_place _ _ _) ((h.expected hl).trans (ofPpa_page hne))
    | none =>
      simp only [hwFind, hl, Option.filter]
      exact .passed rfl (h.toSearching.with_place _ _ _) (h.clear_next hl)
  · rename_i hw
    have hlev : e = (x.level, e.2) := by rw [h.level]
    exact .read e.2 (by simpa using hw) (hlev ▸ h.with_place .queued)

/-! ## The invariant -/

/-- The request reads run `e` for those parked at it. -/
def Leads (T : Tree) (k : Key) (x : ReqSt) (e : Nat × Nat) : Prop :=
  x.place = .headerRead e ∨
    (x.place = .queued ∧ x.bypass = 0 ∧ x.level = e.1 ∧ findRun (T.disk e.1) k = some e.2)

structure Inv (T : Tree) (key : ι → Key) (s : St ι) : Prop where
  fine : ∀ r, Fine T (key r) (s.req r)
  waits : ∀ e w, w ∈ s.waitreq e ↔ (s.req w).place = .parked e
  nodup : ∀ e, (s.waitreq e).Nodup
  flown : ∀ e, s.waitreq e ≠ [] → s.flying e = true
  led : T.hwRead = false → ∀ e, s.flying e = true → ∃ r, Leads T (key r) (s.req r) e

/-- Neither parked nor reading for others. -/
structure Free (T : Tree) (key : ι → Key) (s : St ι) (r : ι) : Prop where
  place : ∀ e, (s.req r).place ≠ .parked e
  leads : ∀ e, s.flying e = true → ¬ Leads T (key r) (s.req r) e

variable {s s' : St ι} {r : ι}

omit [DecidableEq ι] in
theorem Inv.init : Inv T key (St.init : St ι) where
  fine _ := ⟨rfl, rfl⟩
  waits e w := by simp [St.init]
  nodup _ := .nil
  flown e h := absurd rfl h
  led _ e h := by simp [St.init] at h

theorem setReq_self (x : ReqSt) : (s.setReq r x).req r = x := update_self ..

theorem setReq_ne {w : ι} (hw : w ≠ r) (x : ReqSt) : (s.setReq r x).req w = s.req w :=
  update_of_ne hw ..

theorem Inv.setReq (h : Inv T key s) (hr : ∀ e, (s.req r).place ≠ .parked e)
    (hx : ∀ e, x.place ≠ .parked e) (hf : Fine T (key r) x)
    (hl : T.hwRead = false → ∀ e, s.flying e = true → Leads T (key r) (s.req r) e →
      Leads T (key r) x e) :
    Inv T key (s.setReq r x) where
  fine w := by
    by_cases hw : w = r
    · rw [hw, setReq_self]; exact hf
    · rw [setReq_ne hw]; exact h.fine w
  waits e w := by
    by_cases hw : w = r
    · rw [hw, setReq_self]
      exact (h.waits e r).trans ⟨fun hp => absurd hp (hr e), fun hp => absurd hp (hx e)⟩
    · rw [setReq_ne hw]; exact h.waits e w
  nodup := h.nodup
  flown := h.flown
  led hw e he := by
    obtain ⟨l, hle⟩ := h.led hw e he
    by_cases hlr : l = r
    · refine ⟨r, ?_⟩
      rw [setReq_self]
      exact hl hw e he (hlr ▸ hle)
    · exact ⟨l, by rw [setReq_ne hlr]; exact hle⟩

theorem Inv.setReq_free (h : Inv T key s) (hr : Free T key s r) (hx : ∀ e, x.place ≠ .parked e)
    (hf : Fine T (key r) x) : Inv T key (s.setReq r x) :=
  h.setReq hr.place hx hf fun _ e he hle => absurd hle (hr.leads e he)

theorem Inv.park (h : Inv T key s) (hr : Free T key s r) (he : s.flying e = true)
    (hx : x.place = .parked e) (hf : Fine T (key r) x) :
    Inv T key { s.setReq r x with
      waitreq := update s.waitreq e (s.waitreq e ++ [r]) } where
  fine w := by
    by_cases hw : w = r
    · rw [hw]; change Fine T (key r) ((s.setReq r x).req r); rw [setReq_self]; exact hf
    · change Fine T (key w) ((s.setReq r x).req w); rw [setReq_ne hw]; exact h.fine w
  waits e' w := by
    change w ∈ update s.waitreq e _ e' ↔ ((s.setReq r x).req w).place = _
    have hmem : w ∈ update s.waitreq e (s.waitreq e ++ [r]) e' ↔
        w ∈ s.waitreq e' ∨ (e' = e ∧ w = r) := by
      by_cases he' : e' = e
      · subst he'; simp
      · simp [he']
    rw [hmem, h.waits]
    by_cases hw : w = r
    · rw [hw, setReq_self, hx]
      have hno := hr.place e'
      simp [hno, eq_comm]
    · rw [setReq_ne hw]
      simp [hw]
  nodup e' := by
    change (update s.waitreq e _ e').Nodup
    by_cases he' : e' = e
    · have hnot : r ∉ s.waitreq e := fun hm => hr.place e ((h.waits e r).mp hm)
      subst he'
      rw [update_self]
      exact (h.nodup e').append (nodup_singleton r) (by simpa using hnot)
    · rw [update_of_ne he']; exact h.nodup e'
  flown e' hne := by
    by_cases he' : e' = e
    · rw [he']; exact he
    · refine h.flown e' ?_
      simpa [update_of_ne he'] using hne
  led hw e' hf' := by
    obtain ⟨l, hle⟩ := h.led hw e' hf'
    have hlr : l ≠ r := fun hlr => hr.leads e' hf' (hlr ▸ hle)
    exact ⟨l, by change Leads T _ ((s.setReq r x).req l) _; rw [setReq_ne hlr]; exact hle⟩

theorem Inv.lead (h : Inv T key s) (hr : Free T key s r) (hx : x.place = .headerRead e)
    (hf : Fine T (key r) x) :
    Inv T key { s.setReq r x with flying := update s.flying e true } := by
  have hset := h.setReq_free hr (x := x) (by rw [hx]; exact fun _ => Place.noConfusion) hf
  refine ⟨hset.fine, hset.waits, hset.nodup, fun e' hne => ?_, fun hw e' he' => ?_⟩
  · by_cases hee : e' = e
    · rw [hee]; exact update_self ..
    · exact (update_of_ne hee ..).trans (h.flown e' hne)
  · by_cases hee : e' = e
    · refine ⟨r, .inl ?_⟩
      change ((s.setReq r x).req r).place = _
      rw [setReq_self, hx, hee]
    · exact hset.led hw e' ((update_of_ne hee ..).symm.trans he')

/-! ## The reader of a run is back -/

theorem wakeAll_flying (hit : ι → Bool) (ws : List ι) :
    (wakeAll T key e hit ws s).flying = s.flying := by
  induction ws generalizing s with
  | nil => rfl
  | cons w ws ih => exact ih

theorem wakeAll_waitreq (hit : ι → Bool) (ws : List ι) :
    (wakeAll T key e hit ws s).waitreq = s.waitreq := by
  induction ws generalizing s with
  | nil => rfl
  | cons w ws ih => exact ih

theorem wakeAll_req (hit : ι → Bool) {ws : List ι} (hn : ws.Nodup) (w : ι) :
    (wakeAll T key e hit ws s).req w =
      if w ∈ ws then (s.req w).wake (lookup (T.page e) (key w)) (hit w) else s.req w := by
  induction ws generalizing s with
  | nil => rfl
  | cons v ws ih =>
    obtain ⟨hv, hn⟩ := nodup_cons.mp hn
    change (wakeAll T key e hit ws (s.setReq v _)).req w = _
    rw [ih hn]
    by_cases hw : w = v
    · subst hw
      simp [hv, setReq_self]
    · simp [hw, setReq_ne hw]

theorem release_req (h : Inv T key s) (hit : ι → Bool) (w : ι) :
    (release T key s e hit).req w =
      if (s.req w).place = .parked e then (s.req w).wake (lookup (T.page e) (key w)) (hit w)
      else s.req w := by
  refine (wakeAll_req hit (h.nodup e) w).trans ?_
  simp only [h.waits]

theorem release_flying (hit : ι → Bool) :
    (release T key s e hit).flying = update s.flying e false := by
  simp only [release, wakeAll_flying]

theorem release_waitreq (hit : ι → Bool) :
    (release T key s e hit).waitreq = update s.waitreq e [] := by
  simp only [release, wakeAll_waitreq]

theorem wake_place (found : Option Nat) (hit : Bool) (e : Nat × Nat) :
    (x.wake found hit).place ≠ .parked e := by
  unfold ReqSt.wake
  cases found <;> cases hit <;> simp [ReqSt.finish]

omit [DecidableEq ι] in
theorem Inv.parked (h : Inv T key s) {w : ι} (hw : (s.req w).place = .parked e) :
    T.hwRead = false ∧ AtRun T (key w) (s.req w) e ∧ ∀ p ∈ lookup (T.page e) (key w), p < npc := by
  have hf := h.fine w
  rw [Fine, hw] at hf
  exact hf

theorem Inv.release (h : Inv T key s) (e : Nat × Nat) (hit : ι → Bool) :
    Inv T key (release T key s e hit) where
  fine w := by
    rw [release_req h]
    split
    · rename_i hw
      obtain ⟨-, hat, hp⟩ := h.parked hw
      exact .wake hat hp _
    · exact h.fine w
  waits e' w := by
    rw [release_req h, release_waitreq]
    by_cases he : e' = e
    · subst he
      rw [update_self]
      split
      · exact ⟨nofun, fun hp => absurd hp (wake_place _ _ _)⟩
      · rename_i hw
        exact ⟨nofun, fun hp => absurd hp hw⟩
    · rw [update_of_ne he, h.waits]
      split
      · rename_i hw
        refine ⟨fun hp => ?_, fun hp => absurd hp (wake_place _ _ _)⟩
        rw [hw] at hp
        exact absurd (Place.parked.inj hp).symm he
      · rfl
  nodup e' := by
    rw [release_waitreq]
    by_cases he : e' = e
    · rw [he, update_self]; exact .nil
    · rw [update_of_ne he]; exact h.nodup e'
  flown e' hne := by
    rw [release_waitreq] at hne
    rw [release_flying]
    by_cases he : e' = e
    · rw [he, update_self] at hne; exact absurd rfl hne
    · rw [update_of_ne he] at hne ⊢; exact h.flown e' hne
  led hw e' he' := by
    rw [release_flying] at he'
    by_cases he : e' = e
    · rw [he, update_self] at he'; cases he'
    · rw [update_of_ne he] at he'
      obtain ⟨l, hl⟩ := h.led hw e' he'
      refine ⟨l, ?_⟩
      rw [release_req h, if_neg]
      · exact hl
      · intro hp
        rcases hl with hl | ⟨hl, -⟩ <;> rw [hp] at hl <;> cases hl

/-! ## One call -/

/-- How many steps a request still takes at most. -/
def weight (N : Nat) (x : ReqSt) : Nat :=
  match x.place with
  | .idle => 0
  | .headerRead e => 3 * (N - e.1) + 2
  | .queued => 3 * (N - x.level) + if x.bypass = 0 then 1 else 0
  | .parked e => 3 * (N - e.1) + 1
  | .dataRead _ => 1
  | .ended => 0

theorem weight_queued {N : Nat} (h : x.place = .queued) :
    weight N x = 3 * (N - x.level) + if x.bypass = 0 then 1 else 0 := by
  simp only [weight, h]

/-- A call for `r` changes no other request, and leaves `r` with at most `b` steps. -/
structure Advanced (T : Tree) (key : ι → Key) (s s' : St ι) (r : ι) (b : Nat) : Prop where
  inv : Inv T key s'
  others : ∀ w, w ≠ r → s'.req w = s.req w
  left : weight T.cfg.levelN (s'.req r) ≤ b
  place : (s'.req r).place ≠ .idle

theorem Inv.advance (h : Inv T key s) (hr : Free T key s r) (hx : ∀ e, x.place ≠ .parked e)
    (hf : Fine T (key r) x) {b : Nat} (hb : weight T.cfg.levelN x ≤ b)
    (hi : x.place ≠ .idle) : Advanced T key s (s.setReq r x) r b where
  inv := h.setReq_free hr hx hf
  others _ hw := setReq_ne hw x
  left := by rw [setReq_self]; exact hb
  place := by rw [setReq_self]; exact hi

theorem Inv.advance_finish (h : Inv T key s) (hr : Free T key s r) (hx : x.outcomes = [])
    {o : Outcome} (he : T.expected (key r) = o) (b : Nat) :
    Advanced T key s (s.setReq r (x.finish o)) r b :=
  h.advance hr (fun _ => Place.noConfusion) (.finish hx he) (Nat.zero_le b) Place.noConfusion

theorem Inv.advance_read (h : Inv T key s) (hr : Free T key s r) (hx : x.outcomes = [])
    {q : Nat} (he : T.expected (key r) = .page q) {b : Nat} (hb : 1 ≤ b) :
    Advanced T key s (s.setReq r { x with place := .dataRead q }) r b :=
  h.advance hr (fun _ => Place.noConfusion) (.dataRead hx he) hb Place.noConfusion

theorem Inv.advance_serve (h : Inv T key s) (hr : Free T key s r) (hx : x.outcomes = [])
    {p : Nat} (he : T.expected (key r) = .ofPpa p) (hit : Bool) {b : Nat} (hb : 1 ≤ b) :
    Advanced T key s (s.setReq r (x.serve p hit)) r b := by
  unfold ReqSt.serve
  split
  · rename_i hp
    exact h.advance_finish hr hx (he.trans (if_pos hp)) b
  · rename_i hp
    rw [ofPpa_page hp] at he
    split
    · exact h.advance_finish hr hx he b
    · exact h.advance_read hr hx he hb

theorem search_spec (h : Inv T key s) (hr : Free T key s r) {level run : Nat}
    {cached : Nat × Nat → Bool} (hx : (s.req r).outcomes = []) (hb : (s.req r).bypass ≤ 1)
    (hm : T.memory (key r) = none) (hl : startLevel level run ≤ T.cfg.levelN)
    (hc : T.Clear (key r) (startLevel level run)) (hok : SearchOk T key s r level run cached)
    (hit : Bool) :
    Advanced T key s (search T key s r level run cached hit) r
      (3 * (T.cfg.levelN - startLevel level run) + 2) := by
  have hs := lsmFindRun_sought hok.1 hl hc
  have hmeets := hok.2
  have hx' : (s.req r).clearBypass.outcomes = [] := hx
  unfold search
  cases hfind : lsmFindRun T.cfg T.disk (key r) level run with
  | notFound =>
    rw [hfind] at hs
    exact h.advance_finish hr hx' (expected_notFound hm hs) _
  | caching l p =>
    rw [hfind] at hs hmeets
    obtain ⟨hlt, hcl, hat⟩ := hs
    have he := (expected_of_at hm hlt hcl hat).trans (ofPpa_page hmeets)
    exact h.advance_read hr hx' he (Nat.le_add_left 1 _)
  | found l n =>
    rw [hfind] at hs hmeets
    obtain ⟨hle, hlt, hcl, hrun⟩ := hs
    have hbyp : (s.req r).clearBypass.bypass = 0 := by
      simp only [ReqSt.clearBypass]
      split <;> omega
    have hat (pl : Place) : AtRun T (key r)
        { (s.req r).clearBypass with level := l, run := 0, place := pl } (l, n) :=
      ⟨⟨hx', hm, hlt, rfl⟩, hbyp, rfl, hrun, hcl⟩
    dsimp only
    split
    · -- the page is in the cache and has the key
      rename_i p hp
      have hp : lookup (T.page (l, n)) (key r) = some p := by
        split at hp
        · exact hp
        · cases hp
      refine h.advance_serve hr ?_ ((hat .idle).expected hp) hit (Nat.le_add_left 1 _)
      exact hx'
    · rename_i hnone
      -- the condition holds of the key if the page has it
      have hcond : ∀ p ∈ lookup (T.page (l, n)) (key r),
          if T.hwRead then p ≠ tombstone else s.flying (l, n) = true → p < npc := by
        intro p hp
        refine hmeets ?_ p hp
        by_contra hcached
        rw [Bool.not_eq_false] at hcached
        rw [if_pos hcached, hp] at hnone
        cases hnone
      split
      · rename_i hpark
        refine ⟨h.park hr hpark.2 rfl ⟨hpark.1, hat _, fun p hp => ?_⟩,
          fun w hw => setReq_ne hw _, ?_, ?_⟩
        · have := hcond p hp
          rw [hpark.1] at this
          exact this hpark.2
        · change weight _ ((s.setReq r _).req r) ≤ _
          rw [setReq_self]
          simp only [weight]
          omega
        · change ((s.setReq r _).req r).place ≠ _
          rw [setReq_self]
          exact nofun
      · refine ⟨h.lead hr rfl ⟨hat _, fun hw p hp => ?_⟩, fun w hw => setReq_ne hw _, ?_, ?_⟩
        · have := hcond p hp
          rw [if_pos hw] at this
          exact this
        · change weight _ ((s.setReq r _).req r) ≤ _
          rw [setReq_self]
          simp only [weight]
          omega
        · change ((s.setReq r _).req r).place ≠ _
          rw [setReq_self]
          exact nofun

theorem search_next (h : Inv T key s) (hr : Free T key s r) {level run : Nat}
    {cached : Nat × Nat → Bool} (hx : (s.req r).outcomes = []) (hb : (s.req r).bypass ≤ 1)
    (hm : T.memory (key r) = none) (hl : level < T.cfg.levelN)
    (hc : T.Clear (key r) (level + 1)) (hok : SearchOk T key s r level (run + 1) cached)
    (hit : Bool) :
    Advanced T key s (search T key s r level (run + 1) cached hit) r
      (3 * (T.cfg.levelN - (level + 1)) + 2) := by
  rw [← startLevel_succ level run] at hc ⊢
  exact search_spec h hr hx hb hm ((startLevel_succ level run).symm ▸ hl) hc hok hit

theorem SearchOk.release {level run : Nat} {cached : Nat × Nat → Bool}
    (h : SearchOk T key s r level (run + 1) cached) (hl : level < T.cfg.levelN)
    (hc : T.Clear (key r) (level + 1)) (n : Nat) (hit : ι → Bool) :
    SearchOk T key (release T key s (level, n) hit) r level (run + 1) cached := by
  obtain ⟨hpass, hm⟩ := h
  have hs : Sought T (key r) (level + 1) (lsmFindRun T.cfg T.disk (key r) level (run + 1)) := by
    rw [← startLevel_succ level run] at hc ⊢
    exact lsmFindRun_sought hpass ((startLevel_succ level run).symm ▸ hl) hc
  refine ⟨hpass, ?_⟩
  cases hfind : lsmFindRun T.cfg T.disk (key r) level (run + 1) with
  | notFound => trivial
  | caching l p =>
    rw [hfind] at hm
    exact hm
  | found l m =>
    rw [hfind] at hm hs
    have hne : (l, m) ≠ (level, n) := by
      intro heq
      have hle := hs.1
      rw [(Prod.mk.inj heq).1] at hle
      exact Nat.not_succ_le_self level hle
    simpa only [Meets, release_flying, update_of_ne hne] using hm

omit [DecidableEq ι] in
theorem free_of_idle (hp : (s.req r).place = .idle) : Free T key s r where
  place e he := by rw [hp] at he; cases he
  leads e _ hl := by
    rcases hl with hl | ⟨hl, -⟩ <;> rw [hp] at hl <;> cases hl

theorem getFirst_spec (h : Inv T key s) (hp : (s.req r).place = .idle) {cached : Nat × Nat → Bool}
    (hok : T.memory (key r) = none → SearchOk T key s r 0 0 cached) (hit : Bool) :
    Advanced T key s (getFirst T key s r cached hit) r (3 * T.cfg.levelN + 2) := by
  have hfree : Free T key s r := free_of_idle hp
  have hf := h.fine r
  rw [Fine, hp] at hf
  obtain ⟨hx, hb⟩ := hf
  unfold getFirst
  split
  · rename_i hm
    refine h.advance_finish hfree hx ?_ _
    simp only [Tree.expected, Tree.memory, hm]
  · rename_i p hm
    refine h.advance_serve hfree hx ?_ hit (Nat.le_add_left 1 _)
    simp only [Tree.expected, Tree.memory, hm]
  · rename_i hm
    have hclear : T.Clear (key r) (startLevel 0 0) := fun j hj => absurd hj (Nat.not_lt_zero j)
    refine search_spec h hfree hx ?_ hm (Nat.zero_le _) hclear (hok hm) hit
    rw [hb]
    exact Nat.zero_le 1

/-- What a call for a queued request does: the others have no more steps left than before. -/
structure Moved (T : Tree) (key : ι → Key) (s s' : St ι) (r : ι) : Prop where
  inv : Inv T key s'
  others : ∀ w, weight T.cfg.levelN (s'.req w) ≤ weight T.cfg.levelN (s.req w)
  lt : weight T.cfg.levelN (s'.req r) < weight T.cfg.levelN (s.req r)
  idle : ∀ w, (s'.req w).place = .idle ↔ (s.req w).place = .idle

theorem Advanced.moved {b : Nat} (h : Advanced T key s s' r b)
    (hb : b < weight T.cfg.levelN (s.req r)) : Moved T key s s' r := by
  have hlt := lt_of_le_of_lt h.left hb
  have hplace : (s.req r).place ≠ .idle := by
    intro hp
    simp only [weight, hp] at hb
    exact absurd hb (Nat.not_lt_zero b)
  refine ⟨h.inv, fun w => ?_, hlt, fun w => ?_⟩
  · by_cases hw : w = r
    · rw [hw]; exact le_of_lt hlt
    · rw [h.others w hw]
  · by_cases hw : w = r
    · rw [hw]; exact ⟨fun hp => absurd hp h.place, fun hp => absurd hp hplace⟩
    · rw [h.others w hw]

theorem wake_weight {N : Nat} (h : x.place = .parked e) (hl : x.level = e.1)
    (found : Option Nat) (hit : Bool) :
    weight N (x.wake found hit) ≤ weight N x ∧ (x.wake found hit).place ≠ .idle := by
  have hx : weight N x = 3 * (N - e.1) + 1 := by rw [weight, h]
  rw [hx]
  cases found with
  | none =>
    refine ⟨?_, nofun⟩
    simp only [ReqSt.wake, weight, hl]
    simp
  | some p =>
    cases hit
    · exact ⟨by simp [ReqSt.wake, weight], nofun⟩
    · exact ⟨Nat.zero_le _, nofun⟩

theorem Inv.release_weight (h : Inv T key s) (e : Nat × Nat) (hit : ι → Bool) (w : ι) :
    weight T.cfg.levelN ((PointGet.release T key s e hit).req w) ≤ weight T.cfg.levelN (s.req w) ∧
      (((PointGet.release T key s e hit).req w).place = .idle ↔ (s.req w).place = .idle) := by
  rw [release_req h]
  split
  · rename_i hw
    obtain ⟨-, hat, -⟩ := h.parked hw
    obtain ⟨h1, h2⟩ := wake_weight hw hat.level (lookup (T.page e) (key w)) (hit w)
    refine ⟨h1, fun hp => absurd hp h2, fun hp => ?_⟩
    rw [hw] at hp
    cases hp
  · exact ⟨le_rfl, Iff.rfl⟩

theorem Moved.of_release (h : Inv T key s) {hit : ι → Bool}
    (hm : Moved T key (release T key s e hit) s' r)
    (hr : (release T key s e hit).req r = s.req r) : Moved T key s s' r where
  inv := hm.inv
  others w := le_trans (hm.others w) (h.release_weight e hit w).1
  lt := by rw [← hr]; exact hm.lt
  idle w := (hm.idle w).trans (h.release_weight e hit w).2

theorem getAgain_spec (h : Inv T key s) (hp : (s.req r).place = .queued)
    {cached : Nat × Nat → Bool} {hit : ι → Bool}
    (hok : Served T key s (.retry r cached hit)) :
    ∃ s', getAgain T key s r cached hit = some s' ∧ Moved T key s s' r := by
  have hf := h.fine r
  rw [Fine, hp] at hf
  have hplace : ∀ e, (s.req r).place ≠ .parked e := by
    intro e he
    rw [hp] at he
    cases he
  -- who has been passed on does not read for others
  have hfree : (s.req r).bypass ≠ 0 → Free T key s r := by
    intro hb
    refine ⟨hplace, fun e _ hl => ?_⟩
    rcases hl with hl | ⟨-, hl, -⟩
    · rw [hp] at hl; cases hl
    · exact hb hl
  unfold getAgain
  cases hf with
  | known hb hw hs he =>
    have hfr := hfree (by omega)
    have hadv := h.advance_read hfr hs.outcomes he (le_refl 1)
    refine ⟨_, by simp [hb, hw], hadv.moved ?_⟩
    have := hs.level_lt
    rw [weight_queued hp]
    omega
  | passed hb hs hc =>
    have hfr := hfree (by omega)
    refine ⟨search T key s r (s.req r).level ((s.req r).run + 1) cached (hit r), by simp [hb], ?_⟩
    have hlt := hs.level_lt
    have hadv := search_next h hfr hs.outcomes (le_of_eq hb) hs.memory hlt hc
      (hok (by omega) (fun h0 => by omega)) (hit r)
    refine hadv.moved ?_
    rw [weight_queued hp]
    omega
  | read n hw hat =>
    have hb := hat.bypass
    have hlt := hat.level_lt
    have hrun : findRun (T.disk (s.req r).level) (key r) = some n := hat.run_of
    have hrel := h.release ((s.req r).level, n) hit
    have hself : (release T key s ((s.req r).level, n) hit).req r = s.req r := by
      rw [release_req h, if_neg (hplace _)]
    -- the run it has read is the only one it could read for others
    have hfr : Free T key (release T key s ((s.req r).level, n) hit) r := by
      refine ⟨by rw [hself]; exact hplace, fun e he hl => ?_⟩
      rw [hself] at hl
      rcases hl with hl | ⟨-, -, hl, hn⟩
      · rw [hp] at hl; cases hl
      · rw [← hl, hrun] at hn
        have hee : e = ((s.req r).level, n) := Prod.ext hl.symm (some.inj hn).symm
        rw [release_flying, hee, update_self] at he
        cases he
    have hwt : weight T.cfg.levelN ((release T key s ((s.req r).level, n) hit).req r) =
        3 * (T.cfg.levelN - (s.req r).level) + 1 := by
      rw [hself, weight_queued hp, if_pos hb]
    simp only [hb, ne_eq, not_true_eq_false, if_false, hrun, map_some]
    refine ⟨_, rfl, Moved.of_release h ?_ hself⟩
    split
    · rename_i p hl
      refine (hrel.advance_serve hfr ?_ (hat.expected hl) (hit r) (le_refl 1)).moved ?_
      · rw [hself]; exact hat.outcomes
      · rw [hwt]; omega
    · rename_i hl
      have hnone : T.at (s.req r).level (key r) = none := (at_of_findRun hrun).symm.trans hl
      have hclear := hat.clear_next hl
      have hok' := (hok (by omega) (fun _ => hnone)).release hlt hclear n hit
      refine (search_next hrel hfr ?_ ?_ hat.memory hlt hclear hok' (hit r)).moved ?_
      · rw [hself]; exact hat.outcomes
      · rw [hself, hb]; exact Nat.zero_le 1
      · rw [hwt]; omega

/-! ## The device -/

theorem headerDone_place (x : ReqSt) (e : Nat × Nat) (k : Key) :
    (x.headerDone T e k).place = .queued := by
  unfold ReqSt.headerDone
  split
  · split <;> rfl
  · rfl

theorem headerDone_level (x : ReqSt) (e : Nat × Nat) (k : Key) :
    (x.headerDone T e k).level = x.level := by
  unfold ReqSt.headerDone
  split
  · split <;> rfl
  · rfl

theorem headerDone_spec (h : Inv T key s) (hp : (s.req r).place = .headerRead e) :
    Moved T key s (s.setReq r ((s.req r).headerDone T e (key r))) r := by
  have hf := h.fine r
  rw [Fine, hp] at hf
  obtain ⟨hat, hne⟩ := hf
  have hplace := headerDone_place (T := T) (s.req r) e (key r)
  have hinv : Inv T key (s.setReq r ((s.req r).headerDone T e (key r))) := by
    refine h.setReq (by rw [hp]; exact fun _ => Place.noConfusion)
      (by rw [hplace]; exact fun _ => Place.noConfusion) (.headerDone hat hne) ?_
    intro hw e' _ hl
    rcases hl with hl | ⟨hl, -⟩
    · rw [hp] at hl
      cases hl
      rw [ReqSt.headerDone, if_neg (by simp [hw])]
      exact .inr ⟨rfl, hat.bypass, hat.level, hat.run_of⟩
    · rw [hp] at hl
      cases hl
  have hlt : weight T.cfg.levelN ((s.req r).headerDone T e (key r)) <
      weight T.cfg.levelN (s.req r) := by
    have hx : weight T.cfg.levelN (s.req r) = 3 * (T.cfg.levelN - e.1) + 2 := by
      simp only [weight, hp]
    rw [hx, weight_queued hplace, headerDone_level, hat.level]
    split <;> omega
  refine ⟨hinv, fun w => ?_, ?_, fun w => ?_⟩
  · by_cases hw : w = r
    · rw [hw, setReq_self]; exact le_of_lt hlt
    · rw [setReq_ne hw]
  · rw [setReq_self]; exact hlt
  · by_cases hw : w = r
    · rw [hw, setReq_self, hplace, hp]; simp
    · rw [setReq_ne hw]

theorem dataDone_spec (h : Inv T key s) {q : Nat} (hp : (s.req r).place = .dataRead q) :
    Moved T key s (s.setReq r ((s.req r).finish (.page q))) r := by
  have hf := h.fine r
  rw [Fine, hp] at hf
  have hfree : Free T key s r := by
    refine ⟨fun e he => ?_, fun e _ hl => ?_⟩
    · rw [hp] at he; cases he
    · rcases hl with hl | ⟨hl, -⟩ <;> rw [hp] at hl <;> cases hl
  refine (h.advance_finish hfree hf.1 hf.2 0).moved ?_
  simp only [weight, hp]
  exact one_pos

/-! ## Runs -/

/-- The request of a first call. -/
def Act.get? : Act ι → Option ι
  | .get r _ _ => some r
  | _ => none

/-- The requests of a run. -/
def gets (tr : List (Act ι)) : List ι := tr.filterMap Act.get?

theorem step_cases {a : Act ι} (h : Inv T key s) (hs : step T key s a = some s')
    (hok : Served T key s a) :
    (∃ r, a.get? = some r ∧ (s.req r).place = .idle ∧
      Advanced T key s s' r (3 * T.cfg.levelN + 2)) ∨
    (a.get? = none ∧ ∃ r, Moved T key s s' r) := by
  cases a with
  | get r cached hit =>
    simp only [step] at hs
    split at hs
    · rename_i hp
      cases hs
      exact .inl ⟨r, rfl, hp, getFirst_spec h hp hok hit⟩
    · cases hs
  | headerDone r =>
    simp only [step] at hs
    split at hs
    · rename_i e hp
      cases hs
      exact .inr ⟨rfl, r, headerDone_spec h hp⟩
    · cases hs
  | retry r cached hit =>
    simp only [step] at hs
    split at hs
    · rename_i hp
      obtain ⟨t, ht, hm⟩ := getAgain_spec h hp hok
      rw [ht] at hs
      cases hs
      exact .inr ⟨rfl, r, hm⟩
    · cases hs
  | dataDone r =>
    simp only [step] at hs
    split at hs
    · rename_i q hp
      cases hs
      exact .inr ⟨rfl, r, dataDone_spec h hp⟩
    · cases hs

/-- The steps taken, and those that the requests still take at most, are paid for by the
first calls. -/
structure Paid (T : Tree) (key : ι → Key) (tr : List (Act ι)) (s : St ι) : Prop where
  inv : Inv T key s
  issued : ∀ r, r ∈ gets tr ↔ (s.req r).place ≠ .idle
  steps : tr.length + ((gets tr).map fun r => weight T.cfg.levelN (s.req r)).sum ≤
    (3 * T.cfg.levelN + 3) * (gets tr).length

omit [DecidableEq ι] in
theorem Moved.not_idle (h : Moved T key s s' r) : (s.req r).place ≠ .idle := by
  intro hp
  have hlt := h.lt
  have h0 : weight T.cfg.levelN (s.req r) = 0 := by simp only [weight, hp]
  omega

omit [DecidableEq ι] in
theorem Paid.moved {tr : List (Act ι)} {a : Act ι} (h : Paid T key tr s) (ha : a.get? = none)
    (hm : Moved T key s s' r) : Paid T key (tr ++ [a]) s' := by
  have hg : gets (tr ++ [a]) = gets tr := by simp [gets, ha]
  refine ⟨hm.inv, fun w => ?_, ?_⟩
  · rw [hg, h.issued, ne_eq, ne_eq, hm.idle]
  · have hlt : ((gets tr).map fun r => weight T.cfg.levelN (s'.req r)).sum <
        ((gets tr).map fun r => weight T.cfg.levelN (s.req r)).sum :=
      sum_lt_sum _ _ (fun w _ => hm.others w) ⟨r, (h.issued r).mpr hm.not_idle, hm.lt⟩
    have := h.steps
    rw [hg, length_append, length_singleton]
    omega

theorem Paid.get {tr : List (Act ι)} {a : Act ι} (h : Paid T key tr s) (ha : a.get? = some r)
    (hp : (s.req r).place = .idle) (hm : Advanced T key s s' r (3 * T.cfg.levelN + 2)) :
    Paid T key (tr ++ [a]) s' := by
  have hg : gets (tr ++ [a]) = gets tr ++ [r] := by simp [gets, ha]
  have hne : ∀ w ∈ gets tr, w ≠ r := by
    intro w hw heq
    rw [h.issued, heq] at hw
    exact hw hp
  refine ⟨hm.inv, fun w => ?_, ?_⟩
  · rw [hg, mem_append, mem_singleton]
    by_cases hw : w = r
    · rw [hw]; exact ⟨fun _ => hm.place, fun _ => .inr rfl⟩
    · rw [hm.others w hw, h.issued]; simp [hw]
  · have hsum : (gets tr).map (fun r => weight T.cfg.levelN (s'.req r)) =
        (gets tr).map fun r => weight T.cfg.levelN (s.req r) :=
      map_congr_left fun w hw => by rw [hm.others w (hne w hw)]
    have hsteps := h.steps
    have hleft := hm.left
    rw [hg, map_append, sum_append, hsum, length_append, length_append, mul_add]
    simp only [map_cons, map_nil, sum_cons, sum_nil, length_singleton]
    omega

theorem paid_inductive :
    ((lookups T key).restrict (Served T key)).HistInductive (Paid T key) where
  init s hs := by
    cases hs
    exact ⟨.init, fun r => by simp [gets, St.init], by simp [gets]⟩
  step tr s a s' h hs := by
    rcases step_cases h.inv hs.1 hs.2 with ⟨r, ha, hp, hm⟩ | ⟨ha, r, hm⟩
    · exact h.get ha hp hm
    · exact h.moved ha hm

theorem Inv.progress (h : Inv T key s) (hi : (s.req r).place ≠ .idle)
    (hne : (s.req r).place ≠ .ended) : ∃ a s', a.get? = none ∧ step T key s a = some s' := by
  have hread : ∀ r e, (s.req r).place = .headerRead e →
      ∃ a s', a.get? = none ∧ step T key s a = some s' := by
    intro r e hp
    exact ⟨.headerDone r, _, rfl, by simp only [step, hp]; rfl⟩
  have hqueued : ∀ r, (s.req r).place = .queued →
      ∃ a s', a.get? = none ∧ step T key s a = some s' := by
    intro r hp
    have hf := h.fine r
    rw [Fine, hp] at hf
    obtain ⟨s', hs'⟩ : ∃ s', getAgain T key s r (fun _ => false) (fun _ => false) = some s' := by
      unfold getAgain
      dsimp only
      split
      · split <;> exact ⟨_, rfl⟩
      · cases hf with
        | read n hw hat =>
          have hrun : findRun (T.disk (s.req r).level) (key r) = some n := hat.run_of
          rw [hrun]
          exact ⟨_, rfl⟩
        | passed hb _ _ => omega
        | known hb _ _ _ => omega
    exact ⟨.retry r _ _, s', rfl, by rw [step, if_pos hp]; exact hs'⟩
  cases hp : (s.req r).place with
  | idle => exact absurd hp hi
  | headerRead e => exact hread r e hp
  | queued => exact hqueued r hp
  | parked e =>
    -- its run is being read
    obtain ⟨hw, -, -⟩ := h.parked hp
    have hmem : r ∈ s.waitreq e := (h.waits e r).mpr hp
    obtain ⟨l, hl⟩ := h.led hw e (h.flown e (ne_nil_of_mem hmem))
    rcases hl with hl | ⟨hl, -⟩
    · exact hread l e hl
    · exact hqueued l hl
  | dataRead q => exact ⟨.dataDone r, _, rfl, by simp only [step, hp]; rfl⟩
  | ended => exact absurd hp hne

theorem Fine.outcomes (h : Fine T k x) :
    x.outcomes = [] ∨ (x.place = .ended ∧ x.outcomes = [T.expected k]) := by
  rw [Fine] at h
  split at h
  · exact .inl h.1
  · exact .inl h.1.outcomes
  · cases h with
    | read n hw hat => exact .inl hat.outcomes
    | passed hb hs hc => exact .inl hs.outcomes
    | known hb hw hs he => exact .inl hs.outcomes
  · exact .inl h.2.1.outcomes
  · exact .inl h.1
  · rename_i hp
    exact .inr ⟨hp, h⟩

/-- Whatever the order in which reads are done and retries are made, a request ends at most
once, and then with the page of the first mapping of its key; the steps are bounded by the
number of requests, and when none is left every request has ended. -/
theorem point_get {tr : List (Act ι)} (h : ((lookups T key).restrict (Served T key)).Exec tr s) :
    (∀ r, (s.req r).outcomes = [] ∨ (s.req r).outcomes = [T.expected (key r)]) ∧
      tr.length ≤ (3 * T.cfg.levelN + 3) * (gets tr).length ∧
      ((∀ a s', (lookups T key).step s a s' → a.get? ≠ none) →
        ∀ r ∈ gets tr, (s.req r).outcomes = [T.expected (key r)]) := by
  have hpaid := h.history_inv paid_inductive
  refine ⟨fun r => ?_, le_trans (Nat.le_add_right _ _) hpaid.steps, fun hdone r hr => ?_⟩
  · exact (hpaid.inv.fine r).outcomes.imp id And.right
  · have hended : (s.req r).place = .ended := by
      by_contra hne
      obtain ⟨a, s', ha, hs'⟩ := hpaid.inv.progress ((hpaid.issued r).mp hr) hne
      exact hdone a s' hs' ha
    have hf := hpaid.inv.fine r
    rw [Fine, hended] at hf
    exact hf

end

/-! ## Two requests for one key -/

theorem single_ordered (p : Nat) : (⟨1, [[⟨p, [1]⟩]], none⟩ : Level Nat).Ordered :=
  ⟨by simp, by simp [Sorted]⟩

/-- One level with one key; a filter that accepts everything. -/
def oneKey (p : Nat) : Tree where
  hwRead := false
  cfg := ⟨1, 0, .non, fun _ _ => none⟩
  disk _ := ⟨1, [[⟨p, [1]⟩]], none⟩
  ordered _ := single_ordered p
  memtable _ := none
  temptable _ := none

/-- Both ask for the key, and the second is parked while the first reads the run. -/
def bothAsk : List (Act Bool) :=
  [.get false (fun _ => false) false, .get true (fun _ => false) false, .headerDone false,
    .retry false (fun _ => false) (fun _ => false), .dataDone true, .dataDone false]

/-- On the first page both read the page of the key. -/
theorem point_get_parked : ∃ s, ((lookups (oneKey 5) (fun _ : Bool => [1])).restrict
      (Served (oneKey 5) fun _ => [1])).Exec bothAsk s ∧
    (s.req true).outcomes = [.page 0] ∧
    ((s.req true).outcomes = [] ∨ (s.req true).outcomes = [(oneKey 5).expected [1]]) := by
  obtain ⟨s, hE, hd⟩ := LTS.Exec.check
    (T := (lookups (oneKey 5) (fun _ : Bool => [1])).restrict (Served (oneKey 5) fun _ => [1]))
    (some .init) (Served (oneKey 5) fun _ => [1]) bothAsk (fun s => (s.req true).outcomes = [.page 0])
    (fun s l s' hl hs => ⟨hs, hl⟩) (fun _ h => some.inj h.symm) (by decide +kernel)
  exact ⟨s, hE, hd, (point_get hE).1 true⟩

/-- The key is at address 40, on page 2; the parked request reads page 1. -/
theorem parked_wrong_page : ∃ s, (lookups (oneKey 40) (fun _ : Bool => [1])).Exec bothAsk s ∧
    (oneKey 40).expected [1] = .page 2 ∧ (s.req false).outcomes = [.page 2] ∧
    (s.req true).outcomes = [.page 1] := by
  exact LTS.Exec.check (some .init) (fun _ _ => True) bothAsk _ (fun _ _ _ _ hs => hs)
    (fun _ h => some.inj h.symm) (by decide +kernel)

end FlashDriver.Lsmtree.PointGet
