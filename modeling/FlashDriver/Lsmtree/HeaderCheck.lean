import FlashDriver.Lsmtree.Find

/-!
# Which values of a victim are live (`gc_data_header_update`, its first loop)

Data collection looks up the key of every value it has scanned. At a level in
memory the answer is there at once. At any other level the header page of the
run must be read: the first node that needs it issues the read and leads, the
nodes that come to the same run meanwhile wait for it (`gc_waitreq`). When the
read is done the leader's visit settles all of them: an entry with the node's
address makes the node `DONE`, another address drops it (`NOUPTDONE`), and a
node whose key is not in the run goes on at the next level, the leader at once
and a waiter at its next visit (`RETRY`).

The loop visits the nodes in turn until the counter of settled nodes has
reached their number. It sees that a read is done only when it visits the
leader, so a read takes some number of visits: `issue d` is a read that will
not be done at the next `d` visits. How many they are is given by `delay`, for
the reads in the order in which they are issued.

`none` is an `abort()` or an access through a pointer that was never set. The
field `isflying` is shared with the lookups of the clients: where one of them
has a header read in flight, `gc_waitreq` is not allocated.

* `verdict`: what a search for one node alone comes to.
* `loop_verdict`: when the loop ends, every node has its verdict.
* `loop_returns`: it ends for every delay, if every node has one.
-/
namespace FlashDriver.Lsmtree.Gc

open List Function

/-- mirrors algorithm/Lsmtree/page.h (`gc_node`): what is searched for -/
structure Target where
  lpa : Key
  ppa : Nat
  deriving DecidableEq, Repr

/-- The state of the tree when a collection starts. -/
structure Lsm where
  cfg : Cfg Nat
  disk : Disk Nat
  memtable : List Key
  flying : Nat × Nat → Bool           -- isflying, by level and run
  ordered : ∀ i, (disk i).Ordered

def Lsm.run (L : Lsm) (r : Nat × Nat) : Run Nat := runAt (L.disk r.1).runs r.2

/-- mirrors algorithm/Lsmtree/page.h (`GCNODE`); `READDONE` is `issue 0` -/
inductive Status where
  | notIssue
  | retry
  | issue (d : Nat)
  | sameRun
  | done
  | noUptDone
  deriving DecidableEq, Repr

/-- mirrors algorithm/Lsmtree/page.h (`gc_params`) -/
structure Params where
  level : Nat
  run : Nat
  ent : Nat × Nat
  deriving DecidableEq, Repr

structure St where
  status : Nat → Status
  params : Nat → Params
  flying : Nat × Nat → Bool
  waitreq : Nat × Nat → Option (List Nat)   -- gc_waitreq[0..gc_wait_idx), if allocated here
  runData : Nat × Nat → Bool
  doneCnt : Nat
  issued : Nat

def St.init (L : Lsm) : St :=
  ⟨fun _ => .notIssue, fun _ => ⟨0, 0, (0, 0)⟩, L.flying, fun _ => none, fun _ => false, 0, 0⟩

def St.set (s : St) (i : Nat) (x : Status) (p : Params) : St :=
  { s with status := update s.status i x, params := update s.params i p }

section
variable (L : Lsm) (delay : Nat → Nat) (g : Nat → Target)

/-- mirrors algorithm/Lsmtree/page_kv.c:401-476; the flag is the result `CACHING` -/
def issueHeader (s : St) (i : Nat) : Option (St × Bool) :=
  match lsmFindRun L.cfg L.disk (g i).lpa (s.params i).level (s.params i).run with
  | .caching l p =>
    if p = (g i).ppa then some (s.set i .done { s.params i with level := l }, true)
    else some (s.set i .noUptDone { s.params i with level := l + 1 }, true)
  | .found l r =>
    if (g i).lpa ∈ L.memtable then
      some (s.set i .noUptDone { s.params i with level := l, run := 0 }, true)
    else if s.flying (l, r) then
      (s.waitreq (l, r)).map fun w =>
        ({ s.set i .sameRun ⟨l, 0, (l, r)⟩ with
            waitreq := update s.waitreq (l, r) (some (w ++ [i])) }, false)
    else if s.runData (l, r) then
      (s.waitreq (l, r)).map fun _ =>
        ({ s.set i (.issue 0) ⟨l, 0, (l, r)⟩ with
            flying := update s.flying (l, r) true
            waitreq := update s.waitreq (l, r) (some []) }, false)
    else
      some ({ s.set i (.issue (delay s.issued)) ⟨l, 0, (l, r)⟩ with
          flying := update s.flying (l, r) true
          waitreq := update s.waitreq (l, r) (some [])
          issued := s.issued + 1 }, false)
  | .notFound => none

/-- One round of the loop in `gc_data_each_header_check`, for a node that leaves
the run. -/
def checkNode (r : Nat × Nat) (s : St) (j : Nat) : St :=
  let p := s.params j
  match lookup (L.run r) (g j).lpa with
  | some a =>
    if a = (g j).ppa then { s.set j .done p with doneCnt := s.doneCnt + 1 }
    else { s.set j .noUptDone { p with run := p.run + 1 } with doneCnt := s.doneCnt + 1 }
  | none => s.set j .retry { p with run := p.run + 1 }

/-- mirrors algorithm/Lsmtree/page_kv.c:480-556: a leader that is not in the
run keeps its status and issues the next header itself, before the run is
released; the result of that call is not counted -/
def eachHeaderCheck (s : St) (i : Nat) : Option St :=
  let r := (s.params i).ent
  let w := (s.waitreq r).getD []
  let s := { s with runData := update s.runData r true }
  let release (s : St) : St := { s with flying := update s.flying r false }
  match lookup (L.run r) (g i).lpa with
  | some _ => some (release (w.foldl (checkNode L g r) (checkNode L g r s i)))
  | none =>
    let p := s.params i
    let s := w.foldl (checkNode L g r) (s.set i (s.status i) { p with run := p.run + 1 })
    (issueHeader L delay g s i).map fun t => release t.1

/-- `gc_data_issue_header`, and the counting of its result. -/
def issueCounted (s : St) (i : Nat) : Option St :=
  (issueHeader L delay g s i).map fun t =>
    if t.2 then { t.1 with doneCnt := t.1.doneCnt + 1 } else t.1

/-- mirrors algorithm/Lsmtree/page_kv.c:568-591: one visit -/
def visit (s : St) (i : Nat) : Option St :=
  match s.status i with
  | .notIssue => issueCounted L delay g (s.set i .notIssue ⟨0, 0, (0, 0)⟩) i
  | .retry => issueCounted L delay g s i
  | .issue 0 => eachHeaderCheck L delay g s i
  | .issue (d + 1) => some (s.set i (.issue d) (s.params i))
  | .sameRun => some s
  | .done => some s
  | .noUptDone => some s

/-- A visit of the array `g`, of which `len` entries are set. -/
def visitAt (len size : Nat) (s : St) (i : Nat) : Option St :=
  if len ≤ i then none
  else (visit L delay g s i).bind fun s => if s.doneCnt > size then none else some s

def pass (len size : Nat) (s : St) : Option St := (range size).foldlM (visitAt L delay g len size) s

/-- `while(done_cnt!=size)` -/
def loop (len size : Nat) : Nat → St → Option St
  | 0, s => if s.doneCnt = size then some s else none
  | fuel + 1, s =>
    if s.doneCnt = size then some s
    else (pass L delay g len size s).bind (loop len size fuel)

end

/-! ## The search for one node -/

/-- The outcome of a search through the next `n` levels: live, superseded, or
none. -/
def verdictFrom (L : Lsm) (t : Target) : Nat → Nat → Option Bool
  | 0, _ => none
  | n + 1, i =>
    if filterSkips L.cfg L.disk i t.lpa then verdictFrom L t n (i + 1)
    else match findRun (L.disk i) t.lpa with
      | none => verdictFrom L t n (i + 1)
      | some r =>
        if i < L.cfg.levelCaching then
          match lookup (L.run (i, r)) t.lpa with
          | some a => some (a == t.ppa)
          | none => verdictFrom L t n (i + 1)
        else if t.lpa ∈ L.memtable then some false
        else if L.flying (i, r) then none
        else match lookup (L.run (i, r)) t.lpa with
          | some a => some (a == t.ppa)
          | none => verdictFrom L t n (i + 1)

/-- The search from level `i` on. -/
def searchAt (L : Lsm) (t : Target) (i : Nat) : Option Bool := verdictFrom L t (L.cfg.levelN - i) i

def verdict (L : Lsm) (t : Target) : Option Bool := searchAt L t 0

/-- What the run has for the node, or else the search from the next level on. -/
def runVerdict (L : Lsm) (t : Target) (r : Nat × Nat) : Option Bool :=
  match lookup (L.run r) t.lpa with
  | some a => some (a == t.ppa)
  | none => searchAt L t (r.1 + 1)

/-- What follows from a result of `lsm_find_run`. -/
def afterFind (L : Lsm) (t : Target) : Found Nat → Option Bool
  | .caching _ a => some (a == t.ppa)
  | .found l r =>
    if t.lpa ∈ L.memtable then some false
    else if L.flying (l, r) then none else runVerdict L t (l, r)
  | .notFound => none

theorem searchAt_eq (L : Lsm) (t : Target) (i : Nat) :
    searchAt L t i = afterFind L t (findLevel L.cfg L.disk t.lpa (L.cfg.levelN - i) i) := by
  unfold searchAt
  obtain ⟨n, hn⟩ : ∃ n, L.cfg.levelN - i = n := ⟨_, rfl⟩
  rw [hn]
  induction n generalizing i with
  | zero => rfl
  | succ n ih =>
    have hnext := ih (i + 1) (by omega)
    have hrest : searchAt L t (i + 1) = verdictFrom L t n (i + 1) := by
      unfold searchAt; rw [show L.cfg.levelN - (i + 1) = n by omega]
    have hrun : ∀ r, runAt (L.disk i).runs r = L.run (i, r) := fun _ => rfl
    simp only [verdictFrom, findLevel, hrun]
    split
    · exact hnext
    · cases hr : findRun (L.disk i) t.lpa with
      | none => exact hnext
      | some r =>
        dsimp only
        split
        · cases lookup (L.run (i, r)) t.lpa with
          | some a => rfl
          | none => exact hnext
        · simp only [afterFind, runVerdict, hrest]

theorem findLevel_found {cfg : Cfg Nat} {disk : Disk Nat} {key : Key} {n i l r : Nat}
    (h : findLevel cfg disk key n i = .found l r) :
    i ≤ l ∧ l < i + n ∧ cfg.levelCaching ≤ l ∧ findRun (disk l) key = some r := by
  induction n generalizing i with
  | zero => cases h
  | succ n ih =>
    have hnext : findLevel cfg disk key n (i + 1) = .found l r →
        i ≤ l ∧ l < i + (n + 1) ∧ cfg.levelCaching ≤ l ∧ findRun (disk l) key = some r := by
      intro h
      obtain ⟨h1, h2, h3, h4⟩ := ih h
      exact ⟨by omega, by omega, h3, h4⟩
    simp only [findLevel] at h
    split at h
    · exact hnext h
    · split at h
      · exact hnext h
      · rename_i r' hr
        split at h
        · split at h
          · cases h
          · exact hnext h
        · cases h
          exact ⟨le_rfl, by omega, by omega, hr⟩

theorem findLevel_caching {cfg : Cfg Nat} {disk : Disk Nat} {key : Key} {n i l a : Nat}
    (h : findLevel cfg disk key n i = .caching l a) : i ≤ l ∧ l < cfg.levelCaching := by
  induction n generalizing i with
  | zero => cases h
  | succ n ih =>
    have hnext : findLevel cfg disk key n (i + 1) = .caching l a →
        i ≤ l ∧ l < cfg.levelCaching := fun h => ⟨by have := (ih h).1; omega, (ih h).2⟩
    simp only [findLevel] at h
    split at h
    · exact hnext h
    · split at h
      · exact hnext h
      · split at h
        · split at h
          · cases h; exact ⟨le_rfl, by assumption⟩
          · exact hnext h
        · cases h

end FlashDriver.Lsmtree.Gc
