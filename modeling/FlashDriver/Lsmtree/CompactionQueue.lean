import FlashDriver.Core.LTS

/-!
# Handing tables to the compaction thread (`algorithm/Lsmtree/compaction_assistant.c`)

`compaction_check` queues a request for each table it cuts off the memtable and
then, with `WRITEWAIT`, locks `compaction_flush_wait`, held since
`compaction_init`. The thread of `compaction_main` executes the first request,
unlocks `compaction_flush_wait` if it is marked `last`, and only then takes it
out of the queue. On an empty queue it sleeps.

Assumptions of the results:
* one thread calls `compaction_check`, one call after the other, and one thread
  runs `compaction_main`;
* what is done under one lock is one step, and the execution of a request
  (`compaction_selector`, `compaction_cascading`) is one;
* `pthread_cond_wait` ends by a signal only. The code then takes what `q_pick`
  gives it, so `none` is also a request that is not there.

Results, over every interleaving of the two:
* `flush_handshake`: tables are compacted once and in order, and no call of
  `compaction_check` returns before its own are.
* `flush_returns`: neither thread waits for ever for the other.
-/
namespace FlashDriver.Lsmtree.CompactionQueue

open List
open FlashDriver.Core

variable {κ : Type}

/-- mirrors algorithm/Lsmtree/compaction.h (`compR`), with `fromL` -1 -/
structure CompR (κ : Type) where
  last : Bool
  temptable : κ

/-- Where `compaction_main` is. -/
inductive Worker (κ : Type)
  | top
  | asleep                            -- in pthread_cond_wait
  | woken
  | run (req : CompR κ)
  | done (req : CompR κ)              -- executed, `last` not looked at yet
  | dequeue (req : CompR κ)

structure St (κ : Type) where
  q : List (CompR κ)
  flushWait : Bool                    -- compaction_flush_wait is locked
  client : Option (List κ)            -- in compaction_check: the tables left to queue
  worker : Worker κ
  compacted : List κ                  -- ghost: in the order of their execution

/-- A call of `compaction_check` that cuts off these tables, or a step of a thread. -/
inductive Lbl (κ : Type)
  | check (t : κ) (ts : List κ)
  | client
  | worker

/-- `CQSIZE` -/
def cqsize : Nat := 128

/-- mirrors algorithm/Lsmtree/compaction_assistant.c:85-124 -/
def St.init : St κ := ⟨[], true, none, .top, []⟩

/-- `pthread_cond_signal(&compaction_req_cond)` -/
def Worker.signal : Worker κ → Worker κ
  | asleep => woken
  | w => w

/-- mirrors algorithm/Lsmtree/compaction_assistant.c:158-195: with the queue full it tries again -/
def compactionAssign (s : St κ) (t : κ) (ts : List κ) : St κ :=
  if s.q.length = cqsize then s
  else { s with
    q := s.q ++ [⟨ts.isEmpty, t⟩]
    worker := s.worker.signal
    client := some ts }

/-- mirrors algorithm/Lsmtree/compaction_assistant.c:411-433 -/
def clientStep (s : St κ) : Option (St κ) :=
  match s.client with
  | none => none
  | some (t :: ts) => some (compactionAssign s t ts)
  | some [] => if s.flushWait then none else some { s with flushWait := true, client := none }

/-- mirrors algorithm/Lsmtree/compaction_assistant.c:316-365 -/
def workerStep (s : St κ) : Option (St κ) :=
  match s.worker, s.q with
  | .asleep, _ | .woken, [] => none
  | .top, [] => some { s with worker := .asleep }
  | .top, r :: _ | .woken, r :: _ => some { s with worker := .run r }
  | .run r, _ => some { s with compacted := s.compacted ++ [r.temptable], worker := .done r }
  | .done r, _ => some { s with flushWait := s.flushWait && !r.last, worker := .dequeue r }
  | .dequeue _, q => some { s with q := q.tail, worker := .top }

def step (s : St κ) : Lbl κ → Option (St κ)
  | .check t ts => if s.client.isNone then some { s with client := some (t :: ts) } else none
  | .client => clientStep s
  | .worker => workerStep s

def threads (κ : Type) : LTS (St κ) (Lbl κ) where
  init s := s = .init
  step s l s' := step s l = some s'

/-! ## The invariant -/

/-- The tables that a label asks to compact. -/
def Lbl.tables : Lbl κ → List κ
  | check t ts => t :: ts
  | _ => []

/-- The requests that were not executed yet. -/
def toRun (q : List (CompR κ)) : Worker κ → List (CompR κ)
  | .done _ | .dequeue _ => q.tail
  | _ => q

/-- The requests whose mark was not looked at yet. -/
def toRelease (q : List (CompR κ)) : Worker κ → List (CompR κ)
  | .dequeue _ => q.tail
  | _ => q

/-- What `compaction_main` knows of the queue. -/
def Seen (q : List (CompR κ)) : Worker κ → Prop
  | .top => True
  | .asleep => q = []
  | .woken => q ≠ []
  | .run r | .done r | .dequeue r => q.head? = some r

/-- What the marks to come mean for the one who waits for the last of them. -/
def Gate (due : List (CompR κ)) (locked : Bool) : Option (List κ) → Prop
  | none => due = [] ∧ locked = true
  | some (_ :: _) => (∀ r ∈ due, r.last = false) ∧ locked = true
  | some [] => due = [] ∧ locked = false ∨
      locked = true ∧ ∃ rs r, due = rs ++ [r] ∧ r.last = true ∧ ∀ x ∈ rs, x.last = false

structure Inv (called : List κ) (s : St κ) : Prop where
  seen : Seen s.q s.worker
  books : called = s.compacted ++ (toRun s.q s.worker).map (·.temptable) ++ s.client.getD []
  gate : Gate (toRelease s.q s.worker) s.flushWait s.client

section
variable {called : List κ} {s s' : St κ}

theorem Seen.enqueue {q : List (CompR κ)} {w : Worker κ} (h : Seen q w) (r : CompR κ) :
    Seen (q ++ [r]) w.signal ∧ toRun (q ++ [r]) w.signal = toRun q w ++ [r] ∧
      toRelease (q ++ [r]) w.signal = toRelease q w ++ [r] := by
  cases w <;> cases q <;> simp_all [Seen, Worker.signal, toRun, toRelease]

theorem Gate.release {r : CompR κ} {due : List (CompR κ)} {locked : Bool} {c : Option (List κ)}
    (h : Gate (r :: due) locked c) : Gate due (locked && !r.last) c := by
  match c, h with
  | none, h => cases h.1
  | some (_ :: _), ⟨hdue, hl⟩ =>
    exact ⟨fun x hx => hdue x (.tail _ hx), by simp [hl, hdue r mem_cons_self]⟩
  | some [], .inr ⟨hl, [], x, he, hx, _⟩ =>
    cases he
    exact .inl ⟨rfl, by simp [hx]⟩
  | some [], .inr ⟨hl, _ :: rs, x, he, hx, hrs⟩ =>
    cases he
    exact .inr ⟨by simp [hl, hrs r mem_cons_self], rs, x, rfl, hx, fun y hy => hrs y (.tail _ hy)⟩

theorem client_inv (I : Inv called s) (h : clientStep s = some s') : Inv called s' := by
  obtain ⟨q, locked, client, worker, compacted⟩ := s
  obtain ⟨hseen, hbooks, hgate⟩ := I
  match client with
  | none => cases h
  | some (t :: ts) =>
    cases h
    unfold compactionAssign
    split
    · exact ⟨hseen, hbooks, hgate⟩
    obtain ⟨hseen', hrun, hrel⟩ := hseen.enqueue ⟨ts.isEmpty, t⟩
    refine ⟨hseen', by simpa [hrun] using hbooks, ?_⟩
    simp only [hrel]
    cases ts with
    | nil => exact .inr ⟨hgate.2, _, _, rfl, rfl, hgate.1⟩
    | cons t' ts => exact ⟨by simpa [or_imp, forall_and] using hgate.1, hgate.2⟩
  | some [] =>
    cases locked <;> cases h
    rcases hgate with ⟨hdue, -⟩ | ⟨hlocked, -⟩
    · exact ⟨hseen, hbooks, hdue, rfl⟩
    · cases hlocked

theorem worker_inv (I : Inv called s) (h : workerStep s = some s') : Inv called s' := by
  obtain ⟨q, locked, client, worker, compacted⟩ := s
  obtain ⟨hseen, hbooks, hgate⟩ := I
  cases worker with
  | asleep => cases h
  | top => cases q <;> cases h <;> exact ⟨rfl, hbooks, hgate⟩
  | woken => cases q <;> cases h; exact ⟨rfl, hbooks, hgate⟩
  | run r =>
    obtain ⟨q, rfl⟩ := head?_eq_some_iff.mp hseen
    cases h
    exact ⟨rfl, by simpa [toRun] using hbooks, hgate⟩
  | done r =>
    obtain ⟨q, rfl⟩ := head?_eq_some_iff.mp hseen
    cases h
    exact ⟨rfl, hbooks, hgate.release⟩
  | dequeue r =>
    obtain ⟨q, rfl⟩ := head?_eq_some_iff.mp hseen
    cases h
    exact ⟨trivial, hbooks, hgate⟩

theorem exec_inv {tr : List (Lbl κ)} (h : (threads κ).Exec tr s) : Inv (tr.flatMap Lbl.tables) s := by
  refine h.history_inv (I := fun tr s => Inv (tr.flatMap Lbl.tables) s) ⟨?_, ?_⟩
  · rintro s rfl
    exact ⟨trivial, rfl, rfl, rfl⟩
  · intro tr s l s' I hs
    rw [flatMap_append, flatMap_singleton]
    cases l with
    | client => simpa [Lbl.tables] using client_inv I hs
    | worker => simpa [Lbl.tables] using worker_inv I hs
    | check t ts =>
      obtain ⟨q, locked, client, worker, compacted⟩ := s
      cases client <;> cases hs
      obtain ⟨hdue, hlocked⟩ := I.gate
      exact ⟨I.seen, by simp [I.books, Lbl.tables], by simp [hdue], hlocked⟩

/-- In any interleaving of the two threads the tables are compacted in the order of the calls, each
once, and outside of `compaction_check` all of them have been. -/
theorem flush_handshake {tr : List (Lbl κ)} (h : (threads κ).Exec tr s) :
    s.compacted <+: tr.flatMap Lbl.tables ∧ (s.client = none → s.compacted = tr.flatMap Lbl.tables) := by
  have I := exec_inv h
  obtain ⟨q, locked, client, worker, compacted⟩ := s
  refine ⟨⟨_, by rw [I.books, append_assoc]⟩, ?_⟩
  rintro rfl
  -- no mark is to come, so the queue holds at most the request being taken out
  have hdue : toRelease q worker = [] := I.gate.1
  have hrun : toRun q worker = [] := by
    cases worker <;> simp_all [toRun, toRelease]
  simpa [hrun] using I.books.symm

/-- A call that cuts off two tables; the worker has run both when `compaction_check` gets the lock
that only the second of them is marked to release. -/
def twoTables : List (Lbl Nat) := [.check 7 [8], .client, .worker, .client] ++ replicate 7 .worker

theorem exec_run {tr : List (Lbl Nat)} {s : St Nat}
    (h : LTS.run step (fun _ _ => true) tr .init = some s) : (threads Nat).Exec tr s :=
  .run (fun _ _ _ _ h => h) (.init rfl) h

theorem flush_handshake_two :
    (∃ s : St Nat, (threads Nat).Exec (twoTables.take 7) s ∧ s.compacted = [7] ∧ s.flushWait) ∧
    ∃ s : St Nat, (threads Nat).Exec (twoTables ++ [.client]) s ∧ s.compacted = [7, 8] := by
  have h : (threads Nat).Exec (twoTables ++ [.client]) _ := exec_run rfl
  exact ⟨⟨_, exec_run rfl, rfl, rfl⟩, _, h, (flush_handshake h).2 rfl⟩

/-! ## Progress -/

/-- Bounds the steps that are left until both threads have nothing to do. -/
def rank (s : St κ) : Nat :=
  5 * s.q.length + (s.client.elim 0 fun ts => 10 * ts.length + 1) + match s.worker with
    | .asleep => 0
    | .top | .woken => 4
    | .run _ => 3
    | .done _ => 2
    | .dequeue _ => 1

theorem client_rank (h : clientStep s = some s') :
    s' = s ∧ s.q.length = cqsize ∨ rank s' < rank s := by
  obtain ⟨q, locked, client, worker, compacted⟩ := s
  match client with
  | none => cases h
  | some (t :: ts) =>
    cases h
    unfold compactionAssign
    split
    · exact .inl ⟨rfl, ‹_›⟩
    · cases worker <;> simp [rank, Worker.signal] <;> omega
  | some [] =>
    cases locked <;> cases h
    exact .inr (by simp [rank])

theorem worker_rank (hs : Seen s.q s.worker) (h : workerStep s = some s') : rank s' < rank s := by
  obtain ⟨q, locked, client, worker, compacted⟩ := s
  cases worker <;> cases q <;> cases h <;> (simp_all [Seen, rank]; try omega)

/-- `compaction_main` is stopped by an empty queue only; no step of a thread but the retry with a
full queue can be repeated for ever; until `compaction_check` returns, another one is possible. -/
theorem flush_returns {tr : List (Lbl κ)} (h : (threads κ).Exec tr s) :
    (s.worker = .asleep ∧ s.q = [] ∨ ∃ s', workerStep s = some s') ∧
    (∀ l s', step s l = some s' → l.tables = [] → s' = s ∧ s.q.length = cqsize ∨ rank s' < rank s) ∧
    (s.client ≠ none → ∃ l s', step s l = some s' ∧ rank s' < rank s) := by
  obtain ⟨hseen, -, hgate⟩ := exec_inv h
  have hready : s.worker = .asleep ∧ s.q = [] ∨ ∃ s', workerStep s = some s' := by
    obtain ⟨q, locked, client, worker, compacted⟩ := s
    cases worker <;> cases q <;> simp_all [Seen, workerStep]
  refine ⟨hready, fun l s' hs hl => ?_, fun hc => ?_⟩
  · cases l with
    | check t ts => cases hl
    | client => exact client_rank hs
    | worker => exact .inr (worker_rank hseen hs)
  · by_cases hq : s.q = []
    -- the queue has room and no mark is to come
    · have hstep : ∃ s', clientStep s = some s' := by
        obtain ⟨q, locked, client, worker, compacted⟩ := s
        cases hq
        match client with
        | none => exact absurd rfl hc
        | some (t :: ts) => exact ⟨_, rfl⟩
        | some [] =>
          rcases hgate with ⟨-, rfl⟩ | ⟨-, rs, r, hr, -⟩
          · exact ⟨_, rfl⟩
          · cases worker <;> simp [toRelease] at hr
      obtain ⟨s', hs'⟩ := hstep
      refine ⟨.client, s', hs', (client_rank hs').resolve_left fun hf => ?_⟩
      simp [hq, cqsize] at hf
    · obtain ⟨s', hs'⟩ := hready.resolve_left fun hs => hq hs.2
      exact ⟨.worker, s', hs', worker_rank hseen hs'⟩

/-- With the first of two tables compacted its mark lets nobody in, so it is the worker who is to
go on. -/
theorem flush_returns_two : ∃ s s' : St Nat, ∃ l, (threads Nat).Exec (twoTables.take 7) s ∧
    clientStep s = none ∧ step s l = some s' ∧ rank s' < rank s := by
  have h : (threads Nat).Exec (twoTables.take 7) _ := exec_run rfl
  obtain ⟨l, s', hs⟩ := (flush_returns h).2.2 (Option.some_ne_none [])
  exact ⟨_, s', l, h, rfl, hs⟩

end

end FlashDriver.Lsmtree.CompactionQueue
