import FlashDriver.Core.LTS

/-!
# The request queues (`interface/interface.c`, built with `interface_pq`)

Clients call `assign_req`; one thread, `p_main`, repeatedly takes a request
with `get_next_request` and hands it to the algorithm. Writes wait in
`req_q` and are indexed by key in the red-black tree `qmanager`; every other
request waits in `req_rq`, which `get_next_request` prefers, and reads that
an algorithm has put back wait in `retry_q`, which it prefers over both.

Each operation on a queue or on the tree holds that structure's lock, so the
interleavings are those of these operations: a client and `p_main` are each
a program counter, and one step executes the operation it stands before. The
tree is a finite map. `cl_grap` and `cl_release` only put `p_main` to sleep
and are left out: it may look for a request at any time.

A SET counts as submitted when its key is first looked up in the tree, any
other request when it enters `req_rq`; both happen inside the call.

`step` is `none` when the step is not possible, in particular where
`qmanager_delete` aborts.
-/
namespace FlashDriver.Interface

open List Function

variable {κ : Type} [DecidableEq κ]

/-- mirrors the request types of include/settings.h that `assign_req` and
`p_main` tell apart; `other` are the remaining ones. -/
inductive Kind where
  | set (value : Nat)
  | delete
  | get
  | other
  deriving DecidableEq, Repr

structure Req (κ : Type) where
  id : Nat
  key : κ
  kind : Kind
  deriving DecidableEq, Repr

def Kind.isSet : Kind → Bool
  | .set _ => true
  | _ => false

/-- SET and DELETE. -/
def Kind.isMut : Kind → Bool
  | .set _ => true
  | .delete => true
  | _ => false

/-- Where a client stands in `assign_req`. -/
inductive CPc (κ : Type) where
  | idle
  | check (r : Req κ)       -- before the first qmanager_write_checking
  | recheck (r : Req κ)     -- before a repeated one, after q_enqueue failed
  | enqW (r : Req κ)        -- before q_enqueue(req,t->req_q)
  | rcheck (r : Req κ)      -- before qmanager_read_checking
  | enqR (r : Req κ)        -- before q_enqueue(req,t->req_rq)
  deriving DecidableEq

/-- Where `p_main` stands in `get_next_request` and its dispatch. -/
inductive MPc (κ : Type) where
  | idle
  | retryDeq
  | rqDeq
  | stopCheck
  | reqDeq
  | indexDel (r : Req κ)
  | dispatch (r : Req κ)
  deriving DecidableEq

/-- `QSIZE` and `QDEPTH`. -/
structure Cfg where
  qsize : Nat
  qdepth : Nat

/-- mirrors include/settings.h -/
def settings : Cfg := ⟨1024, 64⟩

structure St (κ : Type) where
  reqQ : List (Req κ)
  reqRq : List (Req κ)
  retryQ : List (Req κ)
  qmanager : κ → Option (Req κ)
  writeStop : Bool
  forceWriteStart : Bool
  syncApps : Bool
  clients : Nat → CPc κ
  pc : MPc κ
  submitted : List (Req κ)      -- ghost: in order of submission
  dispatched : List (Req κ)     -- ghost: handed to the algorithm, in order
  completed : List (Req κ)      -- ghost: ended by assign_req itself

def St.init : St κ :=
  ⟨[], [], [], fun _ => none, false, false, false, fun _ => .idle, .idle, [], [], []⟩

inductive Lbl (κ : Type) where
  | call (c : Nat) (r : Req κ)        -- client c enters assign_req
  | client (c : Nat)                  -- client c's next operation
  | main (stop : Bool)                -- p_main's next; `stop` is what algo->write returns
  | assignTry (r : Req κ)             -- an algorithm puts a read back
  | flags (force sync : Bool)         -- force_write_start, sync_apps
  deriving DecidableEq

def St.at (s : St κ) (c : Nat) (p : CPc κ) : St κ := { s with clients := update s.clients c p }

def entry (r : Req κ) : CPc κ :=
  match r.kind with
  | .set _ => .check r
  | .get => .rcheck r
  | _ => .enqR r

/-- mirrors interface/interface.c:46-76 (`qmanager_write_checking`) and the
branch of `assign_req` on its result -/
def writeChecking (s : St κ) (c : Nat) (r : Req κ) : St κ :=
  match s.qmanager r.key with
  | some _ => { s.at c .idle with completed := s.completed ++ [r] }   -- the value is not copied
  | none => { s.at c (.enqW r) with qmanager := update s.qmanager r.key (some r) }

/-- mirrors interface/interface.c:131-170 (`assign_req`), one operation -/
def clientStep (cfg : Cfg) (s : St κ) (c : Nat) : Option (St κ) :=
  match s.clients c with
  | .idle => none
  | .check r => some (writeChecking { s with submitted := s.submitted ++ [r] } c r)
  | .recheck r => some (writeChecking s c r)
  | .enqW r =>
    if s.reqQ.length = cfg.qsize then some (s.at c (.recheck r))
    else some { s.at c .idle with reqQ := s.reqQ ++ [r] }
  | .rcheck r =>
    match s.qmanager r.key with
    | some _ => some { s.at c .idle with completed := s.completed ++ [r] }
    | none => some (s.at c (.enqR r))
  | .enqR r =>
    if s.reqRq.length = cfg.qsize then some (s.at c (entry r))
    else some { s.at c .idle with reqRq := s.reqRq ++ [r], submitted := s.submitted ++ [r] }

/-- mirrors interface/interface.c:187-205 (`get_next_request`) and the switch
of `p_main`, one operation -/
def mainStep (cfg : Cfg) (s : St κ) (stop : Bool) : Option (St κ) :=
  match s.pc with
  | .idle =>
    let clear := s.forceWriteStart || (s.writeStop && s.reqQ.length == cfg.qdepth) || s.syncApps
    some { s with writeStop := if clear then false else s.writeStop, pc := .retryDeq }
  | .retryDeq => match s.retryQ with
    | r :: rest => some { s with retryQ := rest, pc := .dispatch r }
    | [] => some { s with pc := .rqDeq }
  | .rqDeq => match s.reqRq with
    | r :: rest => some { s with reqRq := rest, pc := .dispatch r }
    | [] => some { s with pc := .stopCheck }
  | .stopCheck =>
    if s.retryQ ≠ [] ∨ s.writeStop = true then some { s with pc := .idle }
    else some { s with pc := .reqDeq }
  | .reqDeq => match s.reqQ with
    | r :: rest => some { s with reqQ := rest, pc := .indexDel r }
    | [] => some { s with pc := .idle }
  | .indexDel r => match s.qmanager r.key with
    | none => none                                        -- abort()
    | some _ => some { s with qmanager := update s.qmanager r.key none, pc := .dispatch r }
  | .dispatch r =>
    some { s with pc := .idle, dispatched := s.dispatched ++ [r],
                  writeStop := if r.kind.isSet then stop else s.writeStop }

/-- One step of the system. Only reads are ever put back (`inf_assign_try`
is called for requests in `lsm_get` and `demand_read`). -/
def step (cfg : Cfg) (s : St κ) : Lbl κ → Option (St κ)
  | .call c r => if s.clients c = .idle then some (s.at c (entry r)) else none
  | .client c => clientStep cfg s c
  | .main stop => mainStep cfg s stop
  | .assignTry r =>
    if r.kind.isMut = false ∧ s.retryQ.length ≠ cfg.qsize then
      some { s with retryQ := s.retryQ ++ [r] }
    else none
  | .flags force sync => some { s with forceWriteStart := force, syncApps := sync }

def queueLTS (cfg : Cfg) : Core.LTS (St κ) (Lbl κ) where
  init s := s = .init
  step s l s' := step cfg s l = some s'

def Lbl.who : Lbl κ → Option Nat
  | .call c _ => some c
  | .client c => some c
  | _ => none

theorem step_clients {cfg : Cfg} {s s' : St κ} {l : Lbl κ} (h : step cfg s l = some s') {c : Nat}
    (hl : l.who ≠ some c) : s'.clients c = s.clients c := by
  cases l with
  | call c' r =>
    have hc : c ≠ c' := fun he => hl (by rw [he]; rfl)
    simp only [step] at h
    split at h
    · cases h; simp [St.at, hc]
    · cases h
  | client c' =>
    have hc : c ≠ c' := fun he => hl (by rw [he]; rfl)
    simp only [step, clientStep] at h
    split at h
    · cases h
    · cases h; unfold writeChecking; split <;> simp [St.at, hc]
    · cases h; unfold writeChecking; split <;> simp [St.at, hc]
    · split at h <;> (cases h; simp [St.at, hc])
    · split at h <;> (cases h; simp [St.at, hc])
    · split at h <;> (cases h; simp [St.at, hc])
  | main stop =>
    simp only [step, mainStep] at h
    split at h
    · cases h; rfl
    · split at h <;> (cases h; rfl)
    · split at h <;> (cases h; rfl)
    · split at h <;> (cases h; rfl)
    · split at h <;> (cases h; rfl)
    · split at h
      · cases h
      · cases h; rfl
    · cases h; rfl
  | assignTry r =>
    simp only [step] at h
    split at h
    · cases h; rfl
    · cases h
  | flags force sync => cases h; rfl

theorem run_clients {cfg : Cfg} {ok : St κ → Lbl κ → Bool} {ls : List (Lbl κ)} {s s' : St κ}
    (h : Core.LTS.run (step cfg) ok ls s = some s') {c : Nat} (hl : ∀ l ∈ ls, l.who ≠ some c) :
    s'.clients c = s.clients c := by
  induction ls generalizing s with
  | nil => cases h; rfl
  | cons l ls ih =>
    obtain ⟨t, -, ht, h⟩ := Core.LTS.run_cons h
    rw [ih h fun l' hl' => hl l' (.tail _ hl')]
    exact step_clients ht (hl l mem_cons_self)

end FlashDriver.Interface
