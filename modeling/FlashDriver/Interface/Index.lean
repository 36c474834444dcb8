import FlashDriver.Interface.Queue
import FlashDriver.Interface.Flying

/-!
# The index of pending writes

`assign_req` enters a SET in the tree `qmanager` before it puts it into
`req_q`, and `get_next_request` takes it from `req_q` before it deletes it
from the tree. `Indexed` says what that leaves between the operations: the
tree holds exactly the SETs that are queued, in a client's hand or in
`p_main`'s hand, one per key. Each operation keeps it (`Indexed.check`,
`Indexed.enqW`, `Indexed.take`, `Indexed.unindex`), except an enqueue that
finds `req_q` full: the SET then finds its own entry.

`Sys` puts the queues behind `inf_make_req`, which waits for a place in
`flying`. Every request that a client, a queue, `p_main` or the algorithm
holds has such a place, so `req_q` is never full as long as
`QDEPTH ≤ QSIZE`. `pending_index` collects what follows.
-/
namespace FlashDriver.Interface

open List Option Function

variable {κ : Type} [DecidableEq κ]

/-! ## What the tree holds -/

/-- What `p_main` has taken but not yet handed over, apart from an indexed
SET. -/
def hand (s : St κ) : List (Req κ) :=
  match s.pc with
  | .dispatch r => [r]
  | _ => []

/-- The SETs on their way: queued, in a client's hand, or taken by `p_main`
and still indexed. -/
def Pending (s : St κ) (r : Req κ) : Prop :=
  r ∈ s.reqQ ∨ (∃ c, s.clients c = .enqW r) ∨ s.pc = .indexDel r

/-- The tree holds exactly the SETs on their way, each of them in one place. -/
structure Indexed (s : St κ) : Prop where
  sound : ∀ r, Pending s r → s.qmanager r.key = some r ∧ r.kind.isSet = true
  complete : ∀ k r, s.qmanager k = some r → Pending s r ∧ r.key = k
  nodup : s.reqQ.Nodup
  main_only : ∀ r, s.pc = .indexDel r → r ∉ s.reqQ ∧ ∀ c, s.clients c ≠ .enqW r
  hand_only : ∀ c r, s.clients c = .enqW r → r ∉ s.reqQ ∧ ∀ c', s.clients c' = .enqW r → c' = c

/-- Which request a client can hold where; no SET comes back from a full
queue. -/
def CPc.Ok : CPc κ → Prop
  | .check r => r.kind.isSet = true
  | .enqR r => r.kind.isSet = false
  | .rcheck r => r.kind.isSet = false
  | .recheck _ => False
  | _ => True

omit [DecidableEq κ] in
theorem Indexed.init : Indexed (St.init : St κ) := by
  refine ⟨fun r hr => ?_, ?_, ?_, ?_, ?_⟩
  · rcases hr with h | ⟨c, h⟩ | h <;> cases h
  all_goals simp [St.init]

/-! ## Clients -/

omit [DecidableEq κ] in
@[simp] theorem at_clients_same (s : St κ) (c : Nat) (p : CPc κ) : (s.at c p).clients c = p := by
  simp [St.at]

omit [DecidableEq κ] in
theorem at_clients_other (s : St κ) {c c' : Nat} (p : CPc κ) (h : c' ≠ c) :
    (s.at c p).clients c' = s.clients c' := by simp [St.at, h]

omit [DecidableEq κ] in
theorem entry_ne_enqW (r r' : Req κ) : entry r ≠ .enqW r' := by
  unfold entry; split <;> simp

omit [DecidableEq κ] in
theorem entry_ok (r : Req κ) : (entry r).Ok := by
  cases hk : r.kind <;> simp [entry, hk, CPc.Ok, Kind.isSet]

omit [DecidableEq κ] in
theorem Indexed.move {s : St κ} (I : Indexed s) {c : Nat} {p : CPc κ}
    (h0 : ∀ r, s.clients c ≠ .enqW r) (hp : ∀ r, p ≠ .enqW r) : Indexed (s.at c p) := by
  have hcl : ∀ c' r, (s.at c p).clients c' = .enqW r ↔ s.clients c' = .enqW r := by
    intro c' r
    by_cases hc : c' = c
    · subst hc; simp [hp r, h0 r]
    · rw [at_clients_other s p hc]
  have hpend : ∀ r, Pending (s.at c p) r ↔ Pending s r := by
    intro r; simp only [Pending, hcl]; rfl
  exact ⟨fun r hr => I.sound r ((hpend r).mp hr),
    fun k r h => ⟨(hpend r).mpr (I.complete k r h).1, (I.complete k r h).2⟩, I.nodup,
    fun r h => ⟨(I.main_only r h).1, fun c' h' => (I.main_only r h).2 c' ((hcl c' r).mp h')⟩,
    fun c' r h => ⟨(I.hand_only c' r ((hcl c' r).mp h)).1,
      fun c'' h' => (I.hand_only c' r ((hcl c' r).mp h)).2 c'' ((hcl c'' r).mp h')⟩⟩

theorem Indexed.check {s : St κ} (I : Indexed s) {c : Nat} {r : Req κ}
    (hc : ∀ r', s.clients c ≠ .enqW r') (hset : r.kind.isSet = true) (hq : s.qmanager r.key = none) :
    Indexed { s.at c (.enqW r) with qmanager := update s.qmanager r.key (some r) } := by
  have hkey : ∀ r', Pending s r' → r'.key ≠ r.key := by
    intro r' hr' he
    have := (I.sound r' hr').1
    rw [he, hq] at this; cases this
  have hno : ∀ r', Pending s r' → r' ≠ r := fun r' h he => hkey r' h (by rw [he])
  have hcl : ∀ c' r', (s.at c (.enqW r)).clients c' = .enqW r' ↔
      (c' = c ∧ r' = r) ∨ (c' ≠ c ∧ s.clients c' = .enqW r') := by
    intro c' r'
    by_cases h : c' = c
    · subst h; simp [eq_comm]
    · rw [at_clients_other s _ h]; simp [h]
  refine ⟨fun r' hr' => ?_, fun k r' hk => ?_, I.nodup, fun r' hr' => ⟨?_, fun c' hc' => ?_⟩,
    fun c' r' hr' => ?_⟩
  · by_cases he : r' = r
    · subst he; exact ⟨update_self .., hset⟩
    · have hold : Pending s r' := by
        rcases hr' with h | ⟨c', h⟩ | h
        · exact .inl h
        · rcases (hcl c' r').mp h with ⟨-, h⟩ | ⟨-, h⟩
          · exact absurd h he
          · exact .inr (.inl ⟨c', h⟩)
        · exact .inr (.inr h)
      refine ⟨?_, (I.sound r' hold).2⟩
      show update s.qmanager r.key (some r) r'.key = some r'
      rw [update_of_ne (hkey r' hold)]; exact (I.sound r' hold).1
  · by_cases hkr : k = r.key
    · subst hkr
      have hk : update s.qmanager r.key (some r) r.key = some r' := hk
      rw [update_self, some.injEq] at hk; subst hk
      exact ⟨.inr (.inl ⟨c, at_clients_same ..⟩), rfl⟩
    · have hk : update s.qmanager r.key (some r) k = some r' := hk
      rw [update_of_ne hkr] at hk
      obtain ⟨hp, hk'⟩ := I.complete k r' hk
      refine ⟨?_, hk'⟩
      rcases hp with h | ⟨c', h⟩ | h
      · exact .inl h
      · refine .inr (.inl ⟨c', (hcl c' r').mpr (.inr ⟨fun he => ?_, h⟩)⟩)
        subst he; exact hc r' h
      · exact .inr (.inr h)
  · exact (I.main_only r' hr').1
  · rcases (hcl c' r').mp hc' with ⟨-, h⟩ | ⟨-, h⟩
    · exact hno r' (.inr (.inr hr')) h
    · exact (I.main_only r' hr').2 c' h
  · rcases (hcl c' r').mp hr' with ⟨h1, h2⟩ | ⟨h1, h2⟩
    · subst h2
      refine ⟨fun h => hno r' (.inl h) rfl, fun c'' hc'' => ?_⟩
      rcases (hcl c'' r').mp hc'' with ⟨h3, -⟩ | ⟨-, h3⟩
      · rw [h1, h3]
      · exact absurd rfl (hno r' (.inr (.inl ⟨c'', h3⟩)))
    · refine ⟨(I.hand_only c' r' h2).1, fun c'' hc'' => ?_⟩
      rcases (hcl c'' r').mp hc'' with ⟨-, h3⟩ | ⟨-, h3⟩
      · exact absurd h3 (hno r' (.inr (.inl ⟨c', h2⟩)))
      · exact (I.hand_only c' r' h2).2 c'' h3

omit [DecidableEq κ] in
theorem Indexed.enqW {s : St κ} (I : Indexed s) {c : Nat} {r : Req κ} (hc : s.clients c = .enqW r) :
    Indexed { s.at c .idle with reqQ := s.reqQ ++ [r] } := by
  obtain ⟨hnq, huniq⟩ := I.hand_only c r hc
  have hcl : ∀ c' r', (s.at c .idle).clients c' = .enqW r' ↔ c' ≠ c ∧ s.clients c' = .enqW r' := by
    intro c' r'
    by_cases h : c' = c
    · subst h; simp
    · rw [at_clients_other s _ h]; simp [h]
  have hpend : ∀ r', Pending { s.at c .idle with reqQ := s.reqQ ++ [r] } r' ↔ Pending s r' := by
    intro r'
    simp only [Pending, hcl, mem_append, mem_singleton]
    constructor
    · rintro ((h | rfl) | ⟨c', -, h⟩ | h)
      · exact .inl h
      · exact .inr (.inl ⟨c, hc⟩)
      · exact .inr (.inl ⟨c', h⟩)
      · exact .inr (.inr h)
    · rintro (h | ⟨c', h⟩ | h)
      · exact .inl (.inl h)
      · by_cases he : c' = c
        · subst he; rw [hc] at h; cases h; exact .inl (.inr rfl)
        · exact .inr (.inl ⟨c', he, h⟩)
      · exact .inr (.inr h)
  refine ⟨fun r' hr' => I.sound r' ((hpend r').mp hr'),
    fun k r' hk => ⟨(hpend r').mpr (I.complete k r' hk).1, (I.complete k r' hk).2⟩,
    nodup_append.mpr ⟨I.nodup, by simp, fun a ha b hb he => ?_⟩,
    fun r' hr' => ⟨?_, fun c' h => ?_⟩, fun c' r' h => ⟨?_, fun c'' h'' => ?_⟩⟩
  · subst he; exact hnq (mem_singleton.mp hb ▸ ha)
  · have hm := I.main_only r' hr'
    simp only [mem_append, mem_singleton, not_or]
    exact ⟨hm.1, fun he => hm.2 c (by rw [hc, he])⟩
  · exact (I.main_only r' hr').2 c' ((hcl c' r').mp h).2
  · obtain ⟨hne, h⟩ := (hcl c' r').mp h
    simp only [mem_append, mem_singleton, not_or]
    exact ⟨(I.hand_only c' r' h).1, fun he => hne (huniq c' (by rw [h, he]))⟩
  · exact (I.hand_only c' r' ((hcl c' r').mp h).2).2 c'' ((hcl c'' r').mp h'').2

theorem client_indexed {cfg : Cfg} {s s' : St κ} {c : Nat} (I : Indexed s)
    (hok : ∀ c, (s.clients c).Ok) (hroom : ∀ r, s.clients c = .enqW r → s.reqQ.length ≠ cfg.qsize)
    (h : clientStep cfg s c = some s') : Indexed s' ∧ ∀ c', (s'.clients c').Ok := by
  have hmove : ∀ p : CPc κ, p.Ok → ∀ c', ((s.at c p).clients c').Ok := by
    intro p hp c'
    by_cases he : c' = c
    · subst he; rw [at_clients_same]; exact hp
    · rw [at_clients_other s p he]; exact hok c'
  have hself := hok c
  unfold clientStep at h
  cases hc : s.clients c with
  | idle => rw [hc] at h; cases h
  | check r =>
    rw [hc] at hself
    simp only [hc, some.injEq] at h; subst h
    unfold writeChecking
    split
    · have M := I.move (c := c) (p := .idle) (by rw [hc]; simp) (by simp)
      exact ⟨⟨M.sound, M.complete, M.nodup, M.main_only, M.hand_only⟩, hmove _ trivial⟩
    · rename_i hq
      have M := I.check (by rw [hc]; simp) hself hq
      exact ⟨⟨M.sound, M.complete, M.nodup, M.main_only, M.hand_only⟩, hmove _ trivial⟩
  | recheck r => rw [hc] at hself; exact hself.elim
  | enqW r =>
    simp only [hc] at h
    rw [if_neg (hroom r hc), some.injEq] at h; subst h
    exact ⟨I.enqW hc, hmove _ trivial⟩
  | rcheck r =>
    rw [hc] at hself
    simp only [hc] at h
    split at h
    · cases h
      have M := I.move (c := c) (p := .idle) (by rw [hc]; simp) (by simp)
      exact ⟨⟨M.sound, M.complete, M.nodup, M.main_only, M.hand_only⟩, hmove _ trivial⟩
    · cases h
      exact ⟨I.move (by rw [hc]; simp) (by simp), hmove (.enqR r) hself⟩
  | enqR r =>
    simp only [hc] at h
    split at h
    · cases h
      exact ⟨I.move (by rw [hc]; simp) (entry_ne_enqW r), hmove _ (entry_ok r)⟩
    · cases h
      have M := I.move (c := c) (p := .idle) (by rw [hc]; simp) (by simp)
      exact ⟨⟨M.sound, M.complete, M.nodup, M.main_only, M.hand_only⟩, hmove _ trivial⟩

/-! ## `p_main` -/

omit [DecidableEq κ] in
theorem Indexed.main {s t : St κ} (I : Indexed s) (hq : t.reqQ = s.reqQ)
    (hm : t.qmanager = s.qmanager) (hc : t.clients = s.clients) (h0 : ∀ r, s.pc ≠ .indexDel r)
    (h1 : ∀ r, t.pc ≠ .indexDel r) : Indexed t := by
  have hpend : ∀ r, Pending t r ↔ Pending s r := by
    intro r; simp [Pending, hq, hc, h0 r, h1 r]
  exact ⟨fun r hr => by rw [hm]; exact I.sound r ((hpend r).mp hr),
    fun k r h => ⟨(hpend r).mpr (I.complete k r (hm ▸ h)).1, (I.complete k r (hm ▸ h)).2⟩,
    by rw [hq]; exact I.nodup, fun r h => absurd h (h1 r),
    fun c r h => by rw [hq]; rw [hc] at h ⊢; exact I.hand_only c r h⟩

omit [DecidableEq κ] in
theorem Indexed.take {s : St κ} (I : Indexed s) {r : Req κ} {rest : List (Req κ)}
    (hpc : s.pc = .reqDeq) (hr : s.reqQ = r :: rest) :
    Indexed { s with reqQ := rest, pc := .indexDel r } := by
  have hnd := I.nodup
  rw [hr, nodup_cons] at hnd
  have hpend : ∀ r', Pending { s with reqQ := rest, pc := .indexDel r } r' ↔ Pending s r' := by
    intro r'
    simp only [Pending, hr, hpc, mem_cons, MPc.indexDel.injEq, reduceCtorEq, or_false]
    constructor
    · rintro (h | h | h)
      · exact .inl (.inr h)
      · exact .inr h
      · exact .inl (.inl h.symm)
    · rintro ((h | h) | h)
      · exact .inr (.inr h.symm)
      · exact .inl h
      · exact .inr (.inl h)
  refine ⟨fun r' h' => I.sound r' ((hpend r').mp h'),
    fun k r' hk => ⟨(hpend r').mpr (I.complete k r' hk).1, (I.complete k r' hk).2⟩, hnd.2,
    fun r' hr' => ?_,
    fun c r' hc => ⟨fun h' => (I.hand_only c r' hc).1 (by simp [hr, h']), (I.hand_only c r' hc).2⟩⟩
  obtain rfl : r = r' := by simpa using hr'
  exact ⟨hnd.1, fun c hc => (I.hand_only c r hc).1 (by simp [hr])⟩

theorem Indexed.unindex {s : St κ} (I : Indexed s) {r : Req κ} (hpc : s.pc = .indexDel r) :
    Indexed { s with qmanager := update s.qmanager r.key none, pc := .dispatch r } := by
  obtain ⟨hq, hset⟩ := I.sound r (.inr (.inr hpc))
  have hold : ∀ r', (r' ∈ s.reqQ ∨ ∃ c, s.clients c = .enqW r') → Pending s r' ∧ r'.key ≠ r.key := by
    intro r' h'
    have h1 : Pending s r' := h'.imp id .inl
    refine ⟨h1, fun he => ?_⟩
    obtain rfl : r' = r := by
      have := (I.sound r' h1).1
      rw [he, hq] at this; exact (some.inj this).symm
    rcases h' with h | ⟨c, h⟩
    · exact (I.main_only r' hpc).1 h
    · exact (I.main_only r' hpc).2 c h
  refine ⟨fun r' h' => ?_, fun k r' hk => ?_, I.nodup, by simp, I.hand_only⟩
  · obtain ⟨h1, h2⟩ := hold r' (by rcases h' with h | h | h; exacts [.inl h, .inr h, by cases h])
    refine ⟨?_, (I.sound r' h1).2⟩
    show update s.qmanager r.key none r'.key = _
    rw [update_of_ne h2]; exact (I.sound r' h1).1
  · have hk : update s.qmanager r.key none k = some r' := hk
    have hne : k ≠ r.key := by
      intro he
      rw [he, update_self] at hk; cases hk
    rw [update_of_ne hne] at hk
    obtain ⟨h1, h2⟩ := I.complete k r' hk
    refine ⟨?_, h2⟩
    rcases h1 with h | h | h
    · exact .inl h
    · exact .inr (.inl h)
    · rw [hpc, MPc.indexDel.injEq] at h; subst h; exact absurd h2.symm hne

theorem main_indexed {cfg : Cfg} {s s' : St κ} {stop : Bool} (I : Indexed s)
    (h : mainStep cfg s stop = some s') : Indexed s' := by
  unfold mainStep at h
  cases hpc : s.pc with
  | idle =>
    simp only [hpc, some.injEq] at h; subst h
    exact I.main rfl rfl rfl (by simp [hpc]) (by simp)
  | retryDeq =>
    simp only [hpc] at h
    split at h <;> (cases h; exact I.main rfl rfl rfl (by simp [hpc]) (by simp))
  | rqDeq =>
    simp only [hpc] at h
    split at h <;> (cases h; exact I.main rfl rfl rfl (by simp [hpc]) (by simp))
  | stopCheck =>
    simp only [hpc] at h
    split at h <;> (cases h; exact I.main rfl rfl rfl (by simp [hpc]) (by simp))
  | reqDeq =>
    simp only [hpc] at h
    split at h
    · rename_i r rest hr
      cases h
      exact I.take hpc hr
    · cases h
      exact I.main rfl rfl rfl (by simp [hpc]) (by simp)
  | indexDel r =>
    simp only [hpc] at h
    split at h
    · cases h
    · cases h; exact I.unindex hpc
  | dispatch r =>
    simp only [hpc, some.injEq] at h; subst h
    exact I.main rfl rfl rfl (by simp [hpc]) (by simp)

/-! ## Behind `inf_make_req` -/

/-- The queues, the places in `flying`, the requests the algorithm holds, and
how many of them it has ended; `released` counts the `cl_release(flying)` at
the end of `inf_end_req`. -/
structure Sys (κ : Type) where
  q : St κ
  flying : ClLock
  held : List (Req κ)
  ended : Nat
  released : Nat

inductive SysLbl (κ : Type) where
  | make (c : Nat) (r : Req κ)        -- client c's inf_make_req gets its place
  | client (c : Nat)
  | main (stop : Bool)
  | assignTry (r : Req κ)
  | flags (force sync : Bool)
  | endReq (r : Req κ)                -- the algorithm ends a request
  | release                           -- an inf_end_req gives its place back
  deriving DecidableEq

/-- mirrors interface/interface.c:503-521 (`inf_make_req`, SET and GET) and
interface/interface.c:631-639; the other labels are those of `step`. -/
def sysStep (cfg : Cfg) (s : Sys κ) : SysLbl κ → Option (Sys κ)
  | .make c r =>
    if r.kind.isSet = true ∨ r.kind = .get then do
      let flying ← clGrap s.flying
      let q ← step cfg s.q (.call c r)
      some { s with q, flying }
    else none
  | .client c => (step cfg s.q (.client c)).map fun q => { s with q }
  | .main stop => (step cfg s.q (.main stop)).map fun q => { s with q, held := hand s.q ++ s.held }
  | .assignTry r =>
    if r ∈ s.held then
      (step cfg s.q (.assignTry r)).map fun q => { s with q, held := s.held.erase r }
    else none
  | .flags force sync => (step cfg s.q (.flags force sync)).map fun q => { s with q }
  | .endReq r => if r ∈ s.held then some { s with held := s.held.erase r, ended := s.ended + 1 } else none
  | .release =>
    if s.released < s.q.completed.length + s.ended then
      some { s with flying := clRelease s.flying, released := s.released + 1 }
    else none

def sysLTS (cfg : Cfg) : Core.LTS (Sys κ) (SysLbl κ) where
  init s := s = ⟨.init, clInit cfg.qdepth false, [], 0, 0⟩
  step s l s' := sysStep cfg s l = some s'

/-- No enqueue or dequeue of a write is half done. -/
def Settled (s : St κ) : Prop := (∀ c r, s.clients c ≠ .enqW r) ∧ ∀ r, s.pc ≠ .indexDel r

/-- The keys of the SETs in `req_q`. -/
def queuedKeys (s : St κ) : List κ := (s.reqQ.filter (·.kind.isSet)).map (·.key)

structure IndexOk (cfg : Cfg) (s : St κ) : Prop where
  keys : Settled s → ∀ k, (s.qmanager k).isSome = true ↔ k ∈ queuedKeys s
  nodup : (queuedKeys s).Nodup
  room : ∀ c r, s.clients c = .enqW r → s.reqQ.length ≠ cfg.qsize   -- q_enqueue succeeds
  once : ∀ c r, s.clients c ≠ .recheck r
  present : ∀ r, s.pc = .indexDel r → (s.qmanager r.key).isSome = true  -- no abort()

omit [DecidableEq κ] in
theorem Indexed.mem_queuedKeys {s : St κ} (I : Indexed s) {k : κ} :
    k ∈ queuedKeys s ↔ ∃ r ∈ s.reqQ, r.key = k := by
  simp only [queuedKeys, List.mem_map, List.mem_filter]
  constructor
  · intro ⟨r, hr, hk⟩
    exact ⟨r, hr.1, hk⟩
  · intro ⟨r, hr, hk⟩
    exact ⟨r, ⟨hr, (I.sound r (.inl hr)).2⟩, hk⟩

omit [DecidableEq κ] in
theorem Indexed.keys {s : St κ} (I : Indexed s) (hs : Settled s) (k : κ) :
    (s.qmanager k).isSome = true ↔ k ∈ queuedKeys s := by
  rw [I.mem_queuedKeys]
  constructor
  · intro hk
    obtain ⟨r, hr⟩ := isSome_iff_exists.mp hk
    obtain ⟨hp, hkey⟩ := I.complete k r hr
    rcases hp with h | ⟨c, h⟩ | h
    · exact ⟨r, h, hkey⟩
    · exact absurd h (hs.1 c r)
    · exact absurd h (hs.2 r)
  · intro ⟨r, hr, hk⟩
    rw [← hk, (I.sound r (.inl hr)).1]; rfl

omit [DecidableEq κ] in
theorem Indexed.nodup_keys {s : St κ} (I : Indexed s) : (queuedKeys s).Nodup := by
  refine (I.nodup.filter _).map_on fun r hr r' hr' he => ?_
  have h := (I.sound r (.inl (mem_filter.mp hr).1)).1
  have h' := (I.sound r' (.inl (mem_filter.mp hr').1)).1
  rw [he, h'] at h
  exact (some.inj h).symm

/-! ## Who holds a place -/

/-- The requests in the queues and in `p_main`'s hand. -/
def St.load (s : St κ) : Nat :=
  s.reqQ.length + s.reqRq.length + s.retryQ.length + match s.pc with
    | .indexDel _ => 1
    | .dispatch _ => 1
    | _ => 0

/-- The request in a client's hand. -/
def CPc.load : CPc κ → Nat
  | .idle => 0
  | _ => 1

omit [DecidableEq κ] in
theorem entry_load (r : Req κ) : (entry r).load = 1 := by
  unfold entry; split <;> rfl

theorem clientStep_load {cfg : Cfg} {s s' : St κ} {c : Nat} (h : clientStep cfg s c = some s') :
    (s.clients c).load = 1 ∧ s.completed.length ≤ s'.completed.length ∧
      s'.load + s'.completed.length + (s'.clients c).load = s.load + s.completed.length + 1 := by
  have hw : ∀ (t : St κ) (r : Req κ), t.completed.length ≤ (writeChecking t c r).completed.length ∧
      (writeChecking t c r).load + (writeChecking t c r).completed.length +
        ((writeChecking t c r).clients c).load = t.load + t.completed.length + 1 := by
    intro t r
    unfold writeChecking
    split
    · simp [St.at, St.load, CPc.load]; omega
    · simp [St.at, St.load, CPc.load]
  unfold clientStep at h
  split at h
  · cases h
  · rename_i r hc; cases h; rw [hc]
    exact ⟨rfl, hw { s with submitted := s.submitted ++ [r] } r⟩
  · rename_i r hc; cases h; rw [hc]; exact ⟨rfl, hw s r⟩
  · rename_i r hc
    rw [hc]
    split at h
    · cases h; simp [St.at, St.load, CPc.load]
    · cases h; simp [St.at, St.load, CPc.load]; omega
  · rename_i r hc
    rw [hc]
    split at h
    · cases h; simp [St.at, St.load, CPc.load]; omega
    · cases h; simp [St.at, St.load, CPc.load]
  · rename_i r hc
    rw [hc]
    split at h
    · cases h; simp [St.at, St.load, entry_load]; rfl
    · cases h; simp [St.at, St.load, CPc.load]; omega

theorem mainStep_load {cfg : Cfg} {s s' : St κ} {stop : Bool} (h : mainStep cfg s stop = some s') :
    s'.clients = s.clients ∧ s'.completed = s.completed ∧ s'.load + (hand s).length = s.load := by
  unfold mainStep at h
  cases hpc : s.pc with
  | idle => simp only [hpc, some.injEq] at h; subst h; simp [St.load, hand, hpc]
  | retryDeq =>
    simp only [hpc] at h
    split at h <;> (rename_i hr; cases h; simp [St.load, hand, hpc, hr])
    omega
  | rqDeq =>
    simp only [hpc] at h
    split at h <;> (rename_i hr; cases h; simp [St.load, hand, hpc, hr])
    omega
  | stopCheck =>
    simp only [hpc] at h
    split at h <;> (cases h; simp [St.load, hand, hpc])
  | reqDeq =>
    simp only [hpc] at h
    split at h <;> (rename_i hr; cases h; simp [St.load, hand, hpc, hr])
    omega
  | indexDel r =>
    simp only [hpc] at h
    split at h
    · cases h
    · cases h; simp [St.load, hand, hpc]
  | dispatch r => simp only [hpc, some.injEq] at h; subst h; simp [St.load, hand, hpc]

/-- Every request that was created and has not released its place has one;
`busy` are the clients inside `assign_req`. -/
structure Placed (s : Sys κ) (busy : Finset Nat) : Prop where
  mem_busy : ∀ c, c ∈ busy ↔ (s.q.clients c).load = 1
  now : s.flying.now + s.released =
    (busy.card + s.q.load + s.q.completed.length + s.held.length + s.ended : Nat)

omit [DecidableEq κ] in
theorem busy_move {s : St κ} (s' : St κ) {c : Nat} {busy : Finset Nat}
    (hb : ∀ c, c ∈ busy ↔ (s.clients c).load = 1) (hc : ∀ c', c' ≠ c → s'.clients c' = s.clients c') :
    ∃ busy' : Finset Nat, (∀ c, c ∈ busy' ↔ (s'.clients c).load = 1) ∧
      busy'.card + (s.clients c).load = busy.card + (s'.clients c).load := by
  have hld : ∀ p : CPc κ, p.load = 0 ∨ p.load = 1 := by intro p; cases p <;> simp [CPc.load]
  have herase := Finset.card_erase_add_one (s := busy) (a := c)
  rcases hld (s'.clients c) with h' | h'
  · refine ⟨busy.erase c, fun c' => ?_, ?_⟩
    · by_cases he : c' = c
      · subst he; simp [h']
      · rw [hc c' he]; simp [he, hb]
    · rcases hld (s.clients c) with h | h
      · rw [Finset.erase_eq_of_notMem (by rw [hb]; omega)]; omega
      · have := herase ((hb c).mpr h); omega
  · refine ⟨insert c busy, fun c' => ?_, ?_⟩
    · by_cases he : c' = c
      · subst he; simp [h']
      · rw [hc c' he]; simp [he, hb]
    · rcases hld (s.clients c) with h | h
      · rw [Finset.card_insert_of_notMem (by rw [hb]; omega)]; omega
      · rw [Finset.insert_eq_of_mem ((hb c).mpr h)]; omega

structure SysInv (cfg : Cfg) (s : Sys κ) : Prop where
  indexed : Indexed s.q
  clients : ∀ c, (s.q.clients c).Ok
  counts : s.flying.Counts cfg.qdepth
  released : s.released ≤ s.q.completed.length + s.ended
  placed : ∃ busy, Placed s busy

omit [DecidableEq κ] in
theorem SysInv.room {cfg : Cfg} {s : Sys κ} (I : SysInv cfg s) (hq : cfg.qdepth ≤ cfg.qsize) {c : Nat}
    {r : Req κ} (hc : s.q.clients c = .enqW r) : s.q.reqQ.length ≠ cfg.qsize := by
  obtain ⟨busy, hb, hsum⟩ := I.placed
  have hpos := Finset.card_pos.mpr ⟨c, (hb c).mpr (by rw [hc]; rfl)⟩
  have hle := I.counts.le
  have hrel := I.released
  unfold St.load at hsum
  omega

theorem sys_make {cfg : Cfg} {s s' : Sys κ} {c : Nat} {r : Req κ} (I : SysInv cfg s)
    (h : sysStep cfg s (.make c r) = some s') : SysInv cfg s' := by
  simp only [sysStep] at h
  split at h
  · simp only [bind_eq_bind, bind_eq_some_iff] at h
    obtain ⟨cl, hcl, q, hq, hs⟩ := h
    cases hs
    obtain ⟨hC, hnow⟩ := clGrap_spec I.counts hcl
    simp only [step] at hq
    split at hq
    · rename_i hc; cases hq
      obtain ⟨busy, P⟩ := I.placed
      have hb := busy_move (s.q.at c (entry r)) P.mem_busy fun c' h => at_clients_other _ _ h
      obtain ⟨busy', hb', hcard⟩ := hb
      rw [at_clients_same, hc, entry_load] at hcard
      refine ⟨I.indexed.move (by rw [hc]; simp) (entry_ne_enqW r), fun c' => ?_, hC, I.released, busy', hb',
        ?_⟩
      · by_cases he : c' = c
        · subst he; rw [at_clients_same]; exact entry_ok r
        · rw [at_clients_other _ _ he]; exact I.clients c'
      · have := P.now
        simp only [CPc.load] at hcard
        simp only [hnow, St.at, St.load] at this ⊢
        omega
    · cases hq
  · cases h

theorem sys_client {cfg : Cfg} {s s' : Sys κ} {c : Nat} (I : SysInv cfg s)
    (hq : cfg.qdepth ≤ cfg.qsize) (h : sysStep cfg s (.client c) = some s') : SysInv cfg s' := by
  obtain ⟨q, hs, he⟩ := map_eq_some_iff.mp h
  subst he
  obtain ⟨hX, hok⟩ := client_indexed I.indexed I.clients (fun r hr => I.room hq hr) hs
  obtain ⟨hone, hcomp, hload⟩ := clientStep_load hs
  obtain ⟨busy, P⟩ := I.placed
  have hb := busy_move q P.mem_busy fun c' h' =>
    step_clients (l := .client c) hs fun hw => h' (some.inj hw).symm
  obtain ⟨busy', hb', hcard⟩ := hb
  have hnow := P.now
  have hrel := I.released
  refine ⟨hX, hok, I.counts, ?_, busy', hb', ?_⟩
  · show s.released ≤ q.completed.length + s.ended
    omega
  · simp only
    omega

omit [DecidableEq κ] in
theorem SysInv.of_same {cfg : Cfg} {s s' : Sys κ} (I : SysInv cfg s)
    (hX : Indexed s'.q) (hcl : s'.q.clients = s.q.clients) (hcount : s'.flying.Counts cfg.qdepth)
    (hrel : s'.released ≤ s'.q.completed.length + s'.ended)
    (hsum : s'.flying.now + s'.released + s.q.load + s.q.completed.length + s.held.length + s.ended =
      s.flying.now + s.released + s'.q.load + s'.q.completed.length + s'.held.length + s'.ended) :
    SysInv cfg s' := by
  obtain ⟨busy, P⟩ := I.placed
  have hnow := P.now
  exact ⟨hX, by rw [hcl]; exact I.clients, hcount, hrel, busy, by rw [hcl]; exact P.mem_busy, by omega⟩

theorem sys_step {cfg : Cfg} (hq : cfg.qdepth ≤ cfg.qsize) {s s' : Sys κ} {l : SysLbl κ}
    (I : SysInv cfg s) (h : sysStep cfg s l = some s') : SysInv cfg s' := by
  have hrel := I.released
  cases l with
  | make c r => exact sys_make I h
  | client c => exact sys_client I hq h
  | main stop =>
    obtain ⟨q, hs, he⟩ := map_eq_some_iff.mp h
    subst he
    obtain ⟨hcl, hcomp, hload⟩ := mainStep_load hs
    refine I.of_same (main_indexed I.indexed hs) hcl I.counts (by rw [hcomp]; exact hrel) ?_
    simp only [hcomp, length_append]
    omega
  | assignTry r =>
    simp only [sysStep] at h
    split at h
    · rename_i hr
      obtain ⟨q, hs, he⟩ := map_eq_some_iff.mp h
      subst he
      have hlen := length_erase_of_mem hr
      have hpos := length_pos_of_mem hr
      simp only [step] at hs
      split at hs
      · cases hs
        have X := I.indexed
        refine I.of_same ⟨X.sound, X.complete, X.nodup, X.main_only, X.hand_only⟩ rfl I.counts hrel ?_
        simp only [St.load, length_append, length_singleton]
        omega
      · cases hs
    · cases h
  | flags force sync =>
    cases h
    have X := I.indexed
    exact I.of_same ⟨X.sound, X.complete, X.nodup, X.main_only, X.hand_only⟩ rfl I.counts hrel rfl
  | endReq r =>
    simp only [sysStep] at h
    split at h
    · rename_i hr
      have hlen := length_erase_of_mem hr
      have hpos := length_pos_of_mem hr
      cases h
      refine I.of_same I.indexed rfl I.counts (by simp only; omega) ?_
      simp only
      omega
    · cases h
  | release =>
    simp only [sysStep] at h
    split at h
    · rename_i hlt
      obtain ⟨hC, hnow⟩ := clRelease_spec I.counts
      cases h
      refine I.of_same I.indexed rfl hC (by simp only; omega) ?_
      simp only [hnow]
      omega
    · cases h

theorem sys_inductive {cfg : Cfg} (hq : cfg.qdepth ≤ cfg.qsize) :
    (sysLTS (κ := κ) cfg).Inductive (SysInv cfg) where
  init := by
    intro s hs
    cases hs
    exact ⟨.init, fun c => trivial, ClLock.counts_init cfg.qdepth, Nat.zero_le _,
      ∅, by simp [St.init, CPc.load], by simp [clInit, St.init, St.load]⟩
  step := fun s l s' I hs => sys_step hq I hs

/-- For any number of clients and any interleaving with `p_main`, the index
agrees with `req_q` wherever no operation is half done, `req_q` always has
room, and the entry `qmanager_delete` looks for is there. -/
theorem pending_index {cfg : Cfg} (hq : cfg.qdepth ≤ cfg.qsize) (tr : List (SysLbl κ)) (s : Sys κ)
    (h : (sysLTS cfg).Exec tr s) : IndexOk cfg s.q := by
  have I := h.inv (sys_inductive hq)
  refine ⟨I.indexed.keys, I.indexed.nodup_keys, fun c r hc => I.room hq hc, fun c r hc => ?_,
    fun r hr => ?_⟩
  · have := I.clients c
    rw [hc] at this; exact this
  · rw [(I.indexed.sound r (.inr (.inr hr))).1]; rfl

/-- A queued SET and a GET that `assign_req` has ended because of it. -/
theorem pending_index_two : ∃ tr s, (sysLTS (κ := Nat) settings).Exec tr s ∧ queuedKeys s.q = [7] ∧
    s.q.completed = [⟨1, 7, .get⟩] ∧ s.flying.now = 1 ∧ IndexOk settings s.q := by
  let ls : List (SysLbl Nat) := [.make 0 ⟨0, 7, .set 5⟩, .client 0, .client 0,
    .make 1 ⟨1, 7, .get⟩, .client 1, .release]
  obtain ⟨s, hE, hkeys, hdone, hnow⟩ := Core.LTS.Exec.check (T := sysLTS settings)
    (some ⟨.init, clInit settings.qdepth false, [], 0, 0⟩) (fun _ _ => True) ls
    (fun s => queuedKeys s.q = [7] ∧ s.q.completed = [⟨1, 7, .get⟩] ∧ s.flying.now = 1)
    (fun _ _ _ _ hs => hs) (fun _ h => some.inj h.symm) (by decide +kernel)
  exact ⟨_, s, hE, hkeys, hdone, hnow, pending_index (by decide) _ s hE⟩

end FlashDriver.Interface
