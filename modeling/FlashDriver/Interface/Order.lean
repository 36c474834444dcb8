import FlashDriver.Interface.Index

/-!
# In which order mutations of a key reach the algorithm

`InOrder` is what a client expects of the queues: the SETs and DELETEs of a
key reach the algorithm in the order they were submitted, after everything
has drained the last one to reach it is the last one submitted, and a SET
that `assign_req` ended on its own was superseded by a later mutation.

The queues keep it only while a mutation of a key meets no pending SET of
that key:

* a SET whose key is indexed is dropped, although it is the newer one;
* a DELETE travels through the preferred `req_rq` and overtakes the SET;
* a SET that finds `req_q` full finds its own index entry when it retries.

`calm` excludes these, and the window in which `p_main` has already found
`req_rq` empty. `in_order` proves `InOrder` along every calm run from the
invariant that, for each key, the submitted mutations are the dispatched
ones, then the one in `p_main`'s hand, then those in `req_rq`, then the
indexed SET. `out_of_order` gives a run of each of the first two kinds.
-/
namespace FlashDriver.Interface

open List Option Function

variable {κ : Type} [DecidableEq κ]

/-- The mutations of `k` in a log or queue. -/
def muts (k : κ) (l : List (Req κ)) : List (Req κ) := l.filter fun r => r.kind.isMut && r.key == k

@[simp] theorem muts_nil (k : κ) : muts k ([] : List (Req κ)) = [] := rfl

@[simp] theorem muts_append (k : κ) (l l' : List (Req κ)) : muts k (l ++ l') = muts k l ++ muts k l' :=
  filter_append ..

theorem muts_self {r : Req κ} (h : r.kind.isMut = true) : muts r.key [r] = [r] := by
  simp [muts, h]

theorem muts_other {k : κ} {r : Req κ} (h : r.kind.isMut = false ∨ r.key ≠ k) : muts k [r] = [] := by
  rcases h with h | h <;> simp [muts, h]

theorem muts_cons (k : κ) (r : Req κ) (l : List (Req κ)) : muts k (r :: l) = muts k [r] ++ muts k l :=
  muts_append k [r] l

def Drained (s : St κ) : Prop :=
  s.reqQ = [] ∧ s.reqRq = [] ∧ s.retryQ = [] ∧ (∀ c, s.clients c = .idle) ∧ s.pc = .idle

/-- `r'` was submitted after `r`. -/
def Later (s : St κ) (r r' : Req κ) : Prop := ∃ pre post, s.submitted = pre ++ r :: post ∧ r' ∈ post

structure InOrder (s : St κ) : Prop where
  order : ∀ k, (muts k s.dispatched).Sublist (muts k s.submitted)
  last : Drained s → ∀ k,
    (muts k s.dispatched).getLast?.map (·.kind) = (muts k s.submitted).getLast?.map (·.kind)
  superseded : Drained s → ∀ r ∈ s.completed, r.kind.isSet = true →
    ∃ r' ∈ s.dispatched, r'.kind.isMut = true ∧ r'.key = r.key ∧ Later s r r'

/-- `p_main` has found `req_rq` empty in this round and not yet taken a
write. -/
def pastReads (s : St κ) : Prop := s.pc = .stopCheck ∨ s.pc = .reqDeq

/-- The next operation of a client lets no mutation meet a pending SET of its
key. -/
def calmAt (cfg : Cfg) (s : St κ) : CPc κ → Prop
  | .check r => s.qmanager r.key = none
  | .enqW r => s.reqQ.length ≠ cfg.qsize ∧ (pastReads s → muts r.key s.reqRq = [])
  | .enqR r => r.kind = .delete → s.qmanager r.key = none
  | _ => True

def calm (cfg : Cfg) (s : St κ) : Lbl κ → Prop
  | .client c => calmAt cfg s (s.clients c)
  | _ => True

instance (s : St κ) : Decidable (pastReads s) := inferInstanceAs (Decidable (_ ∨ _))

instance (cfg : Cfg) (s : St κ) : (p : CPc κ) → Decidable (calmAt cfg s p)
  | .check _ => inferInstanceAs (Decidable (_ = none))
  | .enqW _ => inferInstanceAs (Decidable (_ ∧ (_ → _ = [])))
  | .enqR _ => inferInstanceAs (Decidable (_ → _ = none))
  | .idle | .recheck _ | .rcheck _ => inferInstanceAs (Decidable True)

instance (cfg : Cfg) (s : St κ) : (l : Lbl κ) → Decidable (calm cfg s l)
  | .client c => inferInstanceAs (Decidable (calmAt cfg s (s.clients c)))
  | .call _ _ | .main _ | .assignTry _ | .flags _ _ => inferInstanceAs (Decidable True)

/-! ## The invariant -/

structure Sorted (s : St κ) : Prop where
  reads : ∀ r ∈ s.reqRq, r.kind.isSet = false
  retries : ∀ r ∈ s.retryQ, r.kind.isMut = false
  clients : ∀ c, (s.clients c).Ok
  completed : ∀ r ∈ s.completed, r.kind.isSet = false

/-- For each key the submitted mutations are those handed over, then those
that will be taken next, in the order they will be taken. -/
structure Queued (s : St κ) : Prop where
  split : ∀ k, muts k s.submitted =
    muts k s.dispatched ++ muts k (hand s) ++ muts k s.reqRq ++ (s.qmanager k).toList
  window : pastReads s → ∀ r ∈ s.reqQ, muts r.key s.reqRq = []
  taken : ∀ r, s.pc = .indexDel r → muts r.key s.reqRq = []

structure Inv (s : St κ) : Prop where
  indexed : Indexed s
  sorted : Sorted s
  queued : Queued s

theorem Inv.inOrder {s : St κ} (I : Inv s) : InOrder s := by
  refine ⟨fun k => ?_, fun hd k => ?_, fun _ r hr hset => ?_⟩
  · rw [I.queued.split k, append_assoc, append_assoc]
    exact sublist_append_left _ _
  · obtain ⟨h1, h2, h3, h4, h5⟩ := hd
    have hq : s.qmanager k = none := by
      by_contra hne
      obtain ⟨r, hr⟩ := ne_none_iff_exists'.mp hne
      rcases (I.indexed.complete k r hr).1 with h | ⟨c, h⟩ | h
      · rw [h1] at h; cases h
      · rw [h4 c] at h; cases h
      · rw [h5] at h; cases h
    rw [I.queued.split k, hq, h2]
    simp [hand, h5]
  · rw [I.sorted.completed r hr] at hset; cases hset

theorem inv_init : Inv (St.init : St κ) := by
  refine ⟨.init, ⟨?_, ?_, ?_, ?_⟩, ⟨?_, ?_, ?_⟩⟩
  all_goals simp [St.init, hand, pastReads, CPc.Ok]

/-! ## Clients -/

omit [DecidableEq κ] in
theorem Sorted.move {s : St κ} (S : Sorted s) {c : Nat} {p : CPc κ} (hp : p.Ok) (c' : Nat) :
    ((s.at c p).clients c').Ok := by
  by_cases hc : c' = c
  · subst hc; rw [at_clients_same]; exact hp
  · rw [at_clients_other s p hc]; exact S.clients c'

theorem inv_at {s : St κ} (I : Inv s) {c : Nat} {p : CPc κ} (h0 : ∀ r, s.clients c ≠ .enqW r)
    (hp : ∀ r, p ≠ .enqW r) (hok : p.Ok) : Inv (s.at c p) :=
  ⟨I.indexed.move h0 hp, ⟨I.sorted.reads, I.sorted.retries, I.sorted.move hok, I.sorted.completed⟩,
    ⟨I.queued.split, I.queued.window, I.queued.taken⟩⟩

theorem inv_check {s : St κ} (I : Inv s) {c : Nat} {r : Req κ} (hc : s.clients c = .check r)
    (hq : s.qmanager r.key = none) :
    Inv (writeChecking { s with submitted := s.submitted ++ [r] } c r) := by
  have hset : r.kind.isSet = true := by have := I.sorted.clients c; rw [hc] at this; exact this
  have hmut : r.kind.isMut = true := by cases hk : r.kind <;> simp_all [Kind.isSet, Kind.isMut]
  have hw : writeChecking { s with submitted := s.submitted ++ [r] } c r =
      { s.at c (.enqW r) with submitted := s.submitted ++ [r],
                              qmanager := update s.qmanager r.key (some r) } := by
    simp only [writeChecking, hq]; rfl
  have X := I.indexed.check (by rw [hc]; simp) hset hq
  rw [hw]
  refine ⟨⟨X.sound, X.complete, X.nodup, X.main_only, X.hand_only⟩,
    ⟨I.sorted.reads, I.sorted.retries, I.sorted.move trivial, I.sorted.completed⟩,
    ⟨fun k => ?_, I.queued.window, I.queued.taken⟩⟩
  show muts k (s.submitted ++ [r]) = _ ++ (update s.qmanager r.key (some r) k).toList
  rw [muts_append, I.queued.split k]
  by_cases hkr : k = r.key
  · subst hkr; rw [hq, update_self, muts_self hmut]; simp [hand, St.at]
  · rw [update_of_ne hkr, muts_other (.inr (Ne.symm hkr))]; simp [hand, St.at]

theorem inv_enqW {s : St κ} (I : Inv s) {c : Nat} {r : Req κ} (hc : s.clients c = .enqW r)
    (hwin : pastReads s → muts r.key s.reqRq = []) :
    Inv { s.at c .idle with reqQ := s.reqQ ++ [r] } := by
  refine ⟨I.indexed.enqW hc,
    ⟨I.sorted.reads, I.sorted.retries, I.sorted.move trivial, I.sorted.completed⟩,
    ⟨I.queued.split, fun hp r' hr' => ?_, I.queued.taken⟩⟩
  simp only [mem_append, mem_singleton] at hr'
  rcases hr' with h | rfl
  · exact I.queued.window hp r' h
  · exact hwin hp

theorem inv_enqR {s : St κ} (I : Inv s) {c : Nat} {r : Req κ} (hc : s.clients c = .enqR r)
    (hdel : r.kind = .delete → s.qmanager r.key = none) :
    Inv { s.at c .idle with reqRq := s.reqRq ++ [r], submitted := s.submitted ++ [r] } := by
  have hset : r.kind.isSet = false := by have := I.sorted.clients c; rw [hc] at this; exact this
  have hmv := I.indexed.move (c := c) (p := .idle) (by rw [hc]; simp) (by simp)
  -- a DELETE that joins the queue has no SET of its key ahead of or behind it
  have hclash : ∀ r', Pending s r' → muts r'.key [r] = [] := by
    intro r' hr'
    refine muts_other ?_
    by_cases hd : r.kind = .delete
    · right; intro he
      have := (I.indexed.sound r' hr').1
      rw [← he, hdel hd] at this; cases this
    · left; cases hk : r.kind <;> simp_all [Kind.isSet, Kind.isMut]
  refine ⟨⟨hmv.sound, hmv.complete, hmv.nodup, hmv.main_only, hmv.hand_only⟩,
    ⟨fun r' hr' => ?_, I.sorted.retries, I.sorted.move trivial, I.sorted.completed⟩,
    ⟨fun k => ?_, fun hp r' hr' => ?_, fun r' hr' => ?_⟩⟩
  · simp only [mem_append, mem_singleton] at hr'
    rcases hr' with h | rfl
    · exact I.sorted.reads r' h
    · exact hset
  · show muts k (s.submitted ++ [r]) = muts k s.dispatched ++ muts k (hand s) ++
      muts k (s.reqRq ++ [r]) ++ (s.qmanager k).toList
    rw [muts_append, muts_append, I.queued.split k]
    by_cases hm : muts k [r] = []
    · simp [hm]
    · have hk : r.kind = .delete ∧ r.key = k := by
        by_contra hcon
        refine hm (muts_other ?_)
        by_cases hkey : r.key = k
        · left; cases hk : r.kind <;> simp_all [Kind.isSet, Kind.isMut]
        · exact .inr hkey
      rw [← hk.2, hdel hk.1]; simp
  · show muts r'.key (s.reqRq ++ [r]) = []
    rw [muts_append, I.queued.window hp r' hr', hclash r' (.inl hr')]; rfl
  · show muts r'.key (s.reqRq ++ [r]) = []
    rw [muts_append, I.queued.taken r' hr', hclash r' (.inr (.inr hr'))]; rfl

theorem inv_client {cfg : Cfg} {s s' : St κ} {c : Nat} (I : Inv s) (hok : calm cfg s (.client c))
    (h : clientStep cfg s c = some s') : Inv s' := by
  unfold clientStep at h
  simp only [calm] at hok
  cases hc : s.clients c with
  | idle => rw [hc] at h; cases h
  | check r =>
    simp only [hc, some.injEq, calmAt] at h hok; subst h
    exact inv_check I hc hok
  | recheck r =>
    have := I.sorted.clients c
    rw [hc] at this; exact this.elim
  | enqW r =>
    simp only [hc, calmAt] at h hok
    rw [if_neg hok.1, some.injEq] at h; subst h
    exact inv_enqW I hc hok.2
  | rcheck r =>
    have hget : r.kind.isSet = false := by have := I.sorted.clients c; rw [hc] at this; exact this
    simp only [hc] at h
    split at h
    · cases h
      have J := inv_at I (c := c) (p := .idle) (by rw [hc]; simp) (by simp) trivial
      refine ⟨⟨J.indexed.sound, J.indexed.complete, J.indexed.nodup, J.indexed.main_only,
        J.indexed.hand_only⟩, ⟨J.sorted.reads, J.sorted.retries, J.sorted.clients, fun r' hr' => ?_⟩,
        ⟨J.queued.split, J.queued.window, J.queued.taken⟩⟩
      simp only [mem_append, mem_singleton] at hr'
      rcases hr' with h | rfl
      · exact I.sorted.completed r' h
      · exact hget
    · cases h
      exact inv_at I (by rw [hc]; simp) (by simp) hget
  | enqR r =>
    simp only [hc, calmAt] at h hok
    split at h
    · cases h
      exact inv_at I (by rw [hc]; simp) (entry_ne_enqW r) (entry_ok r)
    · cases h
      exact inv_enqR I hc hok

/-! ## `p_main` -/

theorem inv_take {s : St κ} (I : Inv s) {r : Req κ} {rest : List (Req κ)} (hpc : s.pc = .reqDeq)
    (hr : s.reqQ = r :: rest) : Inv { s with reqQ := rest, pc := .indexDel r } := by
  obtain ⟨X, S, Q⟩ := I
  refine ⟨X.take hpc hr, ⟨S.reads, S.retries, S.clients, S.completed⟩,
    ⟨fun k => ?_, by simp [pastReads], fun r' hr' => ?_⟩⟩
  · rw [Q.split k]; simp [hand, hpc]
  · obtain rfl : r = r' := by simpa using hr'
    exact Q.window (.inr hpc) r (by simp [hr])

theorem inv_unindex {s : St κ} (I : Inv s) {r : Req κ} (hpc : s.pc = .indexDel r) :
    Inv { s with qmanager := update s.qmanager r.key none, pc := .dispatch r } := by
  obtain ⟨X, S, Q⟩ := I
  obtain ⟨hq, hset⟩ := X.sound r (.inr (.inr hpc))
  have hmut : r.kind.isMut = true := by cases hk : r.kind <;> simp_all [Kind.isSet, Kind.isMut]
  refine ⟨X.unindex hpc, ⟨S.reads, S.retries, S.clients, S.completed⟩,
    ⟨fun k => ?_, by simp [pastReads], by simp⟩⟩
  show muts k s.submitted = muts k s.dispatched ++ muts k [r] ++ muts k s.reqRq ++
    (update s.qmanager r.key none k).toList
  rw [Q.split k]
  by_cases hk : k = r.key
  · subst hk
    rw [Q.taken r hpc, hq, update_self, muts_self hmut]; simp [hand, hpc]
  · rw [update_of_ne hk, muts_other (.inr (Ne.symm hk))]; simp [hand, hpc]

theorem inv_main {cfg : Cfg} {s s' : St κ} {stop : Bool} (I : Inv s)
    (h : mainStep cfg s stop = some s') : Inv s' := by
  have X' := main_indexed I.indexed h
  obtain ⟨X, S, Q⟩ := I
  unfold mainStep at h
  cases hpc : s.pc with
  | idle =>
    simp only [hpc, some.injEq] at h; subst h
    refine ⟨X', ⟨S.reads, S.retries, S.clients, S.completed⟩,
      ⟨fun k => ?_, by simp [pastReads], by simp⟩⟩
    rw [Q.split k]; simp [hand, hpc]
  | retryDeq =>
    simp only [hpc] at h
    split at h
    · rename_i r rest hr
      cases h
      have hm : r.kind.isMut = false := S.retries r (by simp [hr])
      refine ⟨X', ⟨S.reads, fun r' h' => S.retries r' (by simp [hr, h']), S.clients, S.completed⟩,
        ⟨fun k => ?_, by simp [pastReads], by simp⟩⟩
      rw [Q.split k]; simp [hand, hpc, muts_other (k := k) (.inl hm)]
    · cases h
      refine ⟨X',
        ⟨S.reads, S.retries, S.clients, S.completed⟩, ⟨fun k => ?_, by simp [pastReads], by simp⟩⟩
      rw [Q.split k]; simp [hand, hpc]
  | rqDeq =>
    simp only [hpc] at h
    split at h
    · rename_i r rest hr
      cases h
      refine ⟨X', ⟨fun r' h' => S.reads r' (by simp [hr, h']), S.retries, S.clients, S.completed⟩,
        ⟨fun k => ?_, by simp [pastReads], by simp⟩⟩
      rw [Q.split k, hr, muts_cons]; simp [hand, hpc]
    · rename_i hr
      cases h
      refine ⟨X', ⟨S.reads, S.retries, S.clients, S.completed⟩,
        ⟨fun k => ?_, fun _ r _ => by simp [hr], by simp⟩⟩
      rw [Q.split k]; simp [hand, hpc]
  | stopCheck =>
    simp only [hpc] at h
    split at h
    · cases h
      refine ⟨X', ⟨S.reads, S.retries, S.clients, S.completed⟩,
        ⟨fun k => ?_, by simp [pastReads], by simp⟩⟩
      rw [Q.split k]; simp [hand, hpc]
    · cases h
      refine ⟨X', ⟨S.reads, S.retries, S.clients, S.completed⟩,
        ⟨fun k => ?_, fun _ => Q.window (.inl hpc), by simp⟩⟩
      rw [Q.split k]; simp [hand, hpc]
  | reqDeq =>
    simp only [hpc] at h
    split at h
    · rename_i r rest hr
      cases h
      exact inv_take ⟨X, S, Q⟩ hpc hr
    · cases h
      refine ⟨X', ⟨S.reads, S.retries, S.clients, S.completed⟩,
        ⟨fun k => ?_, by simp [pastReads], by simp⟩⟩
      rw [Q.split k]; simp [hand, hpc]
  | indexDel r =>
    simp only [hpc] at h
    split at h
    · cases h
    · cases h; exact inv_unindex ⟨X, S, Q⟩ hpc
  | dispatch r =>
    simp only [hpc, some.injEq] at h; subst h
    refine ⟨X', ⟨S.reads, S.retries, S.clients, S.completed⟩,
      ⟨fun k => ?_, by simp [pastReads], by simp⟩⟩
    rw [Q.split k]; simp [hand, hpc]

/-! ## Runs -/

theorem inv_step {cfg : Cfg} {s s' : St κ} {l : Lbl κ} (I : Inv s) (hok : calm cfg s l)
    (h : step cfg s l = some s') : Inv s' := by
  cases l with
  | call c r =>
    simp only [step] at h
    split at h
    · rename_i hc; cases h
      exact inv_at I (by rw [hc]; simp) (entry_ne_enqW r) (entry_ok r)
    · cases h
  | client c => exact inv_client I hok h
  | main stop => exact inv_main I h
  | assignTry r =>
    simp only [step] at h
    split at h
    · rename_i hr; cases h
      refine ⟨⟨I.indexed.sound, I.indexed.complete, I.indexed.nodup, I.indexed.main_only,
        I.indexed.hand_only⟩, ⟨I.sorted.reads, fun r' hr' => ?_, I.sorted.clients, I.sorted.completed⟩,
        ⟨I.queued.split, I.queued.window, I.queued.taken⟩⟩
      simp only [mem_append, mem_singleton] at hr'
      rcases hr' with h | rfl
      · exact I.sorted.retries r' h
      · exact hr.1
    · cases h
  | flags force sync =>
    cases h
    exact ⟨⟨I.indexed.sound, I.indexed.complete, I.indexed.nodup, I.indexed.main_only,
      I.indexed.hand_only⟩, ⟨I.sorted.reads, I.sorted.retries, I.sorted.clients, I.sorted.completed⟩,
      ⟨I.queued.split, I.queued.window, I.queued.taken⟩⟩

theorem calm_inductive (cfg : Cfg) :
    ((queueLTS (κ := κ) cfg).restrict (calm cfg)).Inductive Inv where
  init := by rintro s rfl; exact inv_init
  step := by
    intro s l s' I hs
    exact inv_step I hs.2 hs.1

/-- Along every calm run the mutations of each key reach the algorithm in
order, and the last one submitted is the last to reach it. -/
theorem in_order (cfg : Cfg) (tr : List (Lbl κ)) (s : St κ)
    (h : ((queueLTS cfg).restrict (calm cfg)).Exec tr s) : InOrder s :=
  (h.inv (calm_inductive cfg)).inOrder

/-- The rounds of `p_main` in a test run. -/
def mains (n : Nat) : List (Lbl Nat) := replicate n (.main false)

/-- A SET and, once it was taken, a DELETE of its key. -/
theorem in_order_set_delete :
    ∃ tr s, ((queueLTS (κ := Nat) settings).restrict (calm settings)).Exec tr s ∧
      s.dispatched = [⟨0, 7, .set 5⟩, ⟨1, 7, .delete⟩] ∧ InOrder s := by
  let ls : List (Lbl Nat) := [.call 0 ⟨0, 7, .set 5⟩, .client 0, .client 0] ++ mains 7 ++
    [.call 1 ⟨1, 7, .delete⟩, .client 1] ++ mains 5
  obtain ⟨s, hE, hd⟩ := Core.LTS.Exec.check (T := (queueLTS settings).restrict (calm settings))
    (some .init) (calm settings) ls (fun s => s.dispatched = [⟨0, 7, .set 5⟩, ⟨1, 7, .delete⟩])
    (fun s l s' hl hs => ⟨hs, hl⟩) (fun _ h => some.inj h.symm) (by decide +kernel)
  exact ⟨_, s, hE, hd, in_order settings _ s hE⟩

/-- What a finished run of client 0 alone shows. -/
def idleAfter (s : St Nat) : Bool :=
  s.reqQ == [] && s.reqRq == [] && s.retryQ == [] && s.clients 0 == .idle && s.pc == .idle

theorem drained_of_run {ls : List (Lbl Nat)} {s : St Nat} (hl : ∀ l ∈ ls, l.who = some 0 ∨ l.who = none)
    (h : Core.LTS.run (step settings) (fun _ _ => true) ls .init = some s) (hi : idleAfter s = true) : Drained s := by
  simp only [idleAfter, Bool.and_eq_true, beq_iff_eq] at hi
  obtain ⟨⟨⟨⟨h1, h2⟩, h3⟩, h4⟩, h5⟩ := hi
  refine ⟨h1, h2, h3, fun c => ?_, h5⟩
  by_cases hc : c = 0
  · rw [hc, h4]
  · refine run_clients h fun l hm => ?_
    rcases hl l hm with h | h <;> rw [h] <;> simp [Ne.symm hc]

/-- Two runs of one client that end drained and out of order. In the first a
DELETE overtakes the SET submitted before it; in the second the newer of two
SETs is ended without a trace. -/
theorem out_of_order :
    (∃ tr s, (queueLTS (κ := Nat) settings).Exec tr s ∧ Drained s ∧
      s.submitted = [⟨0, 7, .set 5⟩, ⟨1, 7, .delete⟩] ∧
      s.dispatched = [⟨1, 7, .delete⟩, ⟨0, 7, .set 5⟩] ∧ ¬ InOrder s) ∧
    (∃ tr s, (queueLTS (κ := Nat) settings).Exec tr s ∧ Drained s ∧
      s.submitted = [⟨0, 7, .set 5⟩, ⟨1, 7, .set 6⟩] ∧ s.dispatched = [⟨0, 7, .set 5⟩] ∧
      s.completed = [⟨1, 7, .set 6⟩] ∧ ¬ InOrder s) := by
  let ls1 : List (Lbl Nat) := [.call 0 ⟨0, 7, .set 5⟩, .client 0, .client 0,
    .call 0 ⟨1, 7, .delete⟩, .client 0] ++ mains 11
  let ls2 : List (Lbl Nat) := [.call 0 ⟨0, 7, .set 5⟩, .client 0, .client 0,
    .call 0 ⟨1, 7, .set 6⟩, .client 0] ++ mains 7
  have h1 : (Core.LTS.run (step settings) (fun _ _ => true) ls1 .init).any fun s => idleAfter s &&
      s.submitted == [⟨0, 7, .set 5⟩, ⟨1, 7, .delete⟩] &&
      s.dispatched == [⟨1, 7, .delete⟩, ⟨0, 7, .set 5⟩] := by decide +kernel
  have h2 : (Core.LTS.run (step settings) (fun _ _ => true) ls2 .init).any fun s => idleAfter s &&
      s.submitted == [⟨0, 7, .set 5⟩, ⟨1, 7, .set 6⟩] && s.dispatched == [⟨0, 7, .set 5⟩] &&
      s.completed == [⟨1, 7, .set 6⟩] := by decide +kernel
  obtain ⟨s1, hs1, hd1⟩ := (any_eq_true _ _).mp h1
  obtain ⟨s2, hs2, hd2⟩ := (any_eq_true _ _).mp h2
  simp only [Bool.and_eq_true, beq_iff_eq] at hd1 hd2
  have hE : ∀ ls s, Core.LTS.run (step settings) (fun _ _ => true) ls .init = some s →
      (queueLTS (κ := Nat) settings).Exec ([] ++ ls) s := fun ls s hs =>
    Core.LTS.Exec.run (fun _ _ _ _ hs => hs) (.init rfl) hs
  refine ⟨⟨_, s1, hE _ _ hs1, drained_of_run (by decide) hs1 hd1.1.1, hd1.1.2, hd1.2, fun h => ?_⟩,
    ⟨_, s2, hE _ _ hs2, drained_of_run (by decide) hs2 hd2.1.1.1, hd2.1.1.2, hd2.1.2, hd2.2,
      fun h => ?_⟩⟩
  · have := h.order 7
    rw [hd1.2, hd1.1.2] at this
    revert this; decide
  · have := h.last (drained_of_run (by decide) hs2 hd2.1.1.1) 7
    rw [hd2.1.2, hd2.1.1.2] at this
    revert this; decide

end FlashDriver.Interface
