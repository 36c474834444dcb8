import FlashDriver.Demand.System

/-!
# What the operations of the demand FTL do

One lemma for each function that the invariants go through: which fields it
leaves alone, whom it queues, and what becomes of the page. `St.out` lists
everyone who is in hand, in a queue, on the device or dropped; the only other
place to wait is the `retry_q` of a translation page.
-/
namespace FlashDriver.Demand

open List Option Function

variable {κ υ ω : Type}

/-! ## The cache -/

section Cache

variable {cfg : Cfg} {c c' : Cache ω} {lpa t : Nat} {w : ω}

/-- `w` joins the `retry_q` of page `i`. -/
def Cache.park (c : Cache ω) (i : Nat) (w : ω) : Cache ω :=
  c.setCmt i { c.cmt i with retryQ := (c.cmt i).retryQ ++ [w] }

/-- A load of page `i` has been issued. -/
def Cache.fly (c : Cache ω) (i : Nat) : Cache ω := c.setCmt i { c.cmt i with isFlying := true }

theorem park_pages (c : Cache ω) (j : Nat) (w : ω) (i : Nat) :
    ((c.park j w).cmt i).isFlying = (c.cmt i).isFlying ∧
    ((c.park j w).cmt i).pt = (c.cmt i).pt ∧
    ((c.park j w).cmt i).retryQ = (c.cmt i).retryQ ++ if i = j then [w] else [] := by
  unfold Cache.park Cache.setCmt
  by_cases hi : i = j
  · subst hi
    simp
  · simp [hi]

theorem fly_pages (c : Cache ω) (j i : Nat) :
    ((c.fly j).cmt i).isFlying = ((c.cmt i).isFlying || i == j) ∧
    ((c.fly j).cmt i).retryQ = (c.cmt i).retryQ ∧ ((c.fly j).cmt i).pt = (c.cmt i).pt := by
  unfold Cache.fly Cache.setCmt
  by_cases hi : i = j
  · subst hi
    simp
  · simp [hi]

theorem wait_cases {r : Option (Cache ω)} (h : cgWaitIfFlying cfg c lpa w = some r) :
    (c.cmt (cfg.idx lpa)).isFlying = true ∧
      (r = none ∧ (c.cmt (cfg.idx lpa)).retryQ.length = cfg.flushSize ∨
        r = some (c.park (cfg.idx lpa) w)) := by
  simp only [cgWaitIfFlying, qEnqueue] at h
  split at h
  · rename_i hf
    refine ⟨hf, ?_⟩
    split at h
    · rename_i hl
      cases h
      exact .inl ⟨rfl, hl⟩
    · cases h
      exact .inr rfl
  · cases h

theorem wait_none (h : cgWaitIfFlying cfg c lpa w = none) :
    (c.cmt (cfg.idx lpa)).isFlying = false := by
  simp only [cgWaitIfFlying] at h
  split at h
  · cases h
  · rename_i hf
    simpa using hf

theorem load_cases (h : cgLoad cfg c lpa = some (t, c')) :
    (c.cmt (cfg.idx lpa)).tPpa = some t ∧ c' = c.fly (cfg.idx lpa) := by
  simp only [cgLoad, map_eq_some_iff, Prod.mk.injEq] at h
  obtain ⟨t', ht, rfl, rfl⟩ := h
  exact ⟨ht, rfl⟩

/-- What `cg_list_up` leaves of each page record, and what it does to the page
it caches. -/
structure ListsUp (cfg : Cfg) (c : Cache ω) (lpa : Nat) (r : Listed ω) : Prop where
  table : r.cache.memTable = c.memTable
  pt : (r.cache.cmt (cfg.idx lpa)).pt = true
  flying : (r.cache.cmt (cfg.idx lpa)).isFlying = false
  landed : (c.cmt (cfg.idx lpa)).isFlying = true →
    r.woken = (c.cmt (cfg.idx lpa)).retryQ ∧ (r.cache.cmt (cfg.idx lpa)).retryQ = []
  quiet : (c.cmt (cfg.idx lpa)).isFlying = false →
    r.woken = [] ∧ (r.cache.cmt (cfg.idx lpa)).retryQ = (c.cmt (cfg.idx lpa)).retryQ
  others : ∀ i, i ≠ cfg.idx lpa → (r.cache.cmt i).isFlying = (c.cmt i).isFlying ∧
    (r.cache.cmt i).retryQ = (c.cmt i).retryQ ∧
    ((c.cmt i).pt = false → (r.cache.cmt i).pt = false)

theorem evict_cases {wrote : Option Nat} (h : cgEvict cfg c t = some (wrote, c')) :
    c'.memTable = c.memTable ∧ ∀ i, (c'.cmt i).isFlying = (c.cmt i).isFlying ∧
      (c'.cmt i).retryQ = (c.cmt i).retryQ ∧
      ((c.cmt i).pt = false → (c'.cmt i).pt = false) := by
  have hset : ∀ (c : Cache ω) v (m : Cmt ω), m.isFlying = (c.cmt v).isFlying →
      m.retryQ = (c.cmt v).retryQ → m.pt = false → ∀ i,
      (update c.cmt v m i).isFlying = (c.cmt i).isFlying ∧
      (update c.cmt v m i).retryQ = (c.cmt i).retryQ ∧
      ((c.cmt i).pt = false → (update c.cmt v m i).pt = false) := by
    intro c v m h1 h2 h3 i
    by_cases hi : i = v
    · subst hi
      simp [h1, h2, h3]
    · simp [update_of_ne hi]
  unfold cgEvict at h
  split at h
  · split at h
    · cases h
    · rename_i v _
      simp only at h
      split at h <;> cases h
      · exact ⟨rfl, hset c v _ rfl rfl rfl⟩
      · exact ⟨rfl, hset c v _ rfl rfl rfl⟩
  · cases h
    exact ⟨rfl, fun i => ⟨rfl, rfl, id⟩⟩

theorem listUp_spec {r : Listed ω} (h : cgListUp cfg c lpa t = some r) : ListsUp cfg c lpa r := by
  simp only [cgListUp, map_eq_some_iff, Prod.exists] at h
  obtain ⟨wrote, c', he, rfl⟩ := h
  obtain ⟨hm, hp⟩ := evict_cases he
  obtain ⟨hfl, hq, -⟩ := hp (cfg.idx lpa)
  unfold cgInsert
  simp only [hfl]
  split
  · rename_i hf
    refine ⟨hm, by simp [Cache.setCmt], by simp [Cache.setCmt], fun _ => ⟨hq, ?_⟩, ?_, ?_⟩
    · simp [Cache.setCmt]
    · intro hf'
      rw [hf] at hf'
      cases hf'
    · intro i hi
      simpa [Cache.setCmt, update_of_ne hi] using hp i
  · rename_i hf
    refine ⟨hm, by simp [Cache.setCmt], by simpa [Cache.setCmt, hfl] using hf, ?_, ?_, ?_⟩
    · intro hf'
      exact absurd hf' hf
    · intro _
      exact ⟨rfl, by simpa [Cache.setCmt] using hq⟩
    · intro i hi
      simpa [Cache.setCmt, update_of_ne hi] using hp i

theorem update_cases (cfg : Cfg) (c : Cache ω) (lpa ppa : Nat) :
    (cgUpdate cfg c lpa ppa).memTable = update c.memTable lpa (some ppa) ∧
    ∀ i, ((cgUpdate cfg c lpa ppa).cmt i).isFlying = (c.cmt i).isFlying ∧
      ((cgUpdate cfg c lpa ppa).cmt i).retryQ = (c.cmt i).retryQ ∧
      ((cgUpdate cfg c lpa ppa).cmt i).pt = (c.cmt i).pt := by
  simp only [cgUpdate]
  split
  · refine ⟨rfl, fun i => ?_⟩
    by_cases hi : i = cfg.idx lpa
    · subst hi
      simp [Cache.setCmt]
    · simp [Cache.setCmt, update_of_ne hi]
  · exact ⟨rfl, fun i => ⟨rfl, rfl, rfl⟩⟩

/-- `nr_cached_tpages` is the length of the LRU list. -/
def Cache.Counted (c : Cache ω) : Prop := c.nrCached = c.lru.length

theorem length_lruUpdate (lru : List Nat) (i : Nat) : (lruUpdate lru i).length = lru.length := by
  unfold lruUpdate
  split
  · rename_i hi
    rw [length_cons, length_erase_of_mem hi]
    exact Nat.succ_pred_eq_of_pos (length_pos_of_mem hi)
  · rfl

theorem counted_update (h : c.Counted) (lpa ppa : Nat) : (cgUpdate cfg c lpa ppa).Counted := by
  simp only [cgUpdate]
  split
  · exact h.trans (length_lruUpdate _ _).symm
  · exact h

theorem counted_listUp {r : Listed ω} (h : c.Counted) (hr : cgListUp cfg c lpa t = some r) :
    r.cache.Counted := by
  simp only [cgListUp, map_eq_some_iff, Prod.exists] at hr
  obtain ⟨wrote, c', he, rfl⟩ := hr
  have hc : c'.Counted := by
    unfold cgEvict at he
    split at he
    · split at he
      · cases he
      · have hlen : c.nrCached - 1 = c.lru.dropLast.length := by
          rw [length_dropLast, h]
        simp only at he
        split at he <;> cases he <;> exact hlen
    · cases he
      exact h
  unfold cgInsert
  simp only
  split <;> exact congrArg (· + 1) hc

theorem listUp_total (cfg : Cfg) (h : c.Counted) (lpa t : Nat) : ∃ r, cgListUp cfg c lpa t = some r := by
  have he : ∃ x, cgEvict cfg c t = some x := by
    unfold cgEvict
    split
    · rename_i hf
      split
      · rename_i hl
        rw [getLast?_eq_none_iff] at hl
        have := cfg.maxCached_pos
        rw [cgIsFull, h, hl] at hf
        exact absurd (of_decide_eq_true hf) (Nat.not_le_of_lt this)
      · simp only
        split <;> exact ⟨_, rfl⟩
    · exact ⟨_, rfl⟩
  obtain ⟨x, hx⟩ := he
  exact ⟨_, by rw [cgListUp, hx]; rfl⟩

end Cache

/-! ## Queues -/

/-- Everyone in hand, queued, on the device or dropped. -/
def St.out (s : St κ υ) : List (Waiter κ) :=
  (s.cur.map .entry).toList ++ s.masterQ ++ s.retryQ ++ s.rq ++ s.dev.map Op.owner ++ s.lost

section Queues

variable [DecidableEq κ] {sys : Sys κ} {s s' : St κ υ} {w : Waiter κ}

omit [DecidableEq κ] in
theorem retry_form (sys : Sys κ) (s : St κ υ) (w : Waiter κ) :
    ∃ q r l, s.retry sys w = { s with retryQ := q, rq := r, lost := l } := by
  unfold St.retry
  split <;> split <;> exact ⟨_, _, _, rfl⟩

omit [DecidableEq κ] in
theorem restart_form (sys : Sys κ) (s : St κ υ) (w : Waiter κ) :
    ∃ q l, s.restart sys w = { s with masterQ := q, lost := l } := by
  unfold St.restart
  split <;> exact ⟨_, _, rfl⟩

theorem count_issue (op : Op κ) (x : Waiter κ) :
    (s.issue op).out.count x = s.out.count x + [op.owner].count x := by
  simp only [St.issue, St.out, map_append, map_cons, map_nil, count_append]
  omega

theorem count_drop (x : Waiter κ) : (s.drop w).out.count x = s.out.count x + [w].count x := by
  simp only [St.drop, St.out, count_append]
  omega

theorem count_retry (x : Waiter κ) :
    (s.retry sys w).out.count x = s.out.count x + [w].count x := by
  unfold St.retry qEnqueue
  split <;> split <;> rename_i hq <;> split at hq <;> cases hq
  all_goals
    simp only [St.drop, St.out, count_append]
    omega

theorem count_restart (x : Waiter κ) :
    (s.restart sys w).out.count x = s.out.count x + [w].count x := by
  unfold St.restart qEnqueue
  split <;> rename_i hq <;> split at hq <;> cases hq
  all_goals
    simp only [St.drop, St.out, count_append]
    omega

@[simp] theorem lpa_setJump (j : Option Jump) (x : Waiter κ) :
    (s.setJump w j).lpa sys x = s.lpa sys x := by
  by_cases hx : x = w
  · subst hx
    simp [St.lpa, St.setJump, St.setCtx]
  · simp [St.lpa, St.setJump, St.setCtx, update_of_ne hx]

/-- `wake` only queues the waiters, with `GOTO_COMPLETE`. -/
structure Woke (sys : Sys κ) (lead : Waiter κ) (ws : List (Waiter κ)) (s s' : St κ υ) : Prop where
  form : ∃ x q r l, s' = { s with ctx := x, retryQ := q, rq := r, lost := l }
  cnt : ∀ x, (s'.ctx x).cnt = (s.ctx x).cnt
  jump : ∀ x, (s'.ctx x).jump = if x ∈ ws then some .complete else (s.ctx x).jump
  count : ∀ x, s'.out.count x = s.out.count x + ws.count x
  kind : ∀ x ∈ ws, x.isEntry = lead.isEntry
  entries : lead.isEntry = true → s'.rq = s.rq ∧ (s.retryQ.length + ws.length ≤ sys.flushSize →
      s'.retryQ = s.retryQ ++ ws ∧ s'.lost = s.lost)
  reads : lead.isEntry = false → s'.retryQ = s.retryQ ∧ ∀ x ∈ s'.rq, x ∈ s.rq ∨ x ∈ ws

omit [DecidableEq κ] in
theorem retry_entry (sys : Sys κ) (k : κ) (s : St κ υ) : (s.retry sys (.entry k)).rq = s.rq ∧
    (s.retryQ.length < sys.flushSize → s.retry sys (.entry k) =
      { s with retryQ := s.retryQ ++ [.entry k] }) := by
  simp only [St.retry, qEnqueue]
  split
  · rename_i q hq
    split at hq
    · cases hq
    · cases hq
      exact ⟨rfl, fun _ => rfl⟩
  · rename_i hq
    split at hq
    · rename_i hl
      exact ⟨rfl, fun hlt => absurd hl (ne_of_lt hlt)⟩
    · cases hq

omit [DecidableEq κ] in
theorem retry_read (sys : Sys κ) (i : Nat) (k : κ) (s : St κ υ) :
    ∃ r l, r ++ l = [.read i k] ∧
      s.retry sys (.read i k) = { s with rq := s.rq ++ r, lost := s.lost ++ l } := by
  simp only [St.retry, qEnqueue]
  split
  · rename_i q hq
    split at hq
    · cases hq
    · cases hq
      exact ⟨[.read i k], [], rfl, by simp⟩
  · exact ⟨[], [.read i k], rfl, by simp [St.drop]⟩

theorem Woke.cons {lead : Waiter κ} {ws : List (Waiter κ)} (hk : w.isEntry = lead.isEntry)
    (h : Woke sys lead ws ((s.setJump w (some .complete)).retry sys w) s') :
    Woke sys lead (w :: ws) s s' := by
  obtain ⟨⟨x', q', r', l', hform⟩, hcnt, hjump, hcount, hkind, hent, hread⟩ := h
  obtain ⟨q, r, l, hr⟩ := retry_form sys (s.setJump w (some .complete)) w
  have hctx : ((s.setJump w (some .complete)).retry sys w).ctx =
      update s.ctx w ⟨(s.ctx w).cnt, some .complete⟩ := by
    rw [hr]
    rfl
  constructor
  case form => exact ⟨x', q', r', l', by rw [hform, hr]; rfl⟩
  case cnt =>
    intro x
    rw [hcnt, hctx]
    by_cases hx : x = w
    · subst hx
      simp
    · simp [update_of_ne hx]
  case jump =>
    intro x
    rw [hjump, hctx]
    by_cases hx : x = w
    · subst hx
      simp
    · simp [hx]
  case count =>
    intro x
    rw [hcount, count_retry]
    have : (s.setJump w (some .complete)).out = s.out := rfl
    simp only [this, count_cons, count_nil]
    omega
  case kind =>
    intro x hx
    rcases mem_cons.mp hx with hx | hx
    · rw [hx, hk]
    · exact hkind x hx
  case entries =>
    intro hl
    cases w with
    | read i k =>
      rw [← hk] at hl
      cases hl
    | entry k =>
      obtain ⟨hrq, hfit⟩ := retry_entry sys k (s.setJump (.entry k) (some .complete))
      obtain ⟨h1, h2⟩ := hent hl
      refine ⟨h1.trans hrq, fun hlen => ?_⟩
      rw [length_cons] at hlen
      have hfit := hfit (show s.retryQ.length < sys.flushSize by omega)
      rw [hfit] at h2
      obtain ⟨h3, h4⟩ := h2 (by
        rw [length_append, length_singleton]
        exact (by omega : s.retryQ.length + 1 + ws.length ≤ sys.flushSize))
      exact ⟨h3.trans (append_assoc _ _ _), h4⟩
  case reads =>
    intro hl
    cases w with
    | read i k =>
      obtain ⟨r, l, hrl, hs⟩ := retry_read sys i k (s.setJump (.read i k) (some .complete))
      obtain ⟨h1, h2⟩ := hread hl
      rw [hs] at h1 h2
      refine ⟨h1, fun x hx => ?_⟩
      rcases h2 x hx with hx | hx
      · rcases mem_append.mp hx with hx | hx
        · exact .inl hx
        · have : x ∈ r ++ l := mem_append_left _ hx
          rw [hrl] at this
          exact .inr (mem_cons.mpr (.inl (mem_singleton.mp this)))
      · exact .inr (.tail _ hx)
    | entry k =>
      rw [← hk] at hl
      cases hl

theorem wake_spec {lead : Waiter κ} : ∀ (ws : List (Waiter κ)) {s s' : St κ υ},
    wake sys lead ws s = some s' → Woke sys lead ws s s'
  | [], s, s', h => by
    cases h
    exact ⟨⟨_, _, _, _, rfl⟩, fun _ => rfl, fun _ => by simp, fun _ => by simp, by simp,
      fun _ => ⟨rfl, fun _ => by simp⟩, fun _ => ⟨rfl, fun _ => .inl⟩⟩
  | w :: ws, s, s', h => by
    rw [wake] at h
    split at h
    · rename_i hk
      exact (wake_spec ws h).cons hk
    · cases h

/-! ## Waiting for a page -/

/-- The translation page `w` is at. -/
def St.page (sys : Sys κ) (s : St κ υ) (w : Waiter κ) : Nat := sys.idx (s.lpa sys w)

theorem waitOrLoad_cases (h : waitOrLoad sys s w = some s') :
    ((s.cache.cmt (s.page sys w)).isFlying = true ∧
      (s' = s.drop w ∧ (s.cache.cmt (s.page sys w)).retryQ.length = sys.flushSize ∨
        s' = { s with cache := s.cache.park (s.page sys w) w })) ∨
    ((s.cache.cmt (s.page sys w)).isFlying = false ∧
      ∃ t, (s.cache.cmt (s.page sys w)).tPpa = some t ∧
        s' = { (s.setJump w (some .list)).issue (.mapRead w t) with
          cache := s.cache.fly (s.page sys w) }) := by
  unfold waitOrLoad at h
  split at h
  · rename_i c hc
    cases h
    obtain ⟨hf, ⟨hc, -⟩ | hc⟩ := wait_cases hc
    · cases hc
    · rw [some.inj hc]
      exact .inl ⟨hf, .inr rfl⟩
  · rename_i hc
    cases h
    obtain ⟨hf, ⟨-, hl⟩ | hc⟩ := wait_cases hc
    · exact .inl ⟨hf, .inl ⟨rfl, hl⟩⟩
    · cases hc
  · rename_i hc
    rw [map_eq_some_iff] at h
    obtain ⟨⟨t, c⟩, hl, rfl⟩ := h
    obtain ⟨ht, rfl⟩ := load_cases hl
    exact .inr ⟨wait_none hc, t, ht, rfl⟩

theorem waitOrLoad_none (h : waitOrLoad sys s w = none) :
    (s.cache.cmt (s.page sys w)).isFlying = false ∧ (s.cache.cmt (s.page sys w)).tPpa = none := by
  unfold waitOrLoad at h
  split at h
  · cases h
  · cases h
  · rename_i hc
    refine ⟨wait_none hc, ?_⟩
    rw [map_eq_none_iff] at h
    simpa [cgLoad, St.page] using h

theorem waitOrLoad_load {t : Nat} (hf : (s.cache.cmt (s.page sys w)).isFlying = false)
    (ht : (s.cache.cmt (s.page sys w)).tPpa = some t) :
    waitOrLoad sys s w = some { (s.setJump w (some .list)).issue (.mapRead w t) with
      cache := s.cache.fly (s.page sys w) } := by
  cases hw : waitOrLoad sys s w with
  | none =>
    have := (waitOrLoad_none hw).2
    rw [ht] at this
    cases this
  | some s' =>
    rcases waitOrLoad_cases hw with ⟨hf', -⟩ | ⟨-, t', ht', rfl⟩
    · rw [hf] at hf'
      cases hf'
    · rw [some.inj (ht.symm.trans ht')]

/-- What `list_up` on behalf of `w` leaves: the cache has done its part (`r`),
those woken are queued, and `w` is on the device exactly if a page is written
back. -/
structure ListedUp (sys : Sys κ) (w : Waiter κ) (r : Listed (Waiter κ)) (s s' : St κ υ) : Prop where
  form : ∃ x d q rq l, s' =
    { s with cache := r.cache, ctx := x, dev := d, retryQ := q, rq := rq, lost := l }
  dev : s'.dev = s.dev ++ (r.wrote.map (Op.mapWrite w)).toList
  cnt : ∀ x, (s'.ctx x).cnt = (s.ctx x).cnt
  jump : ∀ x, (s'.ctx x).jump = if x ∈ r.woken ∨ x = w ∧ r.wrote.isSome then some .complete
    else (s.ctx x).jump
  count : ∀ x, { s' with dev := s.dev }.out.count x = s.out.count x + r.woken.count x
  kind : ∀ x ∈ r.woken, x.isEntry = w.isEntry
  entries : w.isEntry = true → s'.rq = s.rq ∧ (s.retryQ.length + r.woken.length ≤ sys.flushSize →
      s'.retryQ = s.retryQ ++ r.woken ∧ s'.lost = s.lost)
  reads : w.isEntry = false → s'.retryQ = s.retryQ ∧ ∀ x ∈ s'.rq, x ∈ s.rq ∨ x ∈ r.woken

theorem listUp_cases {t : Nat} {rc : Bool} (h : listUp sys s w t = some (rc, s')) :
    ∃ r, cgListUp sys.toCfg s.cache (s.lpa sys w) t = some r ∧ rc = r.wrote.isSome ∧
      ListedUp sys w r s s' := by
  unfold listUp at h
  split at h
  · cases h
  · rename_i r hr
    refine ⟨r, hr, ?_⟩
    simp only at h
    split at h
    · rename_i t' ht
      simp only [map_eq_some_iff, Prod.mk.injEq] at h
      obtain ⟨s2, hw, rfl, rfl⟩ := h
      obtain ⟨⟨x', q, rq, l, hf⟩, hcnt, hjump, hcount, hkind, hent, hread⟩ := wake_spec _ hw
      have hctx : ∀ x, (({ s with cache := r.cache }.setJump w (some .complete)).issue
          (.mapWrite w t')).ctx x = if x = w then ⟨(s.ctx w).cnt, some .complete⟩ else s.ctx x :=
        fun x => update_apply _ _ _ x
      refine ⟨by rw [ht]; rfl, ⟨x', s.dev ++ [.mapWrite w t'], q, rq, l, by rw [hf]; rfl⟩,
        by rw [hf, ht]; rfl, fun x => ?_, fun x => ?_, fun x => ?_, hkind, hent, hread⟩
      · rw [hcnt, hctx]
        split
        · rename_i hx
          rw [hx]
        · rfl
      · rw [hjump, hctx, ht]
        by_cases hx : x = w
        · simp [hx]
        · simp [hx]
      · have := hcount x
        rw [count_issue] at this
        rw [hf] at this ⊢
        simp only [St.out, St.issue, St.setJump, St.setCtx, map_append, map_cons,
          map_nil, count_append] at this ⊢
        omega
    · rename_i ht
      simp only [map_eq_some_iff, Prod.mk.injEq] at h
      obtain ⟨s2, hw, rfl, rfl⟩ := h
      obtain ⟨⟨x', q, rq, l, hf⟩, hcnt, hjump, hcount, hkind, hent, hread⟩ := wake_spec _ hw
      refine ⟨by rw [ht]; rfl, ⟨x', s.dev, q, rq, l, by rw [hf]⟩, by rw [hf, ht]; simp, hcnt,
        fun x => ?_, fun x => ?_, hkind, hent, hread⟩
      · rw [hjump, ht]
        simp
      · have := hcount x
        rw [hf] at this ⊢
        exact this

end Queues

/-! ## Steps -/

section Steps

variable [LinearOrder κ] {sys : Sys κ} {s s' : St κ υ}

theorem endReq_form (sys : Sys κ) (s : St κ υ) (op : Op κ) : ∃ x m q r l d, demandEndReq sys s op =
    { s with ctx := x, masterQ := m, retryQ := q, rq := r, lost := l, done := d } := by
  have hretry : ∀ (s1 : St κ υ) w, (∃ x, s1 = { s with ctx := x }) → ∃ x m q r l d, s1.retry sys w =
        { s with ctx := x, masterQ := m, retryQ := q, rq := r, lost := l, done := d } := by
    intro s1 w ⟨x, hx⟩
    obtain ⟨q, r, l, hr⟩ := retry_form sys s1 w
    exact ⟨x, s.masterQ, q, r, l, s.done, by rw [hr, hx]⟩
  match op with
  | .dataRead (.read i k) p =>
    simp only [demandEndReq]
    split
    · split
      · exact ⟨_, _, _, _, _, _, rfl⟩
      · exact hretry _ _ ⟨_, rfl⟩
    · exact hretry _ _ ⟨_, rfl⟩
  | .dataRead (.entry k) p =>
    simp only [demandEndReq]
    split
    · exact hretry _ _ ⟨_, rfl⟩
    · obtain ⟨q, l, hr⟩ := restart_form sys (s.bump (.entry k)) (.entry k)
      exact ⟨_, q, _, _, l, _, hr⟩
  | .mapRead w t => exact hretry s w ⟨_, rfl⟩
  | .mapWrite w t => exact hretry s w ⟨_, rfl⟩

/-- What each step does, and when. -/
inductive Step (sys : Sys κ) (s : St κ υ) : Lbl κ υ → St κ υ → Prop
  | read {k t s'} (hf : s.flushing = none)
      (h : demandRead sys (s.arrive k) s.nextId k t = some s') : Step sys s (.read k t) s'
  | resume {t i k q s'} (hf : s.flushing = none) (hq : s.rq = .read i k :: q)
      (h : demandRead sys { s with rq := q } i k t = some s') : Step sys s (.resume t) s'
  | write {k v} (hf : s.flushing = none) :
      Step sys s (.write k v) { s with wb := wbInsert k v s.wb }
  | flush {k v assign} (hf : s.flushing = none) (hl : s.wb.length = sys.flushSize) :
      Step sys s (.flush k v assign) (beginFlush s (k, v) assign)
  | take {s' : St κ υ} (hc : s.cur = none) (h : takeEntry s = some s') : Step sys s .take s'
  | probe {k t s'} (hc : s.cur = some k) (h : wbProbe sys s k t = some s') :
      Step sys s (.probe t) s'
  | finish {k v} (hf : s.flushing = some (k, v)) (hu : sys.flushSize ≤ s.updated.length)
      (hd : s.dev = []) :
      Step sys s .finish { endFlush s with wb := wbInsert k v (endFlush s).wb }
  | complete {n op} (hn : s.dev[n]? = some op) :
      Step sys s (.complete n) (demandEndReq sys { s with dev := s.dev.eraseIdx n } op)

theorem step_cases {l : Lbl κ υ} (hs : step sys s l = some s') : Step sys s l s' := by
  cases l with
  | read k t =>
    simp only [step] at hs
    split at hs
    · cases hs
    · rename_i hf
      exact .read (by simpa using hf) hs
  | resume t =>
    simp only [step] at hs
    split at hs
    · rename_i hf hq
      exact .resume hf hq hs
    · cases hs
  | write k v =>
    simp only [step] at hs
    split at hs
    · cases hs
    · rename_i hn
      cases hs
      exact .write (by simpa using fun hf => hn (.inl hf))
  | flush k v assign =>
    simp only [step] at hs
    split at hs
    · rename_i hf
      cases hs
      exact .flush (isNone_iff_eq_none.mp hf.1) hf.2
    · cases hs
  | take =>
    simp only [step] at hs
    split at hs
    · rename_i hc
      exact .take hc.2.1 hs
    · cases hs
  | probe t =>
    simp only [step] at hs
    split at hs
    · rename_i hc
      exact .probe hc hs
    · cases hs
  | finish =>
    simp only [step] at hs
    split at hs
    · rename_i hf
      split at hs
      · rename_i hg
        cases hs
        exact .finish hf hg.2.1 hg.2.2.2.2
      · cases hs
    · cases hs
  | complete n =>
    simp only [step, map_eq_some_iff] at hs
    obtain ⟨op, hop, rfl⟩ := hs
    exact .complete hop

end Steps

end FlashDriver.Demand
