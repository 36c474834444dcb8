import FlashDriver.Core.Probing
import FlashDriver.Demand.Waiting

/-!
# The mapping table of the demand FTL as an open-addressing table

The flush probes the mapping table for many keys at once. An entry looks at its
slot, may have to read the page mapped there to see whose it is, and is resumed
in any order with the others. `hash_table` tells a slot that was taken earlier
in the same flush, whose page is not on flash yet, from one whose page can be
read.

* `Probed`: the invariant. Every mapped slot has an owner, the owners form an
  open-addressing table, and everyone has passed only slots that others own.
* `probed_inductive`: every step keeps it.
-/
namespace FlashDriver.Demand

open List Option Function
open Core.Probing

variable {κ υ : Type} {sys : Sys κ} {s s' s'' : St κ υ} {w : Waiter κ} {k : κ} {lpa p t : Nat}

/-! ## Owners -/

/-- The entry or the page on flash that belongs at `p`. The pages of a flush are
written when it ends. -/
def St.dataAt (s : St κ υ) (p : Nat) : Option (κ × υ) :=
  if s.flushing.isSome then (s.wb.find? fun e => s.ppa e.1 = p).or (s.flash p) else s.flash p

def St.keyAt (s : St κ υ) (p : Nat) : Option κ := (s.dataAt p).map Prod.fst

/-- The key whose data slot `lpa` is mapped to. -/
def St.owner (s : St κ υ) (lpa : Nat) : Option κ := (s.cache.memTable lpa).bind s.keyAt

theorem owner_some (h : s.owner lpa = some k) :
    ∃ p, s.cache.memTable lpa = some p ∧ s.keyAt p = some k := by
  simpa [St.owner, bind_eq_some_iff] using h

theorem owner_of_mapped (h : s.cache.memTable lpa = some p) : s.owner lpa = s.keyAt p := by
  simp [St.owner, h]

theorem owner_of_free (h : s.cache.memTable lpa = none) : s.owner lpa = none := by
  simp [St.owner, h]

/-- `s` and `s'` differ in who waits where, not in what is mapped, who has
passed which slot or which data pages are being read. -/
structure Quiet (s s' : St κ υ) : Prop where
  table : s'.cache.memTable = s.cache.memTable
  counted : s.cache.Counted → s'.cache.Counted
  cnt : ∀ x, (s'.ctx x).cnt = (s.ctx x).cnt
  jump : ∀ x, (s'.ctx x).jump = some .update → (s.ctx x).jump = some .update
  dev : ∀ w p, .dataRead w p ∈ s'.dev → .dataRead w p ∈ s.dev
  rest : ∃ c x u m q r d l, s' = { s with
    cache := c, ctx := x, cur := u, masterQ := m, retryQ := q, rq := r, dev := d, lost := l }

theorem Quiet.refl (s : St κ υ) : Quiet s s :=
  ⟨rfl, id, fun _ => rfl, fun _ => id, fun _ _ => id, _, _, _, _, _, _, _, _, rfl⟩

theorem Quiet.trans (h : Quiet s s') (h' : Quiet s' s'') : Quiet s s'' := by
  obtain ⟨c, x, u, m, q, r, d, l, hs⟩ := h.rest
  obtain ⟨c', x', u', m', q', r', d', l', hs'⟩ := h'.rest
  refine ⟨h'.table.trans h.table, fun hc => h'.counted (h.counted hc), fun x => (h'.cnt x).trans (h.cnt x),
    fun x hx => h.jump x (h'.jump x hx), fun w p hp => h.dev w p (h'.dev w p hp),
    c', x', u', m', q', r', d', l', ?_⟩
  rw [hs', hs]

theorem Quiet.dataAt (h : Quiet s s') : s'.dataAt = s.dataAt := by
  obtain ⟨c, x, u, m, q, r, d, l, rfl⟩ := h.rest
  rfl

theorem Quiet.keyAt (h : Quiet s s') : s'.keyAt = s.keyAt := by
  funext p
  rw [St.keyAt, h.dataAt, St.keyAt]

theorem Quiet.owner (h : Quiet s s') : s'.owner = s.owner := by
  funext lpa
  rw [St.owner, h.table, h.keyAt, St.owner]

theorem Quiet.lpa_eq (h : Quiet s s') (w : Waiter κ) : s'.lpa sys w = s.lpa sys w := by
  rw [St.lpa, h.cnt, St.lpa]

theorem quiet_queues {u : Option κ} {m q r : List (Waiter κ)} {d : List (Op κ)}
    {l : List (Waiter κ)} (hd : ∀ op ∈ d, op ∈ s.dev) :
    Quiet s { s with cur := u, masterQ := m, retryQ := q, rq := r, dev := d, lost := l } :=
  ⟨rfl, id, fun _ => rfl, fun _ => id, fun _ _ => hd _, _, _, _, _, _, _, _, _, rfl⟩

theorem quiet_retry (sys : Sys κ) (s : St κ υ) (w : Waiter κ) : Quiet s (s.retry sys w) := by
  obtain ⟨q, r, l, h⟩ := retry_form sys s w
  rw [h]
  exact quiet_queues fun _ => id

theorem quiet_restart (sys : Sys κ) (s : St κ υ) (w : Waiter κ) : Quiet s (s.restart sys w) := by
  obtain ⟨q, l, h⟩ := restart_form sys s w
  rw [h]
  exact quiet_queues fun _ => id

section Jumps

variable [DecidableEq κ]

theorem quiet_setJump (s : St κ υ) (w : Waiter κ) {j : Option Jump} (hj : j ≠ some .update) :
    Quiet s (s.setJump w j) := by
  refine ⟨rfl, id, fun x => ?_, fun x hx => ?_, fun _ _ => id, _, _, _, _, _, _, _, _, rfl⟩
  · by_cases hw : x = w
    · subst hw
      simp [St.setJump, St.setCtx]
    · simp [St.setJump, St.setCtx, hw]
  · by_cases hw : x = w
    · subst hw
      simp [St.setJump, St.setCtx, hj] at hx
    · simpa [St.setJump, St.setCtx, hw] using hx

theorem quiet_waitOrLoad (h : waitOrLoad sys s w = some s') : Quiet s s' := by
  rcases waitOrLoad_cases h with ⟨-, ⟨rfl, -⟩ | rfl⟩ | ⟨-, t, -, rfl⟩
  · exact quiet_queues fun _ => id
  · exact ⟨rfl, id, fun _ => rfl, fun _ => id, fun _ _ => id, _, _, _, _, _, _, _, _, rfl⟩
  · have hj := quiet_setJump s w (j := some .list) (by simp)
    refine ⟨rfl, id, hj.cnt, hj.jump, fun w' p hp => ?_, _, _, _, _, _, _, _, _, rfl⟩
    rcases mem_append.mp hp with hp | hp
    · exact hp
    · simp at hp

theorem quiet_listUp {rc : Bool} (h : listUp sys s w t = some (rc, s')) : Quiet s s' := by
  obtain ⟨r, hr, -, hs⟩ := listUp_cases h
  obtain ⟨x, d, q, rq, l, hf⟩ := hs.form
  refine ⟨?_, fun hc => ?_, hs.cnt, fun x hx => ?_, fun w' p hp => ?_, ?_⟩
  · rw [hf]
    exact (listUp_spec hr).table
  · rw [hf]
    exact counted_listUp hc hr
  · rw [hs.jump] at hx
    split at hx
    · cases hx
    · exact hx
  · rw [hs.dev] at hp
    rcases mem_append.mp hp with hp | hp
    · exact hp
    · cases hw : r.wrote with
      | none => simp [hw] at hp
      | some t' => simp [hw] at hp
  · rw [hf]
    exact ⟨_, _, _, _, _, _, _, _, rfl⟩

end Jumps

/-! ## The invariant -/

/-- The bucket of `hash_table` that remembers a slot mapped to page `p`. -/
def Sys.bucket (sys : Sys κ) (p : Nat) : Nat := p % (sys.flushSize * 2)

structure Probed (sys : Sys κ) (s : St κ υ) : Prop where
  counted : s.cache.Counted
  table : Table sys.slot s.owner s.maxTry
  passed : ∀ w, Passed sys.slot s.owner w.key (s.ctx w).cnt
  owned : ∀ lpa p, s.cache.memTable lpa = some p → s.valid p = true ∧ ∃ k, s.keyAt p = some k
  matched : ∀ k, (s.ctx (.entry k)).jump = some .update → s.owner (s.lpa sys (.entry k)) = some k
  reads : ∀ w p, .dataRead w p ∈ s.dev →
    ∃ k, (s.flash p).map Prod.fst = some k ∧ s.owner (s.lpa sys w) = some k
  distinct : s.flushing.isSome → (s.wb.map fun e => s.ppa e.1).Nodup
  given : s.flushing.isSome → ∀ e ∈ s.wb, s.valid (s.ppa e.1) = true
  placed : s.flushing.isSome → ∀ e ∈ s.wb, ∀ lpa, s.cache.memTable lpa = some (s.ppa e.1) →
    e.1 ∈ s.updated ∧ lpa ∈ s.htable (sys.bucket (s.ppa e.1))
  marked : ∀ b, ∀ lpa ∈ s.htable b, s.flushing.isSome ∧
    ∃ k ∈ s.updated, s.cache.memTable lpa = some (s.ppa k)
  stored : s.flushing.isSome → ∀ k ∈ s.updated, ∃ lpa, s.cache.memTable lpa = some (s.ppa k)

theorem Probed.quiet (h : Probed sys s) (hq : Quiet s s') : Probed sys s' := by
  have ho := hq.owner
  have hk := hq.keyAt
  have hl : ∀ w, s'.lpa sys w = s.lpa sys w := hq.lpa_eq
  have ht := hq.table
  obtain ⟨c, x, u, m, q, r, d, l, hs⟩ := hq.rest
  have hpassed : ∀ w, Passed sys.slot s'.owner w.key (s'.ctx w).cnt := by
    intro w
    rw [ho, hq.cnt]
    exact h.passed w
  have howned : ∀ lpa p, s'.cache.memTable lpa = some p →
      s.valid p = true ∧ ∃ k, s'.keyAt p = some k := by
    intro lpa p hp
    rw [ht] at hp
    rw [hk]
    exact h.owned lpa p hp
  have hmatched : ∀ k, (s'.ctx (.entry k)).jump = some .update →
      s'.owner (s'.lpa sys (.entry k)) = some k := by
    intro k hj
    rw [ho, hl]
    exact h.matched k (hq.jump _ hj)
  have hreads : ∀ w p, .dataRead w p ∈ s'.dev →
      ∃ k, (s.flash p).map Prod.fst = some k ∧ s'.owner (s'.lpa sys w) = some k := by
    intro w p hp
    rw [ho, hl]
    exact h.reads w p (hq.dev w p hp)
  have hcount := hq.counted h.counted
  have htab := h.table
  have hplaced := h.placed
  have hmarked := h.marked
  have hstored := h.stored
  rw [← ho] at htab
  rw [← ht] at hplaced hmarked hstored
  subst hs
  exact ⟨hcount, htab, hpassed, howned, hmatched, hreads, h.distinct, h.given, hplaced, hmarked, hstored⟩

theorem probed_init : Probed sys (St.init : St κ υ) := by
  have ho : ∀ lpa, (St.init : St κ υ).owner lpa = none := fun _ => rfl
  refine ⟨rfl, fun l k hk => ?_, fun w => ?_, ?_, ?_, ?_, ?_, ?_, ?_, ?_, ?_⟩
  · cases (ho l).symm.trans hk
  · exact passed_zero
  all_goals simp [St.init, Cache.init]

/-! ## Whose page is mapped -/

theorem Probed.dataAt_ppa (h : Probed sys s) (hf : s.flushing.isSome) {e : κ × υ} (he : e ∈ s.wb) :
    s.dataAt (s.ppa e.1) = some e := by
  rw [St.dataAt, if_pos hf]
  have hfind : s.wb.find? (fun e' => s.ppa e'.1 = s.ppa e.1) = some e := by
    have hd := h.distinct hf
    rw [List.Nodup, pairwise_map] at hd
    obtain ⟨l1, l2, hl⟩ := append_of_mem he
    rw [hl, pairwise_append] at hd
    rw [hl, find?_append]
    have hnone : l1.find? (fun e' => s.ppa e'.1 = s.ppa e.1) = none := by
      rw [find?_eq_none]
      intro e' he'
      simpa using hd.2.2 e' he' e mem_cons_self
    simp [hnone]
  rw [hfind]
  rfl

theorem dataAt_flash (h : s.flushing.isSome → ∀ e ∈ s.wb, s.ppa e.1 ≠ p) : s.dataAt p = s.flash p := by
  unfold St.dataAt
  split
  · rename_i hf
    have : s.wb.find? (fun e => s.ppa e.1 = p) = none := by
      rw [find?_eq_none]
      intro e he
      simpa using h hf e he
    rw [this]
    rfl
  · rfl

theorem Probed.old_page (h : Probed sys s) (hm : s.cache.memTable lpa = some p)
    (hk : s.owner lpa = some k) (hu : k ∉ s.updated) :
    s.flushing.isSome → ∀ e ∈ s.wb, s.ppa e.1 ≠ p := by
  intro hf e he hp
  subst hp
  obtain ⟨hm', -⟩ := h.placed hf e he lpa hm
  rw [owner_of_mapped hm, St.keyAt, h.dataAt_ppa hf he] at hk
  exact hu (some.inj hk ▸ hm')

theorem keyAt_eq_of_data {e : κ × υ} (h : s.dataAt p = some e) : s.keyAt p = some e.1 := by
  rw [St.keyAt, h]
  rfl

/-! ## What a probe does -/

theorem probed_issue (h : Probed sys s) (hm : s.cache.memTable (s.lpa sys w) = some p)
    (hp : s.flushing.isSome → ∀ e ∈ s.wb, s.ppa e.1 ≠ p) : Probed sys (s.issue (.dataRead w p)) := by
  refine ⟨h.counted, h.table, h.passed, h.owned, h.matched, fun w' p' hop => ?_, h.distinct, h.given, h.placed,
    h.marked, h.stored⟩
  rcases mem_append.mp hop with hop | hop
  · exact h.reads w' p' hop
  · obtain ⟨rfl, rfl⟩ : w' = w ∧ p' = p := by simpa using hop
    obtain ⟨-, k, hk⟩ := h.owned _ _ hm
    refine ⟨k, ?_, (owner_of_mapped hm).trans hk⟩
    rw [St.keyAt, dataAt_flash hp] at hk
    exact hk

/-- `k` is an entry of the running flush that the loop has in hand. -/
structure Holds (s : St κ υ) (k : κ) : Prop where
  flushing : s.flushing.isSome
  member : k ∈ s.wb.map Prod.fst
  unfinished : k ∉ s.updated
  known : ∀ k' ∈ s.updated, k' ∈ s.wb.map Prod.fst
  idle : ∀ p, .dataRead (.entry k) p ∉ s.dev

theorem Holds.quiet (h : Holds s k) (hq : Quiet s s') : Holds s' k := by
  have hd : ∀ p, .dataRead (.entry k) p ∉ s'.dev := fun p hp => h.idle p (hq.dev _ p hp)
  obtain ⟨c, x, u, m, q, r, d, l, rfl⟩ := hq.rest
  exact ⟨h.flushing, h.member, h.unfinished, h.known, hd⟩

theorem Probed.keyAt_ppa (h : Probed sys s) (hf : s.flushing.isSome)
    (hk : k ∈ s.wb.map Prod.fst) : s.keyAt (s.ppa k) = some k := by
  obtain ⟨e, he, rfl⟩ := mem_map.mp hk
  exact keyAt_eq_of_data (h.dataAt_ppa hf he)

theorem Probed.not_marked (h : Probed sys s) (hk : Holds s k)
    (hl : ∀ k', s.owner lpa = some k' → k' = k) {k' : κ} (hu : k' ∈ s.updated) :
    s.cache.memTable lpa ≠ some (s.ppa k') := by
  intro hm
  have ho : s.owner lpa = some k' :=
    (owner_of_mapped hm).trans (h.keyAt_ppa hk.flushing (hk.known k' hu))
  exact hk.unfinished (hl k' ho ▸ hu)

theorem owner_directUpdate (h : Probed sys s) (hk : Holds s k) :
    (wbDirectUpdate sys s k).owner = Function.update s.owner (s.lpa sys (.entry k)) (some k) := by
  have hm := (update_cases sys.toCfg s.cache (s.lpa sys (.entry k)) (s.ppa k)).1
  funext lpa
  have hkey : ∀ p, (wbDirectUpdate sys s k).keyAt p = s.keyAt p := fun _ => rfl
  show (Option.bind _ _ : Option κ) = _
  by_cases hl : lpa = s.lpa sys (.entry k)
  · subst hl
    simp only [wbDirectUpdate, hm, Function.update_self, Option.bind_some]
    exact h.keyAt_ppa hk.flushing hk.member
  · simp only [wbDirectUpdate, hm, Function.update_of_ne hl]
    rfl

theorem probed_directUpdate (h : Probed sys s) (hk : Holds s k)
    (hl : ∀ k', s.owner (s.lpa sys (.entry k)) = some k' → k' = k) :
    Probed sys (wbDirectUpdate sys s k) := by
  have ho := owner_directUpdate h hk
  have hm : (wbDirectUpdate sys s k).cache.memTable =
      update s.cache.memTable (s.lpa sys (.entry k)) (some (s.ppa k)) :=
    (update_cases sys.toCfg s.cache (s.lpa sys (.entry k)) (s.ppa k)).1
  have hin : ∀ b l, l ∈ (wbDirectUpdate sys s k).htable b ↔
      l ∈ s.htable b ∨ b = sys.bucket (s.ppa k) ∧ l = s.lpa sys (.entry k) := by
    intro b l
    simp only [wbDirectUpdate, htableInsert, Sys.bucket]
    by_cases hb : b = s.ppa k % (sys.flushSize * 2)
    · subst hb
      simp
    · simp [hb]
  have hgrow : Grows s.owner (wbDirectUpdate sys s k).owner := by
    intro l k' ho'
    rw [ho]
    by_cases hll : l = s.lpa sys (.entry k)
    · subst hll
      rw [update_self, hl k' ho']
    · rw [update_of_ne hll]
      exact ho'
  constructor
  case counted => exact counted_update h.counted _ _
  case table =>
    cases hw : s.owner (s.lpa sys (.entry k)) with
    | none =>
      rw [ho]
      exact h.table.claim (h.passed (.entry k)) hw
    | some k' =>
      obtain rfl := hl k' hw
      rw [ho, ← hw, update_eq_self]
      exact h.table.mono (Nat.le_max_right _ _)
  case passed => exact fun x => (h.passed x).mono hgrow
  case owned =>
    intro l p hp
    rw [hm] at hp
    by_cases hll : l = s.lpa sys (.entry k)
    · rw [hll, update_self] at hp
      cases hp
      obtain ⟨e, he, rfl⟩ := mem_map.mp hk.member
      exact ⟨h.given hk.flushing e he, e.1, h.keyAt_ppa hk.flushing hk.member⟩
    · rw [update_of_ne hll] at hp
      exact h.owned l p hp
  case matched => exact fun k' hj => hgrow _ _ (h.matched k' hj)
  case reads =>
    intro x p hop
    obtain ⟨k', hfl, hown⟩ := h.reads x p hop
    exact ⟨k', hfl, hgrow _ _ hown⟩
  case distinct => exact h.distinct
  case given => exact h.given
  case placed =>
    intro hf e he l hp
    rw [hm] at hp
    by_cases hll : l = s.lpa sys (.entry k)
    · rw [hll, update_self] at hp
      have hek : e.1 = k := by
        have h1 := h.keyAt_ppa hf (mem_map.mpr ⟨e, he, rfl⟩)
        have h2 := h.keyAt_ppa hf hk.member
        rw [some.inj hp] at h2
        exact some.inj (h1.symm.trans h2)
      rw [hin, hek]
      exact ⟨mem_append_right _ (mem_singleton.mpr rfl), .inr ⟨rfl, hll⟩⟩
    · rw [update_of_ne hll] at hp
      obtain ⟨h1, h2⟩ := h.placed hf e he l hp
      exact ⟨mem_append_left _ h1, (hin _ _).mpr (.inl h2)⟩
  case marked =>
    intro b l hb
    rw [hm]
    rcases (hin b l).mp hb with hb | ⟨-, rfl⟩
    · obtain ⟨hf, k', hu, hp⟩ := h.marked b l hb
      have hll : l ≠ s.lpa sys (.entry k) := by
        rintro rfl
        exact h.not_marked hk hl hu hp
      refine ⟨hf, k', mem_append_left _ hu, ?_⟩
      rw [update_of_ne hll]
      exact hp
    · exact ⟨hk.flushing, k, mem_append_right _ (mem_singleton.mpr rfl), update_self ..⟩
  case stored =>
    intro hf k' hu
    rw [hm]
    rcases mem_append.mp hu with hu | hu
    · obtain ⟨l, hp⟩ := h.stored hf k' hu
      have hll : l ≠ s.lpa sys (.entry k) := by
        rintro rfl
        exact h.not_marked hk hl hu hp
      exact ⟨l, (update_of_ne hll _ _).trans hp⟩
    · rw [mem_singleton.mp hu]
      exact ⟨_, update_self ..⟩

theorem probed_invalidate (h : Probed sys s) (hm : ∀ l, s.cache.memTable l ≠ some p)
    (hp : s.flushing.isSome → ∀ e ∈ s.wb, s.ppa e.1 ≠ p) : Probed sys (s.invalidate p) := by
  refine ⟨h.counted, h.table, h.passed, fun l p' hl => ?_, h.matched, h.reads, h.distinct, fun hf e he => ?_,
    h.placed, h.marked, h.stored⟩
  · have hne : p' ≠ p := by
      rintro rfl
      exact hm l hl
    refine ⟨?_, (h.owned l p' hl).2⟩
    rw [← (h.owned l p' hl).1]
    exact update_of_ne hne _ _
  · rw [← h.given hf e he]
    exact update_of_ne (hp hf e he) _ _

theorem Probed.mapped_once (h : Probed sys s) (hm : s.cache.memTable lpa = some p) {l : Nat}
    (hl : s.cache.memTable l = some p) : l = lpa := by
  obtain ⟨-, k, hk⟩ := h.owned lpa p hm
  exact h.table.unique ((owner_of_mapped hl).trans hk) ((owner_of_mapped hm).trans hk)

theorem probed_wbUpdate (h : Probed sys s) (hk : Holds s k)
    (ho : s.owner (s.lpa sys (.entry k)) = some k) : Probed sys (wbUpdate sys s k) := by
  have hl : ∀ k', s.owner (s.lpa sys (.entry k)) = some k' → k' = k :=
    fun k' hk' => some.inj (hk'.symm.trans ho)
  obtain ⟨p, hm, -⟩ := owner_some ho
  have hold := h.old_page hm ho hk.unfinished
  have hs : wbUpdate sys s k = (wbDirectUpdate sys s k).invalidate p := by
    unfold wbUpdate cgGetPte
    rw [hm]
    rfl
  rw [hs]
  refine probed_invalidate (probed_directUpdate h hk hl) (fun l hp => ?_) hold
  have hmem := (update_cases sys.toCfg s.cache (s.lpa sys (.entry k)) (s.ppa k)).1
  have hp : (cgUpdate sys.toCfg s.cache (s.lpa sys (.entry k)) (s.ppa k)).memTable l = some p := hp
  rw [hmem] at hp
  by_cases hll : l = s.lpa sys (.entry k)
  · rw [hll, update_self] at hp
    obtain ⟨e, he, rfl⟩ := mem_map.mp hk.member
    exact hold hk.flushing e he (some.inj hp)
  · rw [update_of_ne hll] at hp
    exact hll (h.mapped_once hm hp)

theorem htableFind_iff : htableFind sys s p lpa = true ↔ lpa ∈ s.htable (sys.bucket p) := by
  simp [htableFind, Sys.bucket]

theorem Probed.taken (h : Probed sys s) (hk : Holds s k) {b : Nat} (hb : lpa ∈ s.htable b) :
    ∃ k', s.owner lpa = some k' ∧ k' ≠ k := by
  obtain ⟨hf, k', hu, hm⟩ := h.marked b lpa hb
  refine ⟨k', (owner_of_mapped hm).trans (h.keyAt_ppa hf (hk.known k' hu)), ?_⟩
  rintro rfl
  exact hk.unfinished hu

section Probe

variable [DecidableEq κ]

theorem Probed.setCtx {c : Ctx} (h : Probed sys s) (hpass : Passed sys.slot s.owner w.key c.cnt)
    (hmatch : ∀ k, w = .entry k → c.jump = some .update → s.owner (sys.slot k c.cnt) = some k)
    (hdev : c.cnt = (s.ctx w).cnt ∨ ∀ p, .dataRead w p ∉ s.dev) : Probed sys (s.setCtx w c) := by
  have hctx : ∀ x, x ≠ w → (s.setCtx w c).ctx x = s.ctx x := fun x hx => update_of_ne hx _ _
  have hself : (s.setCtx w c).ctx w = c := update_self ..
  refine ⟨h.counted, h.table, fun x => ?_, h.owned, fun k hk => ?_, fun x p hop => ?_, h.distinct, h.given,
    h.placed, h.marked, h.stored⟩
  · by_cases hx : x = w
    · rw [hx, hself]
      exact hpass
    · rw [hctx x hx]
      exact h.passed x
  · by_cases hx : .entry k = w
    · subst hx
      rw [hself] at hk
      rw [St.lpa, hself]
      exact hmatch k rfl hk
    · rw [hctx _ hx] at hk
      rw [St.lpa, hctx _ hx]
      exact h.matched k hk
  · have hcnt : ((s.setCtx w c).ctx x).cnt = (s.ctx x).cnt := by
      by_cases hx : x = w
      · subst hx
        rw [hself]
        exact hdev.resolve_right fun hno => hno p hop
      · rw [hctx x hx]
    rw [St.lpa, hcnt]
    exact h.reads x p hop

theorem probed_bump (h : Probed sys s) {k' : κ} (ho : s.owner (s.lpa sys w) = some k')
    (hne : k' ≠ w.key) (hdev : ∀ p, .dataRead w p ∉ s.dev) : Probed sys (s.bump w) := by
  refine h.setCtx ((h.passed w).succ ho hne) ?_ (.inr hdev)
  rintro k rfl hk
  exact absurd (some.inj (ho.symm.trans (h.matched k hk))) hne

theorem probed_dataCheck (h : Probed sys s) (hk : Holds s k) : Probed sys (wbDataCheck sys s k) := by
  unfold wbDataCheck cgGetPte
  split
  · rename_i hm
    refine probed_directUpdate h hk fun k' hk' => ?_
    rw [owner_of_free hm] at hk'
    cases hk'
  · rename_i p hm
    split
    · rename_i hb
      obtain ⟨k', ho, hne⟩ := h.taken hk (htableFind_iff.mp hb)
      exact (probed_bump h ho hne hk.idle).quiet (quiet_queues fun _ => id)
    · rename_i hb
      refine probed_issue h hm fun hf e he hp => hb ?_
      subst hp
      exact htableFind_iff.mpr (h.placed hf e he _ hm).2

theorem wbListUp_cases (h : wbListUp sys s k t = some s') :
    ∃ s1, Quiet s s1 ∧ (s' = s1 ∨ s' = wbDataCheck sys s1 k) := by
  simp only [wbListUp, map_eq_some_iff, Prod.exists] at h
  obtain ⟨rc, s1, hl, hs⟩ := h
  cases rc with
  | true => exact ⟨s1, quiet_listUp hl, .inl hs.symm⟩
  | false => exact ⟨s1, quiet_listUp hl, .inr hs.symm⟩

theorem wbCacheLoad_cases (h : wbCacheLoad sys s k t = some s') :
    ∃ s1, Quiet s s1 ∧ (s' = s1 ∨ s' = wbDataCheck sys s1 k) := by
  unfold wbCacheLoad at h
  split at h
  · rename_i hw
    cases h
    exact ⟨s', quiet_waitOrLoad hw, .inl rfl⟩
  · exact wbListUp_cases h

omit [DecidableEq κ] in
theorem quiet_touch (sys : Sys κ) (s : St κ υ) (lpa : Nat) :
    Quiet s { s with cache := cgTouch sys.toCfg s.cache lpa } :=
  ⟨rfl, fun hc => hc.trans (length_lruUpdate _ _).symm, fun _ => rfl, fun _ => id, fun _ _ => id,
    _, _, _, _, _, _, _, _, rfl⟩

theorem wbResume_cases {j : Option Jump} (h : wbResume sys s k t j = some s') :
    ∃ s1, Quiet s s1 ∧
      (s' = s1 ∨ s' = wbDataCheck sys s1 k ∨ j = some .update ∧ s' = wbUpdate sys s1 k) := by
  have hload : ∀ {s1}, Quiet s s1 → s' = s1 ∨ s' = wbDataCheck sys s1 k → ∃ s1, Quiet s s1 ∧
      (s' = s1 ∨ s' = wbDataCheck sys s1 k ∨ j = some .update ∧ s' = wbUpdate sys s1 k) :=
    fun hq hs => ⟨_, hq, hs.imp_right .inl⟩
  unfold wbResume at h
  split at h
  · obtain ⟨s1, hq, hs⟩ := wbCacheLoad_cases h
    exact hload hq hs
  · obtain ⟨s1, hq, hs⟩ := wbListUp_cases h
    exact hload hq hs
  · exact ⟨s, .refl s, .inr (.inl (some.inj h).symm)⟩
  · exact ⟨s, .refl s, .inr (.inr ⟨rfl, (some.inj h).symm⟩)⟩
  · cases h
  · cases h
  · cases h
  · split at h
    · exact ⟨_, quiet_touch sys s _, .inr (.inl (some.inj h).symm)⟩
    · obtain ⟨s1, hq, hs⟩ := wbCacheLoad_cases h
      exact hload hq hs

theorem quiet_pickUp (s : St κ υ) (k : κ) : Quiet s (s.pickUp k) :=
  (quiet_setJump s (.entry k) (by simp)).trans (quiet_queues fun _ => id)

theorem wbProbe_cases (h : wbProbe sys s k t = some s') :
    ∃ s1, Quiet s s1 ∧ (s' = s1 ∨ s' = wbDataCheck sys s1 k ∨
      (s.ctx (.entry k)).jump = some .update ∧ s' = wbUpdate sys s1 k) := by
  obtain ⟨s1, hq, hs⟩ := wbResume_cases h
  exact ⟨s1, (quiet_pickUp s k).trans hq, hs⟩

theorem probed_probe (h : Probed sys s) (hk : Holds s k) (hr : wbProbe sys s k t = some s') :
    Probed sys s' := by
  obtain ⟨s1, hq, rfl | rfl | ⟨hj, rfl⟩⟩ := wbProbe_cases hr
  · exact h.quiet hq
  · exact probed_dataCheck (h.quiet hq) (hk.quiet hq)
  · refine probed_wbUpdate (h.quiet hq) (hk.quiet hq) ?_
    rw [hq.owner, hq.lpa_eq]
    exact h.matched k hj

/-! ## Reads -/

/-- Why a read is answered "not found" before it has looked at its slot. -/
inductive Misses (sys : Sys κ) (s : St κ υ) (w : Waiter κ) : Prop
  | tries (h : s.maxTry < (s.ctx w).cnt)
  | unsaved (hp : (s.cache.cmt (s.page sys w)).pt = false)
      (ht : (s.cache.cmt (s.page sys w)).tPpa = none)

variable {i : Nat}

theorem readListUp_cases (h : readListUp sys s i k t = some s') :
    ∃ s1, Quiet s s1 ∧ (s' = s1 ∨ s' = readCheckComplete sys s1 i k) := by
  simp only [readListUp, map_eq_some_iff, Prod.exists] at h
  obtain ⟨rc, s1, hl, hs⟩ := h
  cases rc with
  | true => exact ⟨s1, quiet_listUp hl, .inl hs.symm⟩
  | false => exact ⟨s1, quiet_listUp hl, .inr hs.symm⟩

theorem demandRead_cases (hj : StoredJump (s.ctx (.read i k)).jump)
    (h : demandRead sys s i k t = some s') :
    ∃ s1, Quiet s s1 ∧ (s' = s1 ∨ s' = readCheckComplete sys s1 i k ∨
      (∃ v, s.wb.lookup k = some v ∧ s' = s1.answer i k (.value v)) ∨
      Misses sys s (.read i k) ∧ s' = s1.answer i k .notFound) := by
  unfold demandRead at h
  split at h
  · rename_i ht
    exact ⟨s, .refl s, .inr (.inr (.inr ⟨.tries ht, (some.inj h).symm⟩))⟩
  · have hq := quiet_setJump s (.read i k) (j := none) (by simp)
    rcases hj with hj | hj | hj | hj <;> rw [hj] at h <;> simp only [readResume] at h
    · split at h
      · rename_i v hv
        exact ⟨_, hq, .inr (.inr (.inl ⟨v, hv, (some.inj h).symm⟩))⟩
      · split at h
        · exact ⟨_, hq.trans (quiet_touch sys _ _), .inr (.inl (some.inj h).symm)⟩
        · rename_i hit
          cases h
          unfold readCacheLoad
          split
          · rename_i s1 hw
            exact ⟨s1, hq.trans (quiet_waitOrLoad hw), .inl rfl⟩
          · rename_i hw
            refine ⟨_, hq, .inr (.inr (.inr ⟨?_, rfl⟩))⟩
            have hpg : (s.setJump (.read i k) none).page sys (.read i k) = s.page sys (.read i k) := by
              unfold St.page
              rw [lpa_setJump]
            refine .unsaved ?_ ?_
            · rw [← hpg]
              exact Bool.eq_false_iff.mpr hit
            · rw [← hpg]
              exact (waitOrLoad_none hw).2
    · obtain ⟨s1, hq', hs⟩ := readListUp_cases h
      exact ⟨s1, hq.trans hq', hs.imp_right .inl⟩
    · exact ⟨_, hq, .inr (.inl (some.inj h).symm)⟩
    · cases h

omit [DecidableEq κ] in
theorem probed_answer {r : Res υ} (h : Probed sys s) : Probed sys (s.answer i k r) :=
  ⟨h.counted, h.table, h.passed, h.owned, h.matched, h.reads, h.distinct, h.given, h.placed,
    h.marked, h.stored⟩

omit [DecidableEq κ] in
theorem probed_checkComplete (h : Probed sys s) (hf : s.flushing = none) :
    Probed sys (readCheckComplete sys s i k) := by
  unfold readCheckComplete cgGetPte
  split
  · exact probed_answer h
  · rename_i p hm
    refine probed_issue h hm fun hs => ?_
    rw [hf] at hs
    cases hs

omit [DecidableEq κ] in
theorem Quiet.flushing_eq (h : Quiet s s') : s'.flushing = s.flushing := by
  obtain ⟨c, x, u, m, q, r, d, l, rfl⟩ := h.rest
  rfl

theorem probed_demandRead (h : Probed sys s) (hf : s.flushing = none)
    (hj : StoredJump (s.ctx (.read i k)).jump) (hr : demandRead sys s i k t = some s') :
    Probed sys s' := by
  obtain ⟨s1, hq, rfl | rfl | ⟨v, -, rfl⟩ | ⟨-, rfl⟩⟩ := demandRead_cases hj hr
  · exact h.quiet hq
  · exact probed_checkComplete (h.quiet hq) (hq.flushing_eq.trans hf)
  · exact probed_answer (h.quiet hq)
  · exact probed_answer (h.quiet hq)

theorem probed_arrive (h : Probed sys s) (hdev : ∀ p, .dataRead (.read s.nextId k) p ∉ s.dev) :
    Probed sys (s.arrive k) := by
  have hs : Probed sys { s with nextId := s.nextId + 1 } :=
    ⟨h.counted, h.table, h.passed, h.owned, h.matched, h.reads, h.distinct, h.given, h.placed,
      h.marked, h.stored⟩
  exact hs.setCtx passed_zero (fun _ he _ => by cases he) (.inr hdev)

/-! ## Completions -/

theorem probed_match (h : Probed sys s) (ho : s.owner (s.lpa sys (.entry k)) = some k) :
    Probed sys (s.setJump (.entry k) (some .update)) := by
  refine h.setCtx (h.passed (.entry k)) (fun k' he _ => ?_) (.inl rfl)
  cases he
  exact ho

end Probe

/-! ## Beginning and end of a flush -/

theorem dataAt_idle (hf : s.flushing = none) : s.dataAt p = s.flash p := by
  rw [St.dataAt, hf]
  rfl

theorem Probed.no_marks (h : Probed sys s) (hf : s.flushing = none) (b : Nat) : s.htable b = [] := by
  refine eq_nil_iff_forall_not_mem.mpr fun lpa hl => ?_
  have := (h.marked b lpa hl).1
  rw [hf] at this
  cases this

theorem Probed.of_idle (h : Probed sys s) (hf : s'.flushing = none) (hd : s'.flash = s.dataAt)
    (hm : s'.cache = s.cache) (hctx : s'.ctx = s.ctx) (hv : s'.valid = s.valid)
    (ht : s'.maxTry = s.maxTry) (hh : ∀ b, s'.htable b = [])
    (hr : ∀ w p, .dataRead w p ∈ s'.dev → .dataRead w p ∈ s.dev ∧ s.flash p = s.dataAt p) :
    Probed sys s' := by
  have hkey : ∀ p, s'.keyAt p = s.keyAt p := fun p => by
    rw [St.keyAt, dataAt_idle hf, hd, St.keyAt]
  have ho : s'.owner = s.owner := by
    funext lpa
    rw [St.owner, hm, St.owner]
    exact congrArg _ (funext hkey)
  have hl : ∀ w, s'.lpa sys w = s.lpa sys w := fun w => by rw [St.lpa, hctx, St.lpa]
  constructor
  case counted =>
    rw [hm]
    exact h.counted
  case table =>
    rw [ho, ht]
    exact h.table
  case passed =>
    rw [ho, hctx]
    exact h.passed
  case owned =>
    intro lpa p hp
    rw [hv, hkey]
    exact h.owned lpa p (hm ▸ hp)
  case matched =>
    intro k hj
    rw [ho, hl]
    exact h.matched k (hctx ▸ hj)
  case reads =>
    intro w p hop
    obtain ⟨hop, hp⟩ := hr w p hop
    rw [hd, ← hp, ho, hl]
    exact h.reads w p hop
  case marked =>
    intro b lpa hb
    rw [hh] at hb
    cases hb
  all_goals
    intro hs
    rw [hf] at hs
    cases hs

theorem probed_write {wb : List (κ × υ)} (h : Probed sys s) (hf : s.flushing = none) :
    Probed sys { s with wb := wb } := by
  have hd : s.flash = s.dataAt := funext fun p => (dataAt_idle hf).symm
  refine h.of_idle hf hd rfl rfl rfl rfl (h.no_marks hf) fun w p hop => ⟨hop, ?_⟩
  rw [hd]

theorem probed_finish {wb : List (κ × υ)} (h : Probed sys s) (hf : s.flushing.isSome)
    (hdev : s.dev = []) : Probed sys { endFlush s with wb := wb } := by
  refine h.of_idle rfl ?_ rfl rfl rfl rfl (fun _ => rfl) fun w p hop => ?_
  · funext p
    rw [St.dataAt, if_pos hf]
    rfl
  · have hop : .dataRead w p ∈ s.dev := hop
    rw [hdev] at hop
    cases hop

theorem Probed.fresh_unmapped (h : Probed sys s) {assign : κ → Nat} (ha : freshPages s assign)
    (hm : s.cache.memTable lpa = some p) {e : κ × υ} (he : e ∈ s.wb) : assign e.1 ≠ p := by
  rintro rfl
  have := (ha.2 e he).1
  rw [(h.owned lpa _ hm).1] at this
  cases this

theorem owner_beginFlush {kv : κ × υ} {assign : κ → Nat} (h : Probed sys s)
    (hf : s.flushing = none) (ha : freshPages s assign) :
    (beginFlush s kv assign).owner = s.owner := by
  funext lpa
  have hm : (beginFlush s kv assign).cache.memTable = s.cache.memTable := rfl
  cases hp : s.cache.memTable lpa with
  | none => rw [owner_of_free hp, owner_of_free (by rw [hm]; exact hp)]
  | some p =>
    have hd : (beginFlush s kv assign).dataAt p = s.flash p :=
      dataAt_flash fun _ e he => h.fresh_unmapped ha hp he
    rw [owner_of_mapped hp, owner_of_mapped (s := beginFlush s kv assign) (by rw [hm]; exact hp),
      St.keyAt, St.keyAt, dataAt_idle hf, hd]

section Steps

variable [LinearOrder κ]

theorem probed_endReq {op : Op κ} (h : Probed sys s) (hop : ∀ w p, op = .dataRead w p →
      ∃ k, (s.flash p).map Prod.fst = some k ∧ s.owner (s.lpa sys w) = some k)
    (hidle : ∀ p, .dataRead op.owner p ∉ s.dev) : Probed sys (demandEndReq sys s op) := by
  match op with
  | .dataRead (.read i k) p =>
    obtain ⟨k', hk, ho⟩ := hop _ p rfl
    simp only [demandEndReq]
    split
    · rename_i k'' v hfl
      split
      · exact probed_answer h
      · rename_i hne
        rw [hfl] at hk
        obtain rfl : k'' = k' := some.inj hk
        exact (probed_bump h ho (fun he => hne he.symm) hidle).quiet (quiet_retry ..)
    · rename_i hfl
      rw [hfl] at hk
      cases hk
  | .dataRead (.entry k) p =>
    obtain ⟨k', hk, ho⟩ := hop _ p rfl
    simp only [demandEndReq]
    split
    · rename_i hfl
      obtain rfl : k = k' := some.inj (hfl.symm.trans hk)
      exact (probed_match h ho).quiet (quiet_retry ..)
    · rename_i hfl
      refine (probed_bump h ho (fun he => hfl ?_) hidle).quiet (quiet_restart ..)
      rw [hk, he]
      rfl
  | .mapRead w t => exact h.quiet (quiet_retry ..)
  | .mapWrite w t => exact h.quiet (quiet_retry ..)

theorem probed_complete {n : Nat} {op : Op κ} (h : Probed sys s) (hp : Places sys s none none)
    (hn : s.dev[n]? = some op) :
    Probed sys (demandEndReq sys { s with dev := s.dev.eraseIdx n } op) := by
  have hmem : op ∈ s.dev := mem_of_getElem? hn
  have hno := (hp.pop_dev hn).1.not_out
  refine probed_endReq (h.quiet (quiet_queues fun _ => mem_of_mem_eraseIdx)) ?_ fun p hop => ?_
  · rintro w p rfl
    exact h.reads w p hmem
  · have hout : (Op.dataRead op.owner p).owner ∈ _ := owner_mem_out hop
    exact hno hout

theorem probed_beginFlush {kv : κ × υ} {assign : κ → Nat} (h : Probed sys s)
    (hp : Places sys s none none) (hf : s.flushing = none) (ha : freshPages s assign) :
    Probed sys (beginFlush s kv assign) := by
  have ho : (beginFlush s kv assign).owner = s.owner := owner_beginFlush h hf ha
  have hvalid : ∀ p, s.valid p = true → (beginFlush s kv assign).valid p = true := fun p hv => by
    simp [beginFlush, hv]
  constructor
  case counted => exact h.counted
  case table =>
    rw [ho]
    exact h.table
  case passed =>
    intro w
    rw [ho]
    cases w with
    | entry k => exact passed_zero
    | read i k => exact h.passed (.read i k)
  case owned =>
    intro lpa p hm
    have hm' : s.cache.memTable lpa = some p := hm
    obtain ⟨hv, k, hk⟩ := h.owned lpa p hm'
    refine ⟨hvalid p hv, k, ?_⟩
    rw [← owner_of_mapped hm, ho, owner_of_mapped hm']
    exact hk
  case matched =>
    intro k hj
    cases hj
  case reads =>
    intro w p hop
    cases w with
    | entry k =>
      have hop : .dataRead (.entry k) p ∈ s.dev := hop
      exact absurd (owner_mem_out hop) (hp.entry_free hf k).1
    | read i k =>
      rw [ho]
      exact h.reads (.read i k) p hop
  case distinct => exact fun _ => ha.1
  case given =>
    intro _ e he
    have : (s.wb.any fun e' => assign e'.1 == assign e.1) = true :=
      any_eq_true.mpr ⟨e, he, beq_self_eq_true _⟩
    show (s.valid (assign e.1) || s.wb.any fun e' => assign e'.1 == assign e.1) = true
    rw [this, Bool.or_true]
  case placed => exact fun _ e he lpa hm => absurd rfl (h.fresh_unmapped ha hm he)
  case marked =>
    intro b lpa hb
    have hb : lpa ∈ s.htable b := hb
    rw [h.no_marks hf] at hb
    cases hb
  case stored =>
    intro _ k hk
    cases hk

/-! ## Steps -/

theorem Places.holds (hp : Places sys s none none) (hc : s.cur = some k) : Holds s k := by
  obtain ⟨hp1, -⟩ := hp.pop_cur hc
  obtain ⟨hf, hm, hu⟩ := hp1.dues.held_entry
  refine ⟨hf, hm, hu, hp.dues.known hf, fun p hop => ?_⟩
  have hop : .dataRead (.entry k) p ∈ { s with cur := none }.dev := hop
  exact hp1.not_out (owner_mem_out hop)

theorem Places.probed_arrive (hp : Places sys s none none) (h : Probed sys s) (k : κ) :
    Probed sys (s.arrive k) := by
  refine Demand.probed_arrive h fun p hop => ?_
  have hmem := count_pos_iff.mpr (owner_mem_out hop)
  have h0 : s.occ sys (.read s.nextId k) = 0 := hp.dues.fresh s.nextId k (le_rfl)
  unfold St.occ at h0
  exact absurd (Nat.add_eq_zero_iff.mp h0).1 (ne_of_gt hmem)

omit [LinearOrder κ] in
theorem takeEntry_quiet (h : takeEntry s = some s') : Quiet s s' := by
  unfold takeEntry at h
  split at h
  · cases h
    exact quiet_queues fun _ => id
  · cases h
    exact quiet_queues fun _ => id
  · cases h

theorem probed_step {l : Lbl κ υ} (h : Probed sys s) (hp : Places sys s none none)
    (hg : promised s l) (hs : step sys s l = some s') : Probed sys s' := by
  cases step_cases hs with
  | read hf hr =>
    refine probed_demandRead (hp.probed_arrive h _) hf (.inl ?_) hr
    simp [St.arrive, St.setCtx]
  | @resume _ i k q _ hf hq hr =>
    have hst := hp.jumps.stored (.read i k) (by simp [St.out, hq])
    have hq : Probed sys { s with rq := q } := h.quiet (quiet_queues fun _ => id)
    exact probed_demandRead hq hf hst hr
  | write hf => exact probed_write h hf
  | flush hf _ => exact probed_beginFlush h hp hf hg
  | take _ ht => exact h.quiet (takeEntry_quiet ht)
  | probe hc hpr => exact probed_probe h (hp.holds hc) hpr
  | finish hf _ hd => exact probed_finish h (by simp [hf]) hd
  | complete hn => exact probed_complete h hp hn

theorem probed_inductive (sys : Sys κ) :
    (demandLTS (υ := υ) sys).Inductive fun s => Places sys s none none ∧ Probed sys s where
  init := by
    intro s hs
    subst hs
    exact ⟨places_init, probed_init⟩
  step := by
    intro s l s' h hs
    exact ⟨places_step h.1 hs.1, probed_step h.2 h.1 hs.2 hs.1⟩

end Steps

end FlashDriver.Demand
