import FlashDriver.Demand.Spec

/-!
# Write-back of translation pages

An uncached translation page has to be on flash as it is in the table, or the
next load misses entries. The cache keeps this as long as entries are updated
in cached pages only: a page is dirty from the first update on, and a dirty
page is written when it is evicted (`Saved`).

`cg_update` also has a branch for a page that was evicted while its entry
waited for another page's write-back. That branch changes the table and leaves
the page clean.

* `uncached_saved`: in every run that never takes that branch, an uncached
  page is on flash as the table has it, and `cg_load` reads it.
* `late_update_unsaved`: a run that takes it, after which a stored key is
  answered with "not found".
-/
namespace FlashDriver.Demand

open Option Function

variable {κ υ ω : Type}

/-! ## The cache -/

/-- A clean page has nothing that is not on flash, and an uncached page is
clean. -/
structure Saved (cfg : Cfg) (c : Cache ω) : Prop where
  uncached : ∀ i, (c.cmt i).pt = false → (c.cmt i).state = .clean
  written : ∀ i, (c.cmt i).state = .clean → c.unsaved i = false
  mapped : ∀ lpa, (c.cmt (cfg.idx lpa)).state = .clean → c.memTable lpa ≠ none →
    (c.cmt (cfg.idx lpa)).tPpa ≠ none

variable {cfg : Cfg} {c c' : Cache ω} {lpa : Nat}

theorem saved_init : Saved cfg (Cache.init : Cache ω) :=
  ⟨fun _ _ => rfl, fun _ _ => rfl, fun _ _ h => absurd rfl h⟩

theorem Saved.set (h : Saved cfg c) {i : Nat} {m : Cmt ω}
    (hc : c'.cmt = update c.cmt i m) (hm : c'.memTable = c.memTable)
    (hu : ∀ j, j ≠ i → c'.unsaved j = c.unsaved j)
    (hpt : m.pt = false → m.state = .clean) (hw : m.state = .clean → c'.unsaved i = false)
    (ht : m.state = .clean → ∀ lpa, cfg.idx lpa = i → c.memTable lpa ≠ none → m.tPpa ≠ none) :
    Saved cfg c' := by
  refine ⟨fun j hj => ?_, fun j hj => ?_, fun lpa hj hmt => ?_⟩
  · rw [hc] at hj ⊢
    by_cases hji : j = i
    · subst hji
      rw [update_self] at hj ⊢
      exact hpt hj
    · rw [update_of_ne hji] at hj ⊢
      exact h.uncached j hj
  · rw [hc] at hj
    by_cases hji : j = i
    · subst hji
      rw [update_self] at hj
      exact hw hj
    · rw [update_of_ne hji] at hj
      rw [hu j hji]
      exact h.written j hj
  · rw [hc] at hj ⊢
    rw [hm] at hmt
    by_cases hji : cfg.idx lpa = i
    · rw [hji, update_self] at hj ⊢
      exact ht hj lpa hji hmt
    · rw [update_of_ne hji] at hj ⊢
      exact h.mapped lpa hj hmt

theorem Saved.keep (h : Saved cfg c) {i : Nat} {m : Cmt ω}
    (hc : c'.cmt = update c.cmt i m) (hm : c'.memTable = c.memTable)
    (hu : c'.unsaved = c.unsaved) (hs : m.state = (c.cmt i).state)
    (ht : m.tPpa = (c.cmt i).tPpa) (hp : m.pt = false → m.state = .clean) : Saved cfg c' := by
  apply h.set hc hm (fun j _ => by rw [hu]) hp
  · intro hcl
    rw [hu]
    exact h.written i (hs ▸ hcl)
  · intro hcl lpa hi hmt
    subst hi
    rw [ht]
    exact h.mapped lpa (hs ▸ hcl) hmt

theorem saved_wait {w : ω} (h : Saved cfg c) (hw : cgWaitIfFlying cfg c lpa w = some (some c')) :
    Saved cfg c' := by
  unfold cgWaitIfFlying at hw
  simp only at hw
  split at hw
  · rw [some.injEq, map_eq_some_iff] at hw
    obtain ⟨q, -, rfl⟩ := hw
    exact h.keep rfl rfl rfl rfl rfl (h.uncached (cfg.idx lpa))
  · cases hw

theorem saved_load {t : Nat} (h : Saved cfg c) (hl : cgLoad cfg c lpa = some (t, c')) :
    Saved cfg c' := by
  simp only [cgLoad, map_eq_some_iff, Prod.mk.injEq] at hl
  obtain ⟨t', -, -, rfl⟩ := hl
  exact h.keep rfl rfl rfl rfl rfl (h.uncached (cfg.idx lpa))

theorem saved_evict {t : Nat} {wrote : Option Nat} (h : Saved cfg c)
    (he : cgEvict cfg c t = some (wrote, c')) : Saved cfg c' := by
  unfold cgEvict at he
  split at he
  · split at he
    · cases he
    · rename_i v hv
      simp only at he
      split at he
      · cases he
        refine h.set rfl rfl ?_ ?_ ?_ ?_
        · intro j hj
          exact update_of_ne hj _ _
        · intro _
          rfl
        · intro _
          exact update_self ..
        · intro _ lpa _ _
          exact some_ne_none t
      · rename_i hs
        cases he
        exact h.keep rfl rfl rfl rfl rfl (fun _ => hs)
  · cases he
    exact h

theorem saved_insert (h : Saved cfg c) : Saved cfg (cgInsert cfg c lpa).2 := by
  unfold cgInsert
  simp only
  split <;> exact h.keep rfl rfl rfl rfl rfl (fun hp => by cases hp)

theorem saved_listUp {t : Nat} {r : Listed ω} (h : Saved cfg c)
    (hl : cgListUp cfg c lpa t = some r) : Saved cfg r.cache := by
  simp only [cgListUp, map_eq_some_iff, Prod.exists] at hl
  obtain ⟨wrote, c', he, rfl⟩ := hl
  exact saved_insert (saved_evict h he)

theorem saved_update {ppa : Nat} (h : Saved cfg c) (hp : cgIsHit cfg c lpa = true) :
    Saved cfg (cgUpdate cfg c lpa ppa) := by
  have hp' : (c.cmt (cfg.idx lpa)).pt = true := hp
  simp only [cgUpdate, hp', if_true]
  refine ⟨fun i hi => ?_, fun i hi => ?_, fun l hl hm => ?_⟩
  -- only the page of `lpa` has changed, and it is now dirty
  · by_cases hii : i = cfg.idx lpa
    · subst hii
      simp [Cache.setCmt] at hi
    · simp only [Cache.setCmt, update_of_ne hii] at hi ⊢
      exact h.uncached i hi
  · by_cases hii : i = cfg.idx lpa
    · subst hii
      simp [Cache.setCmt] at hi
    · simp only [Cache.setCmt, update_of_ne hii] at hi ⊢
      exact h.written i hi
  · by_cases hii : cfg.idx l = cfg.idx lpa
    · simp [Cache.setCmt, hii] at hl
    · have hll : l ≠ lpa := fun he => hii (he ▸ rfl)
      simp only [Cache.setCmt, update_of_ne hii] at hl ⊢
      simp only [Cache.setCmt, update_of_ne hll] at hm
      exact h.mapped l hl hm

/-! ## The system -/

section System

variable [DecidableEq κ] {sys : Sys κ} {s s' : St κ υ} {w : Waiter κ} {k : κ} {t : Nat}

theorem saved_waitOrLoad (h : Saved sys.toCfg s.cache) (hw : waitOrLoad sys s w = some s') :
    Saved sys.toCfg s'.cache := by
  unfold waitOrLoad at hw
  split at hw
  · rename_i c hc
    cases hw
    exact saved_wait h hc
  · cases hw
    exact h
  · rw [map_eq_some_iff] at hw
    obtain ⟨⟨t, c⟩, hl, rfl⟩ := hw
    exact saved_load h hl

theorem saved_listed {rc : Bool} (h : Saved sys.toCfg s.cache)
    (hl : listUp sys s w t = some (rc, s')) :
    Saved sys.toCfg s'.cache ∧ cgIsHit sys.toCfg s'.cache (s'.lpa sys w) = true := by
  obtain ⟨r, hr, -, hs⟩ := listUp_cases hl
  have hc : s'.cache = r.cache := by
    obtain ⟨x, d, q, rq, l, rfl⟩ := hs.form
    rfl
  have hcnt : s'.lpa sys w = s.lpa sys w := by
    unfold St.lpa
    rw [hs.cnt]
  rw [hc, hcnt]
  exact ⟨saved_listUp h hr, (listUp_spec hr).pt⟩

theorem saved_dataCheck (h : Saved sys.toCfg s.cache)
    (hp : cgGetPte s.cache (s.lpa sys (.entry k)) = none →
      cgIsHit sys.toCfg s.cache (s.lpa sys (.entry k)) = true) :
    Saved sys.toCfg (wbDataCheck sys s k).cache := by
  unfold wbDataCheck
  split
  · rename_i hn
    exact saved_update h (hp hn)
  · split
    · exact h
    · exact h

omit [DecidableEq κ] in
theorem saved_wbUpdate (h : Saved sys.toCfg s.cache)
    (hp : cgIsHit sys.toCfg s.cache (s.lpa sys (.entry k)) = true) :
    Saved sys.toCfg (wbUpdate sys s k).cache := by
  unfold wbUpdate
  split
  · exact saved_update h hp
  · exact saved_update h hp

theorem saved_wbListUp (h : Saved sys.toCfg s.cache) (hl : wbListUp sys s k t = some s') :
    Saved sys.toCfg s'.cache := by
  simp only [wbListUp, map_eq_some_iff, Prod.exists] at hl
  obtain ⟨rc, s1, hl, hs⟩ := hl
  obtain ⟨h1, hp⟩ := saved_listed h hl
  cases rc <;> cases hs
  · exact saved_dataCheck h1 fun _ => hp
  · exact h1

theorem saved_wbCacheLoad (h : Saved sys.toCfg s.cache) (hl : wbCacheLoad sys s k t = some s') :
    Saved sys.toCfg s'.cache := by
  unfold wbCacheLoad at hl
  split at hl
  · rename_i hw
    cases hl
    exact saved_waitOrLoad h hw
  · exact saved_wbListUp h hl

/-- An entry that is about to update, taken up with jump `j`, finds its page
still cached: after `GOTO_UPDATE`, and after `GOTO_COMPLETE` if the slot is
free. -/
def pageKept (sys : Sys κ) (s : St κ υ) (k : κ) (j : Option Jump) : Prop :=
  j = some .update ∨ j = some .complete ∧ cgGetPte s.cache (s.lpa sys (.entry k)) = none →
  cgIsHit sys.toCfg s.cache (s.lpa sys (.entry k)) = true

theorem saved_resume {j : Option Jump} (h : Saved sys.toCfg s.cache) (hk : pageKept sys s k j)
    (hp : wbResume sys s k t j = some s') : Saved sys.toCfg s'.cache := by
  unfold wbResume at hp
  split at hp
  · exact saved_wbCacheLoad h hp
  · exact saved_wbListUp h hp
  · cases hp
    exact saved_dataCheck h fun hn => hk (.inr ⟨rfl, hn⟩)
  · cases hp
    exact saved_wbUpdate h (hk (.inl rfl))
  · cases hp
  · cases hp
  · cases hp
  · split at hp
    · rename_i hit
      cases hp
      exact saved_dataCheck ⟨h.uncached, h.written, h.mapped⟩ fun _ => hit
    · exact saved_wbCacheLoad h hp

omit [DecidableEq κ] in
theorem saved_checkComplete {i : Nat} (h : Saved sys.toCfg s.cache) :
    Saved sys.toCfg (readCheckComplete sys s i k).cache := by
  unfold readCheckComplete
  split <;> exact h

theorem saved_readCacheLoad {i : Nat} (h : Saved sys.toCfg s.cache) :
    Saved sys.toCfg (readCacheLoad sys s i k).cache := by
  unfold readCacheLoad
  split
  · rename_i hw
    exact saved_waitOrLoad h hw
  · exact h

theorem saved_readListUp {i : Nat} (h : Saved sys.toCfg s.cache)
    (hl : readListUp sys s i k t = some s') : Saved sys.toCfg s'.cache := by
  simp only [readListUp, map_eq_some_iff, Prod.exists] at hl
  obtain ⟨rc, s1, hl, hs⟩ := hl
  have h1 := (saved_listed h hl).1
  cases rc <;> cases hs
  · exact saved_checkComplete h1
  · exact h1

theorem saved_readResume {i : Nat} {j : Option Jump} (h : Saved sys.toCfg s.cache)
    (hr : readResume sys s i k t j = some s') : Saved sys.toCfg s'.cache := by
  unfold readResume at hr
  split at hr
  · cases hr
    exact saved_readCacheLoad h
  · exact saved_readListUp h hr
  · exact saved_readListUp h hr
  · cases hr
    exact saved_checkComplete h
  · cases hr
    exact h
  · cases hr
  · cases hr
  · split at hr
    · cases hr
      exact h
    · split at hr
      · cases hr
        exact saved_checkComplete ⟨h.uncached, h.written, h.mapped⟩
      · cases hr
        exact saved_readCacheLoad h

theorem saved_read {i : Nat} (h : Saved sys.toCfg s.cache) (hr : demandRead sys s i k t = some s') :
    Saved sys.toCfg s'.cache := by
  unfold demandRead at hr
  split at hr
  · cases hr
    exact h
  · exact saved_readResume (s := s.setJump (.read i k) none) h hr

end System

/-! ## Runs -/

section Runs

variable [LinearOrder κ] {sys : Sys κ} {s s' : St κ υ}

/-- Every entry the flush takes up again finds its page as `pageKept` wants it. -/
def keepsPage (sys : Sys κ) (s : St κ υ) : Lbl κ υ → Prop
  | .probe _ => ∀ k ∈ s.cur, pageKept sys s k (s.ctx (.entry k)).jump
  | _ => True

theorem saved_step {l : Lbl κ υ} (h : Saved sys.toCfg s.cache) (hk : keepsPage sys s l)
    (hs : step sys s l = some s') : Saved sys.toCfg s'.cache := by
  cases step_cases hs with
  | read _ hr => exact saved_read (s := s.arrive _) h hr
  | @resume _ _ _ q _ _ _ hr => exact saved_read (s := { s with rq := q }) h hr
  | write _ => exact h
  | flush _ _ => exact h
  | take _ ht =>
    unfold takeEntry at ht
    split at ht <;> cases ht <;> exact h
  | @probe k _ _ hc hp =>
    have hl : (s.pickUp k).lpa sys (.entry k) = s.lpa sys (.entry k) := lpa_setJump none _
    refine saved_resume (s := s.pickUp k) h ?_ hp
    unfold pageKept
    rw [hl]
    exact hk k hc
  | finish _ _ _ => exact h
  | @complete n op _ =>
    obtain ⟨x, m, q, r, l, d, hr⟩ := endReq_form sys { s with dev := s.dev.eraseIdx n } op
    rw [hr]
    exact h

theorem saved_inductive (sys : Sys κ) :
    ((demandLTS (υ := υ) sys).restrict (keepsPage sys)).Inductive
      fun s => Saved sys.toCfg s.cache where
  init := by
    rintro s rfl
    exact saved_init
  step := by
    rintro s l s' h ⟨⟨hs, -⟩, hk⟩
    exact saved_step h hk hs

/-- Along every run in which no entry is updated in an uncached page, an
uncached page has been written to flash since its last update: if it holds a
mapped entry it is clean, has a place on flash, and `cg_load` reads it. -/
theorem uncached_saved (sys : Sys κ) {tr : List (Lbl κ υ)} {s : St κ υ}
    (h : ((demandLTS sys).restrict (keepsPage sys)).Exec tr s) {i : Nat}
    (hi : (s.cache.cmt i).pt = false) :
    s.cache.unsaved i = false ∧
    ∀ lpa, sys.idx lpa = i → s.cache.memTable lpa ≠ none →
      (s.cache.cmt i).state = .clean ∧ (s.cache.cmt i).tPpa ≠ none ∧
      (cgLoad sys.toCfg s.cache lpa).isSome := by
  have hS := h.inv (saved_inductive sys)
  have hc := hS.uncached i hi
  refine ⟨hS.written i hc, fun lpa hl hm => ?_⟩
  subst hl
  have ht := hS.mapped lpa hc hm
  refine ⟨hc, ht, ?_⟩
  rw [cgLoad, isSome_map]
  exact isSome_iff_ne_none.mpr ht

end Runs

/-! ## A cache of one page -/

instance [DecidableEq κ] (sys : Sys κ) (s : St κ υ) (k : κ) (j : Option Jump) :
    Decidable (pageKept sys s k j) :=
  inferInstanceAs (Decidable (_ → _))

instance [LinearOrder κ] (sys : Sys κ) (s : St κ υ) : (l : Lbl κ υ) → Decidable (keepsPage sys s l)
  | .probe _ => inferInstanceAs (Decidable (∀ k ∈ s.cur, _))
  | .read _ _ => isTrue trivial
  | .resume _ => isTrue trivial
  | .write _ _ => isTrue trivial
  | .flush _ _ _ => isTrue trivial
  | .take => isTrue trivial
  | .finish => isTrue trivial
  | .complete _ => isTrue trivial

/-- Three translation pages of 2048 slots, one of them cached, and a buffer of
`n` entries; key `k` first probes slot 1 of page `k`. -/
def onePage (n : Nat) : Sys Nat where
  toCfg := .threePages n
  hash := fun k => 2048 * k

/-- Two keys are flushed; the second evicts the page of the first, waits for
its write-back and finds its own page still cached. -/
theorem uncached_saved_two :
    ∃ tr s, ((demandLTS (υ := Nat) (onePage 2)).restrict (keepsPage (onePage 2))).Exec tr s ∧
      (s.cache.cmt 0).pt = false ∧ s.cache.memTable 1 = some 10 ∧ s.cache.unsaved 0 = false ∧
      (s.cache.cmt 0).state = .clean ∧ (s.cache.cmt 0).tPpa ≠ none := by
  let ls : List (Lbl Nat Nat) := [.write 0 7, .write 1 8, .flush 0 9 (fun k => 10 + k), .take,
    .probe 50, .take, .probe 50, .complete 0, .take, .probe 51, .finish]
  obtain ⟨s, hE, hd⟩ := Core.LTS.Exec.check
    (T := (demandLTS (onePage 2)).restrict (keepsPage (onePage 2))) (some .init)
    (fun s l => promised s l ∧ keepsPage (onePage 2) s l) ls
    (fun s => s.cache.memTable 1 = some 10 ∧ (s.cache.cmt 0).pt = false)
    (fun s l s' hl hs => ⟨⟨hs, hl.1⟩, hl.2⟩) (fun _ h => some.inj h.symm) (by decide +kernel)
  obtain ⟨hu, hm⟩ := uncached_saved (onePage 2) hE hd.2
  obtain ⟨hc, ht, -⟩ := hm 1 (by decide) (by simp [hd.1])
  exact ⟨_, s, hE, hd.2, hd.1, hu, hc, ht⟩

/-- Three keys are flushed. The second caches its page, still clean, and waits
for the write-back of the first one's; the third evicts that page; the second
then updates it uncached. The page is never written, and a read of the second
key is answered "not found". -/
theorem late_update_unsaved :
    ∃ tr s, (demandLTS (υ := Nat) (onePage 3)).Exec tr s ∧
      (s.cache.cmt 1).pt = false ∧ s.cache.memTable 2049 = some 11 ∧ s.flash 11 = some (1, 8) ∧
      s.cache.unsaved 1 = true ∧ (s.cache.cmt 1).tPpa = none ∧
      cgLoad (onePage 3).toCfg s.cache 2049 = none ∧ s.done = [(0, 1, .notFound)] := by
  let ls : List (Lbl Nat Nat) := [.write 0 7, .write 1 8, .write 2 9,
    .flush 3 5 (fun k => 10 + k), .take, .probe 50, .take, .probe 50, .take, .probe 51,
    .complete 0, .take, .probe 52, .finish, .read 1 53]
  exact ⟨_, Core.LTS.Exec.check (some .init) promised ls _ (fun s l s' hl hs => ⟨hs, hl⟩)
    (fun _ h => some.inj h.symm) (by decide +kernel)⟩

end FlashDriver.Demand
