import FlashDriver.Demand.Waiting

/-!
# No stranded flush

While `_do_wb_mapping_update` runs, `p_main` takes no other request. An entry
that waits for a translation page which a read is loading therefore waits for
ever: the read lists the page up only after the flush. This is the only way a
flush can get stuck.

* `flush_fed`: along every run in which no entry looks up a page that a read
  is loading, one of the entries the flush still owes can be taken or is about
  to be queued, parked entries wait for other entries only, and none is lost.
* `flush_stranded`: a run in which an entry does so and the flush has nothing
  left to take.
* `one_load`: a page is loaded for one at a time, others wait there.
-/
namespace FlashDriver.Demand

open List Option Function

variable {κ υ : Type} [LinearOrder κ] {sys : Sys κ} {s s' : St κ υ} {w : Waiter κ} {k : κ}
  {hole : Option Nat} {t : Nat}

/-! ## Capacity -/

theorem Places.room (h : Places sys s (some (.entry k)) hole) {q : List (Waiter κ)}
    (hq : ∀ x, q.count x ≤ s.occ sys x) (hk : ∀ x ∈ q, x.isEntry = true) :
    q.length < sys.flushSize := by
  obtain ⟨hf, hm, -⟩ := h.dues.held_entry
  have hn : (Waiter.entry k :: q).Nodup := by
    rw [nodup_cons, nodup_iff_count_le_one]
    refine ⟨fun hm => ?_, fun x => le_trans (hq x) (h.dues.occ_le x)⟩
    have := count_pos_iff.mpr hm
    have := hq (.entry k)
    have := h.dues.absent
    omega
  have hsub : (Waiter.entry k :: q).Subperm (s.wb.map fun e => Waiter.entry e.1) := by
    apply hn.subperm
    intro x hx
    have hx : ∃ k' ∈ s.wb.map Prod.fst, x = .entry k' := by
      rcases mem_cons.mp hx with rfl | hx
      · exact ⟨k, hm, rfl⟩
      · cases x with
        | read i k' => cases hk _ hx
        | entry k' =>
          have := count_pos_iff.mpr hx
          have := hq (.entry k')
          exact ⟨k', (h.dues.occ_entry (by omega)).2.1, rfl⟩
    obtain ⟨k', hk', rfl⟩ := hx
    simpa using hk'
  have hlen := hsub.length_le
  rw [length_map, h.dues.full hf, length_cons] at hlen
  exact hlen

theorem count_le_occ (x : Waiter κ) : s.out.count x ≤ s.occ sys x := Nat.le_add_right _ _

theorem retry_room (h : Places sys s (some (.entry k)) hole) (hk : ∀ x ∈ s.retryQ, x.isEntry = true) :
    s.retryQ.length < sys.flushSize := by
  refine h.room (fun x => le_trans ?_ (count_le_occ x)) hk
  simp only [St.out, count_append]
  omega

theorem master_room (h : Places sys s (some (.entry k)) hole)
    (hk : ∀ x ∈ s.masterQ, x.isEntry = true) : s.masterQ.length < sys.flushSize := by
  refine h.room (fun x => le_trans ?_ (count_le_occ x)) hk
  simp only [St.out, count_append]
  omega

theorem parked_count (h : Places sys s (some w) hole) (i : Nat) (x : Waiter κ) :
    s.out.count x + (s.cache.cmt i).retryQ.count x ≤ s.occ sys x := by
  by_cases hx : x ∈ (s.cache.cmt i).retryQ
  · exact le_of_eq (by rw [St.occ, (h.pages.home i x hx).1])
  · rw [count_eq_zero.mpr hx]
    exact count_le_occ x

/-! ## The invariant -/

/-- An entry will list page `i` up. -/
def EntryLeads (sys : Sys κ) (s : St κ υ) (hole : Option Nat) (i : Nat) : Prop :=
  hole = some i ∨ ∃ k, Leads sys s (.entry k) i

/-- Entries wait for entries only, and none is lost. `hole` is the page that an
entry in hand has loaded. -/
structure Fed (sys : Sys κ) (s : St κ υ) (hole : Option Nat) : Prop where
  master : ∀ x ∈ s.masterQ, x.isEntry = true
  retry : ∀ x ∈ s.retryQ, x.isEntry = true
  reads : ∀ x ∈ s.rq, x.isEntry = false
  kept : ∀ k, .entry k ∉ s.lost
  led : ∀ i k, .entry k ∈ (s.cache.cmt i).retryQ → EntryLeads sys s hole i
  kin : ∀ i, EntryLeads sys s hole i → ∀ x ∈ (s.cache.cmt i).retryQ, x.isEntry = true

omit [LinearOrder κ] in
theorem Fed.congr {hole' : Option Nat} (h : Fed sys s hole)
    (hq : ∀ i, (s'.cache.cmt i).retryQ = (s.cache.cmt i).retryQ)
    (he : ∀ i, EntryLeads sys s' hole' i ↔ EntryLeads sys s hole i)
    (hm : ∀ x ∈ s'.masterQ, x.isEntry = true) (hr : ∀ x ∈ s'.retryQ, x.isEntry = true)
    (hrq : ∀ x ∈ s'.rq, x.isEntry = false) (hk : ∀ k, .entry k ∉ s'.lost) : Fed sys s' hole' := by
  refine ⟨hm, hr, hrq, hk, fun i k hp => ?_, fun i hi => ?_⟩
  · rw [hq] at hp
    exact (he i).mpr (h.led i k hp)
  · rw [hq]
    exact h.kin i ((he i).mp hi)

omit [LinearOrder κ] in
theorem entryLeads_congr (hl : ∀ k i, Leads sys s' (.entry k) i ↔ Leads sys s (.entry k) i) (i : Nat) :
    EntryLeads sys s' hole i ↔ EntryLeads sys s hole i := by
  unfold EntryLeads
  simp only [hl]

theorem fed_idle (hp : Places sys s none none) (hf : s.flushing = none)
    (hm : ∀ x ∈ s.masterQ, x.isEntry = true) (hr : ∀ x ∈ s.retryQ, x.isEntry = true)
    (hrq : ∀ x ∈ s.rq, x.isEntry = false) : Fed sys s none := by
  refine ⟨hm, hr, hrq, fun k hk => ?_, fun i k hk => ?_, fun i hi => ?_⟩
  · exact (hp.entry_free hf k).1 (by simp [St.out, hk])
  · exact absurd hk ((hp.entry_free hf k).2 i)
  · rcases hi with hi | ⟨k, hk⟩
    · cases hi
    · exact absurd hk.1 (hp.entry_free hf k).1

theorem Fed.setCtx (h : Fed sys s hole) (hp : Places sys s (some w) hole) (c : Ctx) :
    Fed sys (s.setCtx w c) hole := by
  refine h.congr (fun _ => rfl) (entryLeads_congr fun k i => ?_) h.master h.retry h.reads h.kept
  by_cases hx : .entry k = w
  · have hno : .entry k ∉ s.out := hx ▸ hp.not_out
    exact ⟨fun hl => absurd hl.1 hno, fun hl => absurd hl.1 hno⟩
  · have hc : (s.setCtx w c).ctx (.entry k) = s.ctx (.entry k) := update_of_ne hx _ _
    have hpg : (s.setCtx w c).page sys (.entry k) = s.page sys (.entry k) := page_congr (by rw [hc])
    unfold Leads
    rw [hc, hpg]
    rfl

omit [LinearOrder κ] in
theorem Fed.addHole (h : Fed sys s none) {i : Nat} (hi : (s.cache.cmt i).retryQ = []) :
    Fed sys s (some i) := by
  refine ⟨h.master, h.retry, h.reads, h.kept, fun j k hk => ?_, fun j hj x hx => ?_⟩
  · rcases h.led j k hk with hn | hl
    · cases hn
    · exact .inr hl
  · rcases hj with hj | hl
    · cases hj
      rw [hi] at hx
      cases hx
    · exact h.kin j (.inr hl) x hx

theorem Fed.put (h : Fed sys s (holeOf sys s (.entry k))) (hno : .entry k ∉ s.out)
    (hout : ∀ x, s'.out.count x = s.out.count x + [Waiter.entry k].count x) (hctx : s'.ctx = s.ctx)
    (hq : ∀ i, (s'.cache.cmt i).retryQ = (s.cache.cmt i).retryQ)
    (hm : ∀ x ∈ s'.masterQ, x.isEntry = true) (hr : ∀ x ∈ s'.retryQ, x.isEntry = true)
    (hrq : s'.rq = s.rq) (hl : s'.lost = s.lost) : Fed sys s' none := by
  refine h.congr hq (fun i => ?_) hm hr (by rw [hrq]; exact h.reads) (by rw [hl]; exact h.kept)
  unfold EntryLeads
  simp only [leads_put hno hout hctx, exists_or]
  simp

theorem fed_retry (h : Fed sys s (holeOf sys s (.entry k)))
    (hp : Places sys s (some (.entry k)) (holeOf sys s (.entry k))) :
    Fed sys (s.retry sys (.entry k)) none := by
  have hs := (retry_entry sys k s).2 (retry_room hp h.retry)
  apply h.put hp.not_out count_retry <;> rw [hs]
  · exact fun _ => rfl
  · exact h.master
  · intro x hx
    rcases mem_append.mp hx with hx | hx
    · exact h.retry x hx
    · rw [mem_singleton.mp hx]
      rfl

theorem fed_restart (h : Fed sys s (holeOf sys s (.entry k)))
    (hp : Places sys s (some (.entry k)) (holeOf sys s (.entry k))) :
    Fed sys (s.restart sys (.entry k)) none := by
  have hs : s.restart sys (.entry k) = { s with masterQ := s.masterQ ++ [.entry k] } := by
    simp [St.restart, qEnqueue, ne_of_lt (master_room hp h.master)]
  apply h.put hp.not_out count_restart <;> rw [hs]
  · exact fun _ => rfl
  · intro x hx
    rcases mem_append.mp hx with hx | hx
    · exact h.master x hx
    · rw [mem_singleton.mp hx]
      rfl
  · exact h.retry

/-! ## The flush -/

theorem fed_waitOrLoad (h : Fed sys s none) (hp : Places sys s (some (.entry k)) none)
    (hg : ∀ i k', ¬ Leads sys s (.read i k') (s.page sys (.entry k)))
    (hw : waitOrLoad sys s (.entry k) = some s') : Fed sys s' none := by
  rcases waitOrLoad_cases hw with ⟨hf, hs⟩ | ⟨hf, t, -, rfl⟩
  · -- the page is being loaded, and by an entry
    have hled : EntryLeads sys s none (s.page sys (.entry k)) := by
      obtain ⟨_ | x, hx⟩ := (hp.pages.flies _).mp hf
      · cases hx
      · cases x with
        | read i k' => exact absurd hx (hg i k')
        | entry k' => exact .inr ⟨k', hx⟩
    have hkin := h.kin _ hled
    rcases hs with ⟨rfl, hlen⟩ | rfl
    · refine absurd hlen (ne_of_lt (hp.room (fun x => ?_) hkin))
      exact le_trans (Nat.le_add_left _ _) (parked_count hp _ x)
    · have hq := park_pages s.cache (s.page sys (.entry k)) (.entry k)
      refine ⟨h.master, h.retry, h.reads, h.kept, fun i k' hk' => ?_, fun i hi x hx => ?_⟩
      · rw [(hq i).2.2, mem_append] at hk'
        rcases hk' with hk' | hk'
        · exact h.led i k' hk'
        · split at hk'
          · rename_i hi
            rw [hi]
            exact hled
          · cases hk'
      · rw [(hq i).2.2, mem_append] at hx
        rcases hx with hx | hx
        · exact h.kin i hi x hx
        · split at hx
          · rw [mem_singleton.mp hx]
            rfl
          · cases hx
  · have hj : ((s.setJump (.entry k) (some .list)).ctx (.entry k)).jump = some .list := by
      simp [St.setJump, St.setCtx]
    have hpg : (s.setJump (.entry k) (some .list)).page sys (.entry k) = s.page sys (.entry k) := by
      unfold St.page
      rw [lpa_setJump]
    have h1 : Fed sys (s.setJump (.entry k) (some .list))
        (holeOf sys (s.setJump (.entry k) (some .list)) (.entry k)) := by
      rw [holeOf, if_pos hj, hpg]
      exact (h.setCtx hp _).addHole (hp.pages.grounded _ hf)
    exact h1.put hp.not_out (count_issue (s := s) (.mapRead (.entry k) t)) rfl
      (fun i => (fly_pages s.cache _ i).2.1) h.master h.retry rfl rfl

theorem fed_listUp {rc : Bool} (h : Fed sys s hole) (hp : Places sys s (some (.entry k)) hole)
    (hh : hole = some (s.page sys (.entry k)) ∨
      hole = none ∧ (s.cache.cmt (s.page sys (.entry k))).isFlying = false)
    (hj : (s.ctx (.entry k)).jump = none)
    (hl : listUp sys s (.entry k) t = some (rc, s')) : Fed sys s' none := by
  obtain ⟨r, hr, -, hs⟩ := listUp_cases hl
  have hr := listUp_spec hr
  have hwk := hr.woken_mem
  have hne : .entry k ∉ r.woken := fun hm => hp.not_parked _ (hwk _ hm)
  have hkind : ∀ x ∈ r.woken, x.isEntry = true := hs.kind
  -- those woken fit into `wb_retry_q`
  have hfit : s.retryQ.length + r.woken.length ≤ sys.flushSize := by
    have := hp.room (q := s.retryQ ++ r.woken) (fun x => ?_) fun x hx => ?_
    · rw [length_append] at this
      exact le_of_lt this
    · have h1 := parked_count hp (s.page sys (.entry k)) x
      have h2 : r.woken.count x ≤ (s.cache.cmt (s.page sys (.entry k))).retryQ.count x := by
        cases hf : (s.cache.cmt (s.page sys (.entry k))).isFlying with
        | true => exact le_of_eq (by rw [(hr.landed hf).1]; rfl)
        | false => rw [(hr.quiet hf).1]; exact Nat.zero_le _
      simp only [St.out, count_append] at h1 ⊢
      omega
    · rcases mem_append.mp hx with hx | hx
      · exact h.retry x hx
      · exact hkind x hx
  obtain ⟨hrq, hrest⟩ := hs.entries rfl
  obtain ⟨hretry, hlost⟩ := hrest hfit
  obtain ⟨hm, hc⟩ : s'.masterQ = s.masterQ ∧ s'.cache = r.cache := by
    obtain ⟨x, d, q, rq, l, rfl⟩ := hs.form
    exact ⟨rfl, rfl⟩
  have hlead : ∀ k' i, Leads sys s' (.entry k') i ↔ Leads sys s (.entry k') i := by
    intro k' i
    by_cases hk : Waiter.entry k' = .entry k
    · rw [hk]
      refine ⟨fun hl => ?_, fun hl => absurd hl.1 hp.not_out⟩
      have := hl.2.1
      rw [hs.jump, hj] at this
      split at this <;> cases this
    · refine leads_land hp.pages hr hs.cnt (fun x hx => ?_) hk ?_ i
      · simpa [hx] using hs.jump x
      · have h1 := hs.count (.entry k')
        have h2 : s'.out.count (.entry k') =
            { s' with dev := s.dev }.out.count (Waiter.entry k') := by
          have hd : (s'.dev.map Op.owner).count (.entry k') =
              (s.dev.map Op.owner).count (.entry k') := by
            rw [hs.dev, map_append, count_append]
            cases r.wrote with
            | none => simp
            | some t' =>
              have : (Waiter.entry k == .entry k') = false := by simpa using Ne.symm hk
              simp [Op.owner, count_cons, this]
          simp only [St.out, count_append, hd]
        rw [← count_pos_iff, ← count_pos_iff, ← count_pos_iff, h2, h1]
        omega
  have hother : ∀ i, EntryLeads sys s hole i → i ≠ s.page sys (.entry k) →
      ∃ k', Leads sys s (.entry k') i := by
    rintro i (hi | hi) hne
    · rcases hh with hh | ⟨hh, -⟩
      · exact absurd (some.inj (hi.symm.trans hh)) hne
      · cases hh.symm.trans hi
    · exact hi
  have hnil : (s'.cache.cmt (s.page sys (.entry k))).retryQ = [] := by
    rw [hc]
    cases hf : (s.cache.cmt (s.page sys (.entry k))).isFlying with
    | true => exact (hr.landed hf).2
    | false => exact (hr.quiet hf).2.trans (hp.pages.grounded _ hf)
  constructor
  case master =>
    rw [hm]
    exact h.master
  case retry =>
    rw [hretry]
    intro x hx
    rcases mem_append.mp hx with hx | hx
    · exact h.retry x hx
    · exact hkind x hx
  case reads =>
    rw [hrq]
    exact h.reads
  case kept =>
    rw [hlost]
    exact h.kept
  case led =>
    intro i k' hk'
    by_cases hi : i = s.page sys (.entry k)
    · rw [hi, hnil] at hk'
      cases hk'
    · rw [hc, (hr.others i hi).2.1] at hk'
      obtain ⟨k'', hl⟩ := hother i (h.led i k' hk') hi
      exact .inr ⟨k'', (hlead k'' i).mpr hl⟩
  case kin =>
    intro i hi x hx
    by_cases hip : i = s.page sys (.entry k)
    · rw [hip, hnil] at hx
      cases hx
    · rw [hc, (hr.others i hip).2.1] at hx
      refine h.kin i ?_ x hx
      rcases hi with hi | ⟨k', hl⟩
      · cases hi
      · exact .inr ⟨k', (hlead k' i).mp hl⟩

omit [LinearOrder κ] in
theorem fed_directUpdate (h : Fed sys s none) : Fed sys (wbDirectUpdate sys s k) none :=
  h.congr (fun i => ((update_cases sys.toCfg s.cache (s.lpa sys (.entry k)) (s.ppa k)).2 i).2.1)
    (fun _ => Iff.rfl) h.master h.retry h.reads h.kept

omit [LinearOrder κ] in
theorem fed_wbUpdate (h : Fed sys s none) : Fed sys (wbUpdate sys s k) none := by
  unfold wbUpdate
  split
  · exact fed_directUpdate ⟨h.master, h.retry, h.reads, h.kept, h.led, h.kin⟩
  · exact fed_directUpdate h

theorem fed_dataCheck (h : Fed sys s none) (hp : Places sys s (some (.entry k)) none)
    (hj : (s.ctx (.entry k)).jump = none) (hc : s.cur = none) :
    Fed sys (wbDataCheck sys s k) none := by
  have hole : ∀ s' : St κ υ, (s'.ctx (.entry k)).jump = none → holeOf sys s' (.entry k) = none :=
    fun s' hj => holeOf_none (by simp [hj])
  unfold wbDataCheck
  split
  · exact fed_directUpdate h
  · split
    · have hjb : ((s.bump (.entry k)).ctx (.entry k)).jump = none := by
        simp [St.bump, St.setCtx, hj]
      refine Fed.put (s := s.bump (.entry k)) (k := k) ?_ hp.not_out (fun x => ?_) rfl
        (fun _ => rfl) h.master h.retry rfl rfl
      · rw [hole _ hjb]
        exact h.setCtx hp _
      · simp only [St.out, St.bump, St.setCtx, hc, map_some, map_none,
          toList_some, toList_none, count_append, nil_append]
        omega
    · refine Fed.put (s := s) ?_ hp.not_out (count_issue (.dataRead (.entry k) _)) rfl
        (fun _ => rfl) h.master h.retry rfl rfl
      rw [hole s hj]
      exact h

theorem fed_wbListUp (h : Fed sys s hole) (hp : Places sys s (some (.entry k)) hole)
    (hh : hole = some (s.page sys (.entry k)) ∨
      hole = none ∧ (s.cache.cmt (s.page sys (.entry k))).isFlying = false)
    (hj : (s.ctx (.entry k)).jump = none) (hc : s.cur = none)
    (hl : wbListUp sys s k t = some s') : Fed sys s' none := by
  simp only [wbListUp, map_eq_some_iff, Prod.exists] at hl
  obtain ⟨rc, s1, hl, hs⟩ := hl
  have h1 := fed_listUp h hp hh hj hl
  cases rc with
  | true =>
    cases hs
    exact h1
  | false =>
    obtain rfl : wbDataCheck sys s1 k = s' := hs
    obtain ⟨hp1, hj1⟩ := (places_listUp hp hj hh hl).2 rfl
    have hc1 : s1.cur = none := by
      obtain ⟨r, -, -, hs⟩ := listUp_cases hl
      obtain ⟨x, d, q, rq, l, rfl⟩ := hs.form
      exact hc
    exact fed_dataCheck h1 hp1 hj1 hc1

theorem fed_wbCacheLoad (h : Fed sys s none) (hp : Places sys s (some (.entry k)) none)
    (hg : ∀ i k', ¬ Leads sys s (.read i k') (s.page sys (.entry k)))
    (hj : (s.ctx (.entry k)).jump = none) (hc : s.cur = none)
    (hl : wbCacheLoad sys s k t = some s') : Fed sys s' none := by
  unfold wbCacheLoad at hl
  split at hl
  · rename_i hw
    cases hl
    exact fed_waitOrLoad h hp hg hw
  · rename_i hw
    exact fed_wbListUp h hp (.inr ⟨rfl, (waitOrLoad_none hw).1⟩) hj hc hl

theorem fed_wbResume {j : Option Jump} (h : Fed sys s hole)
    (hp : Places sys s (some (.entry k)) hole)
    (hg : ∀ i k', ¬ Leads sys s (.read i k') (s.page sys (.entry k)))
    (hj : (s.ctx (.entry k)).jump = none) (hc : s.cur = none)
    (hole_eq : hole = if j = some .list then some (s.page sys (.entry k)) else none)
    (hr : wbResume sys s k t j = some s') : Fed sys s' none := by
  unfold wbResume at hr
  split at hr
  · subst hole_eq
    exact fed_wbCacheLoad (by simpa using h) (by simpa using hp) hg hj hc hr
  · exact fed_wbListUp h hp (.inl (by simpa using hole_eq)) hj hc hr
  · cases hr
    subst hole_eq
    exact fed_dataCheck (by simpa using h) (by simpa using hp) hj hc
  · cases hr
    subst hole_eq
    exact fed_wbUpdate (by simpa using h)
  · cases hr
  · cases hr
  · cases hr
  · subst hole_eq
    have h : Fed sys s none := by simpa using h
    have hp : Places sys s (some (.entry k)) none := by simpa using hp
    split at hr
    · cases hr
      exact fed_dataCheck ⟨h.master, h.retry, h.reads, h.kept, h.led, h.kin⟩
        (hp.congr (fun _ => rfl) rfl (SamePages.refl _) ⟨rfl, rfl, rfl, rfl⟩ rfl rfl) hj hc
    · exact fed_wbCacheLoad h hp hg hj hc hr

theorem Fed.pop (h : Fed sys s none) (hm : ∀ x ∈ s'.masterQ, x ∈ s.masterQ)
    (hr : ∀ x ∈ s'.retryQ, x ∈ s.retryQ) (hrq : s'.rq = s.rq) (hl : s'.lost = s.lost)
    (hctx : s'.ctx = s.ctx) (hc : s'.cache = s.cache) (hk : .entry k ∈ s.out)
    (hout : ∀ x, x ∈ s'.out ↔ x ∈ s.out ∧ x ≠ .entry k) :
    Fed sys s' (holeOf sys s (.entry k)) := by
  refine h.congr (fun i => by rw [hc]) (fun i => ?_) (fun x hx => h.master x (hm x hx))
    (fun x hx => h.retry x (hr x hx)) (by rw [hrq]; exact h.reads) (by rw [hl]; exact h.kept)
  unfold EntryLeads
  simp only [leads_pop hctx hout, holeOf_eq hk]
  constructor
  · rintro (hh | ⟨k', hl, -⟩)
    · exact .inr ⟨k, hh⟩
    · exact .inr ⟨k', hl⟩
  · rintro (hh | ⟨k', hl⟩)
    · cases hh
    · by_cases hkk : k' = k
      · exact .inl (hkk ▸ hl)
      · exact .inr ⟨k', hl, fun he => hkk (Waiter.entry.inj he)⟩

/-! ## Reads leave the queues of the flush alone -/

section Reads

variable {i : Nat}

structure ReadsOnly (s s' : St κ υ) : Prop where
  flushing : s'.flushing = s.flushing
  master : s'.masterQ = s.masterQ
  retry : s'.retryQ = s.retryQ
  reads : (∀ x ∈ s.rq, x.isEntry = false) → ∀ x ∈ s'.rq, x.isEntry = false

omit [LinearOrder κ] in
theorem readsOnly_checkComplete (sys : Sys κ) (s : St κ υ) (c : Cache (Waiter κ)) (i : Nat)
    (k : κ) : ReadsOnly s (readCheckComplete sys { s with cache := c } i k) := by
  unfold readCheckComplete
  split <;> exact ⟨rfl, rfl, rfl, id⟩

theorem readsOnly_cacheLoad : ReadsOnly s (readCacheLoad sys s i k) := by
  unfold readCacheLoad
  split
  · rename_i hw
    rcases waitOrLoad_cases hw with ⟨-, ⟨rfl, -⟩ | rfl⟩ | ⟨-, t, -, rfl⟩ <;>
      exact ⟨rfl, rfl, rfl, id⟩
  · exact ⟨rfl, rfl, rfl, id⟩

theorem readsOnly_listUp (hl : readListUp sys s i k t = some s') : ReadsOnly s s' := by
  simp only [readListUp, map_eq_some_iff, Prod.exists] at hl
  obtain ⟨rc, s1, hl, hs⟩ := hl
  have h1 : ReadsOnly s s1 := by
    obtain ⟨r, -, -, hs⟩ := listUp_cases hl
    obtain ⟨hq, hrq⟩ := hs.reads rfl
    refine ⟨?_, ?_, hq, fun hr x hx => ?_⟩
    · obtain ⟨x, d, q, rq, l, rfl⟩ := hs.form
      rfl
    · obtain ⟨x, d, q, rq, l, rfl⟩ := hs.form
      rfl
    · rcases hrq x hx with hx | hx
      · exact hr x hx
      · exact hs.kind x hx
  cases rc with
  | true =>
    cases hs
    exact h1
  | false =>
    obtain rfl : readCheckComplete sys s1 i k = s' := hs
    have h2 := readsOnly_checkComplete sys s1 s1.cache i k
    exact ⟨h2.flushing.trans h1.flushing, h2.master.trans h1.master, h2.retry.trans h1.retry,
      fun hr => h2.reads (h1.reads hr)⟩

theorem readsOnly_read (hr : demandRead sys s i k t = some s') : ReadsOnly s s' := by
  unfold demandRead at hr
  split at hr
  · cases hr
    exact ⟨rfl, rfl, rfl, id⟩
  · have hs : ReadsOnly (s.setJump (.read i k) none) s' := by
      unfold readResume at hr
      split at hr
      · cases hr
        exact readsOnly_cacheLoad
      · exact readsOnly_listUp hr
      · exact readsOnly_listUp hr
      · cases hr
        exact readsOnly_checkComplete sys (s.setJump (.read i k) none) s.cache i k
      · cases hr
        exact ⟨rfl, rfl, rfl, id⟩
      · cases hr
      · cases hr
      · split at hr
        · cases hr
          exact ⟨rfl, rfl, rfl, id⟩
        · split at hr
          · cases hr
            exact readsOnly_checkComplete sys (s.setJump (.read i k) none) _ i k
          · cases hr
            exact readsOnly_cacheLoad
    exact ⟨hs.flushing, hs.master, hs.retry, hs.reads⟩

end Reads

/-! ## Steps -/

/-- An entry does not look up a page that a read is loading. -/
def lookupsFree (sys : Sys κ) (s : St κ υ) : Lbl κ υ → Prop
  | .probe _ => ∀ k ∈ s.cur, ∀ w ∈ s.out, w.isEntry = false → (s.ctx w).jump = some .list →
      s.page sys w ≠ s.page sys (.entry k)
  | _ => True

theorem fed_probe (h : Fed sys s none) (hp : Places sys s none none) (hc : s.cur = some k)
    (hg : lookupsFree sys s (.probe t)) (hr : wbProbe sys s k t = some s') : Fed sys s' none := by
  obtain ⟨hp1, -⟩ := hp.pop_cur hc
  have hno : Waiter.entry k ∉ { s with cur := none }.out := hp1.not_out
  have h1 : Fed sys { s with cur := none } (holeOf sys s (.entry k)) := by
    refine h.pop (fun _ => id) (fun _ => id) rfl rfl rfl rfl (by simp [St.out, hc]) fun x => ?_
    by_cases hx : x = .entry k
    · simp [hx, hno]
    · simp [St.out, hc, hx]
  have hpg : (s.pickUp k).page sys (.entry k) = s.page sys (.entry k) := by
    unfold St.page
    exact congrArg _ (lpa_setJump none _)
  refine fed_wbResume (h1.setCtx hp1 ⟨(s.ctx (.entry k)).cnt, none⟩)
    (hp1.setCtx ⟨(s.ctx (.entry k)).cnt, none⟩) (fun i k' hl => ?_) ?_ rfl ?_ hr
  · have hctx : (s.pickUp k).ctx (.read i k') = s.ctx (.read i k') :=
      update_of_ne (show Waiter.read i k' ≠ .entry k by simp) ⟨(s.ctx (.entry k)).cnt, none⟩ _
    refine hg k hc (.read i k') ?_ rfl (hctx ▸ hl.2.1) ?_
    · have := hl.1
      simp only [St.out, St.setCtx, hc, map_some, map_none, toList_some, toList_none] at this ⊢
      simpa using this
    · have : (s.pickUp k).page sys (.read i k') = s.page sys (.read i k') :=
        page_congr (by rw [hctx])
      rw [← this, ← hpg]
      exact hl.2.2
  · simp [St.setCtx]
  · exact congrArg (fun i => if (s.ctx (.entry k)).jump = some .list then some i else none) hpg.symm

omit [LinearOrder κ] in
theorem Fed.of_read (h : Fed sys s none) (hc : s'.cache = s.cache)
    (hctx : ∀ k, s'.ctx (.entry k) = s.ctx (.entry k))
    (hout : ∀ k, Waiter.entry k ∈ s'.out ↔ .entry k ∈ s.out) (hm : s'.masterQ = s.masterQ)
    (hr : s'.retryQ = s.retryQ) (hrq : ∀ x ∈ s'.rq, x.isEntry = false)
    (hl : ∀ k, .entry k ∉ s'.lost) : Fed sys s' none := by
  refine h.congr (fun i => by rw [hc]) (entryLeads_congr fun k i => ?_) (hm ▸ h.master)
    (hr ▸ h.retry) hrq hl
  have hpage : s'.page sys (.entry k) = s.page sys (.entry k) := page_congr (by rw [hctx])
  unfold Leads
  rw [hout, hctx, hpage]

theorem fed_retry_read {i : Nat} (h : Fed sys s none) :
    Fed sys (s.retry sys (.read i k)) none := by
  obtain ⟨r, l, hrl, hs⟩ := retry_read sys i k s
  have hmem : ∀ x, x ∈ r ∨ x ∈ l → x = .read i k := fun x hx => by
    rw [← mem_append, hrl] at hx
    exact mem_singleton.mp hx
  refine h.of_read ?_ ?_ (fun k' => ?_) ?_ ?_ (fun x hx => ?_) (fun k' hk => ?_)
  · rw [hs]
  · rw [hs]
    exact fun _ => rfl
  · rw [mem_out_add count_retry]
    simp
  · rw [hs]
  · rw [hs]
  · rw [hs] at hx
    rcases mem_append.mp hx with hx | hx
    · exact h.reads x hx
    · rw [hmem x (.inl hx)]
      rfl
  · rw [hs] at hk
    rcases mem_append.mp hk with hk | hk
    · exact h.kept k' hk
    · cases hmem _ (.inr hk)

theorem fed_endReq_entry {op : Op κ} (hk : op.owner = .entry k)
    (h : Fed sys s (holeOf sys s (.entry k)))
    (hp : Places sys s (some (.entry k)) (holeOf sys s (.entry k)))
    (hj : (s.ctx (.entry k)).jump = op.jump) : Fed sys (demandEndReq sys s op) none := by
  match op, hk with
  | .mapRead _ t, rfl => exact fed_retry h hp
  | .mapWrite _ t, rfl => exact fed_retry h hp
  | .dataRead _ p, rfl =>
    have hj : (s.ctx (.entry k)).jump = none := hj
    rw [holeOf_none (by simp [hj])] at h hp
    simp only [demandEndReq]
    split
    · have hu : ((s.setJump (.entry k) (some .update)).ctx (.entry k)).jump ≠ some .list := by
        simp [St.setJump, St.setCtx]
      apply fed_retry <;> rw [holeOf_none hu]
      · exact h.setCtx hp _
      · exact hp.setCtx _
    · have hb : ((s.bump (.entry k)).ctx (.entry k)).jump ≠ some .list := by
        simp [St.bump, St.setCtx, hj]
      apply fed_restart <;> rw [holeOf_none hb]
      · exact h.setCtx hp _
      · exact hp.setCtx _

theorem fed_endReq_read {op : Op κ} {i : Nat} (hk : op.owner = .read i k) (h : Fed sys s none) :
    Fed sys (demandEndReq sys s op) none := by
  have hbump : Fed sys (s.bump (.read i k)) none := by
    refine h.of_read rfl (fun k' => ?_) (fun _ => Iff.rfl) rfl rfl h.reads h.kept
    exact update_of_ne (show Waiter.entry k' ≠ .read i k by simp)
      ⟨(s.ctx (.read i k)).cnt + 1, (s.ctx (.read i k)).jump⟩ _
  match op, hk with
  | .mapRead _ t, rfl => exact fed_retry_read h
  | .mapWrite _ t, rfl => exact fed_retry_read h
  | .dataRead _ p, rfl =>
    simp only [demandEndReq]
    split
    · split
      · exact ⟨h.master, h.retry, h.reads, h.kept, h.led, h.kin⟩
      · exact fed_retry_read hbump
    · exact fed_retry_read hbump

theorem fed_complete {n : Nat} {op : Op κ} (h : Fed sys s none) (hp : Places sys s none none)
    (hn : s.dev[n]? = some op) :
    Fed sys (demandEndReq sys { s with dev := s.dev.eraseIdx n } op) none := by
  obtain ⟨hlt, hget⟩ := List.getElem?_eq_some_iff.mp hn
  have hperm : s.dev.Perm (op :: s.dev.eraseIdx n) := by
    rw [← hget]
    exact (getElem_cons_eraseIdx_perm hlt).symm
  have hout : ∀ x, x ≠ op.owner → (x ∈ { s with dev := s.dev.eraseIdx n }.out ↔ x ∈ s.out) := by
    intro x hx
    have := (hperm.map Op.owner).mem_iff (a := x)
    rw [map_cons, mem_cons, or_iff_right hx] at this
    simp only [St.out, mem_append, this]
  cases ho : op.owner with
  | read i k =>
    refine fed_endReq_read ho (h.of_read rfl (fun _ => rfl) (fun k' => hout _ ?_) rfl rfl
      h.reads h.kept)
    simp [ho]
  | entry k =>
    obtain ⟨hp1, -⟩ := hp.pop_dev hn
    have hj := hp.jumps.ops op (hget ▸ getElem_mem hlt)
    rw [ho] at hp1 hj hout
    have hmem : .entry k ∈ s.out := by
      rw [← ho]
      exact owner_mem_out (hget ▸ getElem_mem hlt)
    refine fed_endReq_entry ho (h.pop (fun _ => id) (fun _ => id) rfl rfl rfl rfl hmem
      fun x => ?_) hp1 hj
    by_cases hx : x = .entry k
    · simp [hx, hp1.not_out]
    · simp [hout x hx, hx]

theorem fed_beginFlush {kv : κ × υ} {assign : κ → Nat} (h : Fed sys s none)
    (hp : Places sys s none none) (hf : s.flushing = none) :
    Fed sys (beginFlush s kv assign) none := by
  refine ⟨fun x hx => ?_, h.retry, h.reads, h.kept, fun i k hk => ?_, fun i hi => ?_⟩
  · rcases mem_append.mp hx with hx | hx
    · exact h.master x hx
    · obtain ⟨e, -, rfl⟩ := mem_map.mp hx
      rfl
  · exact absurd hk ((hp.entry_free hf k).2 i)
  · rcases hi with hi | ⟨k, -, hj, -⟩
    · cases hi
    · cases hj

omit [LinearOrder κ] in
theorem fed_take (h : Fed sys s none) (hc : s.cur = none) (ht : takeEntry s = some s') :
    Fed sys s' none := by
  unfold takeEntry at ht
  split at ht
  · rename_i k q hq
    cases ht
    refine h.congr (fun _ => rfl) (entryLeads_congr fun k' i => ?_) h.master
      (fun x hx => h.retry x ?_) h.reads h.kept
    · simp only [Leads, St.out, hc, hq]
      simp [St.page, St.lpa, or_left_comm]
    · simp [hq, hx]
  · rename_i k q hq hm
    cases ht
    refine h.congr (fun _ => rfl) (entryLeads_congr fun k' i => ?_) (fun x hx => h.master x ?_)
      h.retry h.reads h.kept
    · simp only [Leads, St.out, hc, hm]
      simp [St.page, St.lpa]
    · simp [hm, hx]
  · cases ht

theorem fed_step {l : Lbl κ υ} (h : Fed sys s none) (hp : Places sys s none none)
    (hg : lookupsFree sys s l) (hs : step sys s l = some s') : Fed sys s' none := by
  have hp' := places_step hp hs
  -- reads run between flushes
  have hread : ∀ {t : St κ υ}, ReadsOnly t s' → t.flushing = none → t.masterQ = s.masterQ →
      t.retryQ = s.retryQ → (∀ x ∈ t.rq, x ∈ s.rq) → Fed sys s' none := by
    intro t ht hf hm hr hrq
    refine fed_idle hp' (ht.flushing.trans hf) ?_ ?_ (ht.reads fun x hx => h.reads x (hrq x hx))
    · rw [ht.master, hm]
      exact h.master
    · rw [ht.retry, hr]
      exact h.retry
  cases step_cases hs with
  | read hf hr => exact hread (readsOnly_read hr) hf rfl rfl (fun _ => id)
  | resume hf hq hr =>
    refine hread (readsOnly_read hr) hf rfl rfl (fun x hx => ?_)
    rw [hq]
    exact .tail _ hx
  | write _ => exact ⟨h.master, h.retry, h.reads, h.kept, h.led, h.kin⟩
  | flush hf _ => exact fed_beginFlush h hp hf
  | take hc ht => exact fed_take h hc ht
  | probe hc hpr => exact fed_probe h hp hc hg hpr
  | finish _ _ _ => exact fed_idle hp' rfl h.master h.retry h.reads
  | complete hn => exact fed_complete h hp hn

theorem fed_inductive (sys : Sys κ) : ((demandLTS (υ := υ) sys).restrict (lookupsFree sys)).Inductive
    fun s => Places sys s none none ∧ Fed sys s none where
  init := by
    rintro s rfl
    exact ⟨places_init, fed_idle places_init rfl (by simp [St.init]) (by simp [St.init])
      (by simp [St.init])⟩
  step := by
    rintro s l s' ⟨hp, h⟩ ⟨⟨hs, -⟩, hg⟩
    exact ⟨places_step hp hs, fed_step h hp hg hs⟩

/-! ## No stranded flush -/

/-- The loop of `_do_wb_mapping_update` has entry `k` in hand, finds it in a
queue, or will once an operation of the device completes. -/
inductive Coming (sys : Sys κ) (s : St κ υ) (k : κ) : Prop
  | hand (h : s.cur = some k)
  | queued (h : .entry k ∈ s.retryQ ∨ .entry k ∈ s.masterQ)
  | attached (n : Nat) (s' : St κ υ) (ho : s.dev[n]?.map Op.owner = some (.entry k))
      (hs : step sys s (.complete n) = some s') (h : .entry k ∈ s'.retryQ ∨ .entry k ∈ s'.masterQ)

theorem queued_endReq {op : Op κ} (hk : op.owner = .entry k) (hr : s.retryQ.length < sys.flushSize)
    (hm : s.masterQ.length < sys.flushSize) :
    .entry k ∈ (demandEndReq sys s op).retryQ ∨ .entry k ∈ (demandEndReq sys s op).masterQ := by
  have hretry : ∀ t : St κ υ, t.retryQ = s.retryQ → .entry k ∈ (t.retry sys (.entry k)).retryQ := by
    intro t ht
    rw [(retry_entry sys k t).2 (by rw [ht]; exact hr)]
    simp
  match op, hk with
  | .mapRead _ t, rfl => exact .inl (hretry s rfl)
  | .mapWrite _ t, rfl => exact .inl (hretry s rfl)
  | .dataRead _ p, rfl =>
    simp only [demandEndReq]
    split
    · exact .inl (hretry _ rfl)
    · have : (s.bump (.entry k)).masterQ.length ≠ sys.flushSize := ne_of_lt hm
      exact .inr (by simp [St.restart, qEnqueue, this])

theorem Fed.coming (h : Fed sys s none) (hp : Places sys s none none) (hk : .entry k ∈ s.out) :
    Coming sys s k := by
  simp only [St.out, mem_append] at hk
  rcases hk with ((((hk | hk) | hk) | hk) | hk) | hk
  · rw [mem_toList, map_eq_some_iff] at hk
    obtain ⟨k', hc, he⟩ := hk
    exact .hand (hc.trans (congrArg some (Waiter.entry.inj he)))
  · exact .queued (.inr hk)
  · exact .queued (.inl hk)
  · cases h.reads _ hk
  · obtain ⟨op, hop, ho⟩ := mem_map.mp hk
    obtain ⟨n, hn⟩ := mem_iff_getElem?.mp hop
    obtain ⟨hp1, -⟩ := hp.pop_dev hn
    rw [ho] at hp1
    refine .attached n _ (by rw [hn, map_some, ho]) (by rw [step, hn]; rfl) ?_
    exact queued_endReq ho (retry_room hp1 h.retry) (master_room hp1 h.master)
  · exact absurd hk (h.kept k)

theorem Places.unfinished (h : Places sys s none none) (hf : s.flushing.isSome)
    (hu : s.updated.length < sys.flushSize) : ∃ k ∈ s.wb.map Prod.fst, k ∉ s.updated := by
  by_contra hno
  have hall : ∀ k ∈ s.wb.map Prod.fst, k ∈ s.updated := by simpa using hno
  have hnd : (s.wb.map Prod.fst).Nodup := h.dues.sorted.imp fun hlt => ne_of_lt hlt
  have hlen := (hnd.subperm hall).length_le
  rw [length_map, h.dues.full hf] at hlen
  omega

theorem flush_fed (sys : Sys κ) {tr : List (Lbl κ υ)}
    (h : ((demandLTS sys).restrict (lookupsFree sys)).Exec tr s) (hf : s.flushing.isSome)
    (hu : s.updated.length < sys.flushSize) :
    (∃ k ∈ s.wb.map Prod.fst, k ∉ s.updated ∧ Coming sys s k) ∧
    (∀ i k, .entry k ∈ (s.cache.cmt i).retryQ →
      (∃ k', k' ∈ s.wb.map Prod.fst ∧ k' ∉ s.updated ∧ Leads sys s (.entry k') i ∧ Coming sys s k') ∧
      ∀ x, Leads sys s x i → x.isEntry = true) ∧
    ∀ k, .entry k ∉ s.lost := by
  obtain ⟨hp, hfed⟩ := h.inv (fed_inductive sys)
  have hlead : ∀ i k, .entry k ∈ (s.cache.cmt i).retryQ →
      ∃ k', k' ∈ s.wb.map Prod.fst ∧ k' ∉ s.updated ∧ Leads sys s (.entry k') i ∧
        Coming sys s k' := by
    intro i k hk
    obtain hn | ⟨k', hl⟩ := hfed.led i k hk
    · cases hn
    · have hpos : 0 < s.occ sys (.entry k') :=
        lt_of_lt_of_le (count_pos_iff.mpr hl.1) (count_le_occ _)
      obtain ⟨-, hm, hn⟩ := hp.dues.occ_entry hpos
      exact ⟨k', hm, hn, hl, hfed.coming hp hl.1⟩
  refine ⟨?_, fun i k hk => ⟨hlead i k hk, fun x hx => ?_⟩, hfed.kept⟩
  · obtain ⟨k, hm, hn⟩ := hp.unfinished hf hu
    have h1 : 0 < s.occ sys (.entry k) := (hp.dues.entry k).mpr ⟨hf, hm, hn⟩
    unfold St.occ at h1
    by_cases hk : .entry k ∈ s.out
    · exact ⟨k, hm, hn, hfed.coming hp hk⟩
    · rw [count_eq_zero.mpr hk, zero_add] at h1
      obtain ⟨k', hm', hn', -, hc⟩ := hlead _ k (count_pos_iff.mp h1)
      exact ⟨k', hm', hn', hc⟩
  · obtain ⟨k', -, -, hl, -⟩ := hlead i k hk
    cases hp.pages.uniq i (some x) (some (.entry k')) hx hl
    rfl

instance (sys : Sys κ) (s : St κ υ) : (l : Lbl κ υ) → Decidable (lookupsFree sys s l)
  | .probe _ => inferInstanceAs (Decidable (∀ k ∈ s.cur, _))
  | .read _ _ => isTrue trivial
  | .resume _ => isTrue trivial
  | .write _ _ => isTrue trivial
  | .flush _ _ _ => isTrue trivial
  | .take => isTrue trivial
  | .finish => isTrue trivial
  | .complete _ => isTrue trivial

/-- Three translation pages of 2048 slots, one of them cached, and a buffer of
one entry; keys `2 * i` and `2 * i + 1` first probe slots of page `i`. -/
def twoKeys : Sys Nat where
  toCfg := .threePages 1
  hash := fun k => 1024 * k

/-- A read is loading page 0 while the flush of key 4, on page 2, waits for the
write-back of page 1. -/
theorem flush_fed_other_page :
    ∃ tr s, ((demandLTS (υ := Nat) twoKeys).restrict (lookupsFree twoKeys)).Exec tr s ∧
      s.flushing = some (3, 6) ∧ s.updated = [] ∧
      s.dev = [.mapRead (.read 0 0) 51, .mapWrite (.entry 4) 54] ∧
      (∃ k ∈ s.wb.map Prod.fst, k ∉ s.updated ∧ Coming twoKeys s k) ∧ .entry 4 ∉ s.lost := by
  let ls : List (Lbl Nat Nat) := [.write 0 7, .flush 2 8 (fun k => 10 + k), .take, .probe 50,
    .finish, .flush 4 9 (fun k => 20 + k), .take, .probe 51, .complete 0, .take, .probe 52,
    .finish, .read 0 53, .flush 3 6 (fun k => 30 + k), .take, .probe 54]
  obtain ⟨s, hE, hf, hu, hd⟩ := Core.LTS.Exec.check
    (T := (demandLTS twoKeys).restrict (lookupsFree twoKeys)) (some .init)
    (fun s l => promised s l ∧ lookupsFree twoKeys s l) ls
    (fun s => s.flushing = some (3, 6) ∧ s.updated = [] ∧
      s.dev = [.mapRead (.read 0 0) 51, .mapWrite (.entry 4) 54])
    (fun s l s' hl hs => ⟨⟨hs, hl.1⟩, hl.2⟩) (fun _ h => some.inj h.symm) (by decide +kernel)
  have h := flush_fed twoKeys hE (by simp [hf]) (by simp [hu, twoKeys, Cfg.threePages])
  exact ⟨_, s, hE, hf, hu, hd, h.1, h.2.2 4⟩

/-- A read is loading page 0 when the flush looks up key 1, on the same page.
The entry is parked; the load completes and queues the read, which `p_main`
does not take while it is in the flush. Nothing can be taken, and nothing is
on the device. -/
theorem flush_stranded :
    ∃ tr s, (demandLTS (υ := Nat) twoKeys).Exec tr s ∧
      s.flushing = some (3, 6) ∧ s.wb = [(1, 9)] ∧ s.updated = [] ∧
      (s.cache.cmt 0).retryQ = [.entry 1] ∧ s.rq = [.read 0 0] ∧
      s.cur = none ∧ s.masterQ = [] ∧ s.retryQ = [] ∧ s.dev = [] ∧
      ∀ l, step twoKeys s l = none := by
  let ls : List (Lbl Nat Nat) := [.write 0 7, .flush 2 8 (fun k => 10 + k), .take, .probe 50,
    .finish, .flush 1 9 (fun k => 20 + k), .take, .probe 51, .complete 0, .take, .probe 52,
    .finish, .read 0 53, .flush 3 6 (fun k => 30 + k), .take, .probe 54, .complete 0]
  obtain ⟨s, hE, hf, hwb, hu, hq, hrq, hc, hm, hr, hdev⟩ := Core.LTS.Exec.check
    (T := demandLTS twoKeys) (some .init) promised ls
    (fun s => s.flushing = some (3, 6) ∧ s.wb = [(1, 9)] ∧ s.updated = [] ∧
      (s.cache.cmt 0).retryQ = [.entry 1] ∧ s.rq = [.read 0 0] ∧ s.cur = none ∧
      s.masterQ = [] ∧ s.retryQ = [] ∧ s.dev = [])
    (fun s l s' hl hs => ⟨hs, hl⟩) (fun _ h => some.inj h.symm) (by decide +kernel)
  refine ⟨_, s, hE, hf, hwb, hu, hq, hrq, hc, hm, hr, hdev, fun l => ?_⟩
  cases l with
  | take => simp [step, takeEntry, hr, hm]
  | finish => simp [step, hf, hu, twoKeys, Cfg.threePages]
  | _ => simp [step, hf, hc, hdev]

/-! ## Loads of a translation page -/

/-- A translation page is being loaded exactly if one of the reads and entries, and only one, will
list it up, unless a full queue has dropped it; it is not cached then. Whoever is parked at a page
waits for the page of its own slot, is parked once and nowhere else, and that page is being
loaded. -/
theorem one_load (sys : Sys κ) {tr : List (Lbl κ υ)} (h : (demandLTS sys).Exec tr s) (i : Nat) :
    ((s.cache.cmt i).isFlying = true ↔ ∃! w, Leads sys s w i) ∧
      (s.lost = [] → ∀ w, Leads sys s w i →
        w ∈ (s.cur.map .entry).toList ++ s.masterQ ++ s.retryQ ++ s.rq ++ s.dev.map Op.owner) ∧
      ((s.cache.cmt i).isFlying = true → (s.cache.cmt i).pt = false) ∧
      ∀ w ∈ (s.cache.cmt i).retryQ, (s.cache.cmt i).isFlying = true ∧ s.page sys w = i ∧
        (s.cache.cmt i).retryQ.count w = 1 ∧ w ∉ s.out := by
  have hI : (demandLTS sys).Inductive fun s : St κ υ => Places sys s none none :=
    ⟨fun s hs => hs ▸ places_init, fun s l s' hp hs => places_step hp hs.1⟩
  obtain ⟨hdues, hpages, -⟩ := h.inv hI
  refine ⟨?_, fun hl w hw => by simpa [St.out, hl] using hw.1, hpages.uncached i, fun w hw => ?_⟩
  · rw [hpages.flies i]
    constructor
    · rintro ⟨_ | w, hw⟩
      · cases hw
      · exact ⟨w, hw, fun x hx => some_inj.mp (hpages.uniq i (some x) (some w) hx hw)⟩
    · rintro ⟨w, hw, -⟩
      exact ⟨some w, hw⟩
  · have hpage := (hpages.home i w hw).1
    have hcount := count_pos_iff.mpr hw
    have honce := hdues.occ_le w
    rw [St.occ, hpage] at honce
    refine ⟨?_, hpage, by omega, fun hout => ?_⟩
    · by_contra hf
      rw [hpages.grounded i (by simpa using hf)] at hw
      cases hw
    · have := count_pos_iff.mpr hout
      omega

/-- A read loads page 0 and an entry is parked there. -/
theorem one_load_shared : ∃ tr s, (demandLTS (υ := Nat) twoKeys).Exec tr s ∧
    (s.cache.cmt 0).retryQ = [.entry 1] ∧ ∃! w, Leads twoKeys s w 0 := by
  let ls : List (Lbl Nat Nat) := [.write 0 7, .flush 2 8 (fun k => 10 + k), .take, .probe 50,
    .finish, .flush 1 9 (fun k => 20 + k), .take, .probe 51, .complete 0, .take, .probe 52,
    .finish, .read 0 53, .flush 3 6 (fun k => 30 + k), .take, .probe 54]
  obtain ⟨s, hE, hq⟩ := Core.LTS.Exec.check (T := demandLTS twoKeys) (some .init) promised ls
    (fun s => (s.cache.cmt 0).retryQ = [.entry 1]) (fun s l s' hl hs => ⟨hs, hl⟩)
    (fun _ h => some.inj h.symm) (by decide +kernel)
  have h := one_load twoKeys hE 0
  exact ⟨_, s, hE, hq, h.1.mp (h.2.2.2 (.entry 1) (by simp [hq])).1⟩

end FlashDriver.Demand
