import FlashDriver.Demand.Places

/-!
# Every step keeps everyone in place

`Places` for each function of the FTL, and from these for every step: nobody is
in two places, every entry that the flush still owes is in one, and a page is
being loaded exactly if someone will list it up.
-/
namespace FlashDriver.Demand

open List Option Function

variable {κ υ : Type} [LinearOrder κ] {sys : Sys κ} {s s' : St κ υ} {w : Waiter κ}
  {hole : Option Nat} {k : κ} {t : Nat}

/-! ## Moves -/

theorem mem_out_add {ws : List (Waiter κ)} (hout : ∀ x, s'.out.count x = s.out.count x + ws.count x)
    (x : Waiter κ) : x ∈ s'.out ↔ x ∈ s.out ∨ x ∈ ws := by
  rw [← count_pos_iff, hout, ← count_pos_iff, ← count_pos_iff]
  omega

theorem leads_put (hno : w ∉ s.out) (hout : ∀ x, s'.out.count x = s.out.count x + [w].count x)
    (hctx : s'.ctx = s.ctx) (x : Waiter κ) (i : Nat) :
    Leads sys s' x i ↔ x = w ∧ holeOf sys s w = some i ∨ Leads sys s x i := by
  have hpage : s'.page sys x = s.page sys x := page_congr (by rw [hctx])
  unfold Leads
  rw [mem_out_add hout, hctx, hpage, mem_singleton]
  by_cases hx : x = w
  · subst hx
    unfold holeOf
    split
    · rename_i hl
      simp [hno, hl]
    · rename_i hl
      simp [hno, hl]
  · simp [hx]

theorem Places.put (h : Places sys s (some w) (holeOf sys s w))
    (hout : ∀ x, s'.out.count x = s.out.count x + [w].count x) (hctx : s'.ctx = s.ctx)
    (hw : Ready s w) (hc : SamePages s.cache s'.cache) (hd : SameDues s s')
    (hdev : ∀ op ∈ s'.dev, op ∈ s.dev ∨ op.owner = w ∧ (s.ctx w).jump = op.jump)
    (hm : s'.maxTry = s.maxTry) : Places sys s' none none := by
  have hpage : ∀ x, s'.page sys x = s.page sys x := fun x => page_congr (by rw [hctx])
  constructor
  · refine h.dues.congr (fun x => ?_) hd
    unfold St.total St.occ
    rw [hout, (hc _).2.1, hpage]
    simp only [toList_none, toList_some, count_nil]
    omega
  · exact h.pages.put hc (fun i x _ => by rw [hctx]) (leads_put h.not_out hout hctx)
  · refine h.jumps.add [w] (fun x => (mem_out_add hout x).mp) (fun op hop => ?_)
      (fun x _ => by rw [hctx]) (le_of_eq hm.symm) fun x hx => ?_
    · rw [hctx]
      rcases hdev op hop with hop | ⟨rfl, hj⟩
      · exact .inl hop
      · exact .inr hj
    · rw [mem_singleton.mp hx]
      refine ⟨?_, ?_⟩ <;> rw [hctx]
      · exact hw.stored
      · rw [hm]
        exact hw.tried

theorem Places.pop (h : Places sys s none none)
    (hout : ∀ x, s.out.count x = s'.out.count x + [w].count x) (hctx : s'.ctx = s.ctx)
    (hc : s'.cache = s.cache) (hd : SameDues s s') (hdev : ∀ op ∈ s'.dev, op ∈ s.dev)
    (hm : s'.maxTry = s.maxTry) :
    Places sys s' (some w) (holeOf sys s w) ∧ Ready s' w := by
  have hpos : ∀ x, x ∈ s.out ↔ x ∈ s'.out ∨ x = w := fun x =>
    (mem_out_add hout x).trans (by simp)
  have hw : w ∈ s.out := (hpos w).mpr (.inr rfl)
  have hdues : Dues sys s' (some w) := by
    refine h.dues.congr (fun x => ?_) hd
    have hp : s'.page sys x = s.page sys x := page_congr (by rw [hctx])
    unfold St.total St.occ
    rw [hout, hp, hc]
    simp only [toList_none, toList_some, count_nil]
    omega
  refine ⟨⟨hdues, h.pages.pop hw hctx hc fun x => ?_, ?_⟩, ?_⟩
  · rw [hpos]
    by_cases hx : x = w
    · subst hx
      have h0 := hdues.absent
      unfold St.occ at h0
      have : x ∉ s'.out := fun hm => by
        have := count_pos_iff.mpr hm
        omega
      simp [this]
    · simp [hx]
  · apply h.jumps.mono (fun x hx => (hpos x).mpr (.inl hx)) hdev _ (le_of_eq hm.symm)
    intro x _
    rw [hctx]
  · constructor
    · rw [hctx]
      exact h.jumps.stored w hw
    · rintro i k rfl hl
      rw [hctx] at hl ⊢
      rw [hm]
      exact h.jumps.tried i k hw hl

theorem Places.vanish (h : Places sys s (some w) none) (hout : s'.out = s.out)
    (hctx : s'.ctx = s.ctx) (hc : SamePages s.cache s'.cache)
    (hf : s'.flushing = s.flushing) (hwb : s'.wb = s.wb) (hn : s'.nextId = s.nextId)
    (hu : s'.updated = s.updated ++ w.counts) (hdev : s'.dev = s.dev)
    (hm : s.maxTry ≤ s'.maxTry) : Places sys s' none none := by
  have hpage : ∀ x, s'.page sys x = s.page sys x := fun x => page_congr (by rw [hctx])
  constructor
  · apply h.dues.vanish _ hf hwb hn hu
    intro x
    unfold St.occ
    rw [hout, hpage, (hc _).2.1]
  · apply h.pages.congr hc
    · intro i x _
      rw [hctx]
    · intro x i
      unfold Leads
      rw [hout, hctx, hpage]
  · apply h.jumps.mono _ _ _ hm
    · rw [hout]
      exact fun _ => id
    · rw [hdev]
      exact fun _ => id
    · intro x _
      rw [hctx]

theorem Places.congr {held : Option (Waiter κ)} (h : Places sys s held hole)
    (hout : ∀ x, s'.out.count x = s.out.count x) (hctx : s'.ctx = s.ctx)
    (hc : SamePages s.cache s'.cache) (hd : SameDues s s') (hdev : s'.dev = s.dev)
    (hm : s'.maxTry = s.maxTry) : Places sys s' held hole := by
  have hpage : ∀ x, s'.page sys x = s.page sys x := fun x => page_congr (by rw [hctx])
  have hpos : ∀ x, x ∈ s'.out ↔ x ∈ s.out := fun x => by
    rw [← count_pos_iff, hout, count_pos_iff]
  constructor
  · refine h.dues.congr (fun x => ?_) hd
    unfold St.total St.occ
    rw [hout, hpage, (hc _).2.1]
  · apply h.pages.congr hc
    · intro i x _
      rw [hctx]
    · intro x i
      unfold Leads
      rw [hpos, hctx, hpage]
  · apply h.jumps.mono (fun x hx => (hpos x).mp hx) _ _ (le_of_eq hm.symm)
    · rw [hdev]
      exact fun _ => id
    · intro x _
      rw [hctx]

theorem Places.setCtx (h : Places sys s (some w) hole) (c : Ctx) :
    Places sys (s.setCtx w c) (some w) hole := by
  have hne : ∀ x, x ≠ w → (s.setCtx w c).ctx x = s.ctx x := fun x hx =>
    update_of_ne hx _ _
  have hout : ∀ x ∈ s.out, x ≠ w := fun x hx he => h.not_out (he ▸ hx)
  constructor
  · refine h.dues.congr (fun x => congrArg (· + _) ?_) ⟨rfl, rfl, rfl, rfl⟩
    by_cases hx : x = w
    · subst hx
      have h0 : ∀ i, (s.cache.cmt i).retryQ.count x = 0 := fun i =>
        count_eq_zero.mpr (h.not_parked i)
      exact congrArg (s.out.count x + ·) ((h0 _).trans (h0 _).symm)
    · have hp : (s.setCtx w c).page sys x = s.page sys x := page_congr (by rw [hne x hx])
      unfold St.occ
      rw [hp]
      rfl
  · refine h.pages.congr (SamePages.refl _) (fun i x hx => ?_) fun x i => ?_
    · exact hne x fun he => h.not_parked i (he ▸ hx)
    · by_cases hx : x = w
      · subst hx
        have hno : x ∉ s.out := h.not_out
        exact ⟨fun hl => absurd hl.1 hno, fun hl => absurd hl.1 hno⟩
      · have hp : (s.setCtx w c).page sys x = s.page sys x := page_congr (by rw [hne x hx])
        unfold Leads
        rw [hne x hx, hp]
        rfl
  · exact h.jumps.mono (fun _ => id) (fun _ => id) (fun x hx => hne x (hout x hx)) (le_rfl)

/-! ## Waiting for a page -/

omit [LinearOrder κ] in
theorem holeOf_none (hj : (s.ctx w).jump ≠ some .list) : holeOf sys s w = none := if_neg hj

theorem places_drop (h : Places sys s (some w) (holeOf sys s w)) (hw : Ready s w) :
    Places sys (s.drop w) none none :=
  h.put count_drop rfl hw (SamePages.refl _) ⟨rfl, rfl, rfl, rfl⟩ (fun _ => .inl) rfl

theorem places_issue {a : Op κ} (h : Places sys s (some a.owner) (holeOf sys s a.owner))
    (hw : Ready s a.owner) (hj : (s.ctx a.owner).jump = a.jump) :
    Places sys (s.issue a) none none := by
  refine h.put (count_issue a) rfl hw (SamePages.refl _) ⟨rfl, rfl, rfl, rfl⟩ (fun o ho => ?_) rfl
  rcases mem_append.mp ho with ho | ho
  · exact .inl ho
  · rw [mem_singleton.mp ho]
    exact .inr ⟨rfl, hj⟩

theorem places_retry (h : Places sys s (some w) (holeOf sys s w)) (hw : Ready s w) :
    Places sys (s.retry sys w) none none := by
  obtain ⟨q, r, l, hr⟩ := retry_form sys s w
  apply h.put count_retry _ hw <;> rw [hr]
  · exact SamePages.refl _
  · exact ⟨rfl, rfl, rfl, rfl⟩
  · exact fun _ => .inl

theorem places_restart (h : Places sys s (some w) (holeOf sys s w)) (hw : Ready s w) :
    Places sys (s.restart sys w) none none := by
  obtain ⟨q, l, hr⟩ := restart_form sys s w
  apply h.put count_restart _ hw <;> rw [hr]
  · exact SamePages.refl _
  · exact ⟨rfl, rfl, rfl, rfl⟩
  · exact fun _ => .inl

theorem places_park (h : Places sys s (some w) none)
    (hf : (s.cache.cmt (s.page sys w)).isFlying = true) (hj : (s.ctx w).jump = none) :
    Places sys { s with cache := s.cache.park (s.page sys w) w } none none := by
  have hq := park_pages s.cache (s.page sys w) w
  constructor
  · refine h.dues.congr (fun x => ?_) ⟨rfl, rfl, rfl, rfl⟩
    show s.out.count x + ((s.cache.park (s.page sys w) w).cmt (s.page sys x)).retryQ.count x + 0 = _
    unfold St.total St.occ
    rw [(hq _).2.2, count_append, toList_some]
    by_cases hx : x = w
    · subst hx
      rw [if_pos rfl]
      omega
    · have h0 : [w].count x = 0 := count_eq_zero.mpr (by simpa using hx)
      split <;> simp [h0]
  · exact h.pages.park hf hj
  · exact h.jumps.mono (fun _ => id) (fun _ => id) (fun _ _ => rfl) (le_rfl)

theorem Places.fly {p : Nat} (h : Places sys s (some w) none) (hf : (s.cache.cmt p).isFlying = false)
    (hpt : (s.cache.cmt p).pt = false) :
    Places sys { s with cache := s.cache.fly p } (some w) (some p) := by
  refine ⟨h.dues.congr (fun x => ?_) ⟨rfl, rfl, rfl, rfl⟩, h.pages.fly hf hpt,
    h.jumps.mono (fun _ => id) (fun _ => id) (fun _ _ => rfl) (le_rfl)⟩
  show s.out.count x + ((s.cache.fly p).cmt (s.page sys x)).retryQ.count x + _ = _
  rw [(fly_pages s.cache p _).2.1]
  rfl

theorem places_load (h : Places sys s (some w) none)
    (hf : (s.cache.cmt (s.page sys w)).isFlying = false)
    (hpt : (s.cache.cmt (s.page sys w)).pt = false)
    (htry : ∀ i k, w = .read i k → (s.ctx w).cnt ≤ s.maxTry) :
    Places sys { (s.setJump w (some .list)).issue (.mapRead w t) with
      cache := s.cache.fly (s.page sys w) } none none := by
  have h1 := (h.fly hf hpt).setCtx ⟨(s.ctx w).cnt, some .list⟩
  have hw : (({ s with cache := s.cache.fly (s.page sys w) }.setCtx w
      ⟨(s.ctx w).cnt, some .list⟩).ctx w) = ⟨(s.ctx w).cnt, some .list⟩ := update_self _ _ _
  refine places_issue (a := .mapRead w t) ?_ ⟨?_, fun i k he _ => ?_⟩ (congrArg Ctx.jump hw)
  · have hole : holeOf sys _ w = some (s.page sys w) :=
      (if_pos (congrArg Ctx.jump hw)).trans (congrArg some (page_congr (by rw [hw])))
    rw [← hole] at h1
    exact h1
  · exact .inr (.inl (congrArg Ctx.jump hw))
  · exact le_trans (le_of_eq (congrArg Ctx.cnt hw)) (htry i k he)

theorem places_waitOrLoad (h : Places sys s (some w) none) (hj : (s.ctx w).jump = none)
    (hpt : (s.cache.cmt (s.page sys w)).pt = false)
    (htry : ∀ i k, w = .read i k → (s.ctx w).cnt ≤ s.maxTry) (hw : waitOrLoad sys s w = some s') :
    Places sys s' none none := by
  rcases waitOrLoad_cases hw with ⟨hf, ⟨rfl, -⟩ | rfl⟩ | ⟨hf, t, -, rfl⟩
  · apply places_drop _ (.of_jump (.inl hj))
    rw [holeOf_none (by simp [hj])]
    exact h
  · exact places_park h hf hj
  · exact places_load h hf hpt htry

theorem Places.land {r : Listed (Waiter κ)} (h : Places sys s (some w) hole)
    (hh : hole = some (s.page sys w) ∨ hole = none ∧ (s.cache.cmt (s.page sys w)).isFlying = false)
    (hr : ListsUp sys.toCfg s.cache (s.lpa sys w) r) (hc : s'.cache = r.cache)
    (hcnt : ∀ x, (s'.ctx x).cnt = (s.ctx x).cnt)
    (hjump : ∀ x, x ≠ w → (s'.ctx x).jump = if x ∈ r.woken then some .complete else (s.ctx x).jump)
    (hout : ∀ x, s'.out.count x = s.out.count x + r.woken.count x) (hd : SameDues s s')
    (hdev : s'.dev = s.dev) (hm : s'.maxTry = s.maxTry) : Places sys s' (some w) none := by
  have hwoken := hr.woken_mem
  have hpos := mem_out_add hout
  constructor
  · refine h.dues.congr (fun x => congrArg (· + _) ?_) hd
    have hp : s'.page sys x = s.page sys x := page_congr (hcnt x)
    unfold St.occ
    rw [hout, hp, hc]
    by_cases hx : s.page sys x = s.page sys w
    · rw [hx]
      cases hf : (s.cache.cmt (s.page sys w)).isFlying with
      | true =>
        rw [St.page, (hr.landed hf).2, (hr.landed hf).1]
        simp
      | false =>
        rw [St.page, (hr.quiet hf).2, (hr.quiet hf).1]
        simp
    · -- nobody else's page has changed, and nobody else was woken
      have hno : x ∉ r.woken := fun hm => hx (h.pages.home _ x (hwoken x hm)).1
      rw [(hr.others _ hx).2.1, count_eq_zero.mpr hno]
      omega
  · exact h.pages.land hr hc hcnt hjump hpos h.not_out h.not_parked hh
  · refine h.jumps.add r.woken (fun x => (hpos x).mp) (by rw [hdev]; exact fun _ => .inl)
      (fun x hx => ?_) (le_of_eq hm.symm) fun x hx => .of_jump (.inr (.inl ?_))
    · have hno : x ∉ r.woken := by
        intro hw
        have h1 := h.dues.occ_le x
        have hp := (h.pages.home _ x (hwoken x hw)).1
        have h2 := count_pos_iff.mpr hx
        have h3 := count_pos_iff.mpr (hwoken x hw)
        unfold St.occ at h1
        rw [hp] at h1
        omega
      have hj := hjump x fun he => h.not_out (he ▸ hx)
      rw [if_neg hno] at hj
      calc s'.ctx x = ⟨(s'.ctx x).cnt, (s'.ctx x).jump⟩ := rfl
        _ = ⟨(s.ctx x).cnt, (s.ctx x).jump⟩ := by rw [hcnt, hj]
    · rw [hjump x fun he => h.not_parked _ (he ▸ hwoken x hx), if_pos hx]

theorem places_listUp {rc : Bool} (h : Places sys s (some w) hole) (hj : (s.ctx w).jump = none)
    (hh : hole = some (s.page sys w) ∨ hole = none ∧ (s.cache.cmt (s.page sys w)).isFlying = false)
    (hl : listUp sys s w t = some (rc, s')) :
    (rc = true → Places sys s' none none) ∧
    (rc = false → Places sys s' (some w) none ∧ (s'.ctx w).jump = none) := by
  obtain ⟨r, hr, hrc, hs⟩ := listUp_cases hl
  have hr := listUp_spec hr
  have hwoken : w ∉ r.woken := fun hm => h.not_parked _ (hr.woken_mem w hm)
  -- the caller's operation aside, both cases are the same
  have hland : Places sys { s' with dev := s.dev } (some w) none := by
    refine h.land hh hr ?_ hs.cnt (fun x hx => ?_) hs.count ?_ rfl ?_
    · obtain ⟨x, d, q, rq, l, rfl⟩ := hs.form
      rfl
    · simpa [hx] using hs.jump x
    · obtain ⟨x, d, q, rq, l, rfl⟩ := hs.form
      exact ⟨rfl, rfl, rfl, rfl⟩
    · obtain ⟨x, d, q, rq, l, rfl⟩ := hs.form
      rfl
  cases hwr : r.wrote with
  | none =>
    rw [hwr] at hrc
    have hdev : s'.dev = s.dev := by
      rw [hs.dev, hwr]
      simp
    refine ⟨fun hf => (by rw [hrc] at hf; cases hf), fun _ => ⟨?_, ?_⟩⟩
    · rw [← hdev] at hland
      exact hland
    · rw [hs.jump, if_neg (by simp [hwoken, hwr])]
      exact hj
  | some t' =>
    rw [hwr] at hrc
    refine ⟨fun _ => ?_, fun hf => (by rw [hrc] at hf; cases hf)⟩
    have hdev : s'.dev = s.dev ++ [.mapWrite w t'] := by
      rw [hs.dev, hwr]
      rfl
    have hjw : (s'.ctx w).jump = some .complete := by
      rw [hs.jump, if_pos (by simp [hwr])]
    have hput : s' = ({ s' with dev := s.dev }).issue (.mapWrite w t') := by
      simp only [St.issue, ← hdev]
    rw [hput]
    refine places_issue ?_ (.of_jump (.inr (.inl hjw))) hjw
    rw [holeOf_none]
    · exact hland
    · simp [Op.owner, hjw]

/-! ## The flush -/

theorem places_directUpdate (h : Places sys s (some (.entry k)) none) :
    Places sys (wbDirectUpdate sys s k) none none := by
  refine h.vanish rfl rfl (fun i => ?_) rfl rfl rfl rfl rfl ?_
  · obtain ⟨h1, h2, h3⟩ := (update_cases sys.toCfg s.cache (s.lpa sys (.entry k)) (s.ppa k)).2 i
    exact ⟨h1, h2, fun hp => h3.trans hp⟩
  · exact Nat.le_max_right _ _

theorem places_wbUpdate (h : Places sys s (some (.entry k)) none) :
    Places sys (wbUpdate sys s k) none none := by
  unfold wbUpdate
  split
  · exact places_directUpdate (h.congr (fun _ => rfl) rfl (SamePages.refl _) ⟨rfl, rfl, rfl, rfl⟩ rfl rfl)
  · exact places_directUpdate h

theorem places_dataCheck (h : Places sys s (some (.entry k)) none)
    (hj : (s.ctx (.entry k)).jump = none) (hc : s.cur = none) :
    Places sys (wbDataCheck sys s k) none none := by
  have hole : ∀ s' : St κ υ, (s'.ctx (.entry k)).jump = none → holeOf sys s' (.entry k) = none :=
    fun s' hj => holeOf_none (by simp [hj])
  unfold wbDataCheck
  split
  · exact places_directUpdate h
  · split
    · -- `goto wb_retry`: the entry stays in hand, at its next slot
      have hb := h.setCtx ⟨(s.ctx (.entry k)).cnt + 1, (s.ctx (.entry k)).jump⟩
      have hjb : ((s.bump (.entry k)).ctx (.entry k)).jump = none := by
        simp [St.bump, St.setCtx, hj]
      refine Places.put (s := s.bump (.entry k)) (w := .entry k) ?_ (fun x => ?_) rfl
        (.of_jump (.inl hjb)) (SamePages.refl _) ⟨rfl, rfl, rfl, rfl⟩ (fun _ => .inl) rfl
      · rw [hole _ hjb]
        exact hb
      · simp only [St.out, St.bump, St.setCtx, hc, map_some, map_none,
          toList_some, toList_none, count_append, nil_append]
        omega
    · apply places_issue _ (.of_jump (.inl hj)) hj
      rw [Op.owner, hole s hj]
      exact h

theorem places_wbListUp (h : Places sys s (some (.entry k)) hole)
    (hj : (s.ctx (.entry k)).jump = none) (hc : s.cur = none)
    (hh : hole = some (s.page sys (.entry k)) ∨
      hole = none ∧ (s.cache.cmt (s.page sys (.entry k))).isFlying = false)
    (hl : wbListUp sys s k t = some s') : Places sys s' none none := by
  simp only [wbListUp, map_eq_some_iff, Prod.exists] at hl
  obtain ⟨rc, s1, hl, hs⟩ := hl
  obtain ⟨h1, h2⟩ := places_listUp h hj hh hl
  have hc1 : s1.cur = none := by
    obtain ⟨r, -, -, hs⟩ := listUp_cases hl
    obtain ⟨x, d, q, rq, l, rfl⟩ := hs.form
    exact hc
  cases rc with
  | true =>
    cases hs
    exact h1 rfl
  | false =>
    obtain rfl : wbDataCheck sys s1 k = s' := hs
    obtain ⟨h3, h4⟩ := h2 rfl
    exact places_dataCheck h3 h4 hc1

theorem places_wbCacheLoad (h : Places sys s (some (.entry k)) none)
    (hj : (s.ctx (.entry k)).jump = none) (hc : s.cur = none)
    (hpt : (s.cache.cmt (s.page sys (.entry k))).pt = false)
    (hl : wbCacheLoad sys s k t = some s') : Places sys s' none none := by
  unfold wbCacheLoad at hl
  split at hl
  · rename_i hw
    cases hl
    exact places_waitOrLoad h hj hpt (fun _ _ he => by cases he) hw
  · rename_i hw
    exact places_wbListUp h hj hc (.inr ⟨rfl, (waitOrLoad_none hw).1⟩) hl

theorem places_wbResume {j : Option Jump} (h : Places sys s (some (.entry k)) hole)
    (hj : (s.ctx (.entry k)).jump = none) (hc : s.cur = none) (hst : StoredJump j)
    (hole_eq : hole = if j = some .list then some (s.page sys (.entry k)) else none)
    (hr : wbResume sys s k t j = some s') : Places sys s' none none := by
  unfold wbResume at hr
  split at hr
  · simp [StoredJump] at hst
  · exact places_wbListUp h hj hc (.inl (by simpa using hole_eq)) hr
  · cases hr
    subst hole_eq
    exact places_dataCheck (by simpa using h) hj hc
  · cases hr
    subst hole_eq
    exact places_wbUpdate (by simpa using h)
  · cases hr
  · cases hr
  · cases hr
  · subst hole_eq
    split at hr
    · cases hr
      exact places_dataCheck (h.congr (fun _ => rfl) rfl (SamePages.refl _) ⟨rfl, rfl, rfl, rfl⟩ rfl rfl) hj hc
    · rename_i hit
      exact places_wbCacheLoad h hj hc (by simpa [cgIsHit, St.page] using hit) hr

/-! ## Reads -/

section Reads

variable {i : Nat}

theorem places_answer {r : Res υ} (h : Places sys s (some (.read i k)) none) :
    Places sys (s.answer i k r) none none :=
  h.vanish rfl rfl (SamePages.refl _) rfl rfl rfl (by simp [St.answer, Waiter.counts]) rfl (le_rfl)

theorem places_checkComplete (h : Places sys s (some (.read i k)) none)
    (hj : (s.ctx (.read i k)).jump = none) :
    Places sys (readCheckComplete sys s i k) none none := by
  unfold readCheckComplete
  split
  · exact places_answer h
  · apply places_issue _ (.of_jump (.inl hj)) hj
    rw [Op.owner, holeOf_none (by simp [hj])]
    exact h

theorem places_readCacheLoad (h : Places sys s (some (.read i k)) none)
    (hj : (s.ctx (.read i k)).jump = none) (htry : (s.ctx (.read i k)).cnt ≤ s.maxTry)
    (hpt : (s.cache.cmt (s.page sys (.read i k))).pt = false) :
    Places sys (readCacheLoad sys s i k) none none := by
  unfold readCacheLoad
  split
  · rename_i hw
    exact places_waitOrLoad h hj hpt (fun _ _ _ => htry) hw
  · exact places_answer h

theorem places_readListUp (h : Places sys s (some (.read i k)) hole)
    (hj : (s.ctx (.read i k)).jump = none)
    (hh : hole = some (s.page sys (.read i k)))
    (hl : readListUp sys s i k t = some s') : Places sys s' none none := by
  simp only [readListUp, map_eq_some_iff, Prod.exists] at hl
  obtain ⟨rc, s1, hl, hs⟩ := hl
  obtain ⟨h1, h2⟩ := places_listUp h hj (.inl hh) hl
  cases rc with
  | true =>
    cases hs
    exact h1 rfl
  | false =>
    obtain rfl : readCheckComplete sys s1 i k = s' := hs
    exact places_checkComplete (h2 rfl).1 (h2 rfl).2

theorem places_readResume {j : Option Jump} (h : Places sys s (some (.read i k)) hole)
    (hj : (s.ctx (.read i k)).jump = none) (htry : (s.ctx (.read i k)).cnt ≤ s.maxTry)
    (hst : StoredJump j)
    (hole_eq : hole = if j = some .list then some (s.page sys (.read i k)) else none)
    (hr : readResume sys s i k t j = some s') : Places sys s' none none := by
  unfold readResume at hr
  split at hr
  · simp [StoredJump] at hst
  · exact places_readListUp h hj (by simpa using hole_eq) hr
  · simp [StoredJump] at hst
  · cases hr
    subst hole_eq
    exact places_checkComplete (by simpa using h) hj
  · cases hr
    subst hole_eq
    exact places_answer (by simpa using h)
  · cases hr
  · cases hr
  · subst hole_eq
    split at hr
    · cases hr
      exact places_answer h
    · split at hr
      · cases hr
        exact places_checkComplete (h.congr (fun _ => rfl) rfl (SamePages.refl _) ⟨rfl, rfl, rfl, rfl⟩ rfl rfl) hj
      · rename_i hit
        cases hr
        exact places_readCacheLoad h hj htry (by simpa [cgIsHit, St.page] using hit)

theorem places_demandRead (h : Places sys s (some (.read i k)) (holeOf sys s (.read i k)))
    (hw : Ready s (.read i k)) (hr : demandRead sys s i k t = some s') :
    Places sys s' none none := by
  unfold demandRead at hr
  split at hr
  · rename_i hlt
    cases hr
    rw [holeOf_none fun hl => not_le.mpr hlt (hw.tried i k rfl hl)] at h
    exact places_answer h
  · rename_i hle
    refine places_readResume (h.setCtx _) ?_ ?_ hw.stored ?_ hr
    · simp [St.setCtx]
    · simpa [St.setCtx] using hle
    · unfold holeOf
      have hp : (s.setJump (.read i k) none).page sys (.read i k) = s.page sys (.read i k) := by
        unfold St.page
        rw [lpa_setJump]
      rw [← hp]
      rfl

end Reads

/-! ## Completions -/

theorem places_endReq {op : Op κ} (h : Places sys s (some op.owner) (holeOf sys s op.owner))
    (hw : Ready s op.owner) (hj : (s.ctx op.owner).jump = op.jump) :
    Places sys (demandEndReq sys s op) none none := by
  have hbump : ∀ x : Waiter κ, (s.ctx x).jump = none → ((s.bump x).ctx x).jump = none := by
    intro x hx
    simp [St.bump, St.setCtx, hx]
  cases op with
  | dataRead w p =>
    cases w with
    | read i k =>
      have hj : (s.ctx (.read i k)).jump = none := hj
      have h : Places sys s (some (.read i k)) none := by
        have hole : holeOf sys s (.read i k) = none := holeOf_none (by simp [hj])
        rw [← hole]
        exact h
      have hretry : Places sys ((s.bump (.read i k)).retry sys (.read i k)) none none := by
        apply places_retry _ (.of_jump (.inl (hbump _ hj)))
        rw [holeOf_none (by simp [hbump _ hj])]
        exact h.setCtx _
      simp only [demandEndReq]
      split
      · split
        · exact places_answer h
        · exact hretry
      · exact hretry
    | entry k =>
      have hj : (s.ctx (.entry k)).jump = none := hj
      have h : Places sys s (some (.entry k)) none := by
        have hole : holeOf sys s (.entry k) = none := holeOf_none (by simp [hj])
        rw [← hole]
        exact h
      simp only [demandEndReq]
      split
      · have hu : ((s.setJump (.entry k) (some .update)).ctx (.entry k)).jump = some .update := by
          simp [St.setJump, St.setCtx]
        apply places_retry _ (.of_jump (.inr (.inr hu)))
        rw [holeOf_none (by simp [hu])]
        exact h.setCtx _
      · apply places_restart _ (.of_jump (.inl (hbump _ hj)))
        rw [holeOf_none (by simp [hbump _ hj])]
        exact h.setCtx _
  | mapRead w t => exact places_retry h hw
  | mapWrite w t => exact places_retry h hw

/-! ## Steps -/

theorem places_arrive (h : Places sys s none none) (k : κ) :
    Places sys (s.arrive k) (some (.read s.nextId k)) none := by
  have h0 := h.dues.fresh s.nextId k (le_rfl)
  have hheld : Places sys { s with nextId := s.nextId + 1 } (some (.read s.nextId k)) none := by
    have ht : ∀ x, St.total sys { s with nextId := s.nextId + 1 } (some (.read s.nextId k)) x =
        s.total sys none x + [Waiter.read s.nextId k].count x := fun _ => rfl
    refine ⟨⟨fun x => ?_, fun k' => ?_, fun i k' hi => ?_, h.dues.sorted, h.dues.full,
      h.dues.distinct, h.dues.known⟩, ⟨h.pages.home, h.pages.flies, h.pages.uniq,
      h.pages.grounded, h.pages.uncached⟩, ⟨h.jumps.stored, h.jumps.tried, h.jumps.ops⟩⟩
    · rw [ht]
      by_cases hx : x = .read s.nextId k
      · rw [hx, h0, count_singleton_self]
      · rw [count_eq_zero.mpr (by simpa using hx)]
        exact h.dues.once x
    · rw [ht, count_eq_zero.mpr (by simp)]
      exact h.dues.entry k'
    · have hne : i ≠ s.nextId := ne_of_gt hi
      rw [ht, h.dues.fresh i k' (Nat.le_of_succ_le hi), count_eq_zero.mpr (by simp [hne])]
  exact hheld.setCtx ⟨0, none⟩

theorem mem_wbInsert (k' : κ) (v : υ) (wb : List (κ × υ)) :
    k' ∈ (wbInsert k v wb).map Prod.fst ↔ k' = k ∨ k' ∈ wb.map Prod.fst := by
  induction wb with
  | nil => simp [wbInsert]
  | cons e wb ih =>
    simp only [wbInsert]
    split
    · rename_i he
      simp [he]
    · split
      · simp
      · simp only [map_cons, mem_cons, ih]
        rw [or_left_comm]

theorem sorted_wbInsert (v : υ) (wb : List (κ × υ)) (h : (wb.map Prod.fst).Pairwise (· < ·)) :
    ((wbInsert k v wb).map Prod.fst).Pairwise (· < ·) := by
  induction wb with
  | nil => simp [wbInsert]
  | cons e wb ih =>
    rw [map_cons, pairwise_cons] at h
    simp only [wbInsert]
    split
    · rename_i he
      rw [map_cons, pairwise_cons]
      exact ⟨fun a ha => he ▸ h.1 a ha, h.2⟩
    · rename_i hne
      split
      · rename_i hlt
        rw [map_cons, map_cons, pairwise_cons, pairwise_cons]
        refine ⟨fun a ha => ?_, h.1, h.2⟩
        rcases mem_cons.mp ha with rfl | ha
        · exact hlt
        · exact lt_trans hlt (h.1 a ha)
      · rename_i hnl
        rw [map_cons, pairwise_cons]
        refine ⟨fun a ha => ?_, ih h.2⟩
        rcases (mem_wbInsert a v wb).mp ha with rfl | ha
        · exact lt_of_le_of_ne (not_lt.mp hnl) (Ne.symm hne)
        · exact h.1 a ha

theorem Places.no_entry (h : Places sys s none none) (hf : s.flushing = none) (k : κ) :
    s.occ sys (.entry k) = 0 := by
  by_contra hne
  have := (h.dues.occ_entry (Nat.pos_of_ne_zero hne)).1
  rw [hf] at this
  cases this

theorem places_write {v : υ} (h : Places sys s none none) (hf : s.flushing = none) :
    Places sys { s with wb := wbInsert k v s.wb } none none := by
  have h0 : ∀ k, s.total sys none (.entry k) = 0 := h.no_entry hf
  refine ⟨⟨h.dues.once, fun k' => ?_, h.dues.fresh, sorted_wbInsert v s.wb h.dues.sorted,
    ?_, h.dues.distinct, ?_⟩, h.pages.congr (SamePages.refl _) (fun _ _ _ => rfl)
    (fun _ _ => Iff.rfl), ⟨h.jumps.stored, h.jumps.tried, h.jumps.ops⟩⟩
  · change 0 < s.total sys none (.entry k') ↔ _
    simp [h0, hf]
  all_goals
    intro hs
    rw [hf] at hs
    cases hs

theorem places_take (h : Places sys s none none) (hc : s.cur = none)
    (ht : takeEntry s = some s') : Places sys s' none none := by
  unfold takeEntry at ht
  split at ht
  · rename_i k q hq
    cases ht
    refine h.congr (fun x => ?_) rfl (SamePages.refl _) ⟨rfl, rfl, rfl, rfl⟩ rfl rfl
    simp only [St.out, hc, hq, map_some, map_none, toList_some,
      toList_none, count_append, count_cons, count_nil]
    omega
  · rename_i k q hq hm
    cases ht
    refine h.congr (fun x => ?_) rfl (SamePages.refl _) ⟨rfl, rfl, rfl, rfl⟩ rfl rfl
    simp only [St.out, hc, hm, map_some, map_none, toList_some,
      toList_none, count_append, count_cons, count_nil]
    omega
  · cases ht

theorem Places.pop_cur (h : Places sys s none none) (hc : s.cur = some k) :
    Places sys { s with cur := none } (some (.entry k)) (holeOf sys s (.entry k)) ∧
      Ready { s with cur := none } (.entry k) := by
  refine h.pop (fun x => ?_) rfl rfl ⟨rfl, rfl, rfl, rfl⟩ (fun _ => id) rfl
  simp only [St.out, hc, map_some, map_none, toList_some, toList_none, count_append, count_nil]
  omega

theorem Places.pop_dev {n : Nat} {op : Op κ} (h : Places sys s none none)
    (hn : s.dev[n]? = some op) :
    Places sys { s with dev := s.dev.eraseIdx n } (some op.owner) (holeOf sys s op.owner) ∧
      Ready { s with dev := s.dev.eraseIdx n } op.owner := by
  obtain ⟨hlt, hget⟩ := List.getElem?_eq_some_iff.mp hn
  have hsub : ∀ o ∈ s.dev.eraseIdx n, o ∈ s.dev := fun o ho => mem_of_mem_eraseIdx ho
  have hperm : s.dev.Perm (op :: s.dev.eraseIdx n) := by
    rw [← hget]
    exact (getElem_cons_eraseIdx_perm hlt).symm
  refine h.pop (fun x => ?_) rfl rfl ⟨rfl, rfl, rfl, rfl⟩ hsub rfl
  have := (hperm.map Op.owner).count_eq x
  simp only [map_cons, count_cons] at this
  simp only [St.out, count_append, count_cons, count_nil, this]
  omega

theorem places_probe (h : Places sys s none none) (hc : s.cur = some k)
    (hp : wbProbe sys s k t = some s') : Places sys s' none none := by
  obtain ⟨h1, hw⟩ := h.pop_cur hc
  refine places_wbResume (h1.setCtx ⟨(s.ctx (.entry k)).cnt, none⟩) ?_ rfl hw.stored ?_ hp
  · simp [St.setCtx]
  · have hp : (s.pickUp k).page sys (.entry k) = s.page sys (.entry k) := by
      exact congrArg _ (lpa_setJump none _)
    exact (congrArg (fun i => if (s.ctx (.entry k)).jump = some .list then some i else none) hp.symm)

theorem places_complete {n : Nat} {op : Op κ} (h : Places sys s none none) (hn : s.dev[n]? = some op) :
    Places sys (demandEndReq sys { s with dev := s.dev.eraseIdx n } op) none none := by
  obtain ⟨h1, hw⟩ := h.pop_dev hn
  obtain ⟨hlt, hget⟩ := List.getElem?_eq_some_iff.mp hn
  exact places_endReq h1 hw (h.jumps.ops op (hget ▸ getElem_mem hlt))

theorem Places.entry_free (h : Places sys s none none) (hf : s.flushing = none) (k : κ) :
    Waiter.entry k ∉ s.out ∧ ∀ i, Waiter.entry k ∉ (s.cache.cmt i).retryQ := by
  have h0 := h.no_entry hf k
  unfold St.occ at h0
  refine ⟨fun hm => ?_, fun i hm => ?_⟩
  · have := count_pos_iff.mpr hm
    omega
  · have hp := (h.pages.home i _ hm).1
    have := count_pos_iff.mpr hm
    rw [hp] at h0
    omega

theorem count_entries (wb : List (κ × υ)) (x : Waiter κ) (hs : (wb.map Prod.fst).Pairwise (· < ·)) :
    (wb.map fun e => Waiter.entry e.1).count x =
      if ∃ k ∈ wb.map Prod.fst, x = .entry k then 1 else 0 := by
  have hnd : (wb.map fun e => Waiter.entry e.1).Nodup := by
    rw [List.Nodup, pairwise_map]
    refine (pairwise_map.mp hs).imp fun {a b} hlt he => ?_
    exact ne_of_lt hlt (Waiter.entry.inj he)
  split
  · rename_i hx
    obtain ⟨k, hk, rfl⟩ := hx
    apply count_eq_one_of_mem hnd
    simpa using hk
  · rename_i hx
    apply count_eq_zero.mpr
    intro hm
    simp only [List.mem_map] at hm
    obtain ⟨e, he, rfl⟩ := hm
    exact hx ⟨e.1, mem_map_of_mem he, rfl⟩

theorem places_beginFlush {kv : κ × υ} {assign : κ → Nat} (h : Places sys s none none)
    (hf : s.flushing = none) (hl : s.wb.length = sys.flushSize) :
    Places sys (beginFlush s kv assign) none none := by
  generalize hs' : beginFlush s kv assign = s'
  have hread : ∀ i k, s'.ctx (.read i k) = s.ctx (.read i k) := by
    intro i k
    subst hs'
    rfl
  have hentry : ∀ k, s'.ctx (.entry k) = ⟨0, none⟩ := by
    intro k
    subst hs'
    rfl
  have hcache : s'.cache = s.cache := by subst hs'; rfl
  have hdev : s'.dev = s.dev := by subst hs'; rfl
  have hout : ∀ x, s'.out.count x = s.out.count x + (s.wb.map fun e => Waiter.entry e.1).count x := by
    intro x
    subst hs'
    simp only [St.out, beginFlush, count_append]
    omega
  have hpos := mem_out_add hout
  have hq : ∀ i x, x ∈ (s.cache.cmt i).retryQ → s'.ctx x = s.ctx x := by
    intro i x hx
    cases x with
    | read j k => exact hread j k
    | entry k => exact absurd hx ((h.entry_free hf k).2 i)
  have hkeep : ∀ x ∈ s.out, s'.ctx x = s.ctx x := by
    intro x hx
    cases x with
    | read j k => exact hread j k
    | entry k => exact absurd hx (h.entry_free hf k).1
  have hocc : ∀ i k, s'.occ sys (.read i k) = s.occ sys (.read i k) := by
    intro i k
    have hp : s'.page sys (.read i k) = s.page sys (.read i k) := page_congr (by rw [hread])
    unfold St.occ
    rw [hout, hp, hcache, count_entries s.wb _ h.dues.sorted, if_neg (by simp)]
    rfl
  have hocce : ∀ k, s'.occ sys (.entry k) = if k ∈ s.wb.map Prod.fst then 1 else 0 := by
    intro k
    obtain ⟨h1, h2⟩ := h.entry_free hf k
    unfold St.occ
    rw [hout, hcache, count_eq_zero.mpr h1, count_eq_zero.mpr (h2 _),
      count_entries s.wb _ h.dues.sorted]
    by_cases hk : k ∈ s.wb.map Prod.fst
    · rw [if_pos ⟨k, hk, rfl⟩, if_pos hk]
    · rw [if_neg (by rintro ⟨k', hk', he⟩; cases he; exact hk hk'), if_neg hk]
  have hwb : s'.wb = s.wb := by subst hs'; rfl
  have hup : s'.updated = [] := by subst hs'; rfl
  have hfl : s'.flushing.isSome := by subst hs'; rfl
  refine ⟨?_, ?_, ?_⟩
  · constructor
    case once =>
      intro x
      cases x with
      | read i k =>
        rw [St.total, hocc]
        exact h.dues.once _
      | entry k =>
        rw [St.total, hocce]
        split <;> simp
    case entry =>
      intro k
      rw [St.total, hocce, hwb, hup]
      by_cases hk : k ∈ s.wb.map Prod.fst
      · rw [if_pos hk]
        exact iff_of_true one_pos ⟨hfl, hk, by simp⟩
      · rw [if_neg hk]
        exact iff_of_false (lt_irrefl 0) fun h => hk h.2.1
    case fresh =>
      intro i k hi
      rw [St.total, hocc]
      exact h.dues.fresh i k (by subst hs'; exact hi)
    case sorted =>
      rw [hwb]
      exact h.dues.sorted
    case full =>
      intro _
      rw [hwb]
      exact hl
    case distinct =>
      rw [hup]
      exact nodup_nil
    case known =>
      intro _ k hk
      rw [hup] at hk
      cases hk
  · apply h.pages.congr (by rw [hcache]; exact SamePages.refl _) hq
    intro x i
    have hl : Leads sys s' x i → x ∈ s.out := by
      intro hx
      rcases (hpos x).mp hx.1 with hm | hm
      · exact hm
      · simp only [List.mem_map] at hm
        obtain ⟨e, -, rfl⟩ := hm
        have := hx.2.1
        rw [hentry] at this
        cases this
    refine ⟨fun hx => ?_, fun hx => ?_⟩
    · have hk := hkeep x (hl hx)
      have hp : s'.page sys x = s.page sys x := page_congr (by rw [hk])
      exact ⟨hl hx, hk ▸ hx.2.1, hp ▸ hx.2.2⟩
    · have hk := hkeep x hx.1
      have hp : s'.page sys x = s.page sys x := page_congr (by rw [hk])
      exact ⟨(hpos x).mpr (.inl hx.1), hk ▸ hx.2.1, hp ▸ hx.2.2⟩
  · constructor
    case stored =>
      intro x hx
      rcases (hpos x).mp hx with hx | hx
      · rw [hkeep x hx]
        exact h.jumps.stored x hx
      · simp only [List.mem_map] at hx
        obtain ⟨e, -, rfl⟩ := hx
        rw [hentry]
        simp [StoredJump]
    case tried =>
      intro i k hx hj
      have hx : .read i k ∈ s.out := ((hpos _).mp hx).resolve_right (by simp)
      rw [hread] at hj ⊢
      have := h.jumps.tried i k hx hj
      subst hs'
      exact this
    case ops =>
      intro op hop
      rw [hdev] at hop
      rw [hkeep _ (owner_mem_out hop)]
      exact h.jumps.ops op hop

theorem Places.all_updated {held : Option (Waiter κ)} (h : Places sys s held hole)
    (hf : s.flushing.isSome) (hu : sys.flushSize ≤ s.updated.length) :
    ∀ k ∈ s.wb.map Prod.fst, k ∈ s.updated := by
  have hsub : s.updated.Subperm (s.wb.map Prod.fst) := h.dues.distinct.subperm (h.dues.known hf)
  have hlen : (s.wb.map Prod.fst).length ≤ s.updated.length := by
    rw [length_map, h.dues.full hf]
    exact hu
  intro k hk
  exact (hsub.perm_of_length_le hlen).mem_iff.mpr hk

theorem places_finish {k : κ} {v : υ} (h : Places sys s none none) (hf : s.flushing.isSome)
    (hu : sys.flushSize ≤ s.updated.length) :
    Places sys { endFlush s with wb := wbInsert k v (endFlush s).wb } none none := by
  have hall := h.all_updated hf hu
  have h0 : ∀ k, s.total sys none (.entry k) = 0 := by
    intro k
    by_contra hne
    obtain ⟨-, hm, hn⟩ := (h.dues.entry k).mp (Nat.pos_of_ne_zero hne)
    exact hn (hall k hm)
  refine ⟨⟨h.dues.once, fun k' => ?_, h.dues.fresh, ?_, ?_, h.dues.distinct, ?_⟩,
    h.pages.congr (SamePages.refl _) (fun _ _ _ => rfl) (fun _ _ => Iff.rfl),
    ⟨h.jumps.stored, h.jumps.tried, h.jumps.ops⟩⟩
  · change 0 < s.total sys none (.entry k') ↔ _
    simp [h0, endFlush]
  · exact sorted_wbInsert v [] (by simp)
  · intro hs
    cases hs
  · intro hs
    cases hs

theorem places_step {l : Lbl κ υ} (h : Places sys s none none) (hs : step sys s l = some s') :
    Places sys s' none none := by
  cases step_cases hs with
  | @read k t _ hf hr =>
    have hj : ((s.arrive k).ctx (.read s.nextId k)).jump = none := by
      simp [St.arrive, St.setCtx]
    refine places_demandRead ?_ (.of_jump (.inl hj)) hr
    rw [holeOf_none (by simp [hj])]
    exact places_arrive h k
  | @resume t i k q _ hf hq hr =>
    have hpop : Places sys { s with rq := q } (some (.read i k)) (holeOf sys s (.read i k)) ∧
        Ready { s with rq := q } (.read i k) := by
      refine h.pop (fun x => ?_) rfl rfl ⟨rfl, rfl, rfl, rfl⟩ (fun _ => id) rfl
      simp only [St.out, hq, count_append, count_cons, count_nil]
      omega
    exact places_demandRead hpop.1 hpop.2 hr
  | write hf => exact places_write h hf
  | flush hf hl => exact places_beginFlush h hf hl
  | take hc ht => exact places_take h hc ht
  | probe hc hp => exact places_probe h hc hp
  | finish hf hu => exact places_finish h (by simp [hf]) hu
  | complete hn => exact places_complete h hn

theorem places_init : Places sys (St.init : St κ υ) none none := by
  have h0 : ∀ x, (St.init : St κ υ).total sys none x = 0 := fun _ => rfl
  refine ⟨⟨fun x => by simp [h0], fun k => ?_, fun i k _ => h0 _, ?_, ?_, ?_, ?_⟩,
    ⟨?_, fun i => ?_, ?_, fun _ _ => rfl, fun _ _ => rfl⟩, ⟨?_, ?_, ?_⟩⟩
  all_goals simp [St.init, Cache.init, St.out, Lists, Leads, St.total, St.occ, Option.forall, Option.exists]

end FlashDriver.Demand
