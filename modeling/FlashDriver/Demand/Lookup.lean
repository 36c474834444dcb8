import FlashDriver.Demand.Addressing
import FlashDriver.Demand.WriteBack

/-!
# What a read finds in the mapping table

A read passes the slots of other keys until it finds its own or a free one.
Slots are only ever claimed, so whatever happens between two of its probes, it
does not miss a key that is stored, unless the page of its slot is taken for
empty because an update of that page was never written.

* `answers_step`: a read answered "not found" asked for a key that owns no slot.
* `known_step`: a read answered with a value asked for a key that was written.
* `lone_read`: a read that runs alone is answered.
* `open_addressing`: the table, its flushes and its reads along every run in
  which no entry is updated in an uncached page.
* `stored_not_found`: a run in which one is, and a stored key is not found.
-/
namespace FlashDriver.Demand

open List Option
open Core.Probing

variable {κ υ : Type} {sys : Sys κ} {s s' : St κ υ} {k : κ} {t : Nat}

/-! ## Answers -/

/-- A key answered "not found" owns no slot, and a value comes from the buffer
or from flash. -/
def Right (s : St κ υ) (k : κ) : Res υ → Prop
  | .value v => (k, v) ∈ s.wb ∨ ∃ p, s.flash p = some (k, v)
  | .notFound => ∀ lpa, s.owner lpa ≠ some k

/-- The step to `s'` answers read `i` of `k` with `r`. -/
structure Answers (s s' : St κ υ) (i : Nat) (k : κ) (r : Res υ) : Prop where
  done : s'.done = s.done ++ [(i, k, r)]
  right : Right s k r

variable {i : Nat}

theorem Probed.absent_free (h : Probed sys s) {w : Waiter κ}
    (hm : s.cache.memTable (s.lpa sys w) = none) (lpa : Nat) : s.owner lpa ≠ some w.key :=
  h.table.absent (h.passed w) (owner_of_free hm)

theorem answers_checkComplete (h : Probed sys s) :
    (readCheckComplete sys s i k).done = s.done ∨
      Answers s (readCheckComplete sys s i k) i k .notFound := by
  unfold readCheckComplete cgGetPte
  split
  · rename_i hm
    exact .inr ⟨rfl, h.absent_free hm⟩
  · exact .inl rfl

theorem Misses.absent (h : Probed sys s) (hs : Saved sys.toCfg s.cache)
    (hm : Misses sys s (.read i k)) (lpa : Nat) : s.owner lpa ≠ some k := by
  cases hm with
  | tries ht => exact h.table.absent_of_lt (h.passed (.read i k)) ht
  | unsaved hp ht =>
    refine h.absent_free (w := .read i k) ?_ lpa
    by_contra hn
    exact hs.mapped _ (hs.uncached _ hp) hn ht

theorem Quiet.done_eq (h : Quiet s s') : s'.done = s.done := by
  obtain ⟨c, x, u, m, q, r, d, l, rfl⟩ := h.rest
  rfl

section Steps

variable [LinearOrder κ]

theorem answers_read (h : Probed sys s) (hs : Saved sys.toCfg s.cache)
    (hj : StoredJump (s.ctx (.read i k)).jump) (hr : demandRead sys s i k t = some s') :
    s'.done = s.done ∨ ∃ r, Answers s s' i k r := by
  obtain ⟨s1, hq, hs'⟩ := demandRead_cases hj hr
  have hd := hq.done_eq
  rcases hs' with rfl | rfl | ⟨v, hv, rfl⟩ | ⟨hm, rfl⟩
  · exact .inl hd
  · rcases answers_checkComplete (k := k) (i := i) (h.quiet hq) with hdone | hans
    · exact .inl (hdone.trans hd)
    · refine .inr ⟨.notFound, hans.done.trans (by rw [hd]), fun lpa => ?_⟩
      rw [← hq.owner]
      exact hans.right lpa
  · refine .inr ⟨.value v, congrArg (· ++ _) hd, .inl ?_⟩
    obtain ⟨l1, l2, hl, -⟩ := lookup_eq_some_iff.mp hv
    rw [hl]
    simp
  · exact .inr ⟨.notFound, congrArg (· ++ _) hd, hm.absent h hs⟩

theorem answers_complete {n : Nat} {op : Op κ} :
    (demandEndReq sys { s with dev := s.dev.eraseIdx n } op).done = s.done ∨
      ∃ i k r, Answers s (demandEndReq sys { s with dev := s.dev.eraseIdx n } op) i k r := by
  have hretry : ∀ (s1 : St κ υ) w, s1.done = s.done → (s1.retry sys w).done = s.done :=
    fun s1 w hd => (quiet_retry sys s1 w).done_eq.trans hd
  match op with
  | .dataRead (.read i k) p =>
    simp only [demandEndReq]
    split
    · rename_i k' v hfl
      split
      · rename_i hk
        subst hk
        exact .inr ⟨i, k, .value v, rfl, .inr ⟨p, hfl⟩⟩
      · exact .inl (hretry _ _ rfl)
    · exact .inl (hretry _ _ rfl)
  | .dataRead (.entry k) p =>
    simp only [demandEndReq]
    split
    · exact .inl (hretry _ _ rfl)
    · exact .inl (quiet_restart ..).done_eq
  | .mapRead w t => exact .inl (hretry _ _ rfl)
  | .mapWrite w t => exact .inl (hretry _ _ rfl)

/-- The parts of the state that hold data. -/
def SameData (s s' : St κ υ) : Prop := s'.wb = s.wb ∧ s'.flushing = s.flushing ∧ s'.flash = s.flash

omit [LinearOrder κ] in
theorem Quiet.sameData (h : Quiet s s') : SameData s s' := by
  obtain ⟨c, x, u, m, q, r, d, l, rfl⟩ := h.rest
  exact ⟨rfl, rfl, rfl⟩

theorem sameData_probe (h : wbProbe sys s k t = some s') : SameData s s' ∧ s'.done = s.done := by
  obtain ⟨s1, hq, hs⟩ := wbProbe_cases h
  have hd := hq.sameData
  have h₁ : SameData s1 s' ∧ s'.done = s1.done := by
    rcases hs with rfl | rfl | ⟨-, rfl⟩
    · exact ⟨⟨rfl, rfl, rfl⟩, rfl⟩
    · unfold wbDataCheck
      split
      · exact ⟨⟨rfl, rfl, rfl⟩, rfl⟩
      · split <;> exact ⟨⟨rfl, rfl, rfl⟩, rfl⟩
    · unfold wbUpdate
      split <;> exact ⟨⟨rfl, rfl, rfl⟩, rfl⟩
  obtain ⟨⟨h1, h2, h3⟩, h4⟩ := h₁
  exact ⟨⟨h1.trans hd.1, h2.trans hd.2.1, h3.trans hd.2.2⟩, h4.trans hq.done_eq⟩

theorem sameData_read (hj : StoredJump (s.ctx (.read i k)).jump)
    (h : demandRead sys s i k t = some s') : SameData s s' := by
  obtain ⟨s1, hq, hs⟩ := demandRead_cases hj h
  have hd := hq.sameData
  rcases hs with rfl | rfl | ⟨v, -, rfl⟩ | ⟨-, rfl⟩
  · exact hd
  · unfold readCheckComplete
    split <;> exact hd
  · exact hd
  · exact hd

theorem answers_step {l : Lbl κ υ} (h : Probed sys s) (hp : Places sys s none none)
    (hv : Saved sys.toCfg s.cache) (hs : step sys s l = some s') :
    s'.done = s.done ∨ ∃ i k r, Answers s s' i k r := by
  cases step_cases hs with
  | @read k t _ _ hr =>
    have hj : StoredJump ((s.arrive k).ctx (.read s.nextId k)).jump := by
      simp [St.arrive, St.setCtx, StoredJump]
    rcases answers_read (hp.probed_arrive h k) hv hj hr with hd | ⟨r, ha⟩
    · exact .inl hd
    · exact .inr ⟨_, k, r, ha.done, ha.right⟩
  | @resume _ i k q _ _ hq hr =>
    have hst := hp.jumps.stored (.read i k) (by simp [St.out, hq])
    have h1 : Probed sys { s with rq := q } := h.quiet (quiet_queues fun _ => id)
    rcases answers_read h1 hv hst hr with hd | ⟨r, ha⟩
    · exact .inl hd
    · exact .inr ⟨i, k, r, ha.done, ha.right⟩
  | write _ => exact .inl rfl
  | flush _ _ => exact .inl rfl
  | take _ ht => exact .inl (takeEntry_quiet ht).done_eq
  | probe _ hpr => exact .inl (sameData_probe hpr).2
  | finish _ _ _ => exact .inl rfl
  | complete _ => exact answers_complete

/-! ## Keys that were written -/

/-- The client has written `v` to `k`. -/
def Written (tr : List (Lbl κ υ)) (k : κ) (v : υ) : Prop :=
  .write k v ∈ tr ∨ ∃ assign, .flush k v assign ∈ tr

/-- All data in the buffer, in the request that waits and on flash was written. -/
structure Known (tr : List (Lbl κ υ)) (s : St κ υ) : Prop where
  buffer : ∀ e ∈ s.wb, Written tr e.1 e.2
  request : ∀ e ∈ s.flushing, Written tr e.1 e.2
  flash : ∀ p e, s.flash p = some e → Written tr e.1 e.2

omit [LinearOrder κ] in
theorem Known.mono {tr : List (Lbl κ υ)} {l : Lbl κ υ} (h : Known tr s) (hd : SameData s s') :
    Known (tr ++ [l]) s' := by
  have hw : ∀ e : κ × υ, Written tr e.1 e.2 → Written (tr ++ [l]) e.1 e.2 := by
    intro e he
    rcases he with he | ⟨a, he⟩
    · exact .inl (mem_append_left _ he)
    · exact .inr ⟨a, mem_append_left _ he⟩
  refine ⟨fun e he => hw e (h.buffer e (hd.1 ▸ he)), fun e he => hw e (h.request e (hd.2.1 ▸ he)),
    fun p e he => hw e (h.flash p e (hd.2.2 ▸ he))⟩

theorem mem_wbInsert_data {v : υ} {e : κ × υ} :
    ∀ {wb : List (κ × υ)}, e ∈ wbInsert k v wb → e = (k, v) ∨ e ∈ wb
  | [], he => .inl (mem_singleton.mp he)
  | (k', v') :: wb, he => by
    rw [wbInsert] at he
    split at he
    · exact (mem_cons.mp he).imp_right (mem_cons_of_mem _)
    · split at he
      · exact mem_cons.mp he
      · rcases mem_cons.mp he with rfl | he
        · exact .inr mem_cons_self
        · exact (mem_wbInsert_data he).imp_right (mem_cons_of_mem _)

theorem known_step {tr : List (Lbl κ υ)} {l : Lbl κ υ} (h : Known tr s)
    (hp : Places sys s none none) (hs : step sys s l = some s') : Known (tr ++ [l]) s' := by
  cases step_cases hs with
  | @read k t _ _ hr =>
    have hj : StoredJump ((s.arrive k).ctx (.read s.nextId k)).jump := by
      simp [St.arrive, St.setCtx, StoredJump]
    exact h.mono (sameData_read (s := s.arrive k) hj hr)
  | @resume _ i k q _ _ hq hr =>
    have hst := hp.jumps.stored (.read i k) (by simp [St.out, hq])
    exact h.mono (sameData_read (s := { s with rq := q }) hst hr)
  | @write k v _ =>
    have h' : Known (tr ++ [.write k v]) s := h.mono ⟨rfl, rfl, rfl⟩
    refine ⟨fun e he => ?_, h'.request, h'.flash⟩
    rcases mem_wbInsert_data he with rfl | he
    · exact .inl (by simp)
    · exact h'.buffer e he
  | @flush k v assign _ _ =>
    have h' : Known (tr ++ [.flush k v assign]) s := h.mono ⟨rfl, rfl, rfl⟩
    refine ⟨h'.buffer, fun e he => ?_, h'.flash⟩
    cases he
    exact .inr ⟨assign, by simp⟩
  | take _ ht => exact h.mono (takeEntry_quiet ht).sameData
  | probe _ hpr => exact h.mono (sameData_probe hpr).1
  | @finish k v hf _ _ =>
    have h' : Known (tr ++ [.finish]) s := h.mono ⟨rfl, rfl, rfl⟩
    refine ⟨fun e he => ?_, fun e he => (by cases he), fun p e he => ?_⟩
    · rcases mem_wbInsert_data he with rfl | he
      · exact h'.request (k, v) hf
      · cases he
    · rcases or_eq_some_iff.mp he with he | ⟨-, he⟩
      · exact h'.buffer e (mem_of_find?_eq_some he)
      · exact h'.flash p e he
  | @complete n op _ =>
    obtain ⟨x, m, q, r, l, d, hr⟩ := endReq_form sys { s with dev := s.dev.eraseIdx n } op
    rw [hr]
    exact h.mono ⟨rfl, rfl, rfl⟩

/-! ## A read on its own -/

/-- The device completes what it has, and `p_main` takes up what waits. -/
def Walk (sys : Sys κ) (s s' : St κ υ) : Prop :=
  ∃ ls, (∀ l ∈ ls, l = .complete 0 ∨ l = .resume 0) ∧
    (((demandLTS sys).restrict (keepsPage sys)).after s).Exec ls s'

theorem Walk.refl (s : St κ υ) : Walk sys s s := ⟨[], by simp, .init rfl⟩

theorem Walk.next {s'' : St κ υ} {l : Lbl κ υ} (h : Walk sys s s')
    (hl : l = .complete 0 ∨ l = .resume 0) (hs : step sys s' l = some s'') : Walk sys s s'' := by
  obtain ⟨ls, hls, he⟩ := h
  refine ⟨ls ++ [l], fun l' hl' => ?_, he.step ⟨⟨hs, ?_⟩, ?_⟩⟩
  · rcases mem_append.mp hl' with hl' | hl'
    · exact hls l' hl'
    · rw [mem_singleton.mp hl']
      exact hl
  · rcases hl with rfl | rfl <;> trivial
  · rcases hl with rfl | rfl <;> trivial

theorem Walk.trans {s'' : St κ υ} (h : Walk sys s s') (h' : Walk sys s' s'') : Walk sys s s'' := by
  obtain ⟨ls, hls, he⟩ := h
  obtain ⟨ls', hls', he'⟩ := h'
  refine ⟨ls ++ ls', fun l hl => ?_, he.append he'⟩
  rcases mem_append.mp hl with hl | hl
  · exact hls l hl
  · exact hls' l hl

/-- What does not change while a read of `k` runs alone after `s0`. -/
structure Search (s0 s : St κ υ) : Prop where
  idle : s.flushing = none
  done : s.done = s0.done
  wb : s.wb = s0.wb
  table : s.cache.memTable = s0.cache.memTable
  flash : s.flash = s0.flash
  tries : s.maxTry = s0.maxTry

/-- No page is being loaded, except perhaps `i`, and nobody waits for one. -/
def Landed (c : Cache (Waiter κ)) (i : Option Nat) : Prop :=
  ∀ j, (c.cmt j).retryQ = [] ∧ (i ≠ some j → (c.cmt j).isFlying = false)

/-- Read `i` waits at `p_main`, about to look at its slot `c`. -/
structure Queued (s : St κ υ) (i : Nat) (k : κ) (c : Nat) (j : Option Jump) : Prop where
  rq : s.rq = [.read i k]
  dev : s.dev = []
  ctx : s.ctx (.read i k) = ⟨c, j⟩

/-- Read `i` reads page `p`, which its slot `c` is mapped to. -/
structure Reading (s : St κ υ) (i : Nat) (k : κ) (c p : Nat) : Prop where
  rq : s.rq = []
  dev : s.dev = [.dataRead (.read i k) p]
  ctx : s.ctx (.read i k) = ⟨c, none⟩

/-- `p_main` has taken the read up. -/
def St.takeUp (s : St κ υ) (i : Nat) (k : κ) : St κ υ :=
  { s with rq := [] }.setJump (.read i k) none

theorem step_resume (sys : Sys κ) (hf : s.flushing = none) {c : Nat} {j : Option Jump}
    (h : Queued s i k c j) (hc : c ≤ s.maxTry) (t : Nat) :
    step sys s (.resume t) = readResume sys (s.takeUp i k) i k t j ∧
      (s.takeUp i k).ctx (.read i k) = ⟨c, none⟩ := by
  constructor
  · simp [step, hf, h.rq, demandRead, h.ctx, not_lt.mpr hc, St.takeUp]
  · simp [St.takeUp, St.setJump, St.setCtx, h.ctx]

theorem step_complete_map (sys : Sys κ) {op : Op κ} (hd : s.dev = [op]) (hr : s.rq = [])
    (ho : op = .mapRead (.read i k) t ∨ op = .mapWrite (.read i k) t) :
    step sys s (.complete 0) = some { s with dev := [], rq := [.read i k] } := by
  have hs : step sys s (.complete 0) = some (demandEndReq sys { s with dev := [] } op) := by
    simp [step, hd]
  rw [hs]
  have he : demandEndReq sys { s with dev := [] } op =
      St.retry sys { s with dev := [] } (.read i k) := by
    rcases ho with rfl | rfl <;> rfl
  rw [he]
  simp [St.retry, qEnqueue, hr, ne_of_lt sys.qsize_pos]

/-- The read has looked at its slot `c`: it reads the page mapped there, or is
answered "not found". -/
def Looked (sys : Sys κ) (s0 s : St κ υ) (i : Nat) (k : κ) (c : Nat) : Prop :=
  match s0.cache.memTable (sys.slot k c) with
  | some p => Search s0 s ∧ Landed s.cache none ∧ Reading s i k c p
  | none => s.done = s0.done ++ [(i, k, .notFound)]

omit [LinearOrder κ] in
theorem looked_checkComplete {s0 : St κ υ} {c : Nat} (h : Search s0 s) (hl : Landed s.cache none)
    (hrq : s.rq = []) (hdev : s.dev = []) (hctx : s.ctx (.read i k) = ⟨c, none⟩) :
    Looked sys s0 (readCheckComplete sys s i k) i k c := by
  have hlpa : s.lpa sys (.read i k) = sys.slot k c := by
    rw [St.lpa, hctx]
    rfl
  cases hm : s0.cache.memTable (sys.slot k c) with
  | none =>
    simp only [Looked, readCheckComplete, cgGetPte, hlpa, h.table, hm]
    exact congrArg (· ++ _) h.done
  | some p =>
    simp only [Looked, readCheckComplete, cgGetPte, hlpa, h.table, hm]
    refine ⟨⟨h.idle, h.done, h.wb, h.table, h.flash, h.tries⟩, hl, hrq, ?_, hctx⟩
    exact congrArg (· ++ _) hdev

theorem search_complete {s0 : St κ υ} {c : Nat} (h : Search s0 s) (hl : Landed s.cache none)
    (hq : Queued s i k c (some .complete)) (hc : c ≤ s.maxTry) :
    ∃ s', Walk sys s s' ∧ Looked sys s0 s' i k c := by
  obtain ⟨hres, hself⟩ := step_resume sys h.idle hq hc 0
  refine ⟨_, (Walk.refl s).next (.inr rfl) hres, ?_⟩
  exact looked_checkComplete (s := s.takeUp i k)
    ⟨h.idle, h.done, h.wb, h.table, h.flash, h.tries⟩ hl rfl hq.dev hself

omit [LinearOrder κ] in
theorem Landed.listUp {c : Cache (Waiter κ)} {lpa : Nat} {r : Listed (Waiter κ)}
    (h : Landed c (some (sys.idx lpa))) (hr : cgListUp sys.toCfg c lpa t = some r) :
    r.woken = [] ∧ Landed r.cache none := by
  have hs := listUp_spec hr
  have hq := (h (sys.idx lpa)).1
  have hw : r.woken = [] ∧ (r.cache.cmt (sys.idx lpa)).retryQ = [] := by
    cases hf : (c.cmt (sys.idx lpa)).isFlying with
    | true => exact ⟨(hs.landed hf).1.trans hq, (hs.landed hf).2⟩
    | false => exact ⟨(hs.quiet hf).1, (hs.quiet hf).2.trans hq⟩
  refine ⟨hw.1, fun j => ?_⟩
  by_cases hj : j = sys.idx lpa
  · subst hj
    exact ⟨hw.2, fun _ => hs.flying⟩
  · obtain ⟨h1, h2, -⟩ := hs.others j hj
    refine ⟨h2.trans (h j).1, fun _ => h1.trans ((h j).2 fun he => hj (some.inj he).symm)⟩

omit [LinearOrder κ] in
theorem listUp_alone [DecidableEq κ] {w : Waiter κ} {r : Listed (Waiter κ)}
    (hr : cgListUp sys.toCfg s.cache (s.lpa sys w) t = some r) (hw : r.woken = []) :
    (r.wrote = none ∧ listUp sys s w t = some (false, { s with cache := r.cache })) ∨
    ∃ t', r.wrote = some t' ∧ listUp sys s w t = some (true,
      ({ s with cache := r.cache }.setJump w (some .complete)).issue (.mapWrite w t')) := by
  cases ht : r.wrote with
  | none => exact .inl ⟨rfl, by simp [listUp, hr, ht, hw, wake]⟩
  | some t' => exact .inr ⟨t', rfl, by simp [listUp, hr, ht, hw, wake]⟩

theorem search_list {s0 : St κ υ} {c : Nat} (h : Search s0 s)
    (hl : Landed s.cache (some (sys.idx (sys.slot k c)))) (hcnt : s.cache.Counted)
    (hq : Queued s i k c (some .list)) (hc : c ≤ s.maxTry) :
    ∃ s', Walk sys s s' ∧ Looked sys s0 s' i k c := by
  obtain ⟨hres, hself⟩ := step_resume sys h.idle hq hc 0
  obtain ⟨r, hr⟩ := listUp_total sys.toCfg hcnt (sys.slot k c) 0
  obtain ⟨hwoken, hl'⟩ := hl.listUp hr
  have htab : r.cache.memTable = s0.cache.memTable := (listUp_spec hr).table.trans h.table
  have hlpa : (s.takeUp i k).lpa sys (.read i k) = sys.slot k c := by
    rw [St.lpa, hself]
    rfl
  rw [← hlpa] at hr
  rcases listUp_alone (s := s.takeUp i k) hr hwoken with ⟨-, hup⟩ | ⟨t', -, hup⟩
  · -- nothing to write back: the slot is looked at in the same step
    refine ⟨readCheckComplete sys { s.takeUp i k with cache := r.cache } i k,
      (Walk.refl s).next (.inr rfl) (hres.trans ?_), ?_⟩
    · simp only [readResume, readListUp, hup, map_some]
    · exact looked_checkComplete ⟨h.idle, h.done, h.wb, htab, h.flash, h.tries⟩ hl' rfl hq.dev hself
  · -- the read waits for the write-back and goes on with `GOTO_COMPLETE`
    let s2 := ({ s.takeUp i k with cache := r.cache }.setJump (.read i k) (some .complete)).issue
      (.mapWrite (.read i k) t')
    have hw : Walk sys s s2 := by
      refine (Walk.refl s).next (.inr rfl) (hres.trans ?_)
      simp only [readResume, readListUp, hup, map_some]
      rfl
    have hdev : s2.dev = [.mapWrite (.read i k) t'] := congrArg (· ++ _) hq.dev
    have hw3 := hw.next (.inl rfl) (step_complete_map sys hdev rfl (.inr rfl))
    have hq3 : Queued { s2 with dev := [], rq := [.read i k] } i k c (some .complete) :=
      ⟨rfl, rfl, by simp [s2, St.issue, St.setJump, St.setCtx, hself]⟩
    obtain ⟨s', hw', hs'⟩ := search_complete (s := { s2 with dev := [], rq := [.read i k] })
      ⟨h.idle, h.done, h.wb, htab, h.flash, h.tries⟩ hl' hq3 hc
    exact ⟨s', hw3.trans hw', hs'⟩

theorem search_slot {s0 : St κ υ} {c : Nat} (h : Search s0 s)
    (hl : Landed s.cache none) (hcnt : s.cache.Counted) (hsv : Saved sys.toCfg s.cache)
    (hwb : s.wb.lookup k = none) (hrq : s.rq = []) (hdev : s.dev = [])
    (hctx : s.ctx (.read i k) = ⟨c, none⟩) (hc : c ≤ s.maxTry) (t : Nat) :
    ∃ s1 s', readResume sys s i k t none = some s1 ∧ Walk sys s1 s' ∧ Looked sys s0 s' i k c := by
  have hlpa : s.lpa sys (.read i k) = sys.slot k c := by
    rw [St.lpa, hctx]
    rfl
  have hpg : s.page sys (.read i k) = sys.idx (sys.slot k c) := congrArg sys.idx hlpa
  simp only [readResume, hwb, hlpa]
  split
  · -- the page is cached
    exact ⟨_, _, rfl, .refl _, looked_checkComplete
      ⟨h.idle, h.done, h.wb, h.table, h.flash, h.tries⟩ hl hrq hdev hctx⟩
  · rename_i hit
    have hpt : (s.cache.cmt (sys.idx (sys.slot k c))).pt = false := Bool.eq_false_iff.mpr hit
    have hfl := (hl (sys.idx (sys.slot k c))).2 (by simp)
    cases ht : (s.cache.cmt (sys.idx (sys.slot k c))).tPpa with
    | none =>
      -- the page was never written, so the slot is free
      have hm : s.cache.memTable (sys.slot k c) = none := by
        by_contra hm
        exact hsv.mapped _ (hsv.uncached _ hpt) hm ht
      refine ⟨_, _, rfl, .refl _, ?_⟩
      have hw : waitOrLoad sys s (.read i k) = none := by
        simp [waitOrLoad, hlpa, cgWaitIfFlying, hfl, cgLoad, ht]
      rw [h.table] at hm
      simp only [Looked, hm, readCacheLoad, hw]
      exact congrArg (· ++ _) h.done
    | some t' =>
      let s1 := { (s.setJump (.read i k) (some .list)).issue (.mapRead (.read i k) t') with
        cache := s.cache.fly (sys.idx (sys.slot k c)) }
      have hload : readCacheLoad sys s i k = s1 := by
        rw [← hpg] at hfl ht
        simp only [readCacheLoad, waitOrLoad_load hfl ht, hpg]
        rfl
      have hdev1 : s1.dev = [.mapRead (.read i k) t'] := congrArg (· ++ _) hdev
      have hw := (Walk.refl s1).next (.inl rfl) (step_complete_map sys hdev1 hrq (.inl rfl))
      have hq : Queued { s1 with dev := [], rq := [.read i k] } i k c (some .list) :=
        ⟨rfl, rfl, by simp [s1, St.issue, St.setJump, St.setCtx, hctx]⟩
      have hfly : Landed s1.cache (some (sys.idx (sys.slot k c))) := fun j => by
        obtain ⟨h1, h2, -⟩ := fly_pages s.cache (sys.idx (sys.slot k c)) j
        refine ⟨h2.trans (hl j).1, fun hj => h1.trans ?_⟩
        have hne : j ≠ sys.idx (sys.slot k c) := fun he => hj (congrArg some he.symm)
        simp [(hl j).2, hne]
      obtain ⟨s', hw', hs'⟩ := search_list (s := { s1 with dev := [], rq := [.read i k] })
        ⟨h.idle, h.done, h.wb, h.table, h.flash, h.tries⟩ hfly hcnt hq hc
      exact ⟨s1, s', congrArg some hload, hw.trans hw', hs'⟩

theorem search_page {s0 : St κ υ} {c p : Nat} (h : Search s0 s)
    (hr : Reading s i k c p) {e : κ × υ} (he : s.flash p = some e) :
    ∃ s', Walk sys s s' ∧ s'.cache = s.cache ∧
      if k = e.1 then s'.done = s0.done ++ [(i, k, .value e.2)]
      else Search s0 s' ∧ Queued s' i k (c + 1) none := by
  have hs : step sys s (.complete 0) = some (demandEndReq sys { s with dev := [] }
      (.dataRead (.read i k) p)) := by
    simp [step, hr.dev]
  refine ⟨_, (Walk.refl s).next (.inl rfl) hs, ?_⟩
  obtain ⟨k', v⟩ := e
  simp only [demandEndReq, he]
  split
  · exact ⟨rfl, congrArg (· ++ _) h.done⟩
  · have hroom : qEnqueue sys.qsize (Waiter.read i k) s.rq = some [.read i k] := by
      simp [qEnqueue, hr.rq, ne_of_lt sys.qsize_pos]
    have hq : ({ s with dev := [] }.bump (.read i k)).retry sys (.read i k) =
        { { s with dev := [] }.bump (.read i k) with rq := [.read i k] } := by
      simp only [St.retry, show ({ s with dev := [] }.bump (.read i k)).rq = s.rq from rfl, hroom]
    rw [hq]
    refine ⟨rfl, ⟨h.idle, h.done, h.wb, h.table, h.flash, h.tries⟩, rfl, rfl, ?_⟩
    simp [St.bump, St.setCtx, hr.ctx]

omit [LinearOrder κ] in
theorem owner_idle (hf : s.flushing = none) {lpa : Nat} (h : s.owner lpa = some k) :
    ∃ p v, s.cache.memTable lpa = some p ∧ s.flash p = some (k, v) := by
  obtain ⟨p, hm, hk⟩ := owner_some h
  rw [St.keyAt, dataAt_idle hf, map_eq_some_iff] at hk
  obtain ⟨⟨k', v⟩, he, rfl⟩ := hk
  exact ⟨p, v, hm, he⟩

theorem Walk.exec {tr : List (Lbl κ υ)} (h : Walk sys s s')
    (he : ((demandLTS sys).restrict (keepsPage sys)).Exec tr s) :
    ∃ tr', ((demandLTS sys).restrict (keepsPage sys)).Exec tr' s' := by
  obtain ⟨ls, -, hls⟩ := h
  exact ⟨_, he.append hls⟩

theorem search_next {s0 : St κ υ} {c p : Nat} {tr : List (Lbl κ υ)} {e : κ × υ}
    (hwb : s0.wb.lookup k = none)
    (he : ((demandLTS sys).restrict (keepsPage sys)).Exec tr s) (h : Search s0 s)
    (hl : Landed s.cache none) (hr : Reading s i k c p) (hp : s0.flash p = some e) (hne : k ≠ e.1)
    (hc : c + 1 ≤ s0.maxTry) : ∃ s', Walk sys s s' ∧ Looked sys s0 s' i k (c + 1) := by
  rw [← h.flash] at hp
  obtain ⟨s1, hw1, hcache, hnext⟩ := search_page h hr hp
  rw [if_neg hne] at hnext
  obtain ⟨hs1, hq1⟩ := hnext
  obtain ⟨tr1, he1⟩ := hw1.exec he
  have hsv := he1.inv (saved_inductive sys)
  have hcnt := (he1.of_restrict.inv (probed_inductive sys)).2.counted
  have htry : c + 1 ≤ s1.maxTry := hs1.tries ▸ hc
  rw [← hcache] at hl
  obtain ⟨hres, hself⟩ := step_resume sys hs1.idle hq1 htry 0
  obtain ⟨s2, s3, hs2, hw3, hlook⟩ := search_slot (s := s1.takeUp i k) (t := 0)
    ⟨hs1.idle, hs1.done, hs1.wb, hs1.table, hs1.flash, hs1.tries⟩ hl hcnt hsv
    (hs1.wb ▸ hwb) rfl hq1.dev hself htry
  exact ⟨s3, (hw1.next (.inr rfl) (hres.trans hs2)).trans hw3, hlook⟩

theorem search_finds {s0 : St κ υ} {c0 p0 : Nat} {v : υ} (h0 : s0.flushing = none)
    (hwb : s0.wb.lookup k = none) (hf : FoundAt sys.slot s0.owner k c0)
    (hc0 : c0 ≤ s0.maxTry) (hm0 : s0.cache.memTable (sys.slot k c0) = some p0)
    (hp0 : s0.flash p0 = some (k, v)) :
    ∀ (d c : Nat) {tr : List (Lbl κ υ)} {s : St κ υ}, c + d = c0 →
      ((demandLTS sys).restrict (keepsPage sys)).Exec tr s → Looked sys s0 s i k c →
      ∃ s', Walk sys s s' ∧ s'.done = s0.done ++ [(i, k, .value v)]
  | 0, c, tr, s, hd, he, hlook => by
    obtain rfl : c = c0 := hd
    simp only [Looked, hm0] at hlook
    obtain ⟨hs, hl, hr⟩ := hlook
    rw [← hs.flash] at hp0
    obtain ⟨s', hw, -, hdone⟩ := search_page hs hr hp0
    exact ⟨s', hw, by simpa using hdone⟩
  | d + 1, c, tr, s, hd, he, hlook => by
    obtain ⟨k', ho, hne⟩ := hf.passed c (by omega)
    obtain ⟨p, v', hm, hfl⟩ := owner_idle h0 ho
    simp only [Looked, hm] at hlook
    obtain ⟨hs, hl, hr⟩ := hlook
    obtain ⟨s1, hw, hlook⟩ := search_next hwb he hs hl hr hfl (Ne.symm hne) (by omega)
    obtain ⟨tr1, he1⟩ := hw.exec he
    obtain ⟨s', hw', hdone⟩ := search_finds h0 hwb hf hc0 hm0 hp0 d (c + 1) (by omega) he1 hlook
    exact ⟨s', hw.trans hw', hdone⟩

omit [LinearOrder κ] in
theorem page_of_other {lpa p : Nat} (h0 : s.flushing = none) (hp : Probed sys s)
    (hno : ∀ lpa, s.owner lpa ≠ some k) (hm : s.cache.memTable lpa = some p) :
    ∃ e, s.flash p = some e ∧ k ≠ e.1 := by
  obtain ⟨-, k', hk⟩ := hp.owned lpa p hm
  have ho := (owner_of_mapped hm).trans hk
  obtain ⟨p', v, hm', hfl⟩ := owner_idle h0 ho
  obtain rfl : p = p' := some.inj (hm.symm.trans hm')
  refine ⟨(k', v), hfl, ?_⟩
  rintro rfl
  exact hno lpa ho

theorem search_misses {s0 : St κ υ} (h0 : s0.flushing = none)
    (hwb : s0.wb.lookup k = none) (hp0 : Probed sys s0) (hno : ∀ lpa, s0.owner lpa ≠ some k) :
    ∀ (d c : Nat) {tr : List (Lbl κ υ)} {s : St κ υ}, c + d = s0.maxTry →
      ((demandLTS sys).restrict (keepsPage sys)).Exec tr s → Looked sys s0 s i k c →
      ∃ s', Walk sys s s' ∧ s'.done = s0.done ++ [(i, k, .notFound)] := by
  intro d
  induction d with
  | zero =>
    intro c tr s hd he hlook
    cases hm : s0.cache.memTable (sys.slot k c) with
    | none =>
      simp only [Looked, hm] at hlook
      exact ⟨s, .refl s, hlook⟩
    | some p =>
      simp only [Looked, hm] at hlook
      obtain ⟨hs, -, hr⟩ := hlook
      obtain ⟨e, hfl, hne⟩ := page_of_other h0 hp0 hno hm
      rw [← hs.flash] at hfl
      obtain ⟨s1, hw, -, hnext⟩ := search_page hs hr hfl
      rw [if_neg hne] at hnext
      obtain ⟨hs1, hq1⟩ := hnext
      -- `max_try` slots have been passed
      have hlt : s1.maxTry < c + 1 := by
        rw [hs1.tries]
        omega
      have hres : step sys s1 (.resume 0) = some ({ s1 with rq := [] }.answer i k .notFound) := by
        simp [step, hs1.idle, hq1.rq, demandRead, hq1.ctx, hlt]
      exact ⟨_, hw.next (.inr rfl) hres, congrArg (· ++ _) hs1.done⟩
  | succ d ih =>
    intro c tr s hd he hlook
    cases hm : s0.cache.memTable (sys.slot k c) with
    | none =>
      simp only [Looked, hm] at hlook
      exact ⟨s, .refl s, hlook⟩
    | some p =>
      simp only [Looked, hm] at hlook
      obtain ⟨hs, hl, hr⟩ := hlook
      obtain ⟨e, hfl, hne⟩ := page_of_other h0 hp0 hno hm
      obtain ⟨s1, hw, hlook⟩ := search_next hwb he hs hl hr hfl hne (by omega)
      obtain ⟨tr1, he1⟩ := hw.exec he
      obtain ⟨s', hw', hdone⟩ := ih (c + 1) (by omega) he1 hlook
      exact ⟨s', hw.trans hw', hdone⟩

/-- No request or operation is under way. -/
structure Idle (s : St κ υ) : Prop where
  flushing : s.flushing = none
  rq : s.rq = []
  dev : s.dev = []
  landed : ∀ j, (s.cache.cmt j).isFlying = false

theorem lone_read {tr : List (Lbl κ υ)}
    (he : ((demandLTS sys).restrict (keepsPage sys)).Exec tr s) (hi : Idle s) (k : κ) :
    ∃ s1 s' r, step sys s (.read k 0) = some s1 ∧ Walk sys s1 s' ∧
      s'.done = s.done ++ [(s.nextId, k, r)] ∧ Right s k r := by
  obtain ⟨hpl, hp⟩ := he.of_restrict.inv (probed_inductive sys)
  have hsv := he.inv (saved_inductive sys)
  let s1 := (s.arrive k).setJump (.read s.nextId k) none
  have hctx : s1.ctx (.read s.nextId k) = ⟨0, none⟩ := by
    simp [s1, St.arrive, St.setJump, St.setCtx]
  have hstep : step sys s (.read k 0) = readResume sys s1 s.nextId k 0 none := by
    have hctx : (s.arrive k).ctx (.read s.nextId k) = ⟨0, none⟩ := by simp [St.arrive, St.setCtx]
    simp [step, hi.flushing, demandRead, hctx, s1]
  cases hwb : s.wb.lookup k with
  | some v =>
    obtain ⟨l1, l2, hl, -⟩ := lookup_eq_some_iff.mp hwb
    refine ⟨_, _, .value v, hstep.trans ?_, .refl (s1.answer s.nextId k (.value v)), rfl, .inl ?_⟩
    · simp only [readResume, show s1.wb = s.wb from rfl, hwb]
    · rw [hl]
      simp
  | none =>
    have hl : Landed s.cache none := fun j => ⟨hpl.pages.grounded j (hi.landed j), fun _ => hi.landed j⟩
    obtain ⟨s2, s3, hs2, hw, hlook⟩ := search_slot (s := s1) (t := 0) (c := 0)
      (⟨hi.flushing, rfl, rfl, rfl, rfl, rfl⟩ : Search s s1) hl hp.counted hsv hwb hi.rq hi.dev hctx
      (Nat.zero_le _)
    obtain ⟨tr3, he3⟩ := hw.exec (he.step ⟨⟨hstep.trans hs2, trivial⟩, trivial⟩)
    by_cases hst : ∃ lpa, s.owner lpa = some k
    · obtain ⟨lpa, ho⟩ := hst
      obtain ⟨c0, hc0, hf, -⟩ := hp.table.found ho
      obtain ⟨p, v, hm, hfl⟩ := owner_idle hi.flushing hf.here
      obtain ⟨s', hw', hdone⟩ := search_finds hi.flushing hwb hf hc0 hm hfl c0 0 (zero_add _)
        he3 hlook
      exact ⟨s2, s', .value v, hstep.trans hs2, hw.trans hw', hdone, .inr ⟨p, hfl⟩⟩
    · have hno : ∀ lpa, s.owner lpa ≠ some k := fun lpa ho => hst ⟨lpa, ho⟩
      obtain ⟨s', hw', hdone⟩ := search_misses hi.flushing hwb hp hno s.maxTry 0 (zero_add _)
        he3 hlook
      exact ⟨s2, s', .notFound, hstep.trans hs2, hw.trans hw', hdone, hno⟩

/-! ## Open addressing -/

/-- What a read of `k` is answered in a state reached by `tr`: a value of `k`,
from the buffer or a page of flash, if `k` owns a slot, "not found" if it was
never written. -/
structure Finds (tr : List (Lbl κ υ)) (s : St κ υ) (k : κ) (r : Res υ) : Prop where
  stored : ∀ lpa, s.owner lpa = some k → ∃ v, r = .value v ∧
    ((k, v) ∈ s.wb ∨ ∃ p, s.flash p = some (k, v))
  unwritten : (∀ v, ¬ Written tr k v) → r = .notFound

/-- What the system `T` does with its mapping table in state `s`, reached by
`tr`. -/
structure OpenAddressing (sys : Sys κ) (T : Core.LTS (St κ υ) (Lbl κ υ)) (tr : List (Lbl κ υ))
    (s : St κ υ) : Prop where
  table : ∀ lpa k, s.owner lpa = some k → ∃ c, c ≤ s.maxTry ∧ FoundAt sys.slot s.owner k c ∧
    ∀ lpa', s.owner lpa' = some k → lpa' = sys.slot k c
  flush : ∀ {k v assign s1 mid s2 s'}, T.step s (.flush k v assign) s1 → (T.after s1).Exec mid s2 →
    .finish ∉ mid → T.step s2 .finish s' → Flushed s assign s'
  answers : ∀ {l s'}, T.step s l s' → s'.done = s.done ∨
    ∃ i k r, s'.done = s.done ++ [(i, k, r)] ∧ Finds tr s k r
  finds : Idle s → ∀ k, ∃ s1 s' r, T.step s (.read k 0) s1 ∧ Walk sys s1 s' ∧
    s'.done = s.done ++ [(s.nextId, k, r)] ∧ Finds tr s k r

theorem known_inductive (sys : Sys κ) :
    (demandLTS (υ := υ) sys).HistInductive fun tr s => Places sys s none none ∧ Known tr s where
  init := by
    intro s hs
    subst hs
    refine ⟨places_init, ?_, ?_, ?_⟩ <;> simp [St.init]
  step := by
    intro tr s l s' h hs
    exact ⟨places_step h.1 hs.1, known_step h.2 h.1 hs.1⟩

omit [LinearOrder κ] in
theorem Right.finds {tr : List (Lbl κ υ)} {r : Res υ} (h : Right s k r) (hk : Known tr s) :
    Finds tr s k r := by
  cases r with
  | notFound => exact ⟨fun lpa ho => absurd ho (h lpa), fun _ => rfl⟩
  | value v =>
    refine ⟨fun _ _ => ⟨v, rfl, h⟩, fun hn => ?_⟩
    rcases h with h | ⟨p, h⟩
    · exact absurd (hk.buffer _ h) (hn v)
    · exact absurd (hk.flash p _ h) (hn v)

theorem open_addressing (sys : Sys κ) {tr : List (Lbl κ υ)}
    (h : ((demandLTS sys).restrict (keepsPage sys)).Exec tr s) :
    OpenAddressing sys ((demandLTS sys).restrict (keepsPage sys)) tr s := by
  obtain ⟨hpl, hp⟩ := h.of_restrict.inv (probed_inductive sys)
  have hsv := h.inv (saved_inductive sys)
  have hk := (h.of_restrict.history_inv (known_inductive sys)).2
  constructor
  case table => exact fun lpa k ho => hp.table.found ho
  case flush =>
    intro k v assign s1 mid s2 s' hb hm hmid he
    have hm : (((demandLTS sys).after s1).restrict (keepsPage sys)).Exec mid s2 := hm
    exact flushed h.of_restrict hb.1 hm.of_restrict hmid he.1
  case answers =>
    intro l s' hs
    rcases answers_step hp hpl hsv hs.1.1 with hd | ⟨i, k, r, ha⟩
    · exact .inl hd
    · exact .inr ⟨i, k, r, ha.done, ha.right.finds hk⟩
  case finds =>
    intro hi k
    obtain ⟨s1, s', r, hs, hw, hd, hr⟩ := lone_read h hi k
    exact ⟨s1, s', r, ⟨⟨hs, trivial⟩, trivial⟩, hw, hd, hr.finds hk⟩

end Steps

/-- A table in which all keys probe the same slots, with a buffer of two
entries. -/
def colliding : Sys Nat where
  toCfg := .threePages 2
  hash := fun _ => 0

/-- Two keys are flushed; the second finds its first slot taken by the first
and goes to the next. -/
theorem open_addressing_colliding :
    ∃ tr s, ((demandLTS (υ := Nat) colliding).restrict (keepsPage colliding)).Exec tr s ∧
      s.owner 1 = some 0 ∧ s.owner 3 = some 1 ∧
      ∃ c, c ≤ s.maxTry ∧ FoundAt colliding.slot s.owner 1 c ∧
        ∀ lpa, s.owner lpa = some 1 → lpa = colliding.slot 1 c := by
  let ls : List (Lbl Nat Nat) := [.write 0 7, .write 1 8, .flush 0 9 (fun k => 10 + k), .take,
    .probe 50, .take, .probe 50, .probe 50, .finish]
  obtain ⟨s, hE, hd⟩ := Core.LTS.Exec.check
    (T := (demandLTS colliding).restrict (keepsPage colliding)) (some .init)
    (fun s l => promised s l ∧ keepsPage colliding s l) ls
    (fun s => s.owner 1 = some 0 ∧ s.owner 3 = some 1)
    (fun s l s' hl hs => ⟨⟨hs, hl.1⟩, hl.2⟩) (fun _ h => some.inj h.symm) (by decide +kernel)
  exact ⟨_, s, hE, hd.1, hd.2, (open_addressing colliding hE).table 3 1 hd.2⟩

/-- Key 1 owns slot 2049 after a flush of three keys, but was updated when the
page had already been evicted: the page is taken for empty, and a read of key 1
is answered "not found". -/
theorem stored_not_found :
    ∃ tr s s', (demandLTS (υ := Nat) (onePage 3)).Exec tr s ∧ s.flushing = none ∧
      s.owner 2049 = some 1 ∧ step (onePage 3) s (.read 1 53) = some s' ∧
      s'.done = s.done ++ [(0, 1, .notFound)] ∧
      ¬ OpenAddressing (onePage 3) (demandLTS (onePage 3)) tr s := by
  let ls : List (Lbl Nat Nat) := [.write 0 7, .write 1 8, .write 2 9,
    .flush 3 5 (fun k => 10 + k), .take, .probe 50, .take, .probe 50, .take, .probe 51,
    .complete 0, .take, .probe 52, .finish]
  obtain ⟨s, hE, hf, ho, hnil, hread⟩ := Core.LTS.Exec.check (T := demandLTS (onePage 3))
    (some .init) promised ls
    (fun s => s.flushing = none ∧ s.owner 2049 = some 1 ∧ s.done = [] ∧
      (step (onePage 3) s (.read 1 53)).map (·.done) = some [(0, 1, .notFound)])
    (fun s l s' hl hs => ⟨hs, hl⟩) (fun _ h => some.inj h.symm) (by decide +kernel)
  obtain ⟨s', hs', hdone⟩ := Option.map_eq_some_iff.mp hread
  refine ⟨_, s, s', hE, hf, ho, hs', by rw [hdone, hnil]; rfl, fun h => ?_⟩
  rcases h.answers (l := .read 1 53) ⟨hs', trivial⟩ with hsame | ⟨i, k, r, hr, hfind⟩
  · rw [hdone, hnil] at hsame
    cases hsame
  · rw [hdone, hnil] at hr
    cases hr
    obtain ⟨v, hv, -⟩ := hfind.stored 2049 ho
    cases hv

end FlashDriver.Demand
