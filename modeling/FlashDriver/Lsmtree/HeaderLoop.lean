import FlashDriver.Lsmtree.HeaderCheck

/-!
# The loop over the headers ends, and each node has its verdict

The invariant `Inv` says of each node that the rest of its search decides its
verdict, and of each run whose header is being read that exactly one node
leads it and that its waiters are the nodes with `SAMERUN`. The counter is the
number of settled nodes.

Three things can happen to a node that starts a search (`Inv.settle`,
`Inv.join`, `Inv.lead`); a leader whose read is done releases its run
(`Inv.release`). Every visit that does something makes a measure smaller: the
levels that the nodes still have before them, and then the visits that the
reads in flight will take. A node that waits has a leader, so every pass over
the nodes has such a visit.
-/
namespace FlashDriver.Lsmtree.Gc

open List Option Function

/-! ## Sums over the nodes -/

def total (n : Nat) (f : Status → Params → Nat) (s : St) : Nat :=
  ∑ j ∈ Finset.range n, f (s.status j) (s.params j)

theorem total_set {n : Nat} (f : Status → Params → Nat) (s : St) {i : Nat} (hi : i < n) (x : Status)
    (p : Params) : total n f (s.set i x p) + f (s.status i) (s.params i) = total n f s + f x p := by
  have hm : i ∈ Finset.range n := Finset.mem_range.mpr hi
  unfold total
  rw [← Finset.add_sum_erase _ _ hm, ← Finset.add_sum_erase (Finset.range n)
    (fun j => f (s.status j) (s.params j)) hm]
  have hrest : ∑ j ∈ (Finset.range n).erase i, f ((s.set i x p).status j) ((s.set i x p).params j) =
      ∑ j ∈ (Finset.range n).erase i, f (s.status j) (s.params j) := by
    refine Finset.sum_congr rfl fun j hj => ?_
    have hne : j ≠ i := (Finset.mem_erase.mp hj).1
    simp [St.set, update_of_ne hne]
  rw [hrest]
  simp only [St.set, update_self]
  omega

def Status.finished : Status → Bool
  | .done => true
  | .noUptDone => true
  | _ => false

/-- 1 for a settled node. -/
def fin (x : Status) (_ : Params) : Nat := if x.finished then 1 else 0

/-- The levels still ahead; a node goes down by at least one with each step. -/
def rank (L : Lsm) (x : Status) (p : Params) : Nat :=
  match x with
  | .notIssue => 2 * L.cfg.levelN + 2
  | .retry => 2 * (L.cfg.levelN - p.level)
  | .issue _ => 2 * (L.cfg.levelN - p.level) + 1
  | .sameRun => 2 * (L.cfg.levelN - p.level) + 1
  | .done => 0
  | .noUptDone => 0

/-- The visits that a read in flight will still take. -/
def wait (x : Status) (_ : Params) : Nat :=
  match x with
  | .issue d => d
  | _ => 0

def measure (L : Lsm) (n : Nat) (s : St) : Nat × Nat := (total n (rank L) s, total n wait s)

/-! ## The invariant -/

/-- The node is at the run `p.ent`, and what the run has for it decides. -/
structure Waiting (L : Lsm) (t : Target) (p : Params) : Prop where
  run : p.run = 0
  ent : p.ent.1 = p.level
  lt : p.level < L.cfg.levelN
  flash : L.cfg.levelCaching ≤ p.level
  fresh : t.lpa ∉ L.memtable
  idle : L.flying p.ent = false
  decides : verdict L t = runVerdict L t p.ent

/-- The node has been at a run of level `p.level` and is to go on. -/
structure Retrying (L : Lsm) (t : Target) (p : Params) : Prop where
  run : p.run ≠ 0
  lt : p.level < L.cfg.levelN
  flash : L.cfg.levelCaching ≤ p.level
  fresh : t.lpa ∉ L.memtable
  decides : verdict L t = searchAt L t (p.level + 1)

def NodeOk (L : Lsm) (t : Target) (p : Params) : Status → Prop
  | .notIssue => True
  | .retry => Retrying L t p
  | .issue _ => Waiting L t p
  | .sameRun => Waiting L t p
  | .done => verdict L t = some true
  | .noUptDone => verdict L t = some false

/-- What a node has to do with a run. -/
inductive Role
  | free
  | leads (r : Nat × Nat)
  | waits (r : Nat × Nat)

def roleOf : Status → Params → Role
  | .issue _, p => .leads p.ent
  | .sameRun, p => .waits p.ent
  | _, _ => .free

def role (s : St) (j : Nat) : Role := roleOf (s.status j) (s.params j)

/-- Each run that is being read has one leader, and its queue holds its waiters. -/
structure Runs (L : Lsm) (n : Nat) (ρ : Nat → Role) (s : St) : Prop where
  foreign : ∀ r, L.flying r = true → s.flying r = true ∧ s.waitreq r = none
  leads : ∀ i < n, ∀ r, ρ i = .leads r → s.flying r = true
  one : ∀ i < n, ∀ j < n, ∀ r, ρ i = .leads r → ρ j = .leads r → i = j
  waits : ∀ i < n, ∀ r, ρ i = .waits r → s.flying r = true ∧ ∃ w, s.waitreq r = some w ∧ i ∈ w
  led : ∀ r, s.flying r = true → L.flying r = false → ∃ i < n, ρ i = .leads r
  queue : ∀ r w, s.flying r = true → s.waitreq r = some w →
    w.Nodup ∧ ∀ j ∈ w, j < n ∧ ρ j = .waits r
  alloc : ∀ r, L.flying r = false → s.flying r = true ∨ s.runData r = true → s.waitreq r ≠ none

structure Inv (L : Lsm) (g : Nat → Target) (n : Nat) (s : St) : Prop where
  node : ∀ i < n, NodeOk L (g i) (s.params i) (s.status i)
  runs : Runs L n (role s) s
  count : s.doneCnt = total n fin s

/-- The node has not joined a run. -/
def Apart (s : St) (i : Nat) : Prop := s.status i = .notIssue ∨ s.status i = .retry

section
variable {L : Lsm} {g : Nat → Target} {n : Nat} {s : St} {i : Nat}

theorem Apart.free (h : Apart s i) : role s i = .free := by
  unfold role
  rcases h with h | h <;> rw [h] <;> rfl

theorem Apart.fin_eq (h : Apart s i) (p : Params) : fin (s.status i) p = 0 := by
  rcases h with h | h <;> simp [h, fin, Status.finished]

theorem set_of_ne {j : Nat} (hj : j ≠ i) (x : Status) (p : Params) :
    (s.set i x p).status j = s.status j ∧ (s.set i x p).params j = s.params j := by
  simp [St.set, update_of_ne hj]

theorem set_self (x : Status) (p : Params) :
    (s.set i x p).status i = x ∧ (s.set i x p).params i = p := by
  simp [St.set]

theorem role_set (s : St) (i : Nat) (x : Status) (p : Params) :
    role (s.set i x p) = update (role s) i (roleOf x p) := by
  funext j
  by_cases h : j = i
  · subst h
    rw [role, (set_self x p).1, (set_self x p).2, update_self]
  · rw [role, (set_of_ne h x p).1, (set_of_ne h x p).2, update_of_ne h, role]

theorem role_leads {j : Nat} {r : Nat × Nat} (h : role s j = .leads r) :
    (∃ d, s.status j = .issue d) ∧ (s.params j).ent = r := by
  unfold role roleOf at h
  split at h <;> cases h
  rename_i d hs
  exact ⟨⟨d, hs⟩, rfl⟩

theorem role_waits {j : Nat} {r : Nat × Nat} (h : role s j = .waits r) :
    s.status j = .sameRun ∧ (s.params j).ent = r := by
  unfold role roleOf at h
  split at h <;> cases h
  rename_i hs
  exact ⟨hs, rfl⟩

theorem role_issue {j d : Nat} (h : s.status j = .issue d) : role s j = .leads (s.params j).ent := by
  rw [role, h]
  rfl

theorem role_sameRun {j : Nat} (h : s.status j = .sameRun) :
    role s j = .waits (s.params j).ent := by
  rw [role, h]
  rfl

/-! ## Runs and roles -/

section
variable {ρ : Nat → Role} {r : Nat × Nat} {j : Nat} {x y : Role}

theorem role_old (h : update ρ i x j = y) (hxy : x ≠ y) : j ≠ i ∧ ρ j = y := by
  have hj : j ≠ i := by
    rintro rfl
    exact hxy (by rwa [update_self] at h)
  exact ⟨hj, by rwa [update_of_ne hj] at h⟩

theorem role_other (hi : ρ i = .free) (h : ρ j = y) (hy : y ≠ .free) :
    update ρ i x j = y := by
  rw [update_of_ne, h]
  rintro rfl
  exact hy (h.symm.trans hi)

theorem Runs.join {w : List Nat} (R : Runs L n ρ s) (hi : i < n) (hf : ρ i = .free)
    (hidle : L.flying r = false) (hfly : s.flying r = true) (hw : s.waitreq r = some w) :
    Runs L n (update ρ i (.waits r))
      { s with waitreq := update s.waitreq r (some (w ++ [i])) } where
  foreign q hq := by
    have hne : q ≠ r := fun he => by
      rw [he, hidle] at hq
      cases hq
    dsimp only
    rw [update_of_ne hne]
    exact R.foreign q hq
  leads j hj q h := R.leads j hj q (role_old h (by simp)).2
  one j hj k hk q h h' := R.one j hj k hk q (role_old h (by simp)).2 (role_old h' (by simp)).2
  waits j hj q h := by
    by_cases he : j = i
    · subst he
      rw [update_self] at h
      cases h
      exact ⟨hfly, w ++ [j], update_self .., by simp⟩
    · rw [update_of_ne he] at h
      obtain ⟨hq, v, hv, hjv⟩ := R.waits j hj q h
      refine ⟨hq, ?_⟩
      by_cases hqr : q = r
      · subst hqr
        rw [hw] at hv
        cases hv
        exact ⟨w ++ [i], update_self .., mem_append_left _ hjv⟩
      · exact ⟨v, by rw [← hv]; exact update_of_ne hqr _ _, hjv⟩
  led q hq hl := by
    obtain ⟨j, hj, h⟩ := R.led q hq hl
    exact ⟨j, hj, role_other hf h (by simp)⟩
  queue q v hq hv := by
    have hold : ∀ v, s.waitreq q = some v → v.Nodup ∧ ∀ j ∈ v, j < n ∧
        update ρ i (.waits r) j = .waits q := by
      intro v hv
      obtain ⟨hnd, hmem⟩ := R.queue q v hq hv
      exact ⟨hnd, fun j hj => ⟨(hmem j hj).1, role_other hf (hmem j hj).2 (by simp)⟩⟩
    by_cases hqr : q = r
    · subst hqr
      dsimp only at hv
      rw [update_self] at hv
      cases hv
      obtain ⟨hnd, hmem⟩ := hold w hw
      have hiw : i ∉ w := by
        intro hm
        have := ((R.queue q w hq hw).2 i hm).2
        rw [hf] at this
        cases this
      refine ⟨nodup_append.mpr ⟨hnd, nodup_singleton i, fun a ha b hb hab =>
        hiw (mem_singleton.mp hb ▸ hab ▸ ha)⟩, fun j hj => ?_⟩
      rcases mem_append.mp hj with hj | hj
      · exact hmem j hj
      · rw [mem_singleton.mp hj]
        exact ⟨hi, update_self ..⟩
    · dsimp only at hv
      rw [update_of_ne hqr] at hv
      exact hold v hv
  alloc q hl hq := by
    dsimp only
    by_cases hqr : q = r
    · rw [hqr, update_self]
      simp
    · rw [update_of_ne hqr]
      exact R.alloc q hl hq

theorem Runs.lead (R : Runs L n ρ s) (hi : i < n) (hf : ρ i = .free)
    (hidle : L.flying r = false) (hfly : s.flying r = false) :
    Runs L n (update ρ i (.leads r)) { s with
        flying := update s.flying r true
        waitreq := update s.waitreq r (some []) } := by
  -- nobody is at the run yet
  have hno : ∀ {q}, s.flying q = true → q ≠ r := by
    rintro q hq rfl
    rw [hfly] at hq
    cases hq
  have hlead : ∀ j < n, ∀ q, update ρ i (.leads r) j = .leads q →
      j = i ∧ q = r ∨ j ≠ i ∧ ρ j = .leads q ∧ q ≠ r := by
    intro j hj q h
    by_cases he : j = i
    · subst he
      rw [update_self] at h
      cases h
      exact .inl ⟨rfl, rfl⟩
    · rw [update_of_ne he] at h
      exact .inr ⟨he, h, hno (R.leads j hj q h)⟩
  constructor
  case foreign =>
    intro q hq
    have hne : q ≠ r := fun he => by
      rw [he, hidle] at hq
      cases hq
    dsimp only
    rw [update_of_ne hne, update_of_ne hne]
    exact R.foreign q hq
  case leads =>
    intro j hj q h
    dsimp only
    rcases hlead j hj q h with ⟨-, rfl⟩ | ⟨-, h, hne⟩
    · exact update_self ..
    · rw [update_of_ne hne]
      exact R.leads j hj q h
  case one =>
    intro j hj k hk q h h'
    rcases hlead j hj q h with ⟨hji, hq⟩ | ⟨-, h, hne⟩ <;>
      rcases hlead k hk q h' with ⟨hki, hq'⟩ | ⟨-, h', hne'⟩
    · rw [hji, hki]
    · exact absurd hq hne'
    · exact absurd hq' hne
    · exact R.one j hj k hk q h h'
  case waits =>
    intro j hj q h
    obtain ⟨hq, v, hv, hjv⟩ := R.waits j hj q (role_old h (by simp)).2
    dsimp only
    rw [update_of_ne (hno hq), update_of_ne (hno hq)]
    exact ⟨hq, v, hv, hjv⟩
  case led =>
    intro q hq hl
    by_cases hqr : q = r
    · exact ⟨i, hi, hqr ▸ update_self ..⟩
    · dsimp only at hq
      rw [update_of_ne hqr] at hq
      obtain ⟨j, hj, h⟩ := R.led q hq hl
      exact ⟨j, hj, role_other hf h (by simp)⟩
  case queue =>
    intro q v hq hv
    dsimp only at hq hv
    by_cases hqr : q = r
    · rw [hqr, update_self] at hv
      cases hv
      exact ⟨nodup_nil, fun j hj => by cases hj⟩
    · rw [update_of_ne hqr] at hq hv
      obtain ⟨hnd, hmem⟩ := R.queue q v hq hv
      exact ⟨hnd, fun j hj => ⟨(hmem j hj).1, role_other hf (hmem j hj).2 (by simp)⟩⟩
  case alloc =>
    intro q hl hq
    dsimp only at hq ⊢
    by_cases hqr : q = r
    · rw [hqr, update_self]
      simp
    · rw [update_of_ne hqr] at hq ⊢
      exact R.alloc q hl hq

end

/-! ## A node is placed -/

theorem Inv.set (I : Inv L g n s) (hi : i < n) {x : Status} {p : Params} {s' : St}
    (hs : s'.status = (s.set i x p).status) (hp : s'.params = (s.set i x p).params)
    (hn : NodeOk L (g i) p x) (hr : Runs L n (update (role s) i (roleOf x p)) s')
    (hc : s'.doneCnt + fin (s.status i) (s.params i) = s.doneCnt + fin x p) : Inv L g n s' where
  node j hj := by
    rw [hs, hp]
    by_cases he : j = i
    · subst he
      rw [(set_self x p).1, (set_self x p).2]
      exact hn
    · rw [(set_of_ne he x p).1, (set_of_ne he x p).2]
      exact I.node j hj
  runs := by
    have : role s' = role (s.set i x p) := by
      funext j
      rw [role, hs, hp, role]
    rw [this, role_set]
    exact hr
  count := by
    have h1 := total_set fin s hi x p
    have h2 : total n fin s' = total n fin (s.set i x p) := by
      unfold total
      rw [hs, hp]
    have h3 := I.count
    omega

theorem Inv.place (I : Inv L g n s) (hi : i < n) (ha : Apart s i) {x : Status} {p : Params}
    (hx : roleOf x p = .free) (hn : NodeOk L (g i) p x) :
    Inv L g n { s.set i x p with doneCnt := s.doneCnt + fin x p } := by
  refine I.set hi rfl rfl hn ?_ ?_
  · rw [hx, ← ha.free, update_eq_self]
    exact ⟨I.runs.foreign, I.runs.leads, I.runs.one, I.runs.waits, I.runs.led, I.runs.queue,
      I.runs.alloc⟩
  · rw [ha.fin_eq]
    rfl

theorem Inv.settle (I : Inv L g n s) (hi : i < n) (ha : Apart s i) {x : Status} {p : Params}
    (hx : x.finished = true) (hn : NodeOk L (g i) p x) :
    Inv L g n { s.set i x p with doneCnt := s.doneCnt + 1 } := by
  have hone : fin x p = 1 := by simp [fin, hx]
  have hfree : roleOf x p = .free := by cases x <;> first | rfl | cases hx
  have hplace := I.place hi ha hfree hn
  rwa [hone] at hplace

theorem Inv.join (I : Inv L g n s) (hi : i < n) (ha : Apart s i) {p : Params} {w : List Nat}
    (hn : Waiting L (g i) p) (hfly : s.flying p.ent = true) (hw : s.waitreq p.ent = some w) :
    Inv L g n { s.set i .sameRun p with
      waitreq := update s.waitreq p.ent (some (w ++ [i])) } := by
  have R := I.runs.join hi ha.free hn.idle hfly hw
  refine I.set hi rfl rfl hn ⟨R.foreign, R.leads, R.one, R.waits, R.led, R.queue, R.alloc⟩ ?_
  rw [ha.fin_eq]
  rfl

theorem Inv.lead (I : Inv L g n s) (hi : i < n) (ha : Apart s i) {p : Params} (d k : Nat)
    (hn : Waiting L (g i) p) (hfly : s.flying p.ent = false) :
    Inv L g n { s.set i (.issue d) p with
      flying := update s.flying p.ent true
      waitreq := update s.waitreq p.ent (some [])
      issued := k } := by
  have R := I.runs.lead hi ha.free hn.idle hfly
  refine I.set hi rfl rfl (x := .issue d) hn
    ⟨R.foreign, R.leads, R.one, R.waits, R.led, R.queue, R.alloc⟩ ?_
  rw [ha.fin_eq]
  rfl

/-! ## Starting a search -/

/-- The level at which the next search of the node begins. -/
def startOf (p : Params) : Nat := if p.run = 0 then p.level else p.level + 1

/-- What a node brings when it starts a search. -/
structure Starts (L : Lsm) (g : Nat → Target) (s : St) (i : Nat) : Prop where
  apart : Apart s i
  decides : verdict L (g i) = searchAt L (g i) (startOf (s.params i))
  rank_pos : 0 < rank L (s.status i) (s.params i)
  rank_gt : ∀ l, startOf (s.params i) ≤ l → l < L.cfg.levelN →
    2 * (L.cfg.levelN - l) + 1 < rank L (s.status i) (s.params i)

/-- What a call of `gc_data_issue_header` comes to; its result is counted. -/
structure Issued (L : Lsm) (g : Nat → Target) (n : Nat) (s : St) (i : Nat) (t : St × Bool) :
    Prop where
  inv : Inv L g n { t.1 with doneCnt := t.1.doneCnt + if t.2 then 1 else 0 }
  smaller : total n (rank L) t.1 < total n (rank L) s
  uncounted : (g i).lpa ∉ L.memtable → L.cfg.levelCaching ≤ startOf (s.params i) → t.2 = false

theorem total_lt {f : Status → Params → Nat} (hi : i < n) {x : Status} {p : Params}
    (h : f x p < f (s.status i) (s.params i)) : total n f (s.set i x p) < total n f s := by
  have := total_set f s hi x p
  omega

theorem lsmFindRun_eq (p : Params) (key : Key) :
    lsmFindRun L.cfg L.disk key p.level p.run =
      findLevel L.cfg L.disk key (L.cfg.levelN - startOf p) (startOf p) := rfl

theorem issueHeader_spec (delay : Nat → Nat) (I : Inv L g n s) (hi : i < n) (S : Starts L g s i) :
    (issueHeader L delay g s i = none ∧ verdict L (g i) = none) ∨
      ∃ t, issueHeader L delay g s i = some t ∧ Issued L g n s i t := by
  have hdec := S.decides
  rw [searchAt_eq] at hdec
  unfold issueHeader
  rw [lsmFindRun_eq]
  cases hf : findLevel L.cfg L.disk (g i).lpa (L.cfg.levelN - startOf (s.params i))
      (startOf (s.params i)) with
  | notFound => rw [hf] at hdec; exact .inl ⟨rfl, hdec⟩
  | caching l a =>
    obtain ⟨hge, hlt⟩ := findLevel_caching hf
    rw [hf, afterFind] at hdec
    have hcount : (g i).lpa ∉ L.memtable → L.cfg.levelCaching ≤ startOf (s.params i) →
        true = false := fun _ h => by omega
    right
    dsimp only
    split
    · rename_i heq
      refine ⟨_, rfl, I.settle hi S.apart rfl ?_, total_lt hi S.rank_pos, hcount⟩
      change verdict L (g i) = some true
      rw [hdec]; simp [heq]
    · rename_i hne
      refine ⟨_, rfl, I.settle hi S.apart rfl ?_, total_lt hi S.rank_pos, hcount⟩
      change verdict L (g i) = some false
      rw [hdec]; simp [hne]
  | found l r =>
    obtain ⟨hge, hlt, hflash, -⟩ := findLevel_found hf
    rw [hf, afterFind] at hdec
    dsimp only
    split
    · rename_i hmem
      rw [if_pos hmem] at hdec
      exact .inr ⟨_, rfl, I.settle hi S.apart rfl hdec, total_lt hi S.rank_pos,
        fun h => absurd hmem h⟩
    · rename_i hmem
      rw [if_neg hmem] at hdec
      have hrank := S.rank_gt l hge (by omega)
      by_cases hforeign : L.flying (l, r) = true
      · -- a lookup of a client is reading the header
        obtain ⟨h1, h2⟩ := I.runs.foreign _ hforeign
        rw [if_pos hforeign] at hdec
        rw [if_pos h1, h2]
        exact .inl ⟨rfl, hdec⟩
      · rw [if_neg hforeign] at hdec
        have hidle : L.flying (l, r) = false := by simpa using hforeign
        have W : Waiting L (g i) ⟨l, 0, (l, r)⟩ :=
          ⟨rfl, rfl, by change l < _; omega, hflash, hmem, hidle, hdec⟩
        right
        split
        · rename_i hfly
          obtain ⟨w, hw⟩ := ne_none_iff_exists'.mp (I.runs.alloc _ hidle (.inl hfly))
          rw [hw]
          exact ⟨_, rfl, I.join hi S.apart W hfly hw, total_lt hi hrank, fun _ _ => rfl⟩
        · rename_i hfly
          have hnot : s.flying (l, r) = false := by simpa using hfly
          split
          · rename_i hdata
            obtain ⟨w, hw⟩ := ne_none_iff_exists'.mp (I.runs.alloc _ hidle (.inr hdata))
            rw [hw]
            exact ⟨_, rfl, I.lead hi S.apart 0 s.issued W hnot, total_lt hi hrank, fun _ _ => rfl⟩
          · exact ⟨_, rfl, I.lead hi S.apart _ _ W hnot, total_lt hi hrank, fun _ _ => rfl⟩

theorem Retrying.starts (h : s.status i = .retry) (R : Retrying L (g i) (s.params i)) :
    Starts L g s i := by
  have hstart : startOf (s.params i) = (s.params i).level + 1 := if_neg R.run
  have hlt := R.lt
  refine ⟨.inr h, hstart ▸ R.decides, ?_, fun l hl hN => ?_⟩
  · simp only [h, rank]; omega
  · rw [hstart] at hl
    simp only [h, rank]; omega

/-! ## Releasing a run -/

/-- How a node leaves the run whose header has been read. -/
def leaves (L : Lsm) (t : Target) (r : Nat × Nat) (p : Params) : Status × Params :=
  match lookup (L.run r) t.lpa with
  | some a => if a = t.ppa then (.done, p) else (.noUptDone, { p with run := p.run + 1 })
  | none => (.retry, { p with run := p.run + 1 })

theorem checkNode_eq (r : Nat × Nat) (s : St) (j : Nat) :
    checkNode L g r s j = { s.set j (leaves L (g j) r (s.params j)).1
        (leaves L (g j) r (s.params j)).2 with
      doneCnt := s.doneCnt + fin (leaves L (g j) r (s.params j)).1 (s.params j) } := by
  unfold checkNode leaves
  cases lookup (L.run r) (g j).lpa with
  | none => rfl
  | some a =>
    dsimp only
    split <;> rfl

theorem Waiting.leaves {t : Target} {p : Params} (W : Waiting L t p) :
    NodeOk L t (leaves L t p.ent p).2 (leaves L t p.ent p).1 ∧
      rank L (leaves L t p.ent p).1 (leaves L t p.ent p).2 ≤ 2 * (L.cfg.levelN - p.level) := by
  have hdec := W.decides
  unfold runVerdict at hdec
  unfold Gc.leaves
  cases hl : lookup (L.run p.ent) t.lpa with
  | none =>
    rw [hl, W.ent] at hdec
    exact ⟨⟨Nat.succ_ne_zero _, W.lt, W.flash, W.fresh, hdec⟩, le_rfl⟩
  | some a =>
    rw [hl] at hdec
    dsimp only
    split
    · rename_i heq
      exact ⟨by change verdict L t = some true; rw [hdec]; simp [heq], Nat.zero_le _⟩
    · rename_i hne
      exact ⟨by change verdict L t = some false; rw [hdec]; simp [hne], Nat.zero_le _⟩

theorem leaves_free (t : Target) (r : Nat × Nat) (p q : Params) :
    roleOf (leaves L t r p).1 q = .free := by
  unfold Gc.leaves
  split
  · split <;> rfl
  · rfl

/-- All nodes of a list leave the run. -/
structure Left (L : Lsm) (g : Nat → Target) (n : Nat) (r : Nat × Nat) (T : List Nat) (s s' : St) :
    Prop where
  inside : ∀ j ∈ T, s'.status j = (leaves L (g j) r (s.params j)).1 ∧
    s'.params j = (leaves L (g j) r (s.params j)).2
  outside : ∀ j, j ∉ T → s'.status j = s.status j ∧ s'.params j = s.params j
  flying : s'.flying = s.flying
  waitreq : s'.waitreq = s.waitreq
  runData : s'.runData = s.runData
  count : s'.doneCnt + total n fin s = s.doneCnt + total n fin s'
  rank : total n (rank L) s' + T.length ≤ total n (rank L) s

theorem foldl_checkNode {r : Nat × Nat} {T : List Nat} (hnd : T.Nodup)
    (hT : ∀ j ∈ T, j < n ∧ (s.status j).finished = false ∧ Waiting L (g j) (s.params j) ∧
      (s.params j).ent = r ∧ 2 * (L.cfg.levelN - (s.params j).level) + 1 ≤
        Gc.rank L (s.status j) (s.params j)) :
    Left L g n r T s (T.foldl (checkNode L g r) s) := by
  induction T generalizing s with
  | nil =>
    exact ⟨fun j hj => (by cases hj), fun j _ => ⟨rfl, rfl⟩, rfl, rfl, rfl, rfl, le_rfl⟩
  | cons i T ih =>
    obtain ⟨hiT, hnd⟩ := nodup_cons.mp hnd
    obtain ⟨hi, hfin, W, hent, hrank⟩ := hT i mem_cons_self
    have hne : ∀ j ∈ T, j ≠ i := fun j hj he => hiT (he ▸ hj)
    obtain ⟨s1, hs1⟩ : ∃ s1, s1 = checkNode L g r s i := ⟨_, rfl⟩
    have heq := hs1.trans (checkNode_eq r s i)
    have hst : ∀ j, j ≠ i → s1.status j = s.status j ∧ s1.params j = s.params j := by
      intro j hj; rw [heq]; exact set_of_ne hj _ _
    have hself : s1.status i = (Gc.leaves L (g i) r (s.params i)).1 ∧
        s1.params i = (Gc.leaves L (g i) r (s.params i)).2 := by
      rw [heq]; exact set_self _ _
    have hL := ih hnd (s := s1) fun j hj => by
      rw [(hst j (hne j hj)).1, (hst j (hne j hj)).2]
      exact hT j (.tail _ hj)
    have htot : ∀ f : Status → Params → Nat, total n f s1 + f (s.status i) (s.params i) =
        total n f s + f (Gc.leaves L (g i) r (s.params i)).1 (Gc.leaves L (g i) r (s.params i)).2 := by
      intro f; rw [heq]; exact total_set f s hi _ _
    rw [foldl_cons, ← hs1]
    refine ⟨fun j hj => ?_, fun j hj => ?_, ?_, ?_, ?_, ?_, ?_⟩
    · by_cases he : j = i
      · subst he
        rw [(hL.outside j hiT).1, (hL.outside j hiT).2]
        exact hself
      · have hjT : j ∈ T := by simpa [he] using hj
        rw [(hL.inside j hjT).1, (hL.inside j hjT).2, (hst j he).2]
        exact ⟨rfl, rfl⟩
    · simp only [mem_cons, not_or] at hj
      rw [(hL.outside j hj.2).1, (hL.outside j hj.2).2]
      exact hst j hj.1
    · rw [hL.flying, heq]; rfl
    · rw [hL.waitreq, heq]; rfl
    · rw [hL.runData, heq]; rfl
    · have h1 := hL.count
      have h2 := htot fin
      have h3 : s1.doneCnt = s.doneCnt + fin (Gc.leaves L (g i) r (s.params i)).1 (s.params i) := by
        rw [heq]
      have h4 : fin (s.status i) (s.params i) = 0 := by simp [fin, hfin]
      have h5 : fin (Gc.leaves L (g i) r (s.params i)).1 (Gc.leaves L (g i) r (s.params i)).2 =
        fin (Gc.leaves L (g i) r (s.params i)).1 (s.params i) := rfl
      omega
    · have h1 := hL.rank
      have h2 := htot (Gc.rank L)
      have h3 := W.leaves.2
      rw [hent] at h3
      simp only [length_cons]
      omega

/-- The state in which the run is released and its nodes have left. -/
def released (L : Lsm) (g : Nat → Target) (r : Nat × Nat) (T : List Nat) (s : St) : St :=
  let s := T.foldl (checkNode L g r) { s with runData := update s.runData r true }
  { s with flying := update s.flying r false }

/-- The nodes of a run: its leader and those that wait for it. -/
structure Crew (L : Lsm) (g : Nat → Target) (n : Nat) (s : St) (i : Nat) (w : List Nat) : Prop where
  nodup : (i :: w).Nodup
  lt : ∀ j ∈ i :: w, j < n
  status : ∀ j ∈ i :: w, s.status j = .issue 0 ∨ s.status j = .sameRun
  ent : ∀ j ∈ i :: w, (s.params j).ent = (s.params i).ent
  waiting : ∀ j ∈ i :: w, Waiting L (g j) (s.params j)

theorem Inv.crew (I : Inv L g n s) (hi : i < n) (hs : s.status i = .issue 0) :
    ∃ w, s.waitreq (s.params i).ent = some w ∧ Crew L g n s i w := by
  have W : Waiting L (g i) (s.params i) := by simpa [hs, NodeOk] using I.node i hi
  have hfly := I.runs.leads i hi _ (role_issue hs)
  obtain ⟨w, hw⟩ := ne_none_iff_exists'.mp (I.runs.alloc _ W.idle (.inl hfly))
  obtain ⟨hnd, hmem⟩ := I.runs.queue _ w hfly hw
  have hsame : ∀ j ∈ w, s.status j = .sameRun := fun j hj => (role_waits (hmem j hj).2).1
  have hiw : i ∉ w := fun h => by
    have := hsame i h
    rw [hs] at this; cases this
  refine ⟨w, hw, nodup_cons.mpr ⟨hiw, hnd⟩, fun j hj => ?_, fun j hj => ?_, fun j hj => ?_,
    fun j hj => ?_⟩
  · rcases mem_cons.mp hj with rfl | hj
    · exact hi
    · exact (hmem j hj).1
  · rcases mem_cons.mp hj with rfl | hj
    · exact .inl hs
    · exact .inr (hsame j hj)
  · rcases mem_cons.mp hj with rfl | hj
    · rfl
    · exact (role_waits (hmem j hj).2).2
  · rcases mem_cons.mp hj with rfl | hj
    · exact W
    · have := I.node j (hmem j hj).1
      rw [hsame j hj] at this
      exact this

theorem Crew.left {w : List Nat} (C : Crew L g n s i w) (r : Nat × Nat) (hr : r = (s.params i).ent)
    (d : Nat × Nat → Bool) : Left L g n r (i :: w) { s with runData := d }
      ((i :: w).foldl (checkNode L g r) { s with runData := d }) := by
  refine foldl_checkNode C.nodup fun j hj => ?_
  refine ⟨C.lt j hj, ?_, C.waiting j hj, hr ▸ C.ent j hj, ?_⟩
  · rcases C.status j hj with h | h <;> simp [h, Status.finished]
  · rcases C.status j hj with h | h <;> simp [h, Gc.rank]

theorem Runs.release {ρ ρ' : Nat → Role} {r : Nat × Nat} {T : List Nat} {u : St} (R : Runs L n ρ s)
    (hidle : L.flying r = false) (hw : s.waitreq r ≠ none)
    (hin : ∀ j ∈ T, ρ' j = .free) (hout : ∀ j, j ∉ T → ρ' j = ρ j)
    (hT : ∀ j < n, ρ j = .leads r ∨ ρ j = .waits r → j ∈ T)
    (honly : ∀ j ∈ T, ρ j = .leads r ∨ ρ j = .waits r)
    (hf : u.flying = update s.flying r false) (hq : u.waitreq = s.waitreq)
    (hd : ∀ q, q ≠ r → u.runData q = s.runData q) : Runs L n ρ' u := by
  -- a node that still reads or waits is none of the run's
  have hstay : ∀ j < n, ∀ y, ρ' j = y → y ≠ .free → ρ j = y ∧ y ≠ .leads r ∧ y ≠ .waits r := by
    intro j hj y h hy
    have hjT : j ∉ T := fun hm => hy (h.symm.trans (hin j hm))
    rw [hout j hjT] at h
    exact ⟨h, fun he => hjT (hT j hj (.inl (h.trans he))),
      fun he => hjT (hT j hj (.inr (h.trans he)))⟩
  have hgone : ∀ j y, ρ j = y → y ≠ .leads r → y ≠ .waits r → ρ' j = y := by
    intro j y h h1 h2
    rw [hout j fun hm => (honly j hm).elim (fun he => h1 (h.symm.trans he))
      fun he => h2 (h.symm.trans he), h]
  have hfly : ∀ {q}, u.flying q = true ↔ s.flying q = true ∧ q ≠ r := by
    intro q
    rw [hf]
    by_cases hqr : q = r <;> simp [hqr]
  constructor
  case foreign =>
    intro q h
    rw [hq]
    obtain ⟨h1, h2⟩ := R.foreign q h
    exact ⟨hfly.mpr ⟨h1, fun he => by rw [he, hidle] at h; cases h⟩, h2⟩
  case leads =>
    intro j hj q h
    obtain ⟨h, hne, -⟩ := hstay j hj _ h (by simp)
    exact hfly.mpr ⟨R.leads j hj q h, fun he => hne (by rw [he])⟩
  case one =>
    intro j hj k hk q h h'
    exact R.one j hj k hk q (hstay j hj _ h (by simp)).1 (hstay k hk _ h' (by simp)).1
  case waits =>
    intro j hj q h
    obtain ⟨h, -, hne⟩ := hstay j hj _ h (by simp)
    obtain ⟨h1, h2⟩ := R.waits j hj q h
    rw [hq]
    exact ⟨hfly.mpr ⟨h1, fun he => hne (by rw [he])⟩, h2⟩
  case led =>
    intro q h hl
    obtain ⟨h, hne⟩ := hfly.mp h
    obtain ⟨j, hj, hr⟩ := R.led q h hl
    exact ⟨j, hj, hgone j _ hr (by simpa using hne) (by simp)⟩
  case queue =>
    intro q v h hv
    obtain ⟨h, hne⟩ := hfly.mp h
    rw [hq] at hv
    obtain ⟨hnd, hmem⟩ := R.queue q v h hv
    exact ⟨hnd, fun j hj => ⟨(hmem j hj).1, hgone j _ (hmem j hj).2 (by simp) (by simpa using hne)⟩⟩
  case alloc =>
    intro q hl h
    rw [hq]
    by_cases hqr : q = r
    · rw [hqr]
      exact hw
    · rw [hd q hqr] at h
      exact R.alloc q hl (h.imp_left fun h => (hfly.mp h).1)

theorem Inv.release (I : Inv L g n s) (hi : i < n) (hs : s.status i = .issue 0) {w : List Nat}
    (hw : s.waitreq (s.params i).ent = some w) (C : Crew L g n s i w) :
    Inv L g n (released L g (s.params i).ent (i :: w) s) ∧
      total n (rank L) (released L g (s.params i).ent (i :: w) s) < total n (rank L) s := by
  obtain ⟨r, hr⟩ : ∃ r, r = (s.params i).ent := ⟨_, rfl⟩
  rw [← hr] at hw ⊢
  have H := C.left r hr (update s.runData r true)
  obtain ⟨u, hu⟩ : ∃ u, u = (i :: w).foldl (checkNode L g r)
    { s with runData := update s.runData r true } := ⟨_, rfl⟩
  have hrel : released L g r (i :: w) s = { u with flying := update u.flying r false } := by
    rw [hu]; rfl
  rw [← hu] at H
  rw [hrel]
  have hidle : L.flying r = false := hr ▸ (C.waiting i mem_cons_self).idle
  have hcrew : ∀ j ∈ i :: w, role s j = .leads r ∨ role s j = .waits r := by
    intro j hj
    have hent := C.ent j hj
    rw [← hr] at hent
    rcases C.status j hj with h | h
    · exact .inl (by rw [role_issue h, hent])
    · exact .inr (by rw [role_sameRun h, hent])
  have hall : ∀ j < n, role s j = .leads r ∨ role s j = .waits r → j ∈ i :: w := by
    intro j hj h
    rcases h with h | h
    · have hlead := role_issue hs
      rw [← hr] at hlead
      exact I.runs.one j hj i hi r h hlead ▸ (.head _)
    · obtain ⟨-, v, hv, hjv⟩ := I.runs.waits j hj r h
      rw [hw] at hv
      cases hv
      exact .tail _ hjv
  refine ⟨⟨fun j hj => ?_, ?_, ?_⟩, ?_⟩
  · change NodeOk L (g j) (u.params j) (u.status j)
    by_cases hjT : j ∈ i :: w
    · rw [(H.inside j hjT).1, (H.inside j hjT).2]
      have h := (C.waiting j hjT).leaves.1
      rwa [C.ent j hjT, ← hr] at h
    · rw [(H.outside j hjT).1, (H.outside j hjT).2]
      exact I.node j hj
  · refine I.runs.release (T := i :: w) hidle (by rw [hw]; simp) (fun j hj => ?_) (fun j hj => ?_)
      hall hcrew (by rw [H.flying]) H.waitreq fun q hq => ?_
    · change roleOf (u.status j) (u.params j) = .free
      rw [(H.inside j hj).1]
      exact leaves_free (g j) r (s.params j) _
    · change roleOf (u.status j) (u.params j) = role s j
      rw [(H.outside j hj).1, (H.outside j hj).2]
      rfl
    · exact (congrFun H.runData q).trans (update_of_ne hq _ _)
  · change u.doneCnt = total n fin u
    have h1 := H.count
    have h2 := I.count
    change u.doneCnt + total n fin s = s.doneCnt + total n fin u at h1
    omega
  · have h1 := H.rank
    change total n (rank L) u + (w.length + 1) ≤ total n (rank L) s at h1
    change total n (rank L) u < total n (rank L) s
    omega

/-! ## The leader that goes on -/

theorem foldl_checkNode_set {r : Nat × Nat} {w : List Nat} (hw : i ∉ w) (x : Status) (p : Params) :
    w.foldl (checkNode L g r) (s.set i x p) = (w.foldl (checkNode L g r) s).set i x p := by
  induction w generalizing s with
  | nil => rfl
  | cons j w ih =>
    have hne : j ≠ i := fun he => hw (he ▸ (.head _))
    have hcomm : checkNode L g r (s.set i x p) j = (checkNode L g r s j).set i x p := by
      rw [checkNode_eq, checkNode_eq, (set_of_ne hne x p).2]
      simp only [St.set]
      rw [update_comm hne, update_comm hne]
    rw [foldl_cons, foldl_cons, hcomm]
    exact ih fun h => hw (.tail _ h)

theorem issueHeader_release (delay : Nat → Nat) (u : St) (x y : Status) {p : Params}
    {r : Nat × Nat} (hrun : p.run ≠ 0) (hr : r.1 = p.level) :
    (issueHeader L delay g (u.set i x p) i).map (fun t =>
        { t.1 with flying := Function.update t.1.flying r false }) =
      (issueHeader L delay g { u.set i y p with flying := Function.update u.flying r false } i).map
        (·.1) := by
  unfold issueHeader
  have hp : (u.set i x p).params i = p := (set_self x p).2
  have hp' : ({ u.set i y p with flying := Function.update u.flying r false } : St).params i = p :=
    (set_self y p).2
  rw [hp, hp', lsmFindRun_eq]
  cases hf : findLevel L.cfg L.disk (g i).lpa (L.cfg.levelN - startOf p) (startOf p) with
  | notFound => rfl
  | caching l a =>
    dsimp only
    split <;> simp [St.set, Function.update_idem]
  | found l q =>
    have hge := (findLevel_found hf).1
    rw [startOf, if_neg hrun] at hge
    have hne : (l, q) ≠ r := fun he => by
      have : l = r.1 := by rw [← he]
      omega
    have hfly : Function.update u.flying r false (l, q) = u.flying (l, q) :=
      Function.update_of_ne hne _ _
    dsimp only
    split
    · simp [St.set, Function.update_idem]
    · change Option.map _ (if u.flying (l, q) then _ else _) = Option.map _
        (if Function.update u.flying r false (l, q) then _ else _)
      rw [hfly]
      split
      · change Option.map _ (Option.map _ (u.waitreq (l, q))) =
          Option.map _ (Option.map _ (u.waitreq (l, q)))
        cases u.waitreq (l, q) with
        | none => rfl
        | some w => simp [St.set, Function.update_idem]
      · change Option.map _ (if u.runData (l, q) then _ else _) = Option.map _
          (if u.runData (l, q) then _ else _)
        split
        · change Option.map _ (Option.map _ (u.waitreq (l, q))) =
            Option.map _ (Option.map _ (u.waitreq (l, q)))
          cases u.waitreq (l, q) with
          | none => rfl
          | some w =>
            simp [St.set, Function.update_idem, Function.update_comm hne]
        · simp [St.set, Function.update_idem, Function.update_comm hne]

theorem eachHeaderCheck_eq (delay : Nat → Nat) {w : List Nat}
    (hw : s.waitreq (s.params i).ent = some w) (C : Crew L g n s i w) :
    eachHeaderCheck L delay g s i = if (lookup (L.run (s.params i).ent) (g i).lpa).isSome
      then some (released L g (s.params i).ent (i :: w) s)
      else (issueHeader L delay g (released L g (s.params i).ent (i :: w) s) i).map (·.1) := by
  have hiw : i ∉ w := (nodup_cons.mp C.nodup).1
  have W := C.waiting i mem_cons_self
  simp only [eachHeaderCheck, hw]
  cases hl : lookup (L.run (s.params i).ent) (g i).lpa with
  | some a => rfl
  | none =>
    have hcheck : checkNode L g (s.params i).ent
        { s with runData := update s.runData (s.params i).ent true } i =
        ({ s with runData := update s.runData (s.params i).ent true } : St).set i .retry
          { s.params i with run := (s.params i).run + 1 } := by
      simp only [checkNode, hl]
    simp only [getD_some, isSome_none, Bool.false_eq_true, if_false, released, foldl_cons, hcheck]
    rw [foldl_checkNode_set hiw, foldl_checkNode_set hiw]
    exact issueHeader_release delay _ _ _ (Nat.succ_ne_zero _) W.ent

/-! ## Visits -/

/-- A node whose visit does something. -/
def Status.active : Status → Bool
  | .notIssue => true
  | .retry => true
  | .issue _ => true
  | _ => false

/-- The order of the measure. -/
def Smaller (L : Lsm) (n : Nat) (s' s : St) : Prop :=
  Prod.Lex (· < ·) (· < ·) (measure L n s') (measure L n s)

theorem smaller_trans {s1 s2 s3 : St} (h : Smaller L n s1 s2) (h' : Smaller L n s2 s3) :
    Smaller L n s1 s3 := by
  unfold Smaller at *
  rw [Prod.lex_iff] at *
  omega

theorem smaller_of_rank {s' : St} (h : total n (rank L) s' < total n (rank L) s) :
    Smaller L n s' s := Prod.Lex.left _ _ h

/-- What a visit comes to: it fails only where a node has no verdict. -/
structure Visited (L : Lsm) (g : Nat → Target) (n : Nat) (s s' : St) : Prop where
  inv : Inv L g n s'
  smaller : Smaller L n s' s

theorem issueCounted_spec (delay : Nat → Nat) (I : Inv L g n s) (hi : i < n)
    (S : Starts L g s i) : (issueCounted L delay g s i = none ∧ verdict L (g i) = none) ∨
      ∃ s', issueCounted L delay g s i = some s' ∧ Visited L g n s s' := by
  unfold issueCounted
  rcases issueHeader_spec delay I hi S with ⟨h, hv⟩ | ⟨t, h, H⟩
  · rw [h]; exact .inl ⟨rfl, hv⟩
  · rw [h]
    obtain ⟨u, b⟩ := t
    cases b with
    | true => exact .inr ⟨_, rfl, H.inv, smaller_of_rank H.smaller⟩
    | false => exact .inr ⟨_, rfl, H.inv, smaller_of_rank H.smaller⟩

theorem eachHeaderCheck_spec (delay : Nat → Nat) (I : Inv L g n s) (hi : i < n)
    (hs : s.status i = .issue 0) :
    (eachHeaderCheck L delay g s i = none ∧ verdict L (g i) = none) ∨
      ∃ s', eachHeaderCheck L delay g s i = some s' ∧ Visited L g n s s' := by
  obtain ⟨w, hw, C⟩ := I.crew hi hs
  obtain ⟨I', hlt⟩ := I.release hi hs hw C
  have W := C.waiting i mem_cons_self
  rw [eachHeaderCheck_eq delay hw C]
  split
  · exact .inr ⟨_, rfl, I', smaller_of_rank hlt⟩
  · rename_i hnone
    -- the leader has the status of a node that goes on
    have hleft := (C.left _ rfl (update s.runData (s.params i).ent true)).inside i (.head _)
    have hl : lookup (L.run (s.params i).ent) (g i).lpa = none := by simpa using hnone
    have hstatus : (released L g (s.params i).ent (i :: w) s).status i = .retry :=
      hleft.1.trans (by simp only [Gc.leaves, hl])
    have R : Retrying L (g i) ((released L g (s.params i).ent (i :: w) s).params i) := by
      have := I'.node i hi
      rwa [hstatus] at this
    have hlevel : (s.params i).level = ((released L g (s.params i).ent (i :: w) s).params i).level :=
      ((congrArg Params.level hleft.2).trans (by simp only [Gc.leaves, hl])).symm
    rcases issueHeader_spec delay I' hi (R.starts hstatus) with ⟨h, hv⟩ | ⟨t, h, H⟩
    · rw [h]; exact .inl ⟨rfl, hv⟩
    · rw [h]
      have hflash : L.cfg.levelCaching ≤
          startOf ((released L g (s.params i).ent (i :: w) s).params i) := by
        rw [startOf, if_neg R.run, ← hlevel]
        exact Nat.le_succ_of_le W.flash
      have hb := H.uncounted W.fresh hflash
      have hinv := H.inv
      rw [hb] at hinv
      exact .inr ⟨_, rfl, hinv, smaller_of_rank (lt_trans H.smaller hlt)⟩

theorem Inv.wait_on (I : Inv L g n s) (hi : i < n) {d : Nat} (hs : s.status i = .issue (d + 1)) :
    Visited L g n s (s.set i (.issue d) (s.params i)) := by
  have hnode := I.node i hi
  rw [hs] at hnode
  have htot : ∀ f : Status → Params → Nat, total n f (s.set i (.issue d) (s.params i)) +
      f (.issue (d + 1)) (s.params i) = total n f s + f (.issue d) (s.params i) := by
    intro f
    have := total_set f s hi (.issue d) (s.params i)
    rwa [hs] at this
  refine ⟨I.set hi rfl rfl (x := .issue d) hnode ?_ ?_, ?_⟩
  · rw [show roleOf (.issue d) (s.params i) = role s i from (role_issue hs).symm, update_eq_self]
    exact ⟨I.runs.foreign, I.runs.leads, I.runs.one, I.runs.waits, I.runs.led, I.runs.queue,
      I.runs.alloc⟩
  · rw [hs]
    rfl
  · have h1 := htot (rank L)
    have h2 := htot wait
    simp only [rank] at h1
    simp only [wait] at h2
    unfold Smaller measure
    rw [show total n (rank L) (s.set i (.issue d) (s.params i)) = total n (rank L) s by omega]
    exact Prod.Lex.right _ (by omega)

theorem visit_spec (delay : Nat → Nat) (I : Inv L g n s) (hi : i < n) :
    (visit L delay g s i = none ∧ verdict L (g i) = none) ∨
      ∃ s', visit L delay g s i = some s' ∧ ((s.status i).active = false ∧ s' = s ∨
        Visited L g n s s') := by
  have hvisited : ∀ x : Option St, (x = none ∧ verdict L (g i) = none) ∨
      (∃ s', x = some s' ∧ Visited L g n s s') → (x = none ∧ verdict L (g i) = none) ∨
      ∃ s', x = some s' ∧ ((s.status i).active = false ∧ s' = s ∨ Visited L g n s s') := by
    intro x h
    rcases h with h | ⟨s', h, H⟩
    · exact .inl h
    · exact .inr ⟨s', h, .inr H⟩
  unfold visit
  split
  · rename_i h
    -- the parameters of a node are allocated when it is first visited
    have I0 : Inv L g n (s.set i .notIssue ⟨0, 0, (0, 0)⟩) := I.place hi (.inl h) rfl trivial
    have htot : ∀ f : Status → Params → Nat, f .notIssue ⟨0, 0, (0, 0)⟩ = f .notIssue (s.params i) →
        total n f (s.set i .notIssue ⟨0, 0, (0, 0)⟩) = total n f s := by
      intro f hf
      have := total_set f s hi .notIssue ⟨0, 0, (0, 0)⟩
      rw [h] at this
      omega
    have S : Starts L g (s.set i .notIssue ⟨0, 0, (0, 0)⟩) i := by
      refine ⟨.inl (set_self _ _).1, ?_, ?_, fun l _ hl => ?_⟩
      · rw [(set_self _ _).2]; rfl
      · rw [(set_self _ _).1]; exact Nat.succ_pos _
      · rw [(set_self _ _).1]; simp only [rank]; omega
    refine hvisited _ ?_
    rcases issueCounted_spec delay I0 hi S with h | ⟨s', h, H⟩
    · exact .inl h
    · refine .inr ⟨s', h, H.inv, ?_⟩
      have hsm := H.smaller
      unfold Smaller measure at hsm ⊢
      rwa [htot (rank L) rfl, htot wait rfl] at hsm
  · rename_i h
    have R : Retrying L (g i) (s.params i) := by
      have := I.node i hi
      rwa [h] at this
    exact hvisited _ (issueCounted_spec delay I hi (R.starts h))
  · rename_i h
    exact hvisited _ (eachHeaderCheck_spec delay I hi h)
  · rename_i d h
    exact .inr ⟨_, rfl, .inr (I.wait_on hi h)⟩
  · rename_i h; exact .inr ⟨s, rfl, .inl ⟨by rw [h]; rfl, rfl⟩⟩
  · rename_i h; exact .inr ⟨s, rfl, .inl ⟨by rw [h]; rfl, rfl⟩⟩
  · rename_i h; exact .inr ⟨s, rfl, .inl ⟨by rw [h]; rfl, rfl⟩⟩

/-! ## The whole loop -/

theorem total_fin_le (s : St) : total n fin s ≤ n := by
  have h : total n fin s ≤ ∑ _j ∈ Finset.range n, 1 := by
    refine Finset.sum_le_sum fun j _ => ?_
    unfold fin
    split <;> omega
  simpa using h

theorem visitAt_eq (delay : Nat → Nat) {s' : St} (hi : i < n) (h : visit L delay g s i = some s')
    (hc : s'.doneCnt ≤ n) : visitAt L delay g n n s i = some s' := by
  unfold visitAt
  rw [if_neg (by omega), h, bind_some, if_neg (by omega)]

theorem foldlM_visitAt (delay : Nat → Nat) (I : Inv L g n s) {l : List Nat} (hl : ∀ i ∈ l, i < n) :
    (l.foldlM (visitAt L delay g n n) s = none ∧ ∃ i < n, verdict L (g i) = none) ∨
      ∃ s', l.foldlM (visitAt L delay g n n) s = some s' ∧ Inv L g n s' ∧
        ((∀ i ∈ l, (s.status i).active = false) ∧ s' = s ∨ Smaller L n s' s) := by
  induction l generalizing s with
  | nil => exact .inr ⟨s, rfl, I, .inl ⟨fun i hi => (by cases hi), rfl⟩⟩
  | cons i l ih =>
    have hi := hl i mem_cons_self
    have hl' : ∀ j ∈ l, j < n := fun j hj => hl j (.tail _ hj)
    rw [foldlM_cons]
    rcases visit_spec delay I hi with ⟨h, hv⟩ | ⟨s1, h, H⟩
    · have hnone : visitAt L delay g n n s i = none := by
        unfold visitAt
        rw [if_neg (by omega), h]; rfl
      rw [hnone]
      exact .inl ⟨rfl, i, hi, hv⟩
    · have I1 : Inv L g n s1 := by
        rcases H with ⟨-, rfl⟩ | H
        · exact I
        · exact H.inv
      have hc : s1.doneCnt ≤ n := by rw [I1.count]; exact total_fin_le s1
      rw [visitAt_eq delay hi h hc]
      change (l.foldlM (visitAt L delay g n n) s1 = none ∧ _) ∨
        ∃ s', l.foldlM (visitAt L delay g n n) s1 = some s' ∧ _
      rcases ih I1 hl' with hn | ⟨s', h', I', H'⟩
      · exact .inl hn
      · refine .inr ⟨s', h', I', ?_⟩
        rcases H with ⟨hact, rfl⟩ | H
        · rcases H' with ⟨hall, he⟩ | H'
          · refine .inl ⟨fun j hj => ?_, he⟩
            rcases mem_cons.mp hj with rfl | hj
            · exact hact
            · exact hall j hj
          · exact .inr H'
        · rcases H' with ⟨-, rfl⟩ | H'
          · exact .inr H.smaller
          · exact .inr (smaller_trans H' H.smaller)

theorem Inv.exists_active (I : Inv L g n s) (hi : i < n) (h : (s.status i).finished = false) :
    ∃ j < n, (s.status j).active = true := by
  cases hs : s.status i with
  | notIssue => exact ⟨i, hi, by rw [hs]; rfl⟩
  | retry => exact ⟨i, hi, by rw [hs]; rfl⟩
  | issue d => exact ⟨i, hi, by rw [hs]; rfl⟩
  | sameRun =>
    have W : Waiting L (g i) (s.params i) := by
      have := I.node i hi
      rwa [hs] at this
    obtain ⟨j, hj, hlead⟩ := I.runs.led _ (I.runs.waits i hi _ (role_sameRun hs)).1 W.idle
    obtain ⟨⟨d, hd⟩, -⟩ := role_leads hlead
    exact ⟨j, hj, by rw [hd]; rfl⟩
  | done => rw [hs] at h; cases h
  | noUptDone => rw [hs] at h; cases h

theorem Inv.all_finished (I : Inv L g n s) (hc : s.doneCnt = n) (hi : i < n) :
    (s.status i).finished = true := by
  by_contra hf
  have hlt : total n fin s < ∑ _j ∈ Finset.range n, 1 := by
    refine Finset.sum_lt_sum (fun j _ => ?_) ⟨i, Finset.mem_range.mpr hi, ?_⟩
    · unfold fin
      split <;> omega
    · simp [fin, hf]
  rw [← I.count, hc] at hlt
  simp at hlt

theorem pass_spec (delay : Nat → Nat) (I : Inv L g n s) (hc : s.doneCnt ≠ n) :
    (pass L delay g n n s = none ∧ ∃ i < n, verdict L (g i) = none) ∨
      ∃ s', pass L delay g n n s = some s' ∧ Inv L g n s' ∧ Smaller L n s' s := by
  rcases foldlM_visitAt delay I (l := range n) (fun i hi => mem_range.mp hi) with
    h | ⟨s', h, I', H⟩
  · exact .inl h
  · refine .inr ⟨s', h, I', ?_⟩
    rcases H with ⟨hall, -⟩ | H
    · exfalso
      -- some node is not settled, so some node is active
      obtain ⟨i, hi, hf⟩ : ∃ i < n, (s.status i).finished = false := by
        by_contra hno
        refine hc ?_
        rw [I.count, total, Finset.sum_congr rfl (g := fun _ => 1) fun j hj => ?_]
        · simp
        · have : (s.status j).finished = true := by
            by_contra hf
            exact hno ⟨j, Finset.mem_range.mp hj, by simpa using hf⟩
          simp [fin, this]
      obtain ⟨j, hj, hact⟩ := I.exists_active hi hf
      rw [hall j (mem_range.mpr hj)] at hact
      cases hact
    · exact H

theorem loop_returns (delay : Nat → Nat) (I : Inv L g n s) (hv : ∀ i < n, verdict L (g i) ≠ none) :
    ∃ fuel s', loop L delay g n n fuel s = some s' := by
  have hwf : WellFounded (InvImage (Prod.Lex (· < ·) (· < ·)) (measure L n)) :=
    InvImage.wf _ (WellFounded.prod_lex Nat.lt_wfRel.wf Nat.lt_wfRel.wf)
  induction s using hwf.induction with
  | _ s ih =>
    by_cases hc : s.doneCnt = n
    · exact ⟨0, s, by rw [loop, if_pos hc]⟩
    · rcases pass_spec delay I hc with ⟨-, i, hi, h⟩ | ⟨s1, h, I1, H⟩
      · exact absurd h (hv i hi)
      · obtain ⟨fuel, s', h'⟩ := ih s1 H I1
        refine ⟨fuel + 1, s', ?_⟩
        rw [loop, if_neg hc, h]
        exact h'

theorem loop_inv (delay : Nat → Nat) {fuel : Nat} {s' : St} (I : Inv L g n s)
    (h : loop L delay g n n fuel s = some s') : Inv L g n s' ∧ s'.doneCnt = n := by
  induction fuel generalizing s with
  | zero =>
    rw [loop] at h
    split at h
    · rename_i hc; cases h; exact ⟨I, hc⟩
    · cases h
  | succ fuel ih =>
    rw [loop] at h
    split at h
    · rename_i hc; cases h; exact ⟨I, hc⟩
    · rename_i hc
      rcases pass_spec delay I hc with ⟨hn, -⟩ | ⟨s1, hp, I1, -⟩
      · rw [hn] at h; cases h
      · rw [hp] at h
        exact ih I1 h

theorem Inv.init (L : Lsm) (g : Nat → Target) (n : Nat) : Inv L g n (.init L) where
  node _ _ := trivial
  runs :=
    { foreign := fun _ h => ⟨h, rfl⟩
      leads := fun _ _ _ h => by cases h
      one := fun _ _ _ _ _ h => by cases h
      waits := fun _ _ _ h => by cases h
      led := fun _ h hl => by
        rw [show (St.init L).flying = L.flying from rfl, hl] at h
        cases h
      queue := fun _ _ _ h => by cases h
      alloc := fun r hl h => by
        rcases h with h | h
        · rw [show (St.init L).flying = L.flying from rfl, hl] at h
          cases h
        · cases h }
  count := by
    symm
    exact Finset.sum_eq_zero fun j _ => rfl

theorem loop_verdict (delay : Nat → Nat) {fuel : Nat} {s' : St}
    (h : loop L delay g n n fuel (.init L) = some s') (hi : i < n) :
    (s'.status i = .done ∧ verdict L (g i) = some true) ∨
      (s'.status i = .noUptDone ∧ verdict L (g i) = some false) := by
  obtain ⟨I, hc⟩ := loop_inv delay (Inv.init L g n) h
  have hfin := I.all_finished hc hi
  have hnode := I.node i hi
  cases hs : s'.status i with
  | done => rw [hs] at hnode; exact .inl ⟨rfl, hnode⟩
  | noUptDone => rw [hs] at hnode; exact .inr ⟨rfl, hnode⟩
  | notIssue => rw [hs] at hfin; cases hfin
  | retry => rw [hs] at hfin; cases hfin
  | issue d => rw [hs] at hfin; cases hfin
  | sameRun => rw [hs] at hfin; cases hfin

theorem loop_short (delay : Nat → Nat) {len fuel : Nat} (hlen : len < n) (hc : s.doneCnt ≠ n) :
    loop L delay g len n fuel s = none := by
  have hpass : pass L delay g len n s = none := by
    obtain ⟨k, rfl⟩ : ∃ k, n = len + (k + 1) := ⟨n - len - 1, by omega⟩
    unfold pass
    rw [range_add, range_succ_eq_map, map_cons, foldlM_append]
    cases (range len).foldlM (visitAt L delay g len (len + (k + 1))) s with
    | none => rfl
    | some s1 =>
      have hpast : visitAt L delay g len (len + (k + 1)) s1 (len + 0) = none := if_pos (le_rfl)
      change foldlM _ s1 ((len + 0) :: _) = none
      rw [foldlM_cons, hpast]; rfl
  cases fuel with
  | zero => rw [loop, if_neg hc]
  | succ fuel => rw [loop, if_neg hc, hpass]; rfl

end

end FlashDriver.Lsmtree.Gc
