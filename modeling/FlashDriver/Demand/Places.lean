import FlashDriver.Demand.Spec

/-!
# Where reads and flush entries wait

A read or an entry that cannot go on is in exactly one place: in a queue, with
an operation on the device, or in the `retry_q` of the translation page it is
waiting for (`Dues`). A page is being loaded exactly if one of them will list it
up (`Pages`). The operations of the FTL take one of them in hand and put it
somewhere; each such move is one lemma for either part.

`held` is who is in hand, and `hole` the page that the one in hand has loaded
and will list up.
-/
namespace FlashDriver.Demand

open List Option

variable {κ υ : Type} {sys : Sys κ} {s s' : St κ υ} {w x : Waiter κ} {hole hole' : Option Nat}

/-- `w` waits for its load of page `i`, and will then list it up; if a full queue has dropped it,
nobody will. -/
def Leads (sys : Sys κ) (s : St κ υ) (w : Waiter κ) (i : Nat) : Prop :=
  w ∈ s.out ∧ (s.ctx w).jump = some .list ∧ s.page sys w = i

/-- Who will list page `i` up: a waiter, or (`none`) who is in hand. -/
def Lists (sys : Sys κ) (s : St κ υ) (hole : Option Nat) (i : Nat) : Option (Waiter κ) → Prop
  | none => hole = some i
  | some x => Leads sys s x i

/-- Who waits for a page is in its `retry_q`, and exactly one will list it up. -/
structure Pages (sys : Sys κ) (s : St κ υ) (hole : Option Nat) : Prop where
  home : ∀ i, ∀ x ∈ (s.cache.cmt i).retryQ, s.page sys x = i ∧ (s.ctx x).jump = none
  flies : ∀ i, (s.cache.cmt i).isFlying = true ↔ ∃ o, Lists sys s hole i o
  uniq : ∀ i o o', Lists sys s hole i o → Lists sys s hole i o' → o = o'
  grounded : ∀ i, (s.cache.cmt i).isFlying = false → (s.cache.cmt i).retryQ = []
  uncached : ∀ i, (s.cache.cmt i).isFlying = true → (s.cache.cmt i).pt = false

/-- No page starts or stops being loaded, and nobody is parked or woken. -/
def SamePages (c c' : Cache (Waiter κ)) : Prop :=
  ∀ i, (c'.cmt i).isFlying = (c.cmt i).isFlying ∧ (c'.cmt i).retryQ = (c.cmt i).retryQ ∧
    ((c.cmt i).pt = false → (c'.cmt i).pt = false)

theorem SamePages.refl (c : Cache (Waiter κ)) : SamePages c c := fun _ => ⟨rfl, rfl, id⟩

/-- The page `w` would list up if it were in hand. -/
def holeOf (sys : Sys κ) (s : St κ υ) (w : Waiter κ) : Option Nat :=
  if (s.ctx w).jump = some .list then some (s.page sys w) else none

theorem page_congr (h : (s'.ctx x).cnt = (s.ctx x).cnt) : s'.page sys x = s.page sys x := by
  unfold St.page St.lpa
  rw [h]

/-! ## Pages and who will list them up -/

theorem Pages.rename (g : Option (Waiter κ) → Option (Waiter κ)) (h : Pages sys s hole)
    (hc : SamePages s.cache s'.cache)
    (hhome : ∀ i, ∀ x ∈ (s.cache.cmt i).retryQ, s'.ctx x = s.ctx x)
    (hl : ∀ i o', Lists sys s' hole' i o' ↔ ∃ o, Lists sys s hole i o ∧ g o = o') :
    Pages sys s' hole' := by
  constructor
  case home =>
    intro i x hx
    rw [(hc i).2.1] at hx
    have hx' := hhome i x hx
    rw [hx', page_congr (s := s) (by rw [hx'])]
    exact h.home i x hx
  case flies =>
    intro i
    rw [(hc i).1, h.flies i]
    constructor
    · rintro ⟨o, ho⟩
      exact ⟨g o, (hl i _).mpr ⟨o, ho, rfl⟩⟩
    · rintro ⟨o', ho'⟩
      obtain ⟨o, ho, -⟩ := (hl i o').mp ho'
      exact ⟨o, ho⟩
  case uniq =>
    intro i o1 o2 h1 h2
    obtain ⟨p1, hp1, rfl⟩ := (hl i o1).mp h1
    obtain ⟨p2, hp2, rfl⟩ := (hl i o2).mp h2
    rw [h.uniq i p1 p2 hp1 hp2]
  case grounded =>
    intro i hi
    rw [(hc i).1] at hi
    rw [(hc i).2.1]
    exact h.grounded i hi
  case uncached =>
    intro i hi
    rw [(hc i).1] at hi
    exact (hc i).2.2 (h.uncached i hi)

theorem Pages.congr (h : Pages sys s hole) (hc : SamePages s.cache s'.cache)
    (hhome : ∀ i, ∀ x ∈ (s.cache.cmt i).retryQ, s'.ctx x = s.ctx x)
    (hlead : ∀ x i, Leads sys s' x i ↔ Leads sys s x i) :
    Pages sys s' hole := by
  refine h.rename id hc hhome fun i o => ?_
  cases o with
  | none => simp [Lists]
  | some x => simp [Lists, hlead]

theorem Pages.put (h : Pages sys s hole) (hc : SamePages s.cache s'.cache)
    (hhome : ∀ i, ∀ x ∈ (s.cache.cmt i).retryQ, s'.ctx x = s.ctx x)
    (hlead : ∀ x i, Leads sys s' x i ↔ x = w ∧ hole = some i ∨ Leads sys s x i) :
    Pages sys s' none := by
  refine h.rename (fun o => some (o.getD w)) hc hhome fun i o => ?_
  cases o with
  | none => simp [Lists]
  | some x => simp [Lists, hlead, Option.exists, and_comm, eq_comm]

theorem holeOf_eq {i : Nat} (hw : w ∈ s.out) : holeOf sys s w = some i ↔ Leads sys s w i := by
  unfold holeOf Leads
  split
  · rename_i hj
    simp [hw, hj]
  · rename_i hj
    simp [hj]

theorem leads_pop (hctx : s'.ctx = s.ctx) (hout : ∀ x, x ∈ s'.out ↔ x ∈ s.out ∧ x ≠ w)
    (x : Waiter κ) (i : Nat) : Leads sys s' x i ↔ Leads sys s x i ∧ x ≠ w := by
  have hpage : s'.page sys x = s.page sys x := page_congr (by rw [hctx])
  unfold Leads
  rw [hout, hctx, hpage, and_assoc, and_assoc, and_assoc, and_comm (a := x ≠ w), and_assoc]

theorem Pages.pop [DecidableEq κ] (h : Pages sys s none) (hw : w ∈ s.out) (hctx : s'.ctx = s.ctx)
    (hc : s'.cache = s.cache) (hout : ∀ x, x ∈ s'.out ↔ x ∈ s.out ∧ x ≠ w) :
    Pages sys s' (holeOf sys s w) := by
  refine h.rename (fun o => if o = some w then none else o) (by rw [hc]; exact .refl _)
    (fun _ _ _ => by rw [hctx]) fun i o => ?_
  cases o with
  | none => simp [Lists, Option.exists, holeOf_eq hw]
  | some x =>
    simp only [Lists, Option.exists, leads_pop hctx hout]
    by_cases hx : x = w
    · simp [hx]
    · simp [hx]

theorem Pages.fly {p : Nat} (h : Pages sys s none) (hfl : (s.cache.cmt p).isFlying = false)
    (hpt : (s.cache.cmt p).pt = false) : Pages sys { s with cache := s.cache.fly p } (some p) := by
  have hq := fly_pages s.cache p
  have hno : ∀ o, ¬ Lists sys s none p o := by
    intro o ho
    rw [(h.flies p).mpr ⟨o, ho⟩] at hfl
    cases hfl
  have hl : ∀ i o, Lists sys { s with cache := s.cache.fly p } (some p) i o ↔
      Lists sys s none i o ∨ o = none ∧ i = p := by
    intro i o
    cases o with
    | none => simp [Lists, eq_comm]
    | some x => simp [Lists, Leads, St.page, St.lpa, St.out]
  constructor
  case home =>
    intro i x hx
    rw [(hq i).2.1] at hx
    exact h.home i x hx
  case flies =>
    intro i
    rw [(hq i).1, Bool.or_eq_true, beq_iff_eq, h.flies i]
    simp [hl, exists_or]
  case uniq =>
    intro i o o' ho ho'
    rcases (hl i o).mp ho with ho | ⟨rfl, rfl⟩ <;> rcases (hl _ o').mp ho' with ho' | ⟨rfl, hi⟩
    · exact h.uniq i o o' ho ho'
    · exact absurd (hi ▸ ho) (hno o)
    · exact absurd ho' (hno o')
    · rfl
  case grounded =>
    intro i hi
    rw [(hq i).1, Bool.or_eq_false_iff] at hi
    rw [(hq i).2.1]
    exact h.grounded i hi.1
  case uncached =>
    intro i hi
    rw [(hq i).1, Bool.or_eq_true, beq_iff_eq] at hi
    rw [(hq i).2.2]
    rcases hi with hi | rfl
    · exact h.uncached i hi
    · exact hpt

theorem Pages.park (h : Pages sys s none) (hfl : (s.cache.cmt (s.page sys w)).isFlying = true)
    (hj : (s.ctx w).jump = none) :
    Pages sys { s with cache := s.cache.park (s.page sys w) w } none := by
  have hq := park_pages s.cache (s.page sys w) w
  constructor
  case home =>
    intro i x hx
    rw [(hq i).2.2, mem_append] at hx
    rcases hx with hx | hx
    · exact h.home i x hx
    · split at hx
      · rename_i hi
        rw [mem_singleton.mp hx]
        exact ⟨hi.symm, hj⟩
      · cases hx
  case flies =>
    intro i
    rw [(hq i).1]
    exact h.flies i
  case uniq => exact h.uniq
  case grounded =>
    intro i hi
    rw [(hq i).1] at hi
    have hne : i ≠ s.page sys w := by
      rintro rfl
      rw [hfl] at hi
      cases hi
    rw [(hq i).2.2, if_neg hne, h.grounded i hi]
    rfl
  case uncached =>
    intro i hi
    rw [(hq i).1] at hi
    rw [(hq i).2.1]
    exact h.uncached i hi

theorem ListsUp.woken_mem {r : Listed (Waiter κ)} (hr : ListsUp sys.toCfg s.cache (s.lpa sys w) r) :
    ∀ x ∈ r.woken, x ∈ (s.cache.cmt (s.page sys w)).retryQ := by
  intro x hx
  cases hf : (s.cache.cmt (s.page sys w)).isFlying with
  | true =>
    rw [(hr.landed hf).1] at hx
    exact hx
  | false =>
    rw [(hr.quiet hf).1] at hx
    cases hx

theorem leads_land [DecidableEq κ] {r : Listed (Waiter κ)} (h : Pages sys s hole)
    (hr : ListsUp sys.toCfg s.cache (s.lpa sys w) r)
    (hcnt : ∀ x, (s'.ctx x).cnt = (s.ctx x).cnt)
    (hjump : ∀ x, x ≠ w → (s'.ctx x).jump = if x ∈ r.woken then some .complete else (s.ctx x).jump)
    {x : Waiter κ} (hx : x ≠ w) (hout : x ∈ s'.out ↔ x ∈ s.out ∨ x ∈ r.woken) (i : Nat) :
    Leads sys s' x i ↔ Leads sys s x i := by
  have hpage : s'.page sys x = s.page sys x := page_congr (hcnt x)
  refine ⟨fun ⟨h1, h2, h3⟩ => ?_, fun ⟨h1, h2, h3⟩ => ?_⟩
  · rw [hjump x hx] at h2
    split at h2
    · cases h2
    · rename_i hnw
      exact ⟨(hout.mp h1).resolve_right hnw, h2, hpage ▸ h3⟩
  · have hnw : x ∉ r.woken := by
      intro hm
      rw [(h.home _ x (hr.woken_mem x hm)).2] at h2
      cases h2
    refine ⟨hout.mpr (.inl h1), ?_, hpage.trans h3⟩
    rw [hjump x hx, if_neg hnw]
    exact h2

theorem Pages.land [DecidableEq κ] {r : Listed (Waiter κ)} (h : Pages sys s hole)
    (hr : ListsUp sys.toCfg s.cache (s.lpa sys w) r) (hc : s'.cache = r.cache)
    (hcnt : ∀ x, (s'.ctx x).cnt = (s.ctx x).cnt)
    (hjump : ∀ x, x ≠ w → (s'.ctx x).jump = if x ∈ r.woken then some .complete else (s.ctx x).jump)
    (hout : ∀ x, x ∈ s'.out ↔ x ∈ s.out ∨ x ∈ r.woken) (hw : w ∉ s.out)
    (hp : ∀ i, w ∉ (s.cache.cmt i).retryQ)
    (hh : hole = some (s.page sys w) ∨
      hole = none ∧ (s.cache.cmt (s.page sys w)).isFlying = false) : Pages sys s' none := by
  have hpage : ∀ x, s'.page sys x = s.page sys x := fun x => page_congr (hcnt x)
  have hwoken := hr.woken_mem
  have hne : ∀ x, x ∈ s'.out → x ≠ w := by
    rintro x hx rfl
    rcases (hout x).mp hx with hx | hx
    · exact hw hx
    · exact hp _ (hwoken x hx)
  have hlead : ∀ x i, Leads sys s' x i ↔ Leads sys s x i := by
    intro x i
    by_cases hx : x = w
    · subst hx
      exact ⟨fun hl => absurd rfl (hne x hl.1), fun hl => absurd hl.1 hw⟩
    · exact leads_land h hr hcnt hjump hx (hout x) i
  have hlists : ∀ i o, Lists sys s' none i o ↔ Lists sys s hole i o ∧ i ≠ s.page sys w := by
    intro i o
    cases o with
    | none =>
      rcases hh with rfl | ⟨rfl, -⟩ <;> simp [Lists, eq_comm]
    | some x =>
      simp only [Lists, hlead]
      refine ⟨fun hx => ⟨hx, ?_⟩, And.left⟩
      rintro rfl
      rcases hh with hh | ⟨-, hf⟩
      · cases h.uniq _ (some x) none hx hh
      · rw [(h.flies _).mpr ⟨some x, hx⟩] at hf
        cases hf
  have hfly : ∀ i, (s'.cache.cmt i).isFlying = true ↔
      (s.cache.cmt i).isFlying = true ∧ i ≠ s.page sys w := by
    intro i
    rw [hc]
    by_cases hi : i = s.page sys w
    · rw [hi, St.page, hr.flying]
      simp
    · rw [(hr.others i hi).1]
      simp [hi]
  constructor
  case home =>
    intro i x hx
    rw [hpage]
    by_cases hi : i = s.page sys w
    · -- the queue of the page is empty now, as it was if nobody loaded it
      subst hi
      rw [hc] at hx
      cases hf : (s.cache.cmt (s.page sys w)).isFlying with
      | true =>
        rw [St.page, (hr.landed hf).2] at hx
        cases hx
      | false =>
        rw [St.page, (hr.quiet hf).2, ← St.page, h.grounded _ hf] at hx
        cases hx
    · rw [hc, (hr.others i hi).2.1] at hx
      obtain ⟨h1, h2⟩ := h.home i x hx
      have hnw : x ∉ r.woken := fun hm => hi (h1 ▸ (h.home _ x (hwoken x hm)).1)
      rw [hjump x fun he => hp i (he ▸ hx), if_neg hnw]
      exact ⟨h1, h2⟩
  case flies =>
    intro i
    rw [hfly, h.flies]
    simp [hlists]
  case uniq =>
    intro i o o' ho ho'
    exact h.uniq i o o' ((hlists i o).mp ho).1 ((hlists i o').mp ho').1
  case grounded =>
    intro i hi
    by_cases hip : i = s.page sys w
    · subst hip
      rw [hc]
      cases hf : (s.cache.cmt (s.page sys w)).isFlying with
      | true => exact (hr.landed hf).2
      | false => exact (hr.quiet hf).2.trans (h.grounded _ hf)
    · rw [hc, (hr.others i hip).1] at hi
      rw [hc, (hr.others i hip).2.1]
      exact h.grounded i hi
  case uncached =>
    intro i hi
    obtain ⟨hi, hne⟩ := (hfly i).mp hi
    rw [hc]
    exact (hr.others i hne).2.2 (h.uncached i hi)

/-! ## What they do next -/

/-- The jump with which who waits for an operation goes on. -/
def Op.jump : Op κ → Option Jump
  | .dataRead _ _ => none
  | .mapRead _ _ => some .list
  | .mapWrite _ _ => some .complete

/-- No other jump is ever stored. -/
def StoredJump (j : Option Jump) : Prop :=
  j = none ∨ j = some .list ∨ j = some .complete ∨ j = some .update

structure Jumps (s : St κ υ) : Prop where
  stored : ∀ x ∈ s.out, StoredJump (s.ctx x).jump
  tried : ∀ i k, .read i k ∈ s.out → (s.ctx (.read i k)).jump = some .list →
    (s.ctx (.read i k)).cnt ≤ s.maxTry
  ops : ∀ op ∈ s.dev, (s.ctx op.owner).jump = op.jump

theorem owner_mem_out {op : Op κ} (h : op ∈ s.dev) : op.owner ∈ s.out := by
  have := mem_map_of_mem (f := Op.owner) h
  simp only [St.out, mem_append]
  exact .inl (.inr this)

/-- What `Jumps` asks of `w` once it waits. -/
structure Ready (s : St κ υ) (w : Waiter κ) : Prop where
  stored : StoredJump (s.ctx w).jump
  tried : ∀ i k, w = .read i k → (s.ctx w).jump = some .list → (s.ctx w).cnt ≤ s.maxTry

theorem Ready.of_jump (hj : (s.ctx w).jump = none ∨ (s.ctx w).jump = some .complete ∨
    (s.ctx w).jump = some .update) : Ready s w := by
  constructor
  · rcases hj with hj | hj | hj <;> simp [StoredJump, hj]
  · intro i k _ hl
    rcases hj with hj | hj | hj <;> rw [hj] at hl <;> cases hl

theorem Jumps.add (h : Jumps s) (ws : List (Waiter κ)) (hout : ∀ x ∈ s'.out, x ∈ s.out ∨ x ∈ ws)
    (hdev : ∀ op ∈ s'.dev, op ∈ s.dev ∨ (s'.ctx op.owner).jump = op.jump)
    (hctx : ∀ x ∈ s.out, s'.ctx x = s.ctx x) (hm : s.maxTry ≤ s'.maxTry)
    (hws : ∀ x ∈ ws, Ready s' x) : Jumps s' := by
  constructor
  case stored =>
    intro x hx
    rcases hout x hx with hx | hx
    · rw [hctx x hx]
      exact h.stored x hx
    · exact (hws x hx).stored
  case tried =>
    intro i k hx hj
    rcases hout _ hx with hx | hx
    · rw [hctx _ hx] at hj ⊢
      exact le_trans (h.tried i k hx hj) hm
    · exact (hws _ hx).tried i k rfl hj
  case ops =>
    intro op hop
    rcases hdev op hop with hop | hj
    · rw [hctx _ (owner_mem_out hop)]
      exact h.ops op hop
    · exact hj

theorem Jumps.mono (h : Jumps s) (hout : ∀ x ∈ s'.out, x ∈ s.out) (hdev : ∀ op ∈ s'.dev, op ∈ s.dev)
    (hctx : ∀ x ∈ s.out, s'.ctx x = s.ctx x) (hm : s.maxTry ≤ s'.maxTry) : Jumps s' :=
  h.add [] (fun x hx => .inl (hout x hx)) (fun op hop => .inl (hdev op hop)) hctx hm
    fun _ hx => (by cases hx)

/-! ## Who is where -/

variable [LinearOrder κ]

/-- In how many places `w` waits. -/
def St.occ (sys : Sys κ) (s : St κ υ) (w : Waiter κ) : Nat :=
  s.out.count w + (s.cache.cmt (s.page sys w)).retryQ.count w

/-- The same, the hand included. -/
def St.total (sys : Sys κ) (s : St κ υ) (held : Option (Waiter κ)) (w : Waiter κ) : Nat :=
  s.occ sys w + held.toList.count w

/-- Everyone who has to be somewhere is in one place: the entries of the flush
that are not updated, and of the reads only those that have arrived. The buffer
is sorted, so each key has one entry. -/
structure Dues (sys : Sys κ) (s : St κ υ) (held : Option (Waiter κ)) : Prop where
  once : ∀ x, s.total sys held x ≤ 1
  entry : ∀ k, 0 < s.total sys held (.entry k) ↔
    s.flushing.isSome ∧ k ∈ s.wb.map Prod.fst ∧ k ∉ s.updated
  fresh : ∀ i k, s.nextId ≤ i → s.total sys held (.read i k) = 0
  sorted : (s.wb.map Prod.fst).Pairwise (· < ·)
  full : s.flushing.isSome → s.wb.length = sys.flushSize
  distinct : s.updated.Nodup
  known : s.flushing.isSome → ∀ k ∈ s.updated, k ∈ s.wb.map Prod.fst

/-- The parts of the state that say who has to be somewhere. -/
structure SameDues (s s' : St κ υ) : Prop where
  flushing : s'.flushing = s.flushing
  wb : s'.wb = s.wb
  updated : s'.updated = s.updated
  nextId : s'.nextId = s.nextId

section Dues

variable {held held' : Option (Waiter κ)}

theorem Dues.occ_le (h : Dues sys s held) (x : Waiter κ) : s.occ sys x ≤ 1 :=
  le_trans (Nat.le_add_right _ _) (h.once x)

theorem Dues.absent (h : Dues sys s (some w)) : s.occ sys w = 0 := by
  have := h.once w
  rw [St.total, toList_some, count_singleton_self] at this
  omega

theorem Dues.held_entry {k : κ} (h : Dues sys s (some (.entry k))) :
    s.flushing.isSome ∧ k ∈ s.wb.map Prod.fst ∧ k ∉ s.updated := by
  refine (h.entry k).mp ?_
  rw [St.total, toList_some, count_singleton_self]
  omega

theorem Dues.occ_entry {k : κ} (h : Dues sys s held) (hk : 0 < s.occ sys (.entry k)) :
    s.flushing.isSome ∧ k ∈ s.wb.map Prod.fst ∧ k ∉ s.updated :=
  (h.entry k).mp (lt_of_lt_of_le hk (Nat.le_add_right _ _))

theorem Dues.congr (h : Dues sys s held) (ht : ∀ x, s'.total sys held' x = s.total sys held x)
    (hd : SameDues s s') : Dues sys s' held' := by
  constructor
  case once =>
    intro x
    rw [ht]
    exact h.once x
  case entry =>
    intro k
    rw [ht, hd.flushing, hd.wb, hd.updated]
    exact h.entry k
  case fresh =>
    intro i k hi
    rw [ht]
    exact h.fresh i k (hd.nextId ▸ hi)
  case sorted =>
    rw [hd.wb]
    exact h.sorted
  case full =>
    rw [hd.wb, hd.flushing]
    exact h.full
  case distinct =>
    rw [hd.updated]
    exact h.distinct
  case known =>
    rw [hd.wb, hd.updated, hd.flushing]
    exact h.known

/-- What `updated` counts when `w` is done. -/
def Waiter.counts : Waiter κ → List κ
  | .read _ _ => []
  | .entry k => [k]

omit [LinearOrder κ] in
theorem mem_counts (k : κ) : k ∈ w.counts ↔ w = .entry k := by
  cases w with
  | read i k' => simp [Waiter.counts]
  | entry k' => simp [Waiter.counts, eq_comm]

theorem Dues.vanish (h : Dues sys s (some w)) (hocc : ∀ x, s'.occ sys x = s.occ sys x)
    (hf : s'.flushing = s.flushing) (hwb : s'.wb = s.wb) (hn : s'.nextId = s.nextId)
    (hup : s'.updated = s.updated ++ w.counts) : Dues sys s' none := by
  have hu : ∀ k, k ∈ s'.updated ↔ k ∈ s.updated ∨ w = .entry k := by
    intro k
    rw [hup, mem_append, mem_counts]
  have ht : ∀ x, s'.total sys none x = s.occ sys x := hocc
  constructor
  case once =>
    intro x
    rw [ht]
    exact h.occ_le x
  case entry =>
    intro k
    have hk := h.entry k
    rw [ht, hf, hwb, hu, not_or]
    by_cases hw : w = .entry k
    · subst hw
      simp [h.absent]
    · rw [St.total, toList_some, count_singleton, if_neg (by simpa using hw)] at hk
      rw [add_zero] at hk
      simp only [hk, hw, not_false_eq_true, and_true]
  case fresh =>
    intro i k hi
    rw [hn] at hi
    rw [ht]
    exact (Nat.add_eq_zero_iff.mp (h.fresh i k hi)).1
  case sorted =>
    rw [hwb]
    exact h.sorted
  case full =>
    rw [hwb, hf]
    exact h.full
  case distinct =>
    rw [hup]
    cases w with
    | read i k => simpa [Waiter.counts] using h.distinct
    | entry k =>
      have hk := h.held_entry.2.2
      rw [Waiter.counts, nodup_append]
      refine ⟨h.distinct, by simp, ?_⟩
      intro a ha b hb he
      rw [mem_singleton] at hb
      exact hk (hb ▸ he ▸ ha)
  case known =>
    intro hfl k hk
    rw [hf] at hfl
    rw [hwb]
    rcases (hu k).mp hk with hk | rfl
    · exact h.known hfl k hk
    · exact h.held_entry.2.1

end Dues

/-! ## Together -/

structure Places (sys : Sys κ) (s : St κ υ) (held : Option (Waiter κ)) (hole : Option Nat) :
    Prop where
  dues : Dues sys s held
  pages : Pages sys s hole
  jumps : Jumps s

theorem Places.not_out (h : Places sys s (some w) hole) : w ∉ s.out := by
  intro hm
  have h0 := h.dues.absent
  have := count_pos_iff.mpr hm
  unfold St.occ at h0
  omega

theorem Places.not_parked (h : Places sys s (some w) hole) (i : Nat) :
    w ∉ (s.cache.cmt i).retryQ := by
  intro hm
  have h0 := h.dues.absent
  have hp := (h.pages.home i w hm).1
  have : 0 < (s.cache.cmt i).retryQ.count w := count_pos_iff.mpr hm
  unfold St.occ at h0
  rw [hp] at h0
  omega

end FlashDriver.Demand
