import FlashDriver.Core.LTS

/-!
# Header pages under hardware compaction (`algorithm/Lsmtree/page.c`, `gc_header`)

The map partition of the block manager hands out header pages. Its 64
channels move in step: `pt_get_segment`, `pt_trim_segment` and
`pt_reserve_to_free` take or return the block of the same row in each of
them, and the victim of `gc_header` is a whole row. So a segment is a row
number, and `get_page_num` hands out its pages in address order.

With `comp_opt` HW or MIXEDCOMP, pages that a merge did not need are given
back with `erase_PPA`; they wait in `erased_q`, which `getPPA` prefers.

`getPPA` runs `gc_header` when the active segment is full and no segment is
free, and then tries again. Here these are two labels: `getPPA` is possible
where no collection is needed, and `gcHeader` is one collection with the
renewal of the reserve that follows it. `page_check_available` collects
earlier, before a merge, so the label is possible at any time. What a collection does with a valid
page depends on the levels: it moves the page, or leaves it behind (the run
is being compacted, `INVBYGC`); the label says for which pages. A valid page
that belongs to no run aborts, so such a collection is no step.

`ppa_unique`: as long as no collected segment has a page waiting in
`erased_q`, every page that `getPPA` returns is free to be returned, and
`validate_PPA` does not abort. `erased_page_twice` is a run of a partition of
three segments in which the page is handed out by `erased_q` and is next in
line in its segment too.
-/
namespace FlashDriver.Lsmtree.HeaderPage

open List Option Function

/-- The geometry of the map partition: `BPS`, `_PPB`, `MAPPART_SEGS`. -/
structure Geom where
  bps : Nat
  ppb : Nat
  segs : Nat
  bps_pos : 0 < bps
  ppb_pos : 0 < ppb

/-- `_PPS` -/
def Geom.pps (g : Geom) : Nat := g.bps * g.ppb

theorem Geom.pps_pos (g : Geom) : 0 < g.pps := Nat.mul_pos g.bps_pos g.ppb_pos

structure St where
  free : List Nat             -- free_block, a row for each segment
  active : Option Nat
  reserve : Option Nat
  used : Nat → Nat            -- pages handed out of a segment
  bits : Nat → Bool           -- bitset, by page
  inv : Nat → Nat → Nat       -- invalid_number, by segment and channel, modulo 2^16
  erasedQ : List Nat
  nowAssign : Int
  alloc : Nat → Bool          -- ghost: returned, and since then neither erased nor trimmed

/-- Why a call does not return. -/
inductive Stop where
  | validate                  -- the abort() of validate_PPA
  | other                     -- another abort(), or a null pointer
  deriving DecidableEq

abbrev M := Except Stop

section
variable (g : Geom)

/-- mirrors algorithm/Lsmtree/page.c:28-41 (`pm_init`, the map half) -/
def St.init : St where
  free := (range g.segs).tail
  active := none
  reserve := some 0
  used := fun _ => 0
  bits := fun _ => false
  inv := fun _ _ => 0
  erasedQ := []
  nowAssign := 1
  alloc := fun _ => false

/-! ## The block manager -/

/-- mirrors blockmanager/partition/pt_block_manager.c:182-213 -/
def ptGetSegment (s : St) : M (St × Nat) :=
  match s.free with
  | [] => .error .other
  | a :: rest =>
    if s.nowAssign > g.segs then .error .other
    else .ok ({ s with free := rest, nowAssign := s.nowAssign + 1 }, a)

/-- mirrors blockmanager/partition/pt_block_manager.c:343-377 -/
def ptReserveToFree (s : St) (r : Nat) : M St :=
  if ∃ j < g.bps, s.inv r j ≠ 0 then .error .other
  else .ok { s with
    used := update s.used r 0
    free := s.free ++ [r]
    nowAssign := s.nowAssign - 1 }

/-- mirrors blockmanager/base_block_manager.c (`base_get_page_num`); `none` is -1 -/
def getPageNum (s : St) (a : Nat) : Option (St × Nat) :=
  if s.used a = g.pps then none
  else some ({ s with used := update s.used a (s.used a + 1) }, a * g.pps + s.used a)

def invSum (s : St) (seg : Nat) : Nat := ((range g.bps).map (s.inv seg)).sum

/-- One row of the search for the victim. -/
def pickMax (s : St) (best : Nat × Nat) (seg : Nat) : M (Nat × Nat) :=
  if invSum g s seg > g.pps then .error .other
  else if invSum g s seg > best.2 then .ok (seg, invSum g s seg) else .ok best

/-- mirrors blockmanager/partition/pt_block_manager.c:229-275 (`MAP_S`) -/
def ptGetGcTarget (s : St) : M Nat := do
  let best ← (range g.segs).foldlM (pickMax g s) (0, 0)
  if best.2 = 0 then .error .other else .ok best.1

/-- mirrors blockmanager/partition/pt_block_manager.c:277-315 (`MAP_S`) -/
def ptTrimSegment (s : St) (seg : Nat) : M St :=
  if s.nowAssign - 1 < 0 then .error .other
  else .ok { s with
    bits := fun p => if p / g.pps = seg then false else s.bits p
    alloc := fun p => if p / g.pps = seg then false else s.alloc p
    inv := update s.inv seg fun _ => 0
    used := update s.used seg 0
    free := s.free ++ [seg]
    nowAssign := s.nowAssign - 1 }

/-! ## Pages -/

/-- mirrors algorithm/Lsmtree/page.c:266-294 -/
def validatePPA (s : St) (p : Nat) : M St :=
  if s.bits p then .error .validate
  else .ok { s with bits := update s.bits p true, alloc := update s.alloc p true }

/-- mirrors algorithm/Lsmtree/page.c:296-321 and `base_erase_bit`: a full
`erased_q` loses the page -/
def erasePPA (s : St) (p : Nat) : M St :=
  if s.inv (p / g.pps) (p % g.bps) > g.ppb then .error .other
  else if s.bits p = false then .error .other
  else .ok { s with
    bits := update s.bits p false
    alloc := update s.alloc p false
    erasedQ := if s.erasedQ.length = g.pps then s.erasedQ else s.erasedQ ++ [p] }

/-- mirrors algorithm/Lsmtree/page.c:229-264: a page that is not valid is
counted twice -/
def invalidatePPA (s : St) (p : Nat) : St :=
  let seg := p / g.pps
  let ch := p % g.bps
  { s with
    bits := update s.bits p false
    inv := update s.inv seg (update (s.inv seg) ch ((s.inv seg ch + if s.bits p then 1 else 2) % 2 ^ 16)) }

/-- A fresh active segment, where the old one is missing or full. -/
def renewActive (s : St) : M St :=
  match s.active with
  | none => (ptGetSegment g s).map fun r => { r.1 with active := some r.2 }
  | some a =>
    if s.used a = g.pps then (ptGetSegment g s).map fun r => { r.1 with active := some r.2 }
    else .ok s

/-- The page that `getPPA` settles on, before `validate_PPA`. -/
def pickPPA (s : St) : M (St × Nat) := do
  let s ← renewActive g s
  match s.erasedQ with
  | p :: q => .ok ({ s with erasedQ := q }, p)
  | [] => match s.active.bind (getPageNum g s) with
    | none => .error .other
    | some r => .ok r

/-- mirrors algorithm/Lsmtree/page.c:67-116 (`HEADER`), after the collections -/
def getPPA (s : St) : M (St × Nat) := do
  let r ← pickPPA g s
  let s ← validatePPA r.1 r.2
  .ok (s, r.2)

/-- The reserve goes to the free segments, and the first of them is the new
active one. -/
def spendReserve (s : St) : M St :=
  match s.reserve with
  | none => .error .other
  | some r => do
    let s ← ptReserveToFree g s r
    let r ← ptGetSegment g { s with reserve := none }
    .ok { r.1 with active := some r.2 }

/-- The check for a full active segment in `getRPPA`. -/
def renewCollecting (s : St) (seg : Nat) : M St :=
  match s.active with
  | none => .error .other
  | some a =>
    if s.used a = g.pps then (if a = seg then .error .other else spendReserve g s) else .ok s

/-- mirrors algorithm/Lsmtree/page.c:118-148; `seg` is the segment being
collected -/
def getRPPA (s : St) (seg : Nat) : M St := do
  let s ← renewCollecting g s seg
  match s.active.bind (getPageNum g s) with
  | none => .error .other
  | some r => validatePPA r.1 r.2

/-- One page of the victim. -/
def movePage (seg : Nat) (drops : List Nat) (s : St) (p : Nat) : M St :=
  if s.bits p then (if p ∈ drops then .ok s else getRPPA g s seg) else .ok s

def pagesIn (seg : Nat) : List Nat := (range g.pps).map (seg * g.pps + ·)

/-- The active segment is the victim: the reserve takes its place. -/
def retire (s : St) (seg : Nat) : St :=
  if s.active = some seg then { s with active := s.reserve, reserve := none } else s

def renewReserve (s : St) : M St :=
  match s.reserve with
  | some _ => .ok s
  | none => (ptGetSegment g s).map fun r => { r.1 with reserve := some r.2 }

/-- `map_m.active` is dereferenced. -/
def derefActive (s : St) : M Unit := if s.active = none then .error .other else .ok ()

/-- mirrors algorithm/Lsmtree/page_kv.c:33-168 and the renewal of the reserve
in algorithm/Lsmtree/page.c:88-90 -/
def gcHeader (s : St) (drops : List Nat) : M St := do
  derefActive s
  let seg ← ptGetGcTarget g s
  let s ← (pagesIn g seg).foldlM (movePage g seg drops) (retire s seg)
  let s ← ptTrimSegment g s seg
  derefActive s
  renewReserve g s

/-! ## Runs -/

inductive Lbl where
  | getPPA
  | erasePPA (p : Nat)
  | invalidatePPA (p : Nat)
  | gcHeader (drops : List Nat)
  deriving DecidableEq

/-- Callers invalidate pages that they hold. -/
def exec (s : St) : Lbl → M St
  | .getPPA => (getPPA g s).map (·.1)
  | .erasePPA p => erasePPA g s p
  | .invalidatePPA p => if s.alloc p then .ok (invalidatePPA g s p) else .error .other
  | .gcHeader drops => gcHeader g s drops

def headerLTS : Core.LTS St Lbl where
  init s := s = .init g
  step s l s' := exec g s l = .ok s'

/-- What `getPPA` returns is not allocated, and it does not end in the abort of
`validate_PPA`. -/
structure Unique (s : St) : Prop where
  page : ∀ s' p, pickPPA g s = .ok (s', p) → s.alloc p = false
  valid : exec g s .getPPA ≠ .error .validate

/-- No page of the segment to be collected waits in `erased_q`. -/
def calm (s : St) : Lbl → Prop
  | .gcHeader _ => ∀ seg, ptGetGcTarget g s = .ok seg → ∀ p ∈ s.erasedQ, p / g.pps ≠ seg
  | _ => True

end

/-! ## Calls that do not end in `validate_PPA` -/

/-- The call meets the postcondition, or stops, but not in `validate_PPA`. -/
def Good {α : Type} (x : M α) (post : α → Prop) : Prop :=
  match x with
  | .ok a => post a
  | .error e => e ≠ .validate

section
variable {α β : Type} {x : M α} {P Q : α → Prop}

theorem good_other : Good (.error .other : M α) P := by simp [Good]

theorem Good.ok {a : α} (h : Good x P) (hx : x = .ok a) : P a := by
  subst hx; exact h

theorem Good.ne (h : Good x P) : x ≠ .error .validate := by
  intro hx
  subst hx
  exact h rfl

theorem Good.bind {f : α → M β} {R : β → Prop} (h : Good x P) (hf : ∀ a, P a → Good (f a) R) :
    Good (x >>= f) R := by
  cases x with
  | ok a => exact hf a h
  | error e => exact h

theorem Good.mono (h : Good x P) (hf : ∀ a, P a → Q a) : Good x Q := by
  cases x with
  | ok a => exact hf a h
  | error e => exact h

theorem Good.strengthen (h : Good x P) (hf : ∀ a, x = .ok a → P a → Q a) : Good x Q := by
  cases x with
  | ok a => exact hf a rfl h
  | error e => exact h

theorem Good.map {f : α → β} {R : β → Prop} (h : Good x P) (hf : ∀ a, P a → R (f a)) :
    Good (x.map f) R := by
  cases x with
  | ok a => exact hf a h
  | error e => exact h

theorem Good.foldlM {f : α → β → M α} (hf : ∀ a b, P a → Good (f a b) P) (l : List β) {a : α}
    (ha : P a) : Good (l.foldlM f a) P := by
  induction l generalizing a with
  | nil => exact ha
  | cons b l ih =>
    rw [foldlM_cons]
    exact (hf a b ha).bind fun a' => ih

end

/-! ## The invariant -/

section
variable {g : Geom}

/-- Nothing has been handed out of the segment. -/
def Clean (g : Geom) (s : St) (seg : Nat) : Prop := s.used seg = 0 ∧ ∀ j < g.bps, s.inv seg j = 0

structure Inv (g : Geom) (s : St) : Prop where
  used_le : ∀ seg, s.used seg ≤ g.pps
  free_nodup : s.free.Nodup
  free_clean : ∀ seg ∈ s.free, Clean g s seg
  reserve_clean : ∀ seg, s.reserve = some seg → Clean g s seg ∧ seg ∉ s.free
  active_out : ∀ seg, s.active = some seg → seg ∉ s.free ∧ s.reserve ≠ some seg
  alloc_used : ∀ p, s.alloc p = true → p % g.pps < s.used (p / g.pps)
  bits_alloc : ∀ p, s.bits p = true → s.alloc p = true
  queued : ∀ p ∈ s.erasedQ, s.alloc p = false ∧ p % g.pps < s.used (p / g.pps)
  queue_nodup : s.erasedQ.Nodup

theorem page_div (g : Geom) {a k : Nat} (h : k < g.pps) :
    (a * g.pps + k) / g.pps = a ∧ (a * g.pps + k) % g.pps = k := by
  have hp := g.pps_pos
  rw [add_comm, Nat.add_mul_div_right _ _ hp, Nat.add_mul_mod_self_right, Nat.div_eq_of_lt h,
    Nat.mod_eq_of_lt h]
  exact ⟨zero_add a, rfl⟩

theorem Inv.validate {s : St} (I : Inv g s) {p : Nat} (hp : s.alloc p = false)
    (hu : p % g.pps < s.used (p / g.pps)) (hq : p ∉ s.erasedQ) :
    Good (validatePPA s p) fun s' => Inv g s' ∧ s'.erasedQ = s.erasedQ ∧ s'.free = s.free ∧
      s'.active = s.active ∧ s'.reserve = s.reserve := by
  have hb : s.bits p = false := by
    by_contra h
    have := I.bits_alloc p (by simpa using h)
    rw [hp] at this; cases this
  unfold validatePPA
  rw [if_neg (by simp [hb])]
  refine ⟨⟨I.used_le, I.free_nodup, I.free_clean, I.reserve_clean, I.active_out, fun q h => ?_,
    fun q h => ?_, fun q h => ?_, I.queue_nodup⟩, rfl, rfl, rfl, rfl⟩
  · by_cases he : q = p
    · subst he; exact hu
    · exact I.alloc_used q (by simpa [update_of_ne he] using h)
  · by_cases he : q = p
    · subst he; simp
    · simp only [update_of_ne he] at h ⊢
      exact I.bits_alloc q h
  · have he : q ≠ p := fun he => hq (he ▸ h)
    simp only [update_of_ne he]
    exact I.queued q h

theorem Inv.pageNum {s s' : St} (I : Inv g s) {a p : Nat} (ha : s.active = some a)
    (h : getPageNum g s a = some (s', p)) :
    Inv g s' ∧ s.alloc p = false ∧ s'.alloc p = false ∧ p % g.pps < s'.used (p / g.pps) ∧
      p ∉ s'.erasedQ ∧ s'.erasedQ = s.erasedQ ∧ s'.free = s.free ∧ s'.active = s.active ∧
      s'.reserve = s.reserve := by
  unfold getPageNum at h
  split at h
  · cases h
  · rename_i hne
    cases h
    have hle := I.used_le a
    obtain ⟨hdiv, hmod⟩ := page_div g (a := a) (k := s.used a) (by omega)
    have hnot : s.alloc (a * g.pps + s.used a) = false := by
      by_contra h
      have := I.alloc_used _ (by simpa using h)
      rw [hdiv, hmod] at this
      omega
    have hother : ∀ seg, seg ∈ s.free ∨ s.reserve = some seg → seg ≠ a := by
      intro seg h he
      subst he
      rcases h with h | h
      · exact (I.active_out _ ha).1 h
      · exact (I.active_out _ ha).2 h
    have hclean : ∀ seg, seg ≠ a → Clean g s seg →
        Clean g { s with used := update s.used a (s.used a + 1) } seg :=
      fun seg hne hc => ⟨by simpa [update_of_ne hne] using hc.1, hc.2⟩
    have hmono : ∀ p, p % g.pps < s.used (p / g.pps) →
        p % g.pps < update s.used a (s.used a + 1) (p / g.pps) := by
      intro p hp
      by_cases he : p / g.pps = a
      · rw [he] at hp ⊢; rw [update_self]; omega
      · rw [update_of_ne he]; exact hp
    refine ⟨⟨fun seg => ?_, I.free_nodup,
      fun seg h => hclean seg (hother seg (.inl h)) (I.free_clean seg h),
      fun seg h => ⟨hclean seg (hother seg (.inr h)) (I.reserve_clean seg h).1,
        (I.reserve_clean seg h).2⟩,
      I.active_out, fun p h => hmono p (I.alloc_used p h), I.bits_alloc,
      fun p h => ⟨(I.queued p h).1, hmono p (I.queued p h).2⟩, I.queue_nodup⟩, hnot, hnot, ?_,
      fun h => ?_, rfl, rfl, rfl, rfl⟩
    · by_cases he : seg = a
      · subst he; simp only [update_self]; omega
      · simpa [update_of_ne he] using I.used_le seg
    · simp only [hdiv, hmod, update_self]; omega
    · have := (I.queued _ h).2
      rw [hdiv, hmod] at this
      omega

theorem Inv.getSegment {s : St} (I : Inv g s) :
    Good (ptGetSegment g s) fun r => ∃ rest, s.free = r.2 :: rest ∧ Clean g s r.2 ∧
      r.1 = { s with free := rest, nowAssign := s.nowAssign + 1 } := by
  unfold ptGetSegment
  split
  · exact good_other
  · rename_i a rest hf
    split
    · exact good_other
    · exact ⟨rest, hf, I.free_clean a (by simp [hf]), rfl⟩

theorem Inv.activate {s : St} (I : Inv g s) {a : Nat} {rest : List Nat} (hf : s.free = a :: rest)
    {n : Int} : Inv g { s with free := rest, active := some a, nowAssign := n } := by
  have hnd := I.free_nodup
  rw [hf, nodup_cons] at hnd
  have hsub : ∀ seg ∈ rest, seg ∈ s.free := fun seg h => by simp [hf, h]
  refine ⟨I.used_le, hnd.2, fun seg h => I.free_clean seg (hsub seg h),
    fun seg h => ⟨(I.reserve_clean seg h).1, fun hm => (I.reserve_clean seg h).2 (hsub seg hm)⟩,
    fun seg h => ?_, I.alloc_used, I.bits_alloc, I.queued, I.queue_nodup⟩
  cases h
  exact ⟨hnd.1, fun h => (I.reserve_clean a h).2 (by simp [hf])⟩

theorem Inv.renewActive {s : St} (I : Inv g s) :
    Good (renewActive g s) fun s' => Inv g s' ∧ s'.alloc = s.alloc ∧ s'.erasedQ = s.erasedQ := by
  have hget : Good ((ptGetSegment g s).map fun r => { r.1 with active := some r.2 })
      fun s' => Inv g s' ∧ s'.alloc = s.alloc ∧ s'.erasedQ = s.erasedQ := by
    refine I.getSegment.map fun r hr => ?_
    obtain ⟨rest, hf, -, he⟩ := hr
    rw [he]
    exact ⟨I.activate hf, rfl, rfl⟩
  unfold HeaderPage.renewActive
  split
  · exact hget
  · split
    · exact hget
    · exact ⟨I, rfl, rfl⟩

theorem Inv.pick {s : St} (I : Inv g s) : Good (pickPPA g s) fun r => Inv g r.1 ∧
    s.alloc r.2 = false ∧ r.1.alloc r.2 = false ∧ r.2 % g.pps < r.1.used (r.2 / g.pps) ∧
      r.2 ∉ r.1.erasedQ := by
  refine I.renewActive.bind fun s1 h₁ => ?_
  obtain ⟨I1, ha, -⟩ := h₁
  split
  · rename_i p q hq
    have hp := I1.queued p (by simp [hq])
    have hnd := I1.queue_nodup
    rw [hq, nodup_cons] at hnd
    exact ⟨⟨I1.used_le, I1.free_nodup, I1.free_clean, I1.reserve_clean, I1.active_out,
      I1.alloc_used, I1.bits_alloc, fun p' h => I1.queued p' (by simp [hq, h]), hnd.2⟩,
      ha ▸ hp.1, hp.1, hp.2, hnd.1⟩
  · split
    · exact good_other
    · rename_i r hr
      obtain ⟨a, hact, hpage⟩ := bind_eq_some_iff.mp hr
      obtain ⟨h1, h2, h3, h4, h5, -⟩ := I1.pageNum hact hpage
      exact ⟨h1, ha ▸ h2, h3, h4, h5⟩

theorem Inv.getPPA {s : St} (I : Inv g s) : Good (getPPA g s) fun r => Inv g r.1 := by
  refine I.pick.bind fun r hr => ?_
  obtain ⟨h1, -, h3, h4, h5⟩ := hr
  refine (h1.validate h3 h4 h5).bind fun s' hs' => ?_
  exact hs'.1

theorem Inv.not_clean {s : St} (I : Inv g s) {p : Nat} (h : s.alloc p = true) :
    ¬ Clean g s (p / g.pps) := by
  intro hc
  have := I.alloc_used p h
  rw [hc.1] at this
  exact Nat.not_lt_zero _ this

theorem Inv.erase {s : St} (I : Inv g s) (p : Nat) : Good (erasePPA g s p) (Inv g) := by
  unfold erasePPA
  split
  · exact good_other
  · split
    · exact good_other
    · rename_i hb
      have ha : s.alloc p = true := I.bits_alloc p (by simpa using hb)
      have hp : p ∉ s.erasedQ := fun h => by simpa [ha] using (I.queued p h).1
      have hold : ∀ q ∈ s.erasedQ, update s.alloc p false q = false ∧
          q % g.pps < s.used (q / g.pps) := by
        intro q hq
        have hne : q ≠ p := fun he => hp (he ▸ hq)
        rw [update_of_ne hne]
        exact I.queued q hq
      refine ⟨I.used_le, I.free_nodup, I.free_clean, I.reserve_clean, I.active_out, fun q h => ?_,
        fun q h => ?_, fun q h => ?_, ?_⟩
      · by_cases he : q = p
        · subst he; exact I.alloc_used q ha
        · exact I.alloc_used q (by simpa [update_of_ne he] using h)
      · by_cases he : q = p
        · subst he; simp at h
        · simp only [update_of_ne he] at h ⊢
          exact I.bits_alloc q h
      · simp only at h
        split at h
        · exact hold q h
        · rcases mem_append.mp h with h | h
          · exact hold q h
          · rw [mem_singleton] at h
            subst h
            exact ⟨update_self .., I.alloc_used q ha⟩
      · simp only
        split
        · exact I.queue_nodup
        · exact nodup_append.mpr ⟨I.queue_nodup, nodup_singleton p, fun a h b hb he =>
            hp (mem_singleton.mp hb ▸ he ▸ h)⟩

theorem Inv.invalidate {s : St} (I : Inv g s) {p : Nat} (h : s.alloc p = true) :
    Inv g (invalidatePPA g s p) := by
  have hclean : ∀ seg, Clean g s seg → Clean g (invalidatePPA g s p) seg := by
    intro seg hc
    have hne : seg ≠ p / g.pps := fun he => I.not_clean h (he ▸ hc)
    refine ⟨hc.1, fun j hj => ?_⟩
    simpa [invalidatePPA, update_of_ne hne] using hc.2 j hj
  refine ⟨I.used_le, I.free_nodup, fun seg h => hclean seg (I.free_clean seg h),
    fun seg h => ⟨hclean seg (I.reserve_clean seg h).1, (I.reserve_clean seg h).2⟩, I.active_out,
    I.alloc_used, fun q hq => ?_, I.queued, I.queue_nodup⟩
  by_cases he : q = p
  · subst he; simp [invalidatePPA] at hq
  · exact I.bits_alloc q (by simpa [invalidatePPA, update_of_ne he] using hq)

/-! ## A collection -/

theorem ptGetGcTarget_spec (s : St) : Good (ptGetGcTarget g s) fun seg => ¬ Clean g s seg := by
  have hstep : ∀ (best : Nat × Nat) (seg : Nat), best.2 ≤ invSum g s best.1 →
      Good (pickMax g s best seg) fun b => b.2 ≤ invSum g s b.1 := by
    intro best seg h
    unfold pickMax
    split
    · exact good_other
    · split
      · exact le_refl _
      · exact h
  refine (Good.foldlM hstep _ (Nat.zero_le _)).bind fun best hb => ?_
  split
  · exact good_other
  · rename_i hne
    intro hc
    have hsum : invSum g s best.1 = 0 := by
      refine sum_eq_zero fun x hx => ?_
      obtain ⟨j, hj, rfl⟩ := mem_map.mp hx
      exact hc.2 j (mem_range.mp hj)
    omega

/-- The state while the valid pages of `seg` are moved away. -/
structure Collecting (g : Geom) (seg : Nat) (s : St) : Prop where
  inv : Inv g s
  free : seg ∉ s.free
  active : s.active ≠ some seg
  reserve : s.reserve ≠ some seg
  queue : ∀ p ∈ s.erasedQ, p / g.pps ≠ seg

theorem Inv.retire {s : St} (I : Inv g s) {seg : Nat} (hs : ¬ Clean g s seg)
    (hq : ∀ p ∈ s.erasedQ, p / g.pps ≠ seg) : Collecting g seg (retire s seg) := by
  have hf : seg ∉ s.free := fun h => hs (I.free_clean seg h)
  have hr : s.reserve ≠ some seg := fun h => hs (I.reserve_clean seg h).1
  unfold HeaderPage.retire
  split
  · refine ⟨⟨I.used_le, I.free_nodup, I.free_clean, fun _ h => (by cases h),
      fun a h => ⟨(I.reserve_clean a h).2, fun h => (by cases h)⟩, I.alloc_used, I.bits_alloc,
      I.queued, I.queue_nodup⟩, hf, hr, fun h => (by cases h), hq⟩
  · rename_i ha
    exact ⟨I, hf, ha, hr, hq⟩

theorem Inv.unreserve {s : St} (I : Inv g s) {r : Nat} (hr : s.reserve = some r) {n : Int} :
    Inv g { s with
      used := update s.used r 0
      free := s.free ++ [r]
      reserve := none
      nowAssign := n } := by
  obtain ⟨hc, hnf⟩ := I.reserve_clean r hr
  have hused : update s.used r 0 = s.used := by
    rw [← hc.1]; exact update_eq_self r s.used
  rw [hused]
  refine ⟨I.used_le, ?_, fun seg h => ?_, fun _ h => (by cases h),
    fun a h => ⟨fun hm => ?_, fun h => (by cases h)⟩, I.alloc_used, I.bits_alloc, I.queued,
    I.queue_nodup⟩
  · exact nodup_append.mpr ⟨I.free_nodup, nodup_singleton r, fun a ha b hb he =>
      hnf (mem_singleton.mp hb ▸ he ▸ ha)⟩
  · rcases mem_append.mp h with h | h
    · exact I.free_clean seg h
    · rw [mem_singleton.mp h]; exact hc
  · rcases mem_append.mp hm with hm | hm
    · exact (I.active_out a h).1 hm
    · exact (I.active_out a h).2 (mem_singleton.mp hm ▸ hr)

theorem Collecting.spendReserve {s : St} {seg : Nat} (C : Collecting g seg s) :
    Good (spendReserve g s) (Collecting g seg) := by
  unfold HeaderPage.spendReserve
  split
  · exact good_other
  · rename_i r hr
    unfold ptReserveToFree
    split
    · exact good_other
    · have I := C.inv.unreserve hr (n := s.nowAssign - 1)
      refine Good.bind (P := fun s1 => s1 = _) rfl fun s1 h1 => ?_
      subst h1
      refine I.getSegment.bind fun t ht => ?_
      obtain ⟨rest, hf, -, he⟩ := ht
      rw [he]
      have hne : seg ∉ t.2 :: rest := by
        rw [← hf]
        intro hm
        rcases mem_append.mp hm with hm | hm
        · exact C.free hm
        · exact C.reserve (mem_singleton.mp hm ▸ hr)
      rw [mem_cons, not_or] at hne
      exact ⟨I.activate hf, hne.2, fun h => hne.1 (by cases h; rfl), fun h => (by cases h), C.queue⟩

theorem Collecting.renewCollecting {s : St} {seg : Nat} (C : Collecting g seg s) :
    Good (renewCollecting g s seg) (Collecting g seg) := by
  unfold HeaderPage.renewCollecting
  split
  · exact good_other
  · split
    · split
      · exact good_other
      · exact C.spendReserve
    · exact C

theorem Collecting.getRPPA {s : St} {seg : Nat} (C : Collecting g seg s) :
    Good (getRPPA g s seg) (Collecting g seg) := by
  unfold HeaderPage.getRPPA
  refine C.renewCollecting.bind fun s1 C1 => ?_
  split
  · exact good_other
  · rename_i r hr
    obtain ⟨a, hact, hpage⟩ := bind_eq_some_iff.mp hr
    obtain ⟨h1, -, h3, h4, h5, hq, hf, ha, hres⟩ := C1.inv.pageNum hact hpage
    refine (h1.validate h3 h4 h5).mono fun s' hs' => ?_
    obtain ⟨I', hq', hf', ha', hres'⟩ := hs'
    exact ⟨I', hf'.trans hf ▸ C1.free, ha'.trans ha ▸ C1.active, hres'.trans hres ▸ C1.reserve,
      hq'.trans hq ▸ C1.queue⟩

theorem Collecting.movePage {s : St} {seg : Nat} (C : Collecting g seg s) (drops : List Nat)
    (p : Nat) : Good (movePage g seg drops s p) (Collecting g seg) := by
  unfold HeaderPage.movePage
  split
  · split
    · exact C
    · exact C.getRPPA
  · exact C

theorem Collecting.trim {s : St} {seg : Nat} (C : Collecting g seg s) :
    Good (ptTrimSegment g s seg) (Inv g) := by
  have I := C.inv
  unfold ptTrimSegment
  split
  · exact good_other
  · refine ⟨fun a => ?_, ?_, fun a h => ?_, fun a h => ?_, fun a h => ?_, fun p h => ?_, fun p h => ?_,
      fun p h => ?_, I.queue_nodup⟩
    · by_cases he : a = seg
      · subst he; simp
      · simpa [update_of_ne he] using I.used_le a
    · exact nodup_append.mpr ⟨I.free_nodup, nodup_singleton seg, fun a ha b hb he =>
        C.free (mem_singleton.mp hb ▸ he ▸ ha)⟩
    · by_cases he : a = seg
      · subst he; exact ⟨update_self .., fun j _ => by simp⟩
      · have hm : a ∈ s.free := by simpa [he] using h
        exact ⟨by simpa [update_of_ne he] using (I.free_clean a hm).1, fun j hj => by
          simpa [update_of_ne he] using (I.free_clean a hm).2 j hj⟩
    · have he : a ≠ seg := fun he => C.reserve (he ▸ h)
      obtain ⟨hc, hnf⟩ := I.reserve_clean a h
      refine ⟨⟨by simpa [update_of_ne he] using hc.1, fun j hj => by
        simpa [update_of_ne he] using hc.2 j hj⟩, by simp [hnf, he]⟩
    · have he : a ≠ seg := fun he => C.active (he ▸ h)
      exact ⟨by simp [(I.active_out a h).1, he], (I.active_out a h).2⟩
    · by_cases he : p / g.pps = seg
      · simp [he] at h
      · simp only [if_neg he] at h
        simpa [update_of_ne he] using I.alloc_used p h
    · by_cases he : p / g.pps = seg
      · simp [he] at h
      · simp only [if_neg he] at h ⊢
        exact I.bits_alloc p h
    · have he := C.queue p h
      simpa [he, update_of_ne he] using I.queued p h

theorem Inv.renewReserve {s : St} (I : Inv g s) : Good (renewReserve g s) (Inv g) := by
  unfold HeaderPage.renewReserve
  split
  · exact I
  · refine I.getSegment.map fun r hr => ?_
    obtain ⟨rest, hf, hc, he⟩ := hr
    rw [he]
    have hnd := I.free_nodup
    rw [hf, nodup_cons] at hnd
    have hsub : ∀ seg ∈ rest, seg ∈ s.free := fun seg h => by simp [hf, h]
    refine ⟨I.used_le, hnd.2, fun seg h => I.free_clean seg (hsub seg h), fun seg h => ?_,
      fun seg h => ⟨fun hm => (I.active_out seg h).1 (hsub seg hm), fun hr => ?_⟩, I.alloc_used,
      I.bits_alloc, I.queued, I.queue_nodup⟩
    · cases h; exact ⟨hc, hnd.1⟩
    · cases hr; exact (I.active_out _ h).1 (by simp [hf])

theorem derefActive_spec (s : St) : Good (derefActive s) fun _ => True := by
  unfold derefActive
  split
  · exact good_other
  · trivial

theorem Inv.gcHeader {s : St} (I : Inv g s) {drops : List Nat} (hc : calm g s (.gcHeader drops)) :
    Good (gcHeader g s drops) (Inv g) := by
  unfold HeaderPage.gcHeader
  refine (derefActive_spec _).bind fun _ _ => ?_
  have htarget : Good (ptGetGcTarget g s) fun seg => Collecting g seg (HeaderPage.retire s seg) := by
    refine (ptGetGcTarget_spec s).strengthen fun seg h hs => ?_
    exact I.retire hs (hc seg h)
  refine htarget.bind fun seg C => ?_
  refine (Good.foldlM (fun t p Ct => Collecting.movePage Ct drops p) _ C).bind fun s1 C1 => ?_
  refine C1.trim.bind fun s2 I2 => ?_
  refine (derefActive_spec _).bind fun _ _ => ?_
  exact I2.renewReserve

/-! ## Whole runs -/

theorem Inv.init (g : Geom) : Inv g (.init g) where
  used_le _ := Nat.zero_le _
  free_nodup := nodup_range.sublist (tail_sublist _)
  free_clean _ _ := ⟨rfl, fun _ _ => rfl⟩
  reserve_clean seg h := by
    cases h
    refine ⟨⟨rfl, fun _ _ => rfl⟩, fun hm => ?_⟩
    change 0 ∈ (range g.segs).tail at hm
    cases hs : g.segs with
    | zero => simp [hs] at hm
    | succ n => simp [hs, range_succ_eq_map] at hm
  active_out _ h := by cases h
  alloc_used _ h := by cases h
  bits_alloc _ h := by cases h
  queued _ h := by cases h
  queue_nodup := nodup_nil

theorem Inv.exec {s : St} (I : Inv g s) {l : Lbl} (hc : calm g s l) :
    Good (exec g s l) (Inv g) := by
  cases l with
  | getPPA => exact I.getPPA.map fun _ h => h
  | erasePPA p => exact I.erase p
  | invalidatePPA p =>
    change Good (if s.alloc p then _ else _) _
    split
    · rename_i h; exact I.invalidate h
    · exact good_other
  | gcHeader drops => exact I.gcHeader hc

theorem inv_inductive (g : Geom) : ((headerLTS g).restrict (calm g)).Inductive (Inv g) where
  init s h := by cases h; exact .init g
  step s l s' I h := (I.exec h.2).ok h.1

/-- In a run whose collected segments have no page waiting in `erased_q`,
`getPPA` returns pages that are not allocated, and neither it nor a further
such collection ends in the abort of `validate_PPA`. -/
theorem ppa_unique (g : Geom) {tr : List Lbl} {s : St}
    (h : ((headerLTS g).restrict (calm g)).Exec tr s) :
    Unique g s ∧ ∀ drops, calm g s (.gcHeader drops) →
      exec g s (.gcHeader drops) ≠ .error .validate := by
  have I : Inv g s := h.inv (inv_inductive g)
  refine ⟨⟨fun s' p hp => (I.pick.ok hp).2.1, (I.exec (l := .getPPA) trivial).ne⟩,
    fun drops hc => ?_⟩
  exact (I.exec hc).ne

/-- Three segments of two pages. -/
def small : Geom := ⟨1, 2, 3, Nat.one_pos, Nat.two_pos⟩

/-- As `calm`, to be evaluated. -/
def calmB (g : Geom) (s : St) : Lbl → Bool
  | .gcHeader _ => match ptGetGcTarget g s with
    | .ok seg => s.erasedQ.all fun p => p / g.pps != seg
    | .error _ => true
  | _ => true

theorem calm_of_calmB {s : St} {l : Lbl} (h : calmB g s l = true) : calm g s l := by
  cases l with
  | gcHeader drops =>
    intro seg hseg p hp
    simp only [calmB, hseg, List.all_eq_true, bne_iff_ne] at h
    exact h p hp
  | getPPA => trivial
  | erasePPA p => trivial
  | invalidatePPA p => trivial

theorem exec_of_toOption {s s' : St} {l : Lbl} (h : (exec g s l).toOption = some s') :
    exec g s l = .ok s' := by
  cases he : exec g s l with
  | ok a => rw [he] at h; cases h; rfl
  | error e => rw [he] at h; cases h

/-- Pages 2 to 5 are handed out, 5 is given back, 2 is dropped, and segment 1
is collected, which moves 3 to page 0: 5 is still free to be returned. -/
theorem ppa_unique_collected : ∃ tr s, ((headerLTS small).restrict (calm small)).Exec tr s ∧
    s.reserve = some 1 ∧ s.erasedQ = [5] ∧ Unique small s := by
  obtain ⟨s, hx, hp⟩ := Core.LTS.Exec.check (T := (headerLTS small).restrict (calm small))
    (some (.init small)) (calmB small · ·)
    [.getPPA, .getPPA, .getPPA, .getPPA, .erasePPA 5, .invalidatePPA 2, .gcHeader []]
    (fun s => s.reserve = some 1 ∧ s.erasedQ = [5])
    (fun s l s' hl hs => ⟨exec_of_toOption hs, calm_of_calmB hl⟩) (fun _ h => some.inj h.symm)
    (by decide +kernel)
  exact ⟨_, s, hx, hp.1, hp.2, (ppa_unique small hx).1⟩

/-- Page 3 waits in `erased_q` while its segment is collected. It is handed
out by the queue, and the segment, active again, has it next in line. -/
theorem erased_page_twice : ∃ tr s, (headerLTS small).Exec tr s ∧ ¬ Unique small s := by
  obtain ⟨s, hx, hp⟩ := Core.LTS.Exec.check (T := headerLTS small) (some (.init small))
    (fun _ _ => True) [.getPPA, .getPPA, .getPPA, .getPPA, .invalidatePPA 2, .erasePPA 3,
      .gcHeader [], .getPPA, .getPPA]
    (fun s => ((pickPPA small s).toOption.any fun r => s.alloc r.2) = true)
    (fun s l s' _ hs => exec_of_toOption hs) (fun _ h => some.inj h.symm) (by decide +kernel)
  refine ⟨_, s, hx, fun hu => ?_⟩
  obtain ⟨r, hr, ha⟩ := (any_eq_true _ _).mp hp
  cases he : pickPPA small s with
  | error e => rw [he] at hr; cases hr
  | ok r' =>
    rw [he] at hr
    cases hr
    have hfree : s.alloc r.2 = false := hu.page r.1 r.2 he
    rw [hfree] at ha
    cases ha

end

end FlashDriver.Lsmtree.HeaderPage
