import FlashDriver.Lsmtree.HeaderPage

/-!
# The accounting of the map partition (`blockmanager/partition/pt_block_manager.c`)

Both translation layers take their map pages from this partition and collect
it themselves. What a collection relies on is that the counts are right: of
the pages handed out of a segment, the valid ones and those counted in
`invalid_number` are different pages. So a victim with an invalid page has
fewer valid pages than a segment has room for, and `pt_get_segment` and
`pt_trim_segment` do not find `now_assign` out of range.

`Rows` is that invariant, with one lemma for each operation of the block
manager: what it returns, and that it keeps `Rows`.
-/
namespace FlashDriver.Lsmtree.HeaderPage

open List Option Function

/-! ## Calls that return -/

section
variable {α β : Type} {x : M α} {b : β}

theorem ok_bind {f : α → M β} (h : (x >>= f) = .ok b) : ∃ a, x = .ok a ∧ f a = .ok b := by
  cases x with
  | error e => cases h
  | ok a => exact ⟨a, rfl, h⟩

theorem ok_map {f : α → β} (h : x.map f = .ok b) : ∃ a, x = .ok a ∧ f a = b := by
  cases x with
  | error e => cases h
  | ok a => exact ⟨a, rfl, Except.ok.inj h⟩

theorem ok_of_toOption {a : α} (h : x.toOption = some a) : x = .ok a := by
  cases x with
  | error e => cases h
  | ok a' => exact congrArg _ (some.inj h)

end

/-! ## Counting with one point changed -/

theorem countP_update {α : Type} [DecidableEq α] {l : List α} (hl : l.Nodup) (f : α → Bool)
    {x : α} (hx : x ∈ l) (b : Bool) :
    l.countP (update f x b) + (f x).toNat = l.countP f + b.toNat := by
  induction l with
  | nil => cases hx
  | cons a l ih =>
    rw [nodup_cons] at hl
    rw [countP_cons, countP_cons]
    rcases mem_cons.mp hx with rfl | hx
    · have hrest : l.countP (update f x b) = l.countP f := by
        refine countP_congr fun y hy => ?_
        rw [update_of_ne fun he : y = x => hl.1 (he ▸ hy)]
      rw [hrest, update_self]
      cases f x <;> cases b <;> simp
    · have hne : a ≠ x := fun he => hl.1 (he ▸ hx)
      have := ih hl.2 hx
      rw [update_of_ne hne]
      omega

theorem sum_update {l : List Nat} (hl : l.Nodup) (f : Nat → Nat) {x : Nat} (hx : x ∈ l) (v : Nat) :
    (l.map (update f x v)).sum + f x = (l.map f).sum + v := by
  induction l with
  | nil => cases hx
  | cons a l ih =>
    rw [nodup_cons] at hl
    rw [map_cons, map_cons, sum_cons, sum_cons]
    rcases mem_cons.mp hx with rfl | hx
    · have hrest : l.map (update f x v) = l.map f :=
        map_congr_left fun y hy =>
          update_of_ne (fun he : y = x => hl.1 (he ▸ hy)) _ _
      rw [hrest, update_self]
      omega
    · have hne : a ≠ x := fun he => hl.1 (he ▸ hx)
      have := ih hl.2 hx
      rw [update_of_ne hne]
      omega

section
variable {g : Geom} {s : St}

/-! ## The pages of a segment -/

theorem mem_pagesIn {seg p : Nat} : p ∈ pagesIn g seg ↔ p / g.pps = seg := by
  unfold pagesIn
  rw [List.mem_map]
  constructor
  · rintro ⟨k, hk, rfl⟩
    exact (page_div g (mem_range.mp hk)).1
  · rintro rfl
    exact ⟨p % g.pps, mem_range.mpr (Nat.mod_lt _ g.pps_pos), Nat.div_add_mod' p g.pps⟩

theorem pagesIn_nodup (g : Geom) (seg : Nat) : (pagesIn g seg).Nodup :=
  nodup_range.map fun _ _ h => Nat.add_left_cancel h

/-- The valid pages of a segment. -/
def validIn (g : Geom) (s : St) (seg : Nat) : Nat := (pagesIn g seg).countP s.bits

structure Rows (g : Geom) (s : St) : Prop where
  used_le : ∀ seg, s.used seg ≤ g.pps
  ahead : ∀ p, s.bits p = true → p % g.pps < s.used (p / g.pps)
  inside : ∀ p, s.bits p = true → p / g.pps < g.segs
  counted : ∀ seg, validIn g s seg + invSum g s seg ≤ s.used seg
  free_nodup : s.free.Nodup
  free_lt : ∀ seg ∈ s.free, seg < g.segs
  fresh : ∀ seg ∈ s.free, s.used seg = 0
  assigned : s.nowAssign + s.free.length = g.segs

/-- A segment that is in use. -/
structure InUse (g : Geom) (s : St) (seg : Nat) : Prop where
  lt : seg < g.segs
  not_free : seg ∉ s.free

theorem Rows.invSum_le (R : Rows g s) (seg : Nat) : invSum g s seg ≤ g.pps := by
  have h1 := R.counted seg
  have h2 := R.used_le seg
  omega

theorem Rows.inUse (R : Rows g s) {seg : Nat} (hlt : seg < g.segs) (h : 0 < invSum g s seg) :
    InUse g s seg := by
  refine ⟨hlt, fun hf => ?_⟩
  have h1 := R.counted seg
  have h2 := R.fresh seg hf
  omega

theorem Rows.free_length_lt (R : Rows g s) {seg : Nat} (h : InUse g s seg) :
    s.free.length < g.segs := by
  have hnd : (seg :: s.free).Nodup := nodup_cons.mpr ⟨h.not_free, R.free_nodup⟩
  have hsub : seg :: s.free ⊆ range g.segs := by
    intro a ha
    rw [mem_range]
    rcases mem_cons.mp ha with rfl | ha
    · exact h.lt
    · exact R.free_lt a ha
  have := (subperm_of_subset hnd hsub).length_le
  rw [length_cons, length_range] at this
  omega

/-! ## Operations -/

theorem Rows.roles (R : Rows g s) (a r : Option Nat) :
    Rows g { s with active := a, reserve := r } :=
  ⟨R.used_le, R.ahead, R.inside, R.counted, R.free_nodup, R.free_lt, R.fresh, R.assigned⟩

theorem Rows.getSegment (R : Rows g s) {a : Nat} {rest : List Nat} (hf : s.free = a :: rest) :
    ptGetSegment g s = .ok ({ s with free := rest, nowAssign := s.nowAssign + 1 }, a) ∧
      Rows g { s with free := rest, nowAssign := s.nowAssign + 1 } ∧ a < g.segs ∧ a ∉ rest ∧
      s.used a = 0 := by
  have hnd := R.free_nodup
  rw [hf, nodup_cons] at hnd
  have hlen := R.assigned
  rw [hf, length_cons] at hlen
  push_cast at hlen
  have hsub : ∀ seg ∈ rest, seg ∈ s.free := fun seg h => by rw [hf]; exact .tail _ h
  have ha : a ∈ s.free := by rw [hf]; exact mem_cons_self
  refine ⟨?_, ⟨R.used_le, R.ahead, R.inside, R.counted, hnd.2, fun seg h => R.free_lt seg (hsub seg h),
    fun seg h => R.fresh seg (hsub seg h), ?_⟩, R.free_lt a ha, hnd.1, R.fresh a ha⟩
  · unfold ptGetSegment
    rw [hf]
    exact if_neg (by omega)
  · change s.nowAssign + 1 + (rest.length : Int) = g.segs
    omega

/-- The state after the next page of a segment was handed out and marked. -/
def take (g : Geom) (s : St) (seg : Nat) : St :=
  { s with
    used := update s.used seg (s.used seg + 1)
    bits := update s.bits (seg * g.pps + s.used seg) true
    alloc := update s.alloc (seg * g.pps + s.used seg) true }

theorem Rows.next_free (R : Rows g s) {seg : Nat} (hroom : s.used seg < g.pps) :
    s.bits (seg * g.pps + s.used seg) = false := by
  obtain ⟨hdiv, hmod⟩ := page_div g (a := seg) hroom
  by_contra hb
  have := R.ahead _ (by simpa using hb)
  rw [hdiv, hmod] at this
  exact lt_irrefl _ this

theorem Rows.getPageNum (R : Rows g s) {seg : Nat} (hroom : s.used seg < g.pps) :
    ∃ s1, getPageNum g s seg = some (s1, seg * g.pps + s.used seg) ∧
      validatePPA s1 (seg * g.pps + s.used seg) = .ok (take g s seg) := by
  refine ⟨{ s with used := update s.used seg (s.used seg + 1) }, ?_, ?_⟩
  · unfold HeaderPage.getPageNum
    exact if_neg (ne_of_lt hroom)
  · unfold validatePPA
    exact if_neg (by rw [R.next_free hroom]; exact Bool.false_ne_true)

theorem validIn_update (g : Geom) (s t : St) (seg : Nat) {p : Nat} {b : Bool}
    (hb : t.bits = update s.bits p b) :
    validIn g t seg + (if p / g.pps = seg then (s.bits p).toNat else 0) =
      validIn g s seg + (if p / g.pps = seg then b.toNat else 0) := by
  unfold validIn
  rw [hb]
  split
  · rename_i h
    exact countP_update (pagesIn_nodup g seg) s.bits (mem_pagesIn.mpr h) b
  · rename_i h
    rw [add_zero, add_zero]
    refine countP_congr fun q hq => ?_
    rw [update_of_ne fun he => h (by rw [← he]; exact mem_pagesIn.mp hq)]

theorem Rows.take (R : Rows g s) {seg : Nat} (h : InUse g s seg) (hroom : s.used seg < g.pps) :
    Rows g (take g s seg) := by
  obtain ⟨hdiv, hmod⟩ := page_div g (a := seg) hroom
  refine ⟨fun a => ?_, fun p hp => ?_, fun p hp => ?_, fun a => ?_, R.free_nodup, R.free_lt,
    fun a ha => ?_, R.assigned⟩
  · by_cases he : a = seg
    · subst he
      simp only [HeaderPage.take, update_self]
      omega
    · simpa only [HeaderPage.take, update_of_ne he] using R.used_le a
  · simp only [HeaderPage.take] at hp ⊢
    by_cases he : p = seg * g.pps + s.used seg
    · rw [he, hdiv, hmod, update_self]
      omega
    · rw [update_of_ne he] at hp
      have hlt := R.ahead p hp
      by_cases hs : p / g.pps = seg
      · rw [hs] at hlt ⊢
        rw [update_self]
        omega
      · rw [update_of_ne hs]
        exact hlt
  · by_cases he : p = seg * g.pps + s.used seg
    · rw [he, hdiv]
      exact h.lt
    · exact R.inside p (by simpa only [HeaderPage.take, update_of_ne he] using hp)
  · have hv := validIn_update g s (HeaderPage.take g s seg) a rfl
    have hc := R.counted a
    have hi : invSum g (HeaderPage.take g s seg) a = invSum g s a := rfl
    rw [hdiv, R.next_free hroom] at hv
    by_cases he : a = seg
    · subst he
      simp only [HeaderPage.take, update_self] at hv hi ⊢
      simp at hv
      omega
    · rw [if_neg (Ne.symm he), if_neg (Ne.symm he)] at hv
      simp only [HeaderPage.take, update_of_ne he] at hv hi ⊢
      omega
  · have hne : a ≠ seg := fun he => h.not_free (he ▸ ha)
    simpa only [HeaderPage.take, update_of_ne hne] using R.fresh a ha

/-- mirrors blockmanager/base_block_manager.c:205-226 (`base_unpopulate_bit`) -/
def unpopulateBit (g : Geom) (s : St) (p : Nat) : St :=
  { s with
    bits := update s.bits p false
    inv := update s.inv (p / g.pps)
      (update (s.inv (p / g.pps)) (p % g.bps) ((s.inv (p / g.pps) (p % g.bps) + 1) % 2 ^ 16)) }

theorem invSum_unpopulateBit (g : Geom) (s : St) (p seg : Nat) :
    invSum g (unpopulateBit g s p) seg ≤ invSum g s seg + (if p / g.pps = seg then 1 else 0) := by
  unfold invSum
  simp only [unpopulateBit]
  split
  · rename_i h
    subst h
    rw [update_self]
    have := sum_update nodup_range (s.inv (p / g.pps))
      (mem_range.mpr (Nat.mod_lt p g.bps_pos)) ((s.inv (p / g.pps) (p % g.bps) + 1) % 2 ^ 16)
    have := Nat.mod_le (s.inv (p / g.pps) (p % g.bps) + 1) (2 ^ 16)
    omega
  · rename_i h
    rw [update_of_ne (Ne.symm h)]
    exact Nat.le_add_right _ _

theorem Rows.unpopulate (R : Rows g s) {p : Nat} (hp : s.bits p = true) :
    Rows g (unpopulateBit g s p) := by
  have hsub : ∀ q, (unpopulateBit g s p).bits q = true → s.bits q = true := by
    intro q hq
    by_cases he : q = p
    · subst he; exact hp
    · simpa only [unpopulateBit, update_of_ne he] using hq
  refine ⟨R.used_le, fun q hq => R.ahead q (hsub q hq), fun q hq => R.inside q (hsub q hq),
    fun seg => ?_, R.free_nodup, R.free_lt, R.fresh, R.assigned⟩
  have hv := validIn_update g s (unpopulateBit g s p) seg rfl
  have hc := R.counted seg
  have hi := invSum_unpopulateBit g s p seg
  change _ ≤ s.used seg
  rw [hp, Bool.toNat_true, Bool.toNat_false] at hv
  split at hv
  · rename_i h
    rw [if_pos h] at hi
    omega
  · rename_i h
    rw [if_neg h] at hi
    omega

/-- The state after a segment was trimmed. -/
def trimmed (g : Geom) (s : St) (seg : Nat) : St :=
  { s with
    bits := fun p => if p / g.pps = seg then false else s.bits p
    alloc := fun p => if p / g.pps = seg then false else s.alloc p
    inv := update s.inv seg fun _ => 0
    used := update s.used seg 0
    free := s.free ++ [seg]
    nowAssign := s.nowAssign - 1 }

theorem trimmed_bits {seg p : Nat} :
    (trimmed g s seg).bits p = true ↔ p / g.pps ≠ seg ∧ s.bits p = true := by
  simp [trimmed]

theorem Rows.trimSegment (R : Rows g s) {seg : Nat} (h : InUse g s seg) :
    ptTrimSegment g s seg = .ok (trimmed g s seg) := by
  have h1 := R.free_length_lt h
  have h2 := R.assigned
  unfold ptTrimSegment
  exact if_neg (by omega)

theorem Rows.trim (R : Rows g s) {seg : Nat} (h : InUse g s seg) : Rows g (trimmed g s seg) := by
  refine ⟨fun a => ?_, fun p hp => ?_, fun p hp => R.inside p (trimmed_bits.mp hp).2, fun a => ?_,
    ?_, fun a ha => ?_, fun a ha => ?_, ?_⟩
  · by_cases he : a = seg
    · subst he; simp [trimmed]
    · simpa only [trimmed, update_of_ne he] using R.used_le a
  · obtain ⟨hne, hb⟩ := trimmed_bits.mp hp
    simpa only [trimmed, update_of_ne hne] using R.ahead p hb
  · by_cases he : a = seg
    · subst he
      have hv : validIn g (trimmed g s a) a = 0 := by
        refine countP_eq_zero.mpr fun p hp => ?_
        simp [trimmed, mem_pagesIn.mp hp]
      have hi : invSum g (trimmed g s a) a = 0 := by
        refine sum_eq_zero fun x hx => ?_
        obtain ⟨j, -, rfl⟩ := mem_map.mp hx
        simp [trimmed]
      omega
    · have hv : validIn g (trimmed g s seg) a = validIn g s a := by
        refine countP_congr fun p hp => ?_
        have hne : p / g.pps ≠ seg := fun hs => he ((mem_pagesIn.mp hp).symm.trans hs)
        simp [trimmed, hne]
      have hi : invSum g (trimmed g s seg) a = invSum g s a := by
        unfold invSum
        simp only [trimmed, update_of_ne he]
      rw [hv, hi]
      simpa only [trimmed, update_of_ne he] using R.counted a
  · exact nodup_append.mpr ⟨R.free_nodup, nodup_singleton seg, fun a ha b hb he =>
      h.not_free (mem_singleton.mp hb ▸ he ▸ ha)⟩
  · rcases mem_append.mp ha with ha | ha
    · exact R.free_lt a ha
    · rw [mem_singleton.mp ha]
      exact h.lt
  · by_cases he : a = seg
    · subst he; simp [trimmed]
    · have hm : a ∈ s.free := by simpa [trimmed, he] using ha
      simpa only [trimmed, update_of_ne he] using R.fresh a hm
  · have := R.assigned
    simp only [trimmed, length_append, length_singleton]
    push_cast
    omega

theorem Rows.reserveToFree (R : Rows g s) {r : Nat} (h : InUse g s r) (h0 : s.used r = 0) :
    ∃ s', ptReserveToFree g s r = .ok s' ∧
      s' = { s with free := s.free ++ [r], nowAssign := s.nowAssign - 1 } ∧ Rows g s' := by
  have hclean : ∀ j < g.bps, s.inv r j = 0 := by
    intro j hj
    have hsum : invSum g s r = 0 := by
      have := R.counted r
      omega
    exact sum_eq_zero_iff.mp hsum _ (mem_map_of_mem (mem_range.mpr hj))
  have hused : update s.used r 0 = s.used := by
    rw [← h0]
    exact update_eq_self r s.used
  refine ⟨_, ?_, rfl, R.used_le, R.ahead, R.inside, R.counted, ?_, fun a ha => ?_, fun a ha => ?_, ?_⟩
  · unfold ptReserveToFree
    rw [if_neg (by rintro ⟨j, hj, hne⟩; exact hne (hclean j hj)), hused]
  · exact nodup_append.mpr ⟨R.free_nodup, nodup_singleton r, fun a ha b hb he =>
      h.not_free (mem_singleton.mp hb ▸ he ▸ ha)⟩
  · rcases mem_append.mp ha with ha | ha
    · exact R.free_lt a ha
    · rw [mem_singleton.mp ha]
      exact h.lt
  · rcases mem_append.mp ha with ha | ha
    · exact R.fresh a ha
    · rw [mem_singleton.mp ha]
      exact h0
  · have := R.assigned
    simp only [length_append, length_singleton]
    push_cast
    omega

/-! ## The victim -/

theorem foldlM_pickMax (R : Rows g s) (l : List Nat) (best : Nat × Nat) :
    ∃ b, l.foldlM (pickMax g s) best = .ok b ∧ best.2 ≤ b.2 ∧ (∀ seg ∈ l, invSum g s seg ≤ b.2) ∧
      (b = best ∨ b.1 ∈ l ∧ b.2 = invSum g s b.1) := by
  induction l generalizing best with
  | nil => exact ⟨best, rfl, le_refl _, fun _ h => (by cases h), .inl rfl⟩
  | cons a l ih =>
    have hle := R.invSum_le a
    have hstep : pickMax g s best a =
        .ok (if invSum g s a > best.2 then (a, invSum g s a) else best) := by
      unfold pickMax
      rw [if_neg (by omega)]
      split <;> rfl
    obtain ⟨b, hb, h1, h2, h3⟩ := ih (if invSum g s a > best.2 then (a, invSum g s a) else best)
    refine ⟨b, by rw [foldlM_cons, hstep]; exact hb, ?_, fun seg hs => ?_, ?_⟩
    · split at h1
      · exact le_of_lt (lt_of_lt_of_le ‹_› h1)
      · exact h1
    · rcases mem_cons.mp hs with rfl | hs
      · split at h1
        · exact h1
        · omega
      · exact h2 seg hs
    · rcases h3 with h3 | ⟨h3, h4⟩
      · split at h3
        · subst h3
          exact .inr ⟨(.head _), rfl⟩
        · exact .inl h3
      · exact .inr ⟨.tail _ h3, h4⟩

theorem Rows.gcTarget (R : Rows g s) :
    (∃ seg, ptGetGcTarget g s = .ok seg ∧ seg < g.segs ∧ 0 < invSum g s seg ∧
        ∀ a < g.segs, invSum g s a ≤ invSum g s seg) ∨
      (ptGetGcTarget g s = .error .other ∧ ∀ a < g.segs, invSum g s a = 0) := by
  obtain ⟨b, hb, -, hmax, hfrom⟩ := foldlM_pickMax R (range g.segs) (0, 0)
  have hrun : ptGetGcTarget g s = if b.2 = 0 then .error .other else .ok b.1 := by
    unfold ptGetGcTarget
    rw [hb]
    rfl
  by_cases h0 : b.2 = 0
  · refine .inr ⟨by rw [hrun, if_pos h0], fun a ha => ?_⟩
    have := hmax a (mem_range.mpr ha)
    omega
  · rcases hfrom with rfl | ⟨hmem, heq⟩
    · exact absurd rfl h0
    · refine .inl ⟨b.1, by rw [hrun, if_neg h0], mem_range.mp hmem, by omega, fun a ha => ?_⟩
      rw [← heq]
      exact hmax a (mem_range.mpr ha)

theorem Rows.init (hs : 0 < g.segs) : Rows g (.init g) where
  used_le _ := Nat.zero_le _
  ahead _ h := by cases h
  inside _ h := by cases h
  counted seg := by
    have hv : validIn g (.init g) seg = 0 := countP_eq_zero.mpr fun p _ => Bool.false_ne_true
    have hi : invSum g (.init g) seg = 0 := by
      refine sum_eq_zero fun x hx => ?_
      obtain ⟨j, -, rfl⟩ := mem_map.mp hx
      rfl
    omega
  free_nodup := nodup_range.sublist (tail_sublist _)
  free_lt seg h := mem_range.mp (mem_of_mem_tail h)
  fresh _ _ := rfl
  assigned := by
    change (1 : Int) + ((range g.segs).tail.length : Int) = g.segs
    rw [length_tail, length_range]
    omega

end

end FlashDriver.Lsmtree.HeaderPage
