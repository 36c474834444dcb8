import FlashDriver.BlockManager.BadBlock

/-!
# When the bad-segment table is sound

`bb_checker_fixing` serves the segments from the front, each with one good
segment from the back, or two if it is bad itself. What happens in the middle
depends on the flags there: the bounds are tested before the bad segments at
the back have been skipped, so a segment can be paired with itself or with a
segment that is already in use, and the skip can run below `ent[0]`.

`Scan` is the loop invariant: the segments at or above `t = max_segnum+1`
that are good are exactly as many as the first `start_segnum` segments need.
`fixLoop_iff` follows the loop to its end. `bad_segment_table` says for which
flags the table is sound, in terms of the flags only: of the first segment `n`
that does not find the good segments it needs above it, `EndOk` asks how the
segments next to it look. `middle_segment_bad` is a device of the real size
with the two segments that are always marked and one more, in the middle, where
segment 2046 is its own partner.
-/
namespace FlashDriver.BadBlock

open List Option Function

/-! ## Counting -/

/-- The good segments at or above `k`. -/
def goodFrom (bad : Nat → Bool) (rnos k : Nat) : Nat := (range' k (rnos - k)).countP fun j => !bad j

/-- The segments that the first `s` segments take from the back. -/
def need (bad : Nat → Bool) : Nat → Nat
  | 0 => 0
  | s + 1 => need bad s + if bad s then 2 else 1

/-- Segment `n` is the first that cannot be served: how the flags around it
have to look for the loop to stop there. -/
def EndOk (bad : Nat → Bool) (rnos n : Nat) : Prop :=
  if bad n then
    (∃ j < n, bad j = false) ∧ (goodFrom bad rnos (n + 1) = need bad n + 1 → bad (n + 1) = false)
  else
    goodFrom bad rnos (n + 1) + 1 = need bad n ∨ n + 1 = rnos ∨ bad (n + 1) = false

/-- The first segment without enough good segments above it has such
neighbours. -/
def MiddleOk (bad : Nat → Bool) (rnos : Nat) : Prop :=
  ∀ n < rnos, (∀ i < n, need bad (i + 1) ≤ goodFrom bad rnos (i + 1)) →
    goodFrom bad rnos (n + 1) < need bad (n + 1) → EndOk bad rnos n

section
variable {bad : Nat → Bool} {rnos : Nat}

theorem goodFrom_of_le {k : Nat} (h : rnos ≤ k) : goodFrom bad rnos k = 0 := by
  simp [goodFrom, Nat.sub_eq_zero_of_le h]

theorem goodFrom_step (bad : Nat → Bool) (rnos : Nat) {k : Nat} (h : k < rnos) :
    goodFrom bad rnos k = goodFrom bad rnos (k + 1) + if bad k then 0 else 1 := by
  have hs : rnos - k = (rnos - (k + 1)) + 1 := by omega
  rw [goodFrom, hs, range'_succ, countP_cons]
  cases bad k <;> simp [goodFrom]

theorem goodFrom_skip (rnos : Nat) {j k : Nat} (hjk : j ≤ k) (hk : k ≤ rnos)
    (h : ∀ i, j ≤ i → i < k → bad i = true) : goodFrom bad rnos j = goodFrom bad rnos k := by
  induction k, hjk using Nat.le_induction with
  | base => rfl
  | succ k hjk ih =>
    rw [ih (by omega) fun i hi hik => h i hi (by omega), goodFrom_step bad rnos (by omega), h k hjk (by omega)]
    rfl

theorem goodFrom_anti (bad : Nat → Bool) (rnos : Nat) {j k : Nat} (hjk : j ≤ k) : goodFrom bad rnos k ≤ goodFrom bad rnos j := by
  induction k, hjk using Nat.le_induction with
  | base => exact le_rfl
  | succ k hjk ih =>
    refine le_trans ?_ ih
    by_cases hk : k < rnos
    · rw [goodFrom_step bad rnos hk]; omega
    · rw [goodFrom_of_le (by omega)]; omega

theorem need_stretch {j k : Nat} (hjk : j ≤ k) (h : ∀ i, j ≤ i → i < k → bad i = false) :
    need bad k = need bad j + (k - j) := by
  induction k, hjk using Nat.le_induction with
  | base => simp
  | succ k hjk ih =>
    rw [need, ih fun i h1 h2 => h i h1 (by omega), h k hjk (by omega)]
    simp only [Bool.false_eq_true, if_false]
    omega

theorem goodFrom_stretch {j k : Nat} (hjk : j ≤ k) (hk : k ≤ rnos)
    (h : ∀ i, j ≤ i → i < k → bad i = false) :
    goodFrom bad rnos j = goodFrom bad rnos k + (k - j) := by
  induction k, hjk using Nat.le_induction with
  | base => simp
  | succ k hjk ih =>
    rw [ih (by omega) fun i h1 h2 => h i h1 (by omega), goodFrom_step bad rnos hk, h k hjk (by omega)]
    simp only [Bool.false_eq_true, if_false]
    omega

theorem middleOk_iff {n : Nat} (hn : n < rnos)
    (hpre : ∀ i < n, need bad (i + 1) ≤ goodFrom bad rnos (i + 1))
    (hlt : goodFrom bad rnos (n + 1) < need bad (n + 1)) : MiddleOk bad rnos ↔ EndOk bad rnos n := by
  constructor
  · intro h
    exact h n hn hpre hlt
  · intro h n' hn' hpre' hlt'
    rcases Nat.lt_trichotomy n n' with hlt'' | rfl | hgt
    · exact absurd (hpre' n hlt'') (by omega)
    · exact h
    · exact absurd (hpre n' hgt) (by omega)

end

/-! ## Skipping -/

theorem testCnt_spec (ent : Ent) (m : Nat) :
    (testCnt ent m = none ∧ ∀ i ≤ m, (ent i).flag = true) ∨
    ∃ k ≤ m, testCnt ent m = some k ∧ (ent (m - k)).flag = false ∧
      ∀ i, m - k < i → i ≤ m → (ent i).flag = true := by
  induction m with
  | zero =>
    cases hf : (ent 0).flag with
    | true => exact .inl ⟨by simp [testCnt, hf], fun i hi => by rw [Nat.le_zero.mp hi, hf]⟩
    | false => exact .inr ⟨0, le_refl 0, by simp [testCnt, hf], hf, fun i h1 h2 => by omega⟩
  | succ m ih =>
    cases hf : (ent (m + 1)).flag with
    | false => exact .inr ⟨0, Nat.zero_le _, by simp [testCnt, hf], hf, fun i h1 h2 => by omega⟩
    | true =>
      have hbad : ∀ i, i ≤ m + 1 → (i ≤ m → (ent i).flag = true) → (ent i).flag = true := by
        intro i hi him
        by_cases h : i ≤ m
        · exact him h
        · obtain rfl : i = m + 1 := by omega
          exact hf
      rcases ih with ⟨hn, hall⟩ | ⟨k, hk, hs, hg, hall⟩
      · exact .inl ⟨by simp [testCnt, hf, hn], fun i hi => hbad i hi (hall i)⟩
      · refine .inr ⟨k + 1, by omega, by simp [testCnt, hf, hs], by simpa using hg, fun i h1 h2 => ?_⟩
        exact hbad i h2 (hall i (by omega))

theorem skipBad_spec (ent : Ent) {t : Nat} (ht : 0 < t) :
    (skipBad ent (t - 1) = none ∧ ∀ i < t, (ent i).flag = true) ∨
    ∃ j < t, ∃ k, skipBad ent (t - 1) = some k ∧ (t : Int) - 1 - k = j ∧ (ent j).flag = false ∧
      ∀ i, j < i → i < t → (ent i).flag = true := by
  have hm : ((t : Int) - 1).toNat = t - 1 := by omega
  have hs : skipBad ent (t - 1) = testCnt ent (t - 1) := by
    rw [skipBad, if_neg (by omega), hm]
  rw [hs]
  rcases testCnt_spec ent (t - 1) with ⟨hn, hall⟩ | ⟨k, hk, hk', hg, hall⟩
  · exact .inl ⟨hn, fun i hi => hall i (by omega)⟩
  · exact .inr ⟨t - 1 - k, by omega, k, hk', by omega, hg, fun i h1 h2 => hall i h1 (by omega)⟩

/-! ## Entries -/

theorem update_field {β : Type} (f : BbNode → β) {ent : Ent} {k : Nat} {v : BbNode}
    (hv : f v = f (ent k)) (i : Nat) : f (update ent k v i) = f (ent i) := by
  by_cases h : i = k
  · subst h; rw [update_self, hv]
  · rw [update_of_ne h]

section
variable (ent : Ent) (s m i : Nat)

theorem setFixed_field {β : Type} (f : BbNode → β)
    (hf : ∀ (t : BbNode) x, f { t with fixedSegnum := x } = f t)
    (hd : ∀ (t : BbNode) x, f { t with deprivedFromSegnum := x } = f t) :
    f (setFixed ent s m i) = f (ent i) := by
  unfold setFixed
  rw [update_field f (hd _ _), update_field f (hf _ _)]

theorem setPair_field {β : Type} (f : BbNode → β)
    (hp : ∀ (t : BbNode) x, f { t with pairSegnum := x } = f t) : f (setPair ent s m i) = f (ent i) := by
  unfold setPair
  rw [update_field f (hp _ _), update_field f (hp _ _)]

@[simp] theorem setFixed_flag : (setFixed ent s m i).flag = (ent i).flag :=
  setFixed_field ent s m i BbNode.flag (fun _ _ => rfl) fun _ _ => rfl

@[simp] theorem setFixed_origin : (setFixed ent s m i).originSegnum = (ent i).originSegnum :=
  setFixed_field ent s m i BbNode.originSegnum (fun _ _ => rfl) fun _ _ => rfl

@[simp] theorem setPair_flag : (setPair ent s m i).flag = (ent i).flag :=
  setPair_field ent s m i BbNode.flag fun _ _ => rfl

@[simp] theorem setPair_origin : (setPair ent s m i).originSegnum = (ent i).originSegnum :=
  setPair_field ent s m i BbNode.originSegnum fun _ _ => rfl

@[simp] theorem setPair_own : (setPair ent s m i).own = (ent i).own :=
  setPair_field ent s m i BbNode.own fun _ _ => rfl

theorem setFixed_own_self (hf : (ent s).flag = true) :
    (setFixed ent s m s).own = (ent m).originSegnum := by
  unfold setFixed
  rw [update_field BbNode.own (by rfl), update_self, BbNode.own, if_pos hf]

theorem setPair_pair_self : (setPair ent s m s).pairSegnum = (ent m).originSegnum := by
  by_cases h : s = m
  · subst h; simp [setPair]
  · simp [setPair, h]

theorem setFixed_segs (hi : i ≠ s) : segs (setFixed ent s m) i = segs ent i := by
  have h : ∀ {β : Type} (f : BbNode → β),
      (∀ (t : BbNode) x, f { t with deprivedFromSegnum := x } = f t) →
      f (setFixed ent s m i) = f (ent i) := by
    intro β f hf
    unfold setFixed
    rw [update_field f (hf _ _), update_of_ne hi]
  unfold segs
  rw [h BbNode.own fun _ _ => rfl, h BbNode.pairSegnum fun _ _ => rfl]

theorem setPair_segs (hi : i ≠ s) (hm : i ≠ m) : segs (setPair ent s m) i = segs ent i := by
  simp only [segs, setPair, update_of_ne hi, update_of_ne hm]

end

theorem used_succ (ent : Ent) (s : Nat) : used ent (s + 1) = used ent s ++ segs ent s := by
  simp [used, range_succ]

theorem used_congr {ent ent' : Ent} {s : Nat} (h : ∀ i < s, segs ent' i = segs ent i) :
    used ent' s = used ent s :=
  flatMap_congr fun i hi => h i (mem_range.mp hi)

/-! ## The invariant -/

/-- The loop is at `start_segnum = s` and `max_segnum = t-1`. -/
structure Scan (bad : Nat → Bool) (rnos : Nat) (ent : Ent) (s t : Nat) : Prop where
  flag : ∀ i, (ent i).flag = bad i
  origin : ∀ i, (ent i).originSegnum = i * pps
  le : s ≤ t
  le_rnos : t ≤ rnos
  taken : goodFrom bad rnos t = need bad s
  top : (t = rnos ∧ s = 0) ∨ (t < rnos ∧ bad t = false)
  segs : ∀ i < s, ∀ a ∈ segs ent i, ∃ j < rnos, a = j * pps ∧ bad j = false ∧ (j = i ∨ t ≤ j)
  nodup : (used ent s).Nodup

section
variable {bad : Nat → Bool} {rnos s t : Nat} {ent : Ent}

theorem Scan.ok (S : Scan bad rnos ent s t) : TableOk bad rnos ent s := by
  refine TableOk.of_distinct S.origin (fun i hi a ha => ?_) S.nodup
  obtain ⟨j, hj, ha, hg, -⟩ := S.segs i hi a ha
  exact ⟨j, hj, ha, hg⟩

theorem Scan.setFixed (S : Scan bad rnos ent s t) (m : Nat) : Scan bad rnos (setFixed ent s m) s t := by
  have hsegs : ∀ i < s, BadBlock.segs (BadBlock.setFixed ent s m) i = BadBlock.segs ent i :=
    fun i hi => setFixed_segs ent s m i (by omega)
  refine ⟨by simpa using S.flag, by simpa using S.origin, S.le, S.le_rnos, S.taken, S.top,
    fun i hi => ?_, ?_⟩
  · rw [hsegs i hi]; exact S.segs i hi
  · rw [used_congr hsegs]; exact S.nodup

theorem Scan.pair (S : Scan bad rnos ent s t) {o p : Nat} (hown : (ent s).own = o * pps)
    (ho : bad o = false) (hp : bad p = false) (hsp : s < p) (hpt : p < t)
    (hop : o = s ∨ (p < o ∧ o < t)) (hneed : goodFrom bad rnos p = need bad (s + 1)) :
    Scan bad rnos (setPair ent s p) (s + 1) p := by
  have hN := S.le_rnos
  have hsegs : ∀ i < s, BadBlock.segs (setPair ent s p) i = BadBlock.segs ent i :=
    fun i hi => setPair_segs ent s p i (by omega) (by omega)
  have hself : BadBlock.segs (setPair ent s p) s = [o * pps, p * pps] := by
    rw [BadBlock.segs, setPair_own, setPair_pair_self, S.origin, hown]
  have hmul : ∀ a b : Nat, a * pps = b * pps → a = b := fun a b h =>
    Nat.eq_of_mul_eq_mul_right (by decide : 0 < pps) h
  refine ⟨by simpa using S.flag, by simpa using S.origin, hsp, by omega, hneed,
    .inr ⟨by omega, hp⟩, fun i hi a ha => ?_, ?_⟩
  · rcases Nat.lt_succ_iff_lt_or_eq.mp hi with hi | rfl
    · rw [hsegs i hi] at ha
      obtain ⟨j, hj, haj, hg, hjt⟩ := S.segs i hi a ha
      exact ⟨j, hj, haj, hg, by omega⟩
    · rw [hself] at ha
      simp only [mem_cons, not_mem_nil, or_false] at ha
      rcases ha with ha | ha
      · exact ⟨o, by omega, ha, ho, by omega⟩
      · exact ⟨p, by omega, ha, hp, .inr (le_refl p)⟩
  · rw [used_succ, hself, used_congr hsegs]
    refine nodup_append.mpr ⟨S.nodup, ?_, fun a ha b hb he => ?_⟩
    · simp only [nodup_cons, mem_singleton, not_mem_nil, not_false_eq_true, nodup_nil, and_true]
      intro h
      have := hmul _ _ h
      omega
    · obtain ⟨i, hi, hai⟩ := mem_flatMap.mp ha
      have hi := mem_range.mp hi
      obtain ⟨j, -, haj, -, hjt⟩ := S.segs i hi a hai
      simp only [mem_cons, not_mem_nil, or_false] at hb
      rcases hb with hb | hb
      · have := hmul j o (by rw [← haj, he, hb])
        omega
      · have := hmul j p (by rw [← haj, he, hb])
        omega

theorem not_tableOk {n i j a : Nat} (hij : i < j) (hj : j < n) (hi : a ∈ segs ent i)
    (ha : a ∈ segs ent j) : ¬ TableOk bad rnos ent n :=
  fun h => absurd (segs_inj h.distinct (by omega) hj hi ha) (by omega)

/-! ## One round of the loop -/

/-- Every segment strictly between `a` and `b` is bad. -/
def AllBad (bad : Nat → Bool) (a b : Nat) : Prop := ∀ i, a < i → i < b → bad i = true

/-- The rest of a round, after the search for the partner. -/
def afterPair (fuel s : Nat) : Flow → Option (Ent × Nat)
  | .brk ent => some (ent, s)
  | .go ent max => fixLoop fuel ent (s + 1) max

theorem fixLoop_good (S : Scan bad rnos ent s t) (hst : s < t) (hb : bad s = false) (fuel : Nat) :
    (t = s + 1 ∧ fixLoop (fuel + 1) ent s (t - 1) = some (ent, s)) ∨
    ∃ j, s ≤ j ∧ j < t ∧ s + 1 < t ∧ bad j = false ∧ AllBad bad j t ∧
      fixLoop (fuel + 1) ent s (t - 1) = fixLoop fuel (setPair ent s j) (s + 1) (j - 1) := by
  have hrep : replaceBad ent s (t - 1) = some (.go ent (t - 1)) := by simp [replaceBad, S.flag, hb]
  have hloop : fixLoop (fuel + 1) ent s (t - 1) = (findPair ent s (t - 1)).bind (afterPair fuel s) := by
    rw [fixLoop, if_neg (by omega), hrep]; rfl
  rcases skipBad_spec ent (t := t) (by omega) with ⟨-, hall⟩ | ⟨j, hj, k, hk, hmax, hg, hall⟩
  · have := hall s hst
    rw [S.flag, hb] at this; cases this
  · have hsj : s ≤ j := by
      by_contra hlt
      have := hall s (by omega) hst
      rw [S.flag, hb] at this; cases this
    by_cases ht : t = s + 1
    · refine .inl ⟨ht, ?_⟩
      rw [hloop, findPair, hk]
      simp [afterPair, show (t : Int) - 1 ≤ s by omega]
    · refine .inr ⟨j, hsj, hj, by omega, by rw [← S.flag, hg], fun i h1 h2 => ?_, ?_⟩
      · rw [← S.flag]; exact hall i h1 h2
      · rw [hloop, findPair, hk]
        simp only [map_some, bind_some, hmax]
        rw [if_neg (by omega)]
        rfl

theorem fixLoop_bad (S : Scan bad rnos ent s t) (hst : s < t) (hb : bad s = true) (fuel : Nat) :
    ((∀ i < t, bad i = true) ∧ fixLoop (fuel + 1) ent s (t - 1) = none) ∨
    (∃ j < s, bad j = false ∧ AllBad bad j t ∧ fixLoop (fuel + 1) ent s (t - 1) = some (ent, s)) ∨
    ∃ j, s < j ∧ j < t ∧ bad j = false ∧ AllBad bad j t ∧ fixLoop (fuel + 1) ent s (t - 1) =
        (findPair (setFixed ent s j) s (j - 1)).bind (afterPair fuel s) := by
  have hf : (ent s).flag = true := by rw [S.flag, hb]
  have hneg : ¬ (t : Int) - 1 < s := by omega
  rcases skipBad_spec ent (t := t) (by omega) with ⟨hn, hall⟩ | ⟨j, hj, k, hk, hmax, hg, hall⟩
  · refine .inl ⟨fun i hi => by rw [← S.flag, hall i hi], ?_⟩
    rw [fixLoop, if_neg hneg, replaceBad, if_pos hf, hn]; rfl
  · have hgj : bad j = false := by rw [← S.flag, hg]
    have hbad : AllBad bad j t := fun i h1 h2 => by rw [← S.flag]; exact hall i h1 h2
    have hjs : j ≠ s := fun he => by rw [he, hb] at hgj; cases hgj
    rcases Nat.lt_or_gt_of_ne hjs with hlt | hgt
    · refine .inr (.inl ⟨j, hlt, hgj, hbad, ?_⟩)
      rw [fixLoop, if_neg hneg, replaceBad, if_pos hf, hk]
      simp only [map_some, bind_some, hmax]
      rw [if_pos (by omega)]
    · refine .inr (.inr ⟨j, hgt, hj, hgj, hbad, ?_⟩)
      rw [fixLoop, if_neg hneg, replaceBad, if_pos hf, hk]
      simp only [map_some, bind_some, hmax]
      rw [if_neg (by omega)]
      rfl

theorem findPair_bad (S : Scan bad rnos ent s t) (hb : bad s = true) {o : Nat} (hso : s < o) :
    ((∀ i < o, bad i = true) ∧ findPair (setFixed ent s o) s (o - 1) = none) ∨
    ∃ j < o, bad j = false ∧ j ≠ s ∧ AllBad bad j o ∧ findPair (setFixed ent s o) s (o - 1) = some
        (if o = s + 1 then .brk (setFixed ent s o) else .go (setPair (setFixed ent s o) s j) (j - 1)) := by
  rcases skipBad_spec (setFixed ent s o) (t := o) (by omega) with
    ⟨hn, hall⟩ | ⟨j, hj, k, hk, hmax, hg, hall⟩
  · refine .inl ⟨fun i hi => ?_, by rw [findPair, hn]; rfl⟩
    have := hall i hi
    rwa [setFixed_flag, S.flag] at this
  · rw [setFixed_flag, S.flag] at hg
    refine .inr ⟨j, hj, hg, fun he => ?_, fun i h1 h2 => ?_, ?_⟩
    · rw [he, hb] at hg; cases hg
    · have := hall i h1 h2
      rwa [setFixed_flag, S.flag] at this
    · rw [findPair, hk]
      simp only [map_some, hmax]
      by_cases ho : o = s + 1
      · rw [if_pos (by omega), if_pos ho]
      · rw [if_neg (by omega), if_neg ho]; rfl

/-! ## The whole scan -/

/-- The scan returns a table that is sound. -/
def Sound (bad : Nat → Bool) (rnos : Nat) (res : Option (Ent × Nat)) : Prop :=
  ∃ ent n, res = some (ent, n) ∧ TableOk bad rnos ent n

theorem sound_some {n : Nat} : Sound bad rnos (some (ent, n)) ↔ TableOk bad rnos ent n := by
  constructor
  · intro ⟨ent', n', he, h⟩
    cases he; exact h
  · intro h
    exact ⟨ent, n, rfl, h⟩

theorem not_sound_none : ¬ Sound bad rnos none := by
  intro h
  obtain ⟨_, _, he, -⟩ := h
  cases he

theorem fixLoop_passed {fuel : Nat} (hf : 0 < fuel) {j : Int} (hj : j < s) :
    fixLoop fuel ent s j = some (ent, s) := by
  obtain ⟨k, rfl⟩ : ∃ k, fuel = k + 1 := ⟨fuel - 1, by omega⟩
  rw [fixLoop, if_pos hj]

theorem sound_good (S : Scan bad rnos ent s t) (hst : s < t) (hb : bad s = false)
    (hpre : ∀ i < s, need bad (i + 1) ≤ goodFrom bad rnos (i + 1)) {fuel : Nat} (hf : 0 < fuel)
    (ih : ∀ ent' t', Scan bad rnos ent' (s + 1) t' →
      (∀ i < s + 1, need bad (i + 1) ≤ goodFrom bad rnos (i + 1)) →
      (Sound bad rnos (fixLoop fuel ent' (s + 1) (t' - 1)) ↔ MiddleOk bad rnos)) :
    Sound bad rnos (fixLoop (fuel + 1) ent s (t - 1)) ↔ MiddleOk bad rnos := by
  have hN := S.le_rnos
  have htaken := S.taken
  have hneed : need bad (s + 1) = need bad s + 1 := by simp [need, hb]
  rcases fixLoop_good S hst hb fuel with ⟨ht, hres⟩ | ⟨j, hsj, hjt, hst', hg, hall, hres⟩
  · -- the loop stops right below a good segment, or at the end of the device
    have hgf : goodFrom bad rnos (s + 1) = goodFrom bad rnos t := by rw [ht]
    rw [hres, sound_some, middleOk_iff (n := s) (by omega) hpre (by omega)]
    refine iff_of_true S.ok ?_
    rw [EndOk, if_neg (by simp [hb]), ← ht]
    rcases S.top with ⟨h, -⟩ | ⟨-, h⟩
    · exact .inr (.inl h)
    · exact .inr (.inr h)
  · have hstep := goodFrom_step bad rnos (k := j) (by omega)
    have hskip := goodFrom_skip rnos (j := j + 1) (k := t) (by omega) hN fun i h1 h2 => hall i (by omega) h2
    simp only [hg, Bool.false_eq_true, if_false] at hstep
    rw [hres]
    rcases Nat.lt_or_eq_of_le hsj with hlt | rfl
    · have hS := S.pair (o := s) (p := j) (by simp [BbNode.own, S.flag, hb, S.origin]) hb hg hlt hjt
        (.inl rfl) (by omega)
      refine ih _ _ hS fun i hi => ?_
      rcases Nat.lt_succ_iff_lt_or_eq.mp hi with h | rfl
      · exact hpre i h
      · rw [← hS.taken]; exact goodFrom_anti bad rnos (by omega)
    · -- nothing good is left above: the segment becomes its own partner
      rw [fixLoop_passed hf (by omega), sound_some, middleOk_iff (n := s) (by omega) hpre (by omega)]
      refine iff_of_false (fun h => ?_) ?_
      · refine own_ne_pair h.distinct (i := s) (by omega) ?_
        rw [setPair_own, setPair_pair_self]
        simp [BbNode.own, S.flag, hb]
      · rw [EndOk, if_neg (by simp [hb]), hall (s + 1) (by omega) hst']
        simp only [Bool.true_eq_false, or_false]
        omega

theorem sound_bad (S : Scan bad rnos ent s t) (hst : s < t) (hb : bad s = true)
    (hpre : ∀ i < s, need bad (i + 1) ≤ goodFrom bad rnos (i + 1)) {fuel : Nat} (hf : 0 < fuel)
    (ih : ∀ ent' t', Scan bad rnos ent' (s + 1) t' →
      (∀ i < s + 1, need bad (i + 1) ≤ goodFrom bad rnos (i + 1)) →
      (Sound bad rnos (fixLoop fuel ent' (s + 1) (t' - 1)) ↔ MiddleOk bad rnos)) :
    Sound bad rnos (fixLoop (fuel + 1) ent s (t - 1)) ↔ MiddleOk bad rnos := by
  have hN := S.le_rnos
  have htaken := S.taken
  have hneed : need bad (s + 1) = need bad s + 2 := by simp [need, hb]
  have hend : EndOk bad rnos s ↔ (∃ j < s, bad j = false) ∧
      (goodFrom bad rnos (s + 1) = need bad s + 1 → bad (s + 1) = false) := by rw [EndOk, if_pos hb]
  have hno : (∀ i < s, bad i = true) → ¬ EndOk bad rnos s := by
    intro h he
    obtain ⟨⟨j, hj, hg⟩, -⟩ := hend.mp he
    rw [h j hj] at hg; cases hg
  rcases fixLoop_bad S hst hb fuel with ⟨hall, hres⟩ | ⟨j, hj, hg, hall, hres⟩ |
    ⟨o, hso, hot, hgo, hallo, hres⟩
  · -- no good segment at all is left below `t`
    have hskip := goodFrom_skip rnos (j := s + 1) (k := t) (by omega) hN fun i _ h2 => hall i h2
    rw [hres, middleOk_iff (n := s) (by omega) hpre (by omega)]
    exact iff_of_false not_sound_none (hno fun i hi => hall i (by omega))
  · have hskip := goodFrom_skip rnos (j := s + 1) (k := t) (by omega) hN fun i h1 h2 => hall i (by omega) h2
    rw [hres, sound_some, middleOk_iff (n := s) (by omega) hpre (by omega), hend]
    exact iff_of_true S.ok ⟨⟨j, hj, hg⟩, fun h => by omega⟩
  · have hskip := goodFrom_skip rnos (j := o + 1) (k := t) (by omega) hN fun i h1 h2 => hallo i (by omega) h2
    have hstep := goodFrom_step bad rnos (k := o) (by omega)
    simp only [hgo, Bool.false_eq_true, if_false] at hstep
    rw [hres]
    rcases findPair_bad S hb hso with ⟨hall, hfind⟩ | ⟨j, hjo, hg, hjs, hall, hfind⟩
    · have hskip' := goodFrom_skip rnos (j := s + 1) (k := o) (by omega) (by omega) fun i _ h2 => hall i h2
      rw [hfind, middleOk_iff (n := s) (by omega) hpre (by omega)]
      exact iff_of_false not_sound_none (hno fun i hi => hall i (by omega))
    · rw [hfind]
      by_cases ho : o = s + 1
      · -- the replacement is the last good segment above: the loop stops
        have hgf : goodFrom bad rnos (s + 1) = goodFrom bad rnos o := by rw [ho]
        rw [if_pos ho, middleOk_iff (n := s) (by omega) hpre (by omega), hend]
        exact iff_of_true (sound_some.mpr (S.setFixed o).ok) ⟨⟨j, by omega, hg⟩, fun _ => ho ▸ hgo⟩
      · rw [if_neg ho]
        rcases Nat.lt_or_gt_of_ne hjs with hlt | hgt
        · -- the partner is a segment that already serves itself
          have hskip' := goodFrom_skip rnos (j := s + 1) (k := o) (by omega) (by omega)
            fun i h1 h2 => hall i (by omega) h2
          simp only [bind_some, afterPair]
          rw [fixLoop_passed hf (by omega), sound_some, middleOk_iff (n := s) (by omega) hpre (by omega),
            hend]
          refine iff_of_false ?_ ?_
          · refine not_tableOk (a := j * pps) hlt (Nat.lt_succ_self s) ?_ ?_
            · rw [segs, setPair_own, BbNode.own, setFixed_flag, setFixed_origin, S.flag, S.origin, hg]
              simp
            · rw [segs, setPair_pair_self, setFixed_origin, S.origin]
              simp
          · intro h
            have := h.2 (by omega)
            rw [hall (s + 1) (by omega) (by omega)] at this; cases this
        · have hskip' := goodFrom_skip rnos (j := j + 1) (k := o) (by omega) (by omega)
            fun i h1 h2 => hall i (by omega) h2
          have hstep' := goodFrom_step bad rnos (k := j) (by omega)
          simp only [hg, Bool.false_eq_true, if_false] at hstep'
          have hS := (S.setFixed o).pair (o := o) (p := j)
            (by rw [setFixed_own_self ent s o (by rw [S.flag, hb]), S.origin]) hgo hg hgt (by omega)
            (.inr ⟨hjo, hot⟩) (by omega)
          refine ih _ _ hS fun i hi => ?_
          rcases Nat.lt_succ_iff_lt_or_eq.mp hi with h | rfl
          · exact hpre i h
          · rw [← hS.taken]; exact goodFrom_anti bad rnos (by omega)

theorem fixLoop_iff {fuel : Nat} (S : Scan bad rnos ent s t)
    (hpre : ∀ i < s, need bad (i + 1) ≤ goodFrom bad rnos (i + 1)) (hf : rnos < s + fuel) :
    Sound bad rnos (fixLoop fuel ent s (t - 1)) ↔ MiddleOk bad rnos := by
  induction fuel generalizing ent s t with
  | zero => have := S.le; have := S.le_rnos; omega
  | succ fuel ih =>
    have hN := S.le_rnos
    rcases Nat.lt_or_eq_of_le S.le with hst | rfl
    · have ih' : ∀ ent' t', Scan bad rnos ent' (s + 1) t' →
          (∀ i < s + 1, need bad (i + 1) ≤ goodFrom bad rnos (i + 1)) →
          (Sound bad rnos (fixLoop fuel ent' (s + 1) (t' - 1)) ↔ MiddleOk bad rnos) :=
        fun ent' t' S' hpre' => ih S' hpre' (by omega)
      cases hb : bad s with
      | true => exact sound_bad S hst hb hpre (by omega) ih'
      | false => exact sound_good S hst hb hpre (by omega) ih'
    · rw [fixLoop_passed (by omega) (by omega), sound_some]
      refine iff_of_true S.ok ?_
      rcases S.top with ⟨h, h0⟩ | ⟨hlt, hg⟩
      · intro n hn
        omega
      · have hstep := goodFrom_step bad rnos hlt
        simp only [hg, Bool.false_eq_true, if_false] at hstep
        have := S.taken
        rw [middleOk_iff hlt hpre (by simp only [need, hg, Bool.false_eq_true, if_false]; omega)]
        rw [EndOk, if_neg (by simp [hg])]
        exact .inl (by omega)

end

theorem scan_start (bad : Nat → Bool) (rnos : Nat) : Scan bad rnos (bbCheckerStart bad) 0 rnos :=
  ⟨fun _ => rfl, fun _ => rfl, Nat.zero_le _, Nat.le_refl _, goodFrom_of_le (Nat.le_refl _),
    .inl ⟨rfl, rfl⟩, fun i hi => by omega, by simp [used]⟩

theorem fixing_iff (bad : Nat → Bool) (rnos : Nat) :
    Sound bad rnos (bbCheckerFixing rnos (bbCheckerStart bad)) ↔ MiddleOk bad rnos :=
  fixLoop_iff (scan_start bad rnos) (fun i hi => by omega) (by omega)

/-- For which flags the table is sound. -/
theorem bad_segment_table (bad : Nat → Bool) (rnos : Nat) :
    (∃ ent n, bbCheckerFixing rnos (bbCheckerStart bad) = some (ent, n) ∧ TableOk bad rnos ent n) ↔
      MiddleOk bad rnos :=
  fixing_iff bad rnos

example (rnos : Nat) : MiddleOk (fun _ => false) rnos := by
  intro n _ _ _
  simp [EndOk]

/-- The two segments that `bb_checker_static_bad` always marks, and one in the middle. -/
def oneMoreBad (s : Nat) : Bool := s == 515 || s == 2047 || s == 4062

/-- A device of 4096 segments with these: segment 2046 is its own partner. -/
theorem middle_segment_bad :
    ¬ ∃ ent n, bbCheckerFixing 4096 (bbCheckerStart oneMoreBad) = some (ent, n) ∧
      TableOk oneMoreBad 4096 ent n := by
  have hgood : ∀ {i}, i ≠ 515 → i ≠ 2047 → i ≠ 4062 → oneMoreBad i = false := by
    intro i h1 h2 h3
    simp [oneMoreBad, h1, h2, h3]
  have hlow : ∀ s ≤ 515, need oneMoreBad s = s := by
    intro s hs
    rw [need_stretch (Nat.zero_le s) fun i _ hi => hgood (by omega) (by omega) (by omega)]
    simp [need]
  have hhigh : ∀ s, 516 ≤ s → s ≤ 2047 → need oneMoreBad s = s + 1 := by
    intro s h1 h2
    have h516 : need oneMoreBad 516 = 517 := by
      rw [need, hlow 515 le_rfl]
      rfl
    rw [need_stretch h1 fun i _ hi => hgood (by omega) (by omega) (by omega), h516]
    omega
  have h4062 : goodFrom oneMoreBad 4096 4062 = 33 := by
    rw [goodFrom_step _ _ (by omega), goodFrom_stretch (k := 4096) (by omega) le_rfl fun i _ _ =>
      hgood (by omega) (by omega) (by omega), goodFrom_of_le le_rfl]
    rfl
  have h2047 : goodFrom oneMoreBad 4096 2047 = 2047 := by
    rw [goodFrom_step _ _ (by omega), goodFrom_stretch (k := 4062) (by omega) (by omega) fun i _ _ =>
      hgood (by omega) (by omega) (by omega), h4062]
    rfl
  have h2046 : goodFrom oneMoreBad 4096 2046 = 2048 := by
    rw [goodFrom_step _ _ (by omega), h2047]
    rfl
  refine fun h => absurd ((fixing_iff _ _).mp h 2046 (by omega) (fun i hi => ?_) ?_) ?_
  · have := goodFrom_anti oneMoreBad 4096 (j := i + 1) (k := 2046) (by omega)
    rcases Nat.lt_or_ge (i + 1) 516 with h1 | h1
    · rw [hlow (i + 1) (by omega)]
      omega
    · rw [hhigh (i + 1) h1 (by omega)]
      omega
  · rw [hhigh 2047 (by omega) le_rfl, h2047]
    omega
  · rw [EndOk, if_neg (by decide), h2047, hhigh 2046 (by omega) (by omega)]
    decide

end FlashDriver.BadBlock
