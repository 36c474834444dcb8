import FlashDriver.Demand.Probe

/-!
# What a flush leaves in the mapping table

`Since` follows the flush step by step, from the state in which it began.

* `flushed`: a flush that ends has put every entry's page into a slot the entry
  owns, has invalidated the page each overwritten key had before, once, and has
  left the other slots alone.
-/
namespace FlashDriver.Demand

open List Option Function
open Core.Probing

variable {κ υ : Type} {sys : Sys κ} {s0 s s' : St κ υ} {k : κ} {t : Nat}

/-! ## Since the flush began -/

/-- What the flush that began in `s0` has done. -/
structure Since (s0 s : St κ υ) : Prop where
  same : s.flushing = s0.flushing ∧ s.wb = s0.wb ∧ s.ppa = s0.ppa
  grows : Grows s0.owner s.owner
  kept : ∀ lpa, (∀ k, s.owner lpa = some k → k ∉ s.updated) →
    s.cache.memTable lpa = s0.cache.memTable lpa
  gone : ∃ l, s.invalid = s0.invalid ++ l ∧ l.Nodup ∧ ∀ p, p ∈ l ↔
    ∃ k ∈ s.updated, ∃ lpa, s0.owner lpa = some k ∧ s0.cache.memTable lpa = some p

theorem since_refl (hu : s.updated = []) : Since s s := by
  refine ⟨⟨rfl, rfl, rfl⟩, fun _ _ => id, fun _ _ => rfl, [], by simp, nodup_nil, fun p => ?_⟩
  simp [hu]

theorem Since.congr (h : Since s0 s) (hf : s'.flushing = s.flushing) (hw : s'.wb = s.wb)
    (hp : s'.ppa = s.ppa) (ho : s'.owner = s.owner)
    (hm : s'.cache.memTable = s.cache.memTable) (hu : s'.updated = s.updated)
    (hi : s'.invalid = s.invalid) : Since s0 s' := by
  refine ⟨⟨hf.trans h.same.1, hw.trans h.same.2.1, hp.trans h.same.2.2⟩, ?_, fun lpa hl => ?_, ?_⟩
  · rw [ho]
    exact h.grows
  · rw [hm]
    rw [ho, hu] at hl
    exact h.kept lpa hl
  · rw [hi, hu]
    exact h.gone

theorem Since.quiet (h : Since s0 s) (hq : Quiet s s') : Since s0 s' := by
  have ho := hq.owner
  have hm := hq.table
  obtain ⟨c, x, u, m, q, r, d, l, rfl⟩ := hq.rest
  exact h.congr rfl rfl rfl ho hm rfl rfl

theorem Since.kept_update (h : Since s0 s) (hp : Probed sys s) (hk : Holds s k) (lpa : Nat)
    (hl : ∀ k', (wbDirectUpdate sys s k).owner lpa = some k' → k' ∉ s.updated ++ [k]) :
    (wbDirectUpdate sys s k).cache.memTable lpa = s0.cache.memTable lpa := by
  have hm : (wbDirectUpdate sys s k).cache.memTable =
      update s.cache.memTable (s.lpa sys (.entry k)) (some (s.ppa k)) :=
    (update_cases sys.toCfg s.cache (s.lpa sys (.entry k)) (s.ppa k)).1
  rw [owner_directUpdate hp hk] at hl
  have hne : lpa ≠ s.lpa sys (.entry k) := by
    rintro rfl
    exact hl k (update_self ..) (by simp)
  rw [update_of_ne hne] at hl
  rw [hm, update_of_ne hne]
  exact h.kept lpa fun k' hk' hu => hl k' hk' (mem_append_left _ hu)

theorem Since.claim (h : Since s0 s) (hp : Probed sys s) (hk : Holds s k)
    (hm : s.cache.memTable (s.lpa sys (.entry k)) = none) : Since s0 (wbDirectUpdate sys s k) := by
  have hfree := owner_of_free hm
  have hnew : ∀ lpa, s0.owner lpa ≠ some k := fun lpa ho =>
    hp.table.absent (hp.passed (.entry k)) hfree (h.grows lpa k ho)
  obtain ⟨l, hi, hnd, hl⟩ := h.gone
  refine ⟨h.same, ?_, h.kept_update hp hk, l, hi, hnd, fun p => (hl p).trans ?_⟩
  · rw [owner_directUpdate hp hk]
    exact fun lpa k' ho => grows_update hfree k lpa k' (h.grows lpa k' ho)
  · constructor
    · intro ⟨k', hu, hx⟩
      exact ⟨k', mem_append_left _ hu, hx⟩
    · intro ⟨k', hu, lpa, ho, hx⟩
      rcases mem_append.mp hu with hu | hu
      · exact ⟨k', hu, lpa, ho, hx⟩
      · rw [mem_singleton.mp hu] at ho
        exact absurd ho (hnew lpa)

theorem Since.first_page (h : Since s0 s) (h0 : Probed sys s0) (hk : Holds s k) {lpa p : Nat}
    (ho : s.owner lpa = some k) (hm : s.cache.memTable lpa = some p) :
    s0.cache.memTable lpa = some p ∧ s0.owner lpa = some k := by
  have hp : s0.cache.memTable lpa = some p := by
    rw [← h.kept lpa fun k' hk' hu => ?_]
    · exact hm
    · rw [ho] at hk'
      exact hk.unfinished (some.inj hk' ▸ hu)
  obtain ⟨-, k', hk'⟩ := h0.owned lpa p hp
  have ho' := (owner_of_mapped hp).trans hk'
  have := (h.grows lpa k' ho').symm.trans ho
  rw [some.inj this] at ho'
  exact ⟨hp, ho'⟩

theorem Since.overwrite (h : Since s0 s) (h0 : Probed sys s0) (hp : Probed sys s) (hk : Holds s k)
    (ho : s.owner (s.lpa sys (.entry k)) = some k) : Since s0 (wbUpdate sys s k) := by
  obtain ⟨p, hm, -⟩ := owner_some ho
  have hs : wbUpdate sys s k = (wbDirectUpdate sys s k).invalidate p := by
    unfold wbUpdate cgGetPte
    rw [hm]
    rfl
  obtain ⟨hm0, ho0⟩ := h.first_page h0 hk ho hm
  obtain ⟨l, hi, hnd, hl⟩ := h.gone
  have hown : (wbUpdate sys s k).owner = s.owner := by
    have : (wbUpdate sys s k).owner = (wbDirectUpdate sys s k).owner := by
      rw [hs]
      rfl
    rw [this, owner_directUpdate hp hk, ← ho, update_eq_self]
  have hpl : p ∉ l := by
    intro hpl
    obtain ⟨k', hu, lpa, ho', hm'⟩ := (hl p).mp hpl
    rw [owner_of_mapped hm'] at ho'
    rw [owner_of_mapped hm0, ho'] at ho0
    exact hk.unfinished (some.inj ho0 ▸ hu)
  refine ⟨?_, ?_, ?_, l ++ [p], ?_, ?_, fun q => ?_⟩
  · rw [hs]
    exact h.same
  · rw [hown]
    exact h.grows
  · rw [hs]
    exact h.kept_update hp hk
  · rw [hs, ← append_assoc, ← hi]
    rfl
  · rw [nodup_append]
    refine ⟨hnd, nodup_singleton p, fun a ha b hb he => hpl ?_⟩
    rw [← mem_singleton.mp hb, ← he]
    exact ha
  · have hu : (wbUpdate sys s k).updated = s.updated ++ [k] := by
      rw [hs]
      rfl
    rw [hu, mem_append, hl q]
    constructor
    · rintro (⟨k', hk', hx⟩ | hq)
      · exact ⟨k', mem_append_left _ hk', hx⟩
      · rw [mem_singleton.mp hq]
        exact ⟨k, by simp, _, ho0, hm0⟩
    · intro ⟨k', hk', lpa, ho', hx⟩
      rcases mem_append.mp hk' with hk' | hk'
      · exact .inl ⟨k', hk', lpa, ho', hx⟩
      · rw [mem_singleton.mp hk'] at ho'
        rw [h0.table.unique ho' ho0] at hx
        exact .inr (mem_singleton.mpr (some.inj (hx.symm.trans hm0)))

section Steps

variable [LinearOrder κ]

theorem since_dataCheck (h : Since s0 s) (hp : Probed sys s) (hk : Holds s k) :
    Since s0 (wbDataCheck sys s k) := by
  unfold wbDataCheck cgGetPte
  split
  · rename_i hm
    exact h.claim hp hk hm
  · split
    · exact h.congr rfl rfl rfl rfl rfl rfl rfl
    · exact h.congr rfl rfl rfl rfl rfl rfl rfl

theorem since_probe (h : Since s0 s) (h0 : Probed sys s0) (hp : Probed sys s) (hk : Holds s k)
    (hr : wbProbe sys s k t = some s') : Since s0 s' := by
  obtain ⟨s1, hq, rfl | rfl | ⟨hj, rfl⟩⟩ := wbProbe_cases hr
  · exact h.quiet hq
  · exact since_dataCheck (h.quiet hq) (hp.quiet hq) (hk.quiet hq)
  · refine (h.quiet hq).overwrite h0 (hp.quiet hq) (hk.quiet hq) ?_
    rw [hq.owner, hq.lpa_eq]
    exact hp.matched k hj

theorem since_step {l : Lbl κ υ} (h : Since s0 s) (h0 : Probed sys s0) (hp : Probed sys s)
    (hpl : Places sys s none none) (hf : s.flushing.isSome) (hl : l ≠ .finish)
    (hs : step sys s l = some s') : Since s0 s' := by
  have hidle : ¬ s.flushing = none := by
    intro hn
    rw [hn] at hf
    cases hf
  cases step_cases hs with
  | read hn _ => exact absurd hn hidle
  | resume hn _ _ => exact absurd hn hidle
  | write hn => exact absurd hn hidle
  | flush hn _ => exact absurd hn hidle
  | take _ ht => exact h.quiet (takeEntry_quiet ht)
  | probe hc hpr => exact since_probe h h0 hp (hpl.holds hc) hpr
  | finish _ _ _ => exact absurd rfl hl
  | @complete n op _ =>
    obtain ⟨x, m, q, r, l, d, hr⟩ := endReq_form sys { s with dev := s.dev.eraseIdx n } op
    rw [hr]
    exact h.congr rfl rfl rfl rfl rfl rfl rfl

/-- What a flush of the buffer of `s0` to the pages `assign` leaves in `s`. -/
structure Flushed (s0 : St κ υ) (assign : κ → Nat) (s : St κ υ) : Prop where
  placed : ∀ e ∈ s0.wb, ∃ lpa, s.owner lpa = some e.1 ∧
    s.cache.memTable lpa = some (assign e.1) ∧ s.flash (assign e.1) = some e
  gone : ∃ l, s.invalid = s0.invalid ++ l ∧ l.Nodup ∧ ∀ p, p ∈ l ↔
    ∃ e ∈ s0.wb, ∃ lpa, s0.owner lpa = some e.1 ∧ s0.cache.memTable lpa = some p
  kept : ∀ lpa, (∀ e ∈ s0.wb, s.owner lpa ≠ some e.1) → s.cache.memTable lpa = s0.cache.memTable lpa
  grows : Grows s0.owner s.owner

theorem since_exec {mid : List (Lbl κ υ)} (hpl : Places sys s0 none none) (hp : Probed sys s0)
    (hf : s0.flushing.isSome) (hu : s0.updated = []) (h : ((demandLTS sys).after s0).Exec mid s)
    (hmid : .finish ∉ mid) : Places sys s none none ∧ Probed sys s ∧ Since s0 s := by
  induction h with
  | init h =>
    cases h
    exact ⟨hpl, hp, since_refl hu⟩
  | @step tr s1 s2 l _ hs ih =>
    have hl : l ≠ .finish := by
      rintro rfl
      exact hmid (by simp)
    obtain ⟨hpl1, hp1, hs1⟩ := ih fun hm => hmid (mem_append_left _ hm)
    refine ⟨places_step hpl1 hs.1, probed_step hp1 hpl1 hs.2 hs.1, ?_⟩
    exact since_step hs1 hp hp1 hpl1 (hs1.same.1 ▸ hf) hl hs.1

omit [LinearOrder κ] in
theorem owner_finish (wb : List (κ × υ)) (hf : s.flushing.isSome) :
    { endFlush s with wb := wb }.owner = s.owner := by
  have hd : { endFlush s with wb := wb }.dataAt = s.dataAt := by
    funext p
    rw [dataAt_idle rfl, St.dataAt, if_pos hf]
    rfl
  funext lpa
  show Option.bind _ _ = _
  rw [St.owner]
  refine congrArg (Option.bind _) (funext fun p => ?_)
  rw [St.keyAt, St.keyAt, hd]

theorem flushed {tr mid : List (Lbl κ υ)} {v : υ} {assign : κ → Nat} {s1 s2 : St κ υ}
    (h0 : (demandLTS sys).Exec tr s0) (hb : (demandLTS sys).step s0 (.flush k v assign) s1)
    (hm : ((demandLTS sys).after s1).Exec mid s2) (hmid : .finish ∉ mid)
    (he : (demandLTS sys).step s2 .finish s) : Flushed s0 assign s := by
  obtain ⟨hpl0, hp0⟩ := h0.inv (probed_inductive sys)
  obtain ⟨hpl1, hp1⟩ := (h0.step hb).inv (probed_inductive sys)
  obtain ⟨hb, ha⟩ := hb
  simp only [step] at hb
  split at hb
  · rename_i hf0
    cases hb
    have hf0 := isNone_iff_eq_none.mp hf0.1
    obtain ⟨hpl2, hp2, hsince⟩ := since_exec hpl1 hp1 rfl rfl hm hmid
    obtain ⟨hflush, hwb, hppa⟩ := hsince.same
    have hf2 : s2.flushing.isSome := by rw [hflush]; rfl
    have ho1 : (beginFlush s0 (k, v) assign).owner = s0.owner := owner_beginFlush hp0 hf0 ha
    replace he := he.1
    simp only [step] at he
    split at he
    · rename_i k' v' _
      split at he
      · rename_i hg
        cases he
        have hall : ∀ e ∈ s0.wb, e.1 ∈ s2.updated := fun e he => by
          refine hpl2.all_updated hf2 hg.2.1 e.1 (mem_map.mpr ⟨e, ?_, rfl⟩)
          rw [hwb]
          exact he
        have hown : ∀ k1 ∈ s2.updated, ∃ e ∈ s0.wb, e.1 = k1 := fun k1 hk1 => by
          have := hpl2.dues.known hf2 k1 hk1
          rw [hwb] at this
          obtain ⟨e, he, rfl⟩ := mem_map.mp this
          exact ⟨e, he, rfl⟩
        have ho := owner_finish (wbInsert k' v' (endFlush s2).wb) hf2
        constructor
        case placed =>
          intro e he
          have he2 : e ∈ s2.wb := by
            rw [hwb]
            exact he
          obtain ⟨lpa, hlpa⟩ := hp2.stored hf2 e.1 (hall e he)
          have hdata := hp2.dataAt_ppa hf2 he2
          rw [hppa] at hlpa hdata
          refine ⟨lpa, ?_, hlpa, ?_⟩
          · rw [ho, owner_of_mapped hlpa]
            exact keyAt_eq_of_data hdata
          · rw [St.dataAt, if_pos hf2] at hdata
            exact hdata
        case gone =>
          obtain ⟨l, hi, hnd, hl⟩ := hsince.gone
          refine ⟨l, hi, hnd, fun p => (hl p).trans ?_⟩
          rw [ho1]
          refine ⟨fun hx => ?_, fun hx => ?_⟩
          · obtain ⟨k1, hk1, hx⟩ := hx
            obtain ⟨e, he, rfl⟩ := hown k1 hk1
            exact ⟨e, he, hx⟩
          · obtain ⟨e, he, hx⟩ := hx
            exact ⟨e.1, hall e he, hx⟩
        case kept =>
          intro lpa hne
          rw [ho] at hne
          refine hsince.kept lpa fun k1 hk1 hu => ?_
          obtain ⟨e, he, rfl⟩ := hown k1 hu
          exact hne e he hk1
        case grows =>
          rw [ho, ← ho1]
          exact hsince.grows
      · cases he
    · cases he
  · cases hb

end Steps

end FlashDriver.Demand
