import FlashDriver.Core.LTS
import FlashDriver.Lsmtree.Leveling

/-!
# Filters cover their levels (`lsm_find_run`, `leveling`)

`lsm_find_run` skips a level whose filter rejects the key, so every key of a
level must pass its filter. Every compaction starts from a filter with no
bits; taking over a source and merging in software fill it, but the
pipelined and the device merge do not. They are reached from a level that is
not empty and not cached, under `PIPE`, and under `MIXEDCOMP` at the last
level; under `HW` the test is left out there.

* `fillLevel_covers`: outside those merges a fill covers its level.
* `filters_cover`: in every run of `leveling` calls without such a merge, no
  stored key is skipped by its level's filter.
* `filter_hides_pipe`: two flushes under `PIPE` hide every key of level 0.
-/
namespace FlashDriver.Lsmtree

open List Option Function
open FlashDriver.Core

variable {π : Type}

/-- Every stored key passes the filter. -/
def Level.Covers (l : Level π) : Prop := ∀ r ∈ l.runs, ∀ e ∈ r, bfCheck l.filter e.key = true

/-- A filter that has no probes, or none at all, accepts every key. -/
def Dim.AcceptsAll (d : Dim) : Prop := ∀ z ∈ d.filter, z.k = 0

/-- The merges into a fresh level `des` that leave its filter without the keys. -/
def Blind (cfg : Cfg π) (des : Nat) (origin : Level π) : Prop :=
  origin.runs ≠ [] ∧ cfg.levelCaching ≤ des ∧
    (cfg.compOpt = .pipe ∨ cfg.compOpt = .mixedcomp ∧ des = cfg.levelN - 1)

/-- The calls that keep the filters: a blind merge only where the filter accepts every key. -/
def KeepsFilter (cfg : Cfg π) (disk : Disk π) : LevelingCall π → Prop
  | .flush _ d => Blind cfg 0 (disk 0) → d.AcceptsAll
  | .down _ j d _ => Blind cfg j (disk j) → d.AcceptsAll

instance (d : Dim) : Decidable d.AcceptsAll := inferInstanceAs (Decidable (∀ z ∈ d.filter, z.k = 0))

instance (cfg : Cfg π) (des : Nat) (origin : Level π) : Decidable (Blind cfg des origin) :=
  inferInstanceAs (Decidable (_ ∧ _))

instance (cfg : Cfg π) (disk : Disk π) : ∀ c, Decidable (KeepsFilter cfg disk c)
  | .flush _ d => inferInstanceAs (Decidable (Blind cfg 0 (disk 0) → d.AcceptsAll))
  | .down _ j d _ => inferInstanceAs (Decidable (Blind cfg j (disk j) → d.AcceptsAll))

/-- The levels of `lsm_find_run` whose filter is consulted. -/
def Consulted (cfg : Cfg π) (i : Nat) : Prop := ¬ (i ≥ cfg.levelCaching ∧ cfg.compOpt = .hw)

/-! ## Filling a level -/

theorem accepts_init {d : Dim} (h : d.AcceptsAll) (k : Key) :
    bfCheck (Level.init d : Level π).filter k = true := by
  cases hd : d.filter with
  | none => simp [Level.init, hd, bfCheck]
  | some z =>
    have hz : z.k = 0 := h z (by simp [hd])
    simp [Level.init, hd, bfCheck, BF.check, BF.probes, BF.init, hz]

theorem setKeys_covers {t : Level π} {es : List (Keyset π)} {e : Keyset π} (he : e ∈ es) :
    bfCheck (t.setKeys es).filter e.key = true :=
  bfCheck_foldl t.filter (keys es) (.inl (mem_map_of_mem he))

theorem compactionEmptyLevel_covers {up : Upper π} {d : Dim} {l : Level π}
    (hup : ∀ i src, up = .level i src → src.Covers)
    (h : compactionEmptyLevel up (.init d) = some l) : l.Covers := by
  cases up with
  | mem chunk =>
    obtain rfl := insert_spec h
    intro r hr e he
    have hr : r = chunk := by simpa [Level.setKeys, Level.init] using hr
    exact setKeys_covers (hr ▸ he)
  | level idx src =>
    rw [compactionEmptyLevel, Level.levCopy] at h
    split at h
    · cases h
    · cases h
      exact hup idx src rfl

theorem partialLeveling_covers {cfg : Cfg π} {up : Upper π} {origin : Level π} {d : Dim}
    {l : Level π} (h : partialLeveling cfg up origin (.init d) = some l) : l.Covers := by
  obtain ⟨lower, _, h⟩ := bind_eq_some_iff.mp h
  obtain ⟨upper, _, h⟩ := bind_eq_some_iff.mp h
  obtain ⟨⟨pages, inv⟩, _, h⟩ := bind_eq_some_iff.mp h
  have hl := insert_foldlM h
  subst hl
  intro r hr e he
  exact setKeys_covers (mem_flatten.mpr ⟨r, by simpa [Level.setKeys, Level.init] using hr, he⟩)

theorem hwPartialLeveling_filter {cfg : Cfg π} {up : Upper π} {origin t l : Level π}
    (h : hwPartialLeveling cfg up origin t = some l) : l.filter = t.filter := by
  unfold hwPartialLeveling at h
  split at h
  · cases h
  · split at h
    · cases h
    · obtain ⟨kt, _, h⟩ := bind_eq_some_iff.mp h
      rw [insert_foldlM h]

theorem ptLeveling_filter {cfg : Cfg π} {up : Upper π} {origin t l : Level π}
    (h : ptLeveling cfg up origin t = some l) (hn : cfg.compOpt ≠ .non) : l.filter = t.filter := by
  rw [ptLeveling] at h
  split at h
  · contradiction
  · obtain ⟨r, _, h⟩ := bind_eq_some_iff.mp h
    rw [insert_foldlM h]
  · exact hwPartialLeveling_filter h
  · exact hwPartialLeveling_filter h

theorem fillLevel_covers {cfg : Cfg π} {up : Upper π} {des : Nat} {origin l : Level π} {d : Dim}
    (hc : Consulted cfg des) (hup : ∀ i src, up = .level i src → src.Covers)
    (hk : Blind cfg des origin → d.AcceptsAll)
    (h : fillLevel cfg up des origin (.init d) = some l) : l.Covers := by
  rw [fillLevel] at h
  split at h
  · exact compactionEmptyLevel_covers hup h
  rename_i hne
  split at h
  · exact partialLeveling_covers h
  rename_i hlc
  split at h
  · exact partialLeveling_covers h
  rename_i hm
  by_cases hn : cfg.compOpt = .non
  · rw [ptLeveling, hn] at h
    exact partialLeveling_covers h
  -- What is left is a blind merge: on the device's levels the filter is not consulted.
  · have hb : Blind cfg des origin := by
      refine ⟨hne, by omega, ?_⟩
      cases hopt : cfg.compOpt with
      | non => exact absurd hopt hn
      | pipe => exact .inl rfl
      | hw => exact absurd ⟨by omega, hopt⟩ hc
      | mixedcomp => exact .inr ⟨rfl, by_contra fun hj => hm ⟨hopt, hj⟩⟩
    intro r _ e _
    rw [ptLeveling_filter h hn]
    exact accepts_init (hk hb) e.key

/-! ## Runs of compactions -/

/-- The machine that performs `leveling` calls, from empty levels. -/
def levels (cfg : Cfg π) : LTS (Disk π) (LevelingCall π) where
  init disk := ∀ i, (disk i).runs = []
  step disk c disk' := leveling cfg disk c = some disk'

/-- Every consulted level is covered by its filter. -/
def Covered (cfg : Cfg π) (disk : Disk π) : Prop := ∀ i, Consulted cfg i → (disk i).Covers

theorem covered_iff {cfg : Cfg π} {disk : Disk π} : Covered cfg disk ↔
    ∀ i, ∀ r ∈ (disk i).runs, ∀ e ∈ r, filterSkips cfg disk i e.key = false := by
  refine forall_congr' fun i => ?_
  by_cases hc : i ≥ cfg.levelCaching ∧ cfg.compOpt = .hw
  · simp [Consulted, filterSkips, hc]
  · simp [Consulted, filterSkips, hc, Level.Covers]

theorem covered_step {cfg : Cfg π} {disk disk' : Disk π} {c : LevelingCall π}
    (hI : Covered cfg disk) (h : leveling cfg disk c = some disk') (hk : KeepsFilter cfg disk c) :
    Covered cfg disk' := by
  intro n hn
  cases c with
  | flush chunk d =>
    obtain ⟨l, hl, rfl⟩ := map_eq_some_iff.mp h
    by_cases h0 : n = 0
    · subst h0
      rw [update_self]
      exact fillLevel_covers hn (fun _ src h => (by cases h)) hk hl
    · rw [update_of_ne h0]
      exact hI n hn
  | down i j d z =>
    rw [leveling] at h
    split at h
    · rename_i hij
      obtain ⟨l, hl, rfl⟩ := map_eq_some_iff.mp h
      by_cases hj : n = j
      · subst hj
        rw [update_self]
        -- The source lies above the level it is merged into, so it is consulted as well.
        have hi : Consulted cfg i := fun ⟨hi, hw⟩ => hn ⟨by omega, hw⟩
        exact fillLevel_covers hn (fun _ src h => (by cases h; exact hI i hi)) hk hl
      · rw [update_of_ne hj]
        by_cases hi : n = i
        · subst hi
          rw [update_self]
          intro r hr
          cases hr
        · rw [update_of_ne hi]
          exact hI n hn
    · cases h

/-- In every run of `leveling` calls from empty levels in which no pipelined or device merge
fills a level whose filter is consulted and can reject a key, the filter test of `lsm_find_run`
never skips a level that stores the key. -/
theorem filters_cover (cfg : Cfg π) {tr : List (LevelingCall π)} {disk : Disk π}
    (h : ((levels cfg).restrict (KeepsFilter cfg)).Exec tr disk) :
    ∀ i < cfg.levelN, ∀ r ∈ (disk i).runs, ∀ e ∈ r, filterSkips cfg disk i e.key = false := by
  have hI : Covered cfg disk := by
    refine h.inv (I := Covered cfg) ⟨fun s hs i _ r hr => ?_, fun s l s' hI hs => ?_⟩
    · rw [hs i] at hr
      cases hr
    · exact covered_step hI hs.1 hs.2
  exact fun i _ => covered_iff.mp hI i

/-- Two levels, none of them cached; the device cannot merge. -/
def twoLevels (opt : CompOpt) : Cfg Nat := ⟨2, 0, opt, fun _ _ => none⟩

/-- Room for two runs, and the filter of two entries at a false positive rate of one percent. -/
def twoRuns : Dim := ⟨2, some ⟨7, 20, by decide⟩⟩

def emptyDisk : Disk Nat := fun _ => .init twoRuns

/-- Two flushes of one key each. -/
def twoFlushes : List (LevelingCall Nat) :=
  [.flush [⟨16, [0x61]⟩] twoRuns, .flush [⟨32, [0x62]⟩] twoRuns]

/-- In software, level 0 ends with a run of both keys and neither is skipped. -/
theorem filters_cover_non : ∃ disk, ((levels (twoLevels .non)).restrict
      (KeepsFilter (twoLevels .non))).Exec twoFlushes disk ∧
    (disk 0).runs = [[⟨16, [0x61]⟩, ⟨32, [0x62]⟩]] ∧
    ∀ i < 2, ∀ r ∈ (disk i).runs, ∀ e ∈ r, filterSkips (twoLevels .non) disk i e.key = false := by
  obtain ⟨disk, hx, hd⟩ := LTS.Exec.check
    (T := (levels (twoLevels .non)).restrict (KeepsFilter (twoLevels .non))) (some emptyDisk)
    (KeepsFilter (twoLevels .non)) twoFlushes (fun d => (d 0).runs = [[⟨16, [0x61]⟩, ⟨32, [0x62]⟩]])
    (fun s l s' hl hs => ⟨hs, hl⟩) (fun _ h => some.inj h ▸ fun _ => rfl) (by decide +kernel)
  exact ⟨disk, hx, hd, filters_cover (twoLevels .non) hx⟩

/-- The same flushes under `PIPE`: the second one merges into a level that is not empty, and
the filter of the result rejects both keys stored there. -/
theorem filter_hides_pipe : ∃ disk, (levels (twoLevels .pipe)).Exec twoFlushes disk ∧
    ∃ r ∈ (disk 0).runs, ∀ e ∈ ([⟨16, [0x61]⟩, ⟨32, [0x62]⟩] : Run Nat), e ∈ r ∧
      filterSkips (twoLevels .pipe) disk 0 e.key = true := by
  exact LTS.Exec.check (some emptyDisk) (fun _ _ => True) _ _ (fun s l s' _ hs => hs)
    (fun _ h => some.inj h ▸ fun _ => rfl) (by decide +kernel)

end FlashDriver.Lsmtree
