import FlashDriver.Core.LTS
import FlashDriver.Lsmtree.Key

/-!
# The cached data page (`lsm_data_cache_insert`, `lsm_data_cache_check`)

The LSM tree keeps the data page that it read last. The page is known by the
address of the value it was read for (`data_ppa`, in pieces, `NPCINPAGE` to a
page; -1 if there is none), and a lookup whose address lies on that page does
not go to the device.

The device is the map from pages to contents, `none` for an erased page. A
read is issued, served by the device at some later time, and completed at a
still later one; meanwhile pages are written (by a flush or by `__gc_data`,
which moves values) and whole segments are trimmed. The segment that
`__gc_data` collects has a block of each channel, not always of the same row.
Nothing of that touches the cached page.

The page is cached under `value->ppa`. With `hw_read` the device looks up the
key in the header page, and the data page is then read without setting
`value->ppa`. The request's `value_set` comes from `malloc`, so the page is
cached under an address that can be anything (`junk`).

* `coherent_of_calm`: a hit shows the present contents of the page along every
  run in which no page changes while it is cached or has been read and not yet
  been cached, and in which no such read meets the address of another page.
* `stale_hit`: the page is read, its segment collected and the page written
  again.
* `wrong_page_hit`: a read by `hw_read` caches its page under another one's
  address, and nothing has changed on the device.
-/
namespace FlashDriver.Lsmtree.DataCache

open List Option Function

variable {α : Type}

/-- mirrors include/settings.h (`BPS`) -/
def bps : Nat := 64

/-- The page lies in one of the blocks: the one of channel `i` is in row `rows[i]`. -/
def InBlocks (rows : List Nat) (page : Nat) : Prop := rows[page % bps]? = some (page / pps)

instance (rows : List Nat) (page : Nat) : Decidable (InBlocks rows page) :=
  inferInstanceAs (Decidable (_ = _))

/-- `UINT_MAX`, the tombstone address and, as -1, the empty `data_ppa`. -/
def uintMax : Nat := 2 ^ 32 - 1

/-- A data read: `value->ppa`, the page that is read, and what the device has returned. -/
structure Read (α : Type) where
  ppa : Nat
  page : Nat
  got : Option (Option α)
  deriving DecidableEq

structure St (α : Type) where
  dev : Nat → Option α
  dataPpa : Nat
  dataValue : Option α
  reads : List (Read α)

def St.init : St α := ⟨fun _ => none, uintMax, none, []⟩

/-- mirrors algorithm/Lsmtree/lsmtree.c:351-364 -/
def lsmDataCacheInsert (s : St α) (ppa : Nat) (data : Option α) : St α :=
  { s with dataPpa := ppa, dataValue := data }

/-- mirrors algorithm/Lsmtree/lsmtree.c:366-374 -/
def lsmDataCacheCheck (s : St α) (ppa : Nat) : Bool :=
  s.dataPpa != uintMax && ppa / npc == s.dataPpa / npc

def issue (s : St α) (ppa page : Nat) : St α := { s with reads := s.reads ++ [⟨ppa, page, none⟩] }

/-- mirrors algorithm/Lsmtree/lsmtree.c:804-813 (the end of `__lsm_get_sub`):
a tombstone or a hit ends the request -/
def getSub (s : St α) (ppa : Nat) : St α :=
  if ppa = uintMax then s else if lsmDataCacheCheck s ppa then s else issue s ppa (ppa / npc)

/-- mirrors algorithm/Lsmtree/lsmtree.c:761-768: a request that waited for
the header -/
def getWaiter (s : St α) (ppa : Nat) : St α :=
  if lsmDataCacheCheck s (ppa / 2) then s else issue s (ppa / 2) (ppa / 2 / npc)

inductive Lbl (α : Type) where
  | get (ppa : Nat)               -- __lsm_get_sub has found the address
  | waiter (ppa : Nat)            -- the same for a parked request
  | caching (ppa : Nat)           -- __lsm_get found it in a cached level
  | hw (ppa junk : Nat)           -- __lsm_get has it from the device; `junk` is in value->ppa
  | serve (i : Nat)               -- the device reads the page
  | complete (i : Nat)            -- lsm_end_req or lsm_hw_end_req, DATAR
  | write (page : Nat) (v : α)    -- a flush or __gc_data writes a data page
  | trim (rows : List Nat)        -- pt_trim_segment of __gc_data
  deriving DecidableEq

def step (s : St α) : Lbl α → Option (St α)
  | .get ppa => some (getSub s ppa)
  | .waiter ppa => some (getWaiter s ppa)
  | .caching ppa => some (issue s ppa (ppa / npc))
  | .hw ppa junk => some (issue s junk (ppa / npc))
  | .serve i => match s.reads[i]? with
    | some ⟨ppa, page, none⟩ => some { s with reads := s.reads.set i ⟨ppa, page, some (s.dev page)⟩ }
    | _ => none
  | .complete i => match s.reads[i]? with
    | some ⟨ppa, _, some data⟩ => some { lsmDataCacheInsert s ppa data with reads := s.reads.eraseIdx i }
    | _ => none
  | .write page v => match s.dev page with
    | none => some { s with dev := update s.dev page (some v) }
    | some _ => none                                       -- only erased pages can be written
  | .trim rows => some { s with dev := fun page => if InBlocks rows page then none else s.dev page }

def cacheLTS : Core.LTS (St α) (Lbl α) where
  init s := s = .init
  step s l s' := step s l = some s'

/-- A hit shows what is on the page. -/
def Coherent (s : St α) : Prop :=
  ∀ ppa, lsmDataCacheCheck s ppa = true → s.dataValue = s.dev (ppa / npc)

/-- The page is cached, or has been read for a request that will cache it. -/
def Watched (s : St α) (page : Nat) : Prop :=
  (s.dataPpa ≠ uintMax ∧ s.dataPpa / npc = page) ∨ ∃ r ∈ s.reads, r.got ≠ none ∧ r.page = page

/-- The step changes no watched page, and caches none under another one's address. -/
def calm (s : St α) : Lbl α → Prop
  | .write page _ => ¬ Watched s page
  | .trim rows => (s.dataPpa ≠ uintMax → ¬ InBlocks rows (s.dataPpa / npc)) ∧
      ∀ r ∈ s.reads, r.got ≠ none → ¬ InBlocks rows r.page
  | .hw ppa junk => junk = uintMax ∨ junk / npc = ppa / npc
  | _ => True

instance [DecidableEq α] (s : St α) (page : Nat) : Decidable (Watched s page) :=
  inferInstanceAs (Decidable (_ ∨ _))

instance [DecidableEq α] (s : St α) : (l : Lbl α) → Decidable (calm s l)
  | .write page _ => inferInstanceAs (Decidable (¬ Watched s page))
  | .trim _ => inferInstanceAs (Decidable (_ ∧ _))
  | .hw _ _ => inferInstanceAs (Decidable (_ ∨ _))
  | .get _ | .waiter _ | .caching _ | .serve _ | .complete _ => inferInstanceAs (Decidable True)

/-- What has been read is still what is on the page, and is cached as that page if at all. -/
structure Fresh (s : St α) : Prop where
  cached : s.dataPpa ≠ uintMax → s.dataValue = s.dev (s.dataPpa / npc)
  reads : ∀ r ∈ s.reads, ∀ data, r.got = some data → data = s.dev r.page
  named : ∀ r ∈ s.reads, r.ppa = uintMax ∨ r.ppa / npc = r.page

theorem Fresh.coherent {s : St α} (F : Fresh s) : Coherent s := by
  intro ppa hit
  simp only [lsmDataCacheCheck, Bool.and_eq_true, bne_iff_ne, beq_iff_eq] at hit
  rw [F.cached hit.1, hit.2]

theorem fresh_issue {s : St α} (F : Fresh s) {ppa page : Nat}
    (h : ppa = uintMax ∨ ppa / npc = page) : Fresh (issue s ppa page) := by
  refine ⟨F.cached, fun r hr data hd => ?_, fun r hr => ?_⟩
  all_goals
    simp only [issue, mem_append, mem_singleton] at hr
    rcases hr with hr | rfl
  · exact F.reads r hr data hd
  · cases hd
  · exact F.named r hr
  · exact h

theorem Fresh.change {s : St α} (F : Fresh s) {dev : Nat → Option α}
    (h : ∀ page, Watched s page → dev page = s.dev page) : Fresh { s with dev := dev } := by
  refine ⟨fun hne => ?_, fun r hr data hd => ?_, F.named⟩
  · exact (F.cached hne).trans (h _ (.inl ⟨hne, rfl⟩)).symm
  · exact (F.reads r hr data hd).trans (h _ (.inr ⟨r, hr, by simp [hd], rfl⟩)).symm

theorem fresh_step {s s' : St α} {l : Lbl α} (F : Fresh s) (hok : calm s l)
    (h : step s l = some s') : Fresh s' := by
  cases l with
  | get ppa =>
    cases h
    unfold getSub
    split
    · exact F
    · split
      · exact F
      · exact fresh_issue F (.inr rfl)
  | waiter ppa =>
    cases h
    unfold getWaiter
    split
    · exact F
    · exact fresh_issue F (.inr rfl)
  | caching ppa =>
    cases h
    exact fresh_issue F (.inr rfl)
  | hw ppa junk =>
    cases h
    exact fresh_issue F hok
  | serve i =>
    simp only [step] at h
    split at h
    · rename_i ppa page hi
      cases h
      refine ⟨F.cached, fun r hr data hd => ?_, fun r hr => ?_⟩
      · rcases mem_or_eq_of_mem_set hr with hr | rfl
        · exact F.reads r hr data hd
        · exact (some.inj hd).symm
      · rcases mem_or_eq_of_mem_set hr with hr | rfl
        · exact F.named r hr
        · exact F.named ⟨ppa, page, none⟩ (mem_of_getElem? hi)
    · cases h
  | complete i =>
    simp only [step] at h
    split at h
    · rename_i ppa page data hi
      have hr := mem_of_getElem? hi
      cases h
      refine ⟨fun hne => ?_, fun r hr => F.reads r (mem_of_mem_eraseIdx hr),
        fun r hr => F.named r (mem_of_mem_eraseIdx hr)⟩
      have hpage : ppa / npc = page := (F.named _ hr).resolve_left hne
      exact hpage ▸ F.reads _ hr data rfl
    · cases h
  | write page v =>
    simp only [step] at h
    split at h
    · cases h
      refine F.change fun page' hw => update_of_ne (fun he => ?_) _ _
      exact hok (he ▸ hw)
    · cases h
  | trim rows =>
    cases h
    refine F.change fun page hw => if_neg fun he => ?_
    rcases hw with ⟨hne, hp⟩ | ⟨r, hr, hg, hp⟩
    · exact hok.1 hne (hp ▸ he)
    · exact hok.2 r hr hg (hp ▸ he)

theorem fresh_inductive : ((cacheLTS (α := α)).restrict calm).Inductive Fresh where
  init := by
    intro s hs
    cases hs
    exact ⟨fun h => absurd rfl h, fun r hr => (by cases hr), fun r hr => (by cases hr)⟩
  step := fun s l s' F hs => fresh_step F hs.2 hs.1

/-- A hit shows the present contents as long as no watched page changes and no read of `hw_read`
meets another page's address. -/
theorem coherent_of_calm (tr : List (Lbl α)) (s : St α)
    (h : ((cacheLTS (α := α)).restrict calm).Exec tr s) : Coherent s :=
  (h.inv fresh_inductive).coherent

/-- The first page of the data partition, which follows the 51 segments of the
map partition. -/
def dataPage : Nat := 51 * pps

/-- The page is read by `hw_read` and cached under an address on it, while another segment is
collected and reused. -/
theorem coherent_other_segment : ∃ tr s, ((cacheLTS (α := Nat)).restrict calm).Exec tr s ∧
    lsmDataCacheCheck s (dataPage * npc + 3) = true ∧ s.dev (dataPage + pps) = some 9 ∧
      Coherent s := by
  let ls : List (Lbl Nat) := [.write dataPage 7, .write (dataPage + pps) 8,
    .get ((dataPage + pps) * npc), .hw (dataPage * npc + 5) (dataPage * npc + 2), .serve 1,
    .complete 1, .trim (replicate bps 52), .write (dataPage + pps) 9]
  obtain ⟨s, hE, hd⟩ := Core.LTS.Exec.check (T := (cacheLTS (α := Nat)).restrict calm) (some .init)
    calm ls (fun s => lsmDataCacheCheck s (dataPage * npc + 3) = true ∧
      s.dev (dataPage + pps) = some 9)
    (fun s l s' hl hs => ⟨hs, hl⟩) (fun _ h => some.inj h.symm) (by decide +kernel)
  exact ⟨_, s, hE, hd.1, hd.2, coherent_of_calm _ s hE⟩

theorem wrong_hit {ls : List (Lbl Nat)} {old new : Nat} (hne : old ≠ new)
    (hrun : ((some .init).bind (Core.LTS.run step (fun _ _ => decide True) ls)).any fun s =>
      lsmDataCacheCheck s (dataPage * npc + 3) = true ∧ s.dataValue = some old ∧
        s.dev dataPage = some new) :
    ∃ s, (cacheLTS (α := Nat)).Exec ls s ∧ lsmDataCacheCheck s (dataPage * npc + 3) = true ∧
      s.dataValue = some old ∧ s.dev dataPage = some new ∧ ¬ Coherent s := by
  obtain ⟨s, hE, hhit, hold, hnew⟩ := Core.LTS.Exec.check (T := cacheLTS (α := Nat)) (some .init)
    (fun _ _ => True) ls _ (fun _ _ _ _ hs => hs) (fun _ h => some.inj h.symm) hrun
  refine ⟨s, hE, hhit, hold, hnew, fun h => hne ?_⟩
  have hpage : (dataPage * npc + 3) / npc = dataPage := by decide
  have hsame := h _ hhit
  rw [hpage, hold, hnew] at hsame
  exact some.inj hsame

/-- The page is read, its segment collected, and the page written again. -/
theorem stale_hit : ∃ tr s, (cacheLTS (α := Nat)).Exec tr s ∧
    lsmDataCacheCheck s (dataPage * npc + 3) = true ∧
    s.dataValue = some 7 ∧ s.dev dataPage = some 9 ∧ ¬ Coherent s :=
  ⟨[.write dataPage 7, .get (dataPage * npc + 5), .serve 0, .complete 0,
    .trim (replicate bps 51), .write dataPage 9], wrong_hit (by decide) (by decide +kernel)⟩

theorem wrong_page_hit : ∃ tr s, (cacheLTS (α := Nat)).Exec tr s ∧
    lsmDataCacheCheck s (dataPage * npc + 3) = true ∧
    s.dataValue = some 7 ∧ s.dev dataPage = some 9 ∧ ¬ Coherent s :=
  ⟨[.write dataPage 9, .write (dataPage + 1) 7, .hw ((dataPage + 1) * npc) (dataPage * npc),
    .serve 0, .complete 0], wrong_hit (by decide) (by decide +kernel)⟩

end FlashDriver.Lsmtree.DataCache
