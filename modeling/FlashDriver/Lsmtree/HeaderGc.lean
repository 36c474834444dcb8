import FlashDriver.Lsmtree.Find
import FlashDriver.Lsmtree.MapPartition

/-!
# Collecting header pages (`gc_header`, `page_check_available`)

`Lsmtree/HeaderPage.lean` has what a collection does to the map partition.
Here are the runs that the header pages belong to. For every valid page of the
victim `gc_header` takes the first key of the header and looks for the run that
has this page: in the levels from the top, and then in the level that a
compaction is building. The page of a run that is being compacted is dropped
(`INVBYGC`), that of any other run is copied and the run gets the new address.
A page for which no run is found ends in `abort()`, and so does one whose run
is marked `SEQMOV` or `SEQCOMP`, unless it is also in the level being built.

The copies go to the active segment. If that is the victim, or if it fills up,
the reserve is used, and is renewed after the victim was trimmed. `budget` is
what is left in all these cases: it falls by one with each copy.

* `gc_header_moves`: no run that is not being compacted loses its header, the
  victim is empty, and as many pages as were invalid in it are gained; so
  the loop of `page_check_available` comes to an end.
-/
namespace FlashDriver.Lsmtree.HeaderGc

open List Option Function
open Lsmtree.HeaderPage (Geom M ptGetSegment getPageNum ptGetGcTarget ptTrimSegment
  validatePPA pagesIn Rows InUse invSum validIn take trimmed trimmed_bits mem_pagesIn pagesIn_nodup page_div
  renewCollecting spendReserve retire renewReserve derefActive ok_bind)

variable {π : Type}

/-! ## Runs -/

/-- mirrors algorithm/Lsmtree/level.h:13-21 (`run_comp_type`) -/
inductive Comp where
  | notcomp | comp | readed | invbygc | seqcomp | onelev | seqmov
  deriving DecidableEq, Repr

/-- `LSM.disk[j]` and `LSM.c_level` -/
inductive Place where
  | disk (j : Nat)
  | cLevel
  deriving DecidableEq, Repr

/-- The keys of the runs, `arrs[0..n_num)` of each level, which a collection
does not change. Without a compaction `c_level` has none. -/
structure Tree where
  levelN : Nat
  keys : Place → List Key
  sorted : ∀ l, (keys l).Pairwise fun a b => keycmp a b = .lt

/-- A run by its level and its place there. -/
abbrev RunId := Place × Nat

def Tree.key (T : Tree) (id : RunId) : Option Key := (T.keys id.1)[id.2]?

/-- The run exists, in one of the levels or in the one being built. -/
structure Tree.IsRun (T : Tree) (id : RunId) : Prop where
  level : ∀ j, id.1 = .disk j → j < T.levelN
  lt : id.2 < (T.keys id.1).length

structure St (π : Type) where
  map : HeaderPage.St
  data : Nat → Run π            -- the header in a page
  pbn : RunId → Nat
  comp : RunId → Comp           -- iscompactioning

section
variable (T : Tree) (g : Geom)

/-! ## Finding the run of a page -/

/-- A level with these keys. -/
def keyLevel (keys : List Key) : Level Unit := ⟨keys.length, keys.map fun k => [⟨(), k⟩], none⟩

/-- `array_find_run`, which reads only the keys of the runs -/
def findKey (keys : List Key) (lpa : Key) : Option Nat := findRun (keyLevel keys) lpa

/-- What becomes of a page. -/
inductive Verdict where
  | unknown
  | drop (id : RunId)
  | move (id : RunId)
  deriving DecidableEq, Repr

/-- mirrors algorithm/Lsmtree/page_kv.c:94-111 -/
def search (s : St π) (p : Nat) (lpa : Key) : List Nat → Verdict
  | [] => .unknown
  | j :: js =>
    match findKey (T.keys (.disk j)) lpa with
    | none => search s p lpa js
    | some i =>
      if s.pbn (.disk j, i) = p ∧ T.key (.disk j, i) = some lpa then
        match s.comp (.disk j, i) with
        | .seqmov => .unknown
        | .seqcomp => .unknown
        | .notcomp => .move (.disk j, i)
        | _ => .drop (.disk j, i)
      else search s p lpa js

/-- mirrors algorithm/Lsmtree/page_kv.c:113-122 -/
def searchBuilt (s : St π) (p : Nat) (lpa : Key) : Verdict :=
  match findKey (T.keys .cLevel) lpa with
  | none => .unknown
  | some i => if s.pbn (.cLevel, i) = p then .move (.cLevel, i) else .unknown

/-- mirrors algorithm/Lsmtree/page_kv.c:89-122 -/
def verdict (s : St π) (p : Nat) (lpa : Key) : Verdict :=
  match search T s p lpa (range T.levelN) with
  | .unknown => searchBuilt T s p lpa
  | v => v

/-! ## The collection -/

/-- mirrors algorithm/Lsmtree/page.c:143-148 -/
def nextPage (m : HeaderPage.St) : M (HeaderPage.St × Nat) :=
  match m.active.bind (getPageNum g m) with
  | none => .error .other
  | some r => (validatePPA r.1 r.2).map fun m => (m, r.2)

/-- mirrors algorithm/Lsmtree/page.c:118-148, with the page that is returned -/
def getRPPA (m : HeaderPage.St) (seg : Nat) : M (HeaderPage.St × Nat) := do
  let m ← renewCollecting g m seg
  nextPage g m

/-- mirrors algorithm/Lsmtree/page_kv.c:81-151, for one page; `tables` are the
headers that were read -/
def collectPage (seg : Nat) (tables : Nat → Run π) (s : St π) (p : Nat) : M (St π) :=
  if s.map.bits p then
    match verdict T s p (runKey (tables p)) with
    | .unknown => .error .other
    | .drop id => .ok { s with comp := update s.comp id .invbygc }
    | .move id => (getRPPA g s.map seg).map fun r =>
        { s with
          map := r.1
          data := update s.data r.2 (tables p)
          pbn := update s.pbn id r.2 }
  else .ok s

/-- mirrors algorithm/Lsmtree/page_kv.c:33-168 and the renewal of the reserve
in algorithm/Lsmtree/page.c:88-90 and 551-553 -/
def gcHeader (s : St π) : M (St π) := do
  derefActive s.map
  let seg ← ptGetGcTarget g s.map
  let s ← (pagesIn g seg).foldlM (collectPage T g seg s.data) { s with map := retire s.map seg }
  let m ← ptTrimSegment g s.map seg
  derefActive m
  let m ← renewReserve g m
  .ok { s with map := m }

/-- mirrors blockmanager/partition/pt_block_manager.c:317-334 -/
def ptRemainPage (m : HeaderPage.St) : Nat :=
  m.free.length * g.pps + (g.pps - (m.active.map m.used).getD 0)

/-- mirrors algorithm/Lsmtree/page.c:547-557; the flag says whether the loop
was left, and not the program in `gc_header` -/
def retry (needed : Nat) : Nat → St π → Option (St π × Bool)
  | 0, _ => none
  | n + 1, s =>
    match gcHeader T g s with
    | .error _ => some (s, false)
    | .ok s => if ptRemainPage g s.map < needed then retry needed n s else some (s, true)

end

/-! ## Pages that are left -/

/-- The pages that copies and the renewal of the reserve can take. -/
def budget (g : Geom) (m : HeaderPage.St) : Nat :=
  ptRemainPage g m + if m.reserve.isSome then g.pps else 0

/-- The partition while at most `n` pages of `seg` are still to be copied. -/
structure Moving (g : Geom) (seg n : Nat) (m : HeaderPage.St) : Prop where
  rows : Rows g m
  inUse : InUse g m seg
  few : n < g.pps
  active : ∃ a, m.active = some a ∧ InUse g m a ∧ a ≠ seg ∧ (m.reserve = none → m.used a + n < g.pps)
  reserve : ∀ r, m.reserve = some r → InUse g m r ∧ m.used r = 0 ∧ r ≠ seg ∧ m.active ≠ some r

section
variable {g : Geom} {seg n : Nat} {m : HeaderPage.St}

theorem Moving.renew (h : Moving g seg (n + 1) m) :
    ∃ m' a, renewCollecting g m seg = .ok m' ∧ Moving g seg (n + 1) m' ∧ m'.active = some a ∧
      m'.used a < g.pps ∧ m'.bits = m.bits ∧ budget g m' = budget g m := by
  obtain ⟨a, ha, hau, has, haroom⟩ := h.active
  unfold renewCollecting
  rw [ha]
  dsimp only
  by_cases hfull : m.used a = g.pps
  · rw [if_pos hfull, if_neg has]
    -- the active segment is full, so the reserve is still there
    obtain ⟨r, hr⟩ : ∃ r, m.reserve = some r := by
      cases hr : m.reserve with
      | some r => exact ⟨r, rfl⟩
      | none =>
        have := haroom hr
        omega
    obtain ⟨hru, hr0, hrs, -⟩ := h.reserve r hr
    obtain ⟨m1, h1, he1, R1⟩ := h.rows.reserveToFree hru hr0
    obtain ⟨b, rest, hf⟩ : ∃ b rest, m.free ++ [r] = b :: rest := exists_cons_of_ne_nil (by simp)
    have R2 := R1.roles m1.active none
    have hf1 : m1.free = b :: rest := by
      rw [he1]
      exact hf
    obtain ⟨hget, R3, hlt, hnot, h0⟩ := R2.getSegment (a := b) hf1
    have hseg : seg ∉ b :: rest := by
      rw [← hf, mem_append, mem_singleton, not_or]
      exact ⟨h.inUse.not_free, fun he => hrs he.symm⟩
    rw [mem_cons, not_or] at hseg
    refine ⟨_, b, ?_, ⟨R3.roles (some b) none, ⟨h.inUse.lt, hseg.2⟩, h.few, ⟨b, rfl, ⟨hlt, hnot⟩,
      fun he => hseg.1 he.symm, fun _ => ?_⟩, fun r hr => by cases hr⟩, rfl, ?_, ?_, ?_⟩
    · unfold spendReserve
      rw [hr]
      change (HeaderPage.ptReserveToFree g m r >>= _) = _
      rw [h1]
      change (ptGetSegment g { m1 with reserve := none } >>= _) = _
      rw [hget]
      rfl
    · change m1.used b + (n + 1) < g.pps
      have : m1.used b = 0 := h0
      have := h.few
      omega
    · change m1.used b < g.pps
      have : m1.used b = 0 := h0
      have := g.pps_pos
      omega
    · change m1.bits = m.bits
      rw [he1]
    · have hlen : m.free.length + 1 = rest.length + 1 := by
        have := congrArg length hf
        simpa using this
      have h0' : m1.used b = 0 := h0
      simp only [budget, ptRemainPage, ha, hr, map_some, getD_some, isSome_some,
        isSome_none, if_true, hfull, h0']
      rw [show m.free.length = rest.length from by omega]
      simp
  · rw [if_neg hfull]
    have := h.rows.used_le a
    exact ⟨m, a, rfl, h, ha, by omega, rfl, rfl⟩

theorem Moving.getRPPA (h : Moving g seg (n + 1) m) :
    ∃ m' q, getRPPA g m seg = .ok (m', q) ∧ Moving g seg n m' ∧ m.bits q = false ∧
      q / g.pps ≠ seg ∧ m'.bits = update m.bits q true ∧
      budget g m' + 1 = budget g m := by
  obtain ⟨m1, a, h₁, M1, ha, hroom, hbits, hbud⟩ := h.renew
  obtain ⟨b, hb, hbu, hbs, hbroom⟩ := M1.active
  cases ha.symm.trans hb
  obtain ⟨m2, hpage, hval⟩ := M1.rows.getPageNum hroom
  have hself : update m1.used a (m1.used a + 1) a = m1.used a + 1 := update_self ..
  refine ⟨take g m1 a, a * g.pps + m1.used a, ?_, ⟨M1.rows.take hbu hroom, ⟨M1.inUse.lt,
    M1.inUse.not_free⟩, by have := h.few; omega, ⟨a, ha, ⟨hbu.lt, hbu.not_free⟩, hbs, fun hr => ?_⟩,
    fun r hr => ?_⟩, ?_, ?_, ?_, ?_⟩
  · unfold HeaderGc.getRPPA
    rw [h₁]
    change nextPage g m1 = _
    unfold nextPage
    rw [ha, bind_some, hpage]
    dsimp only
    rw [hval]
    rfl
  · have := hbroom hr
    change update m1.used a (m1.used a + 1) a + n < g.pps
    omega
  · obtain ⟨h1, h2, h3, h4⟩ := M1.reserve r hr
    have hne : r ≠ a := fun he => h4 (he ▸ ha)
    refine ⟨⟨h1.lt, h1.not_free⟩, ?_, h3, h4⟩
    change update m1.used a (m1.used a + 1) r = 0
    rw [update_of_ne hne]
    exact h2
  · rw [← hbits]
    exact M1.rows.next_free hroom
  · rw [(page_div g (a := a) hroom).1]
    exact hbs
  · rw [← hbits]
    rfl
  · rw [← hbud]
    have hact : (take g m1 a).active = some a := ha
    have hres : (take g m1 a).reserve = m1.reserve := rfl
    have hused : (take g m1 a).used a = m1.used a + 1 := hself
    have hfree : (take g m1 a).free = m1.free := rfl
    simp only [budget, ptRemainPage, hact, hres, hfree, ha, map_some, getD_some, hused]
    omega

end

/-! ## The run that is found -/

section
variable {T : Tree} {g : Geom} {s : St π} {p : Nat} {lpa : Key}

theorem Tree.ordered (T : Tree) (l : Place) : (keyLevel (T.keys l)).Ordered := by
  have hflat : (keyLevel (T.keys l)).runs.flatten = (T.keys l).map fun k => ⟨(), k⟩ := by
    unfold keyLevel
    induction T.keys l with
    | nil => rfl
    | cons k ks ih => simpa using ih
  refine ⟨fun r hr => ?_, ?_⟩
  · obtain ⟨k, -, rfl⟩ := mem_map.mp hr
    exact cons_ne_nil _ _
  · rw [hflat]
    exact pairwise_map.mpr (T.sorted l)

theorem findKey_lt {l : Place} {i : Nat} (h : findKey (T.keys l) lpa = some i) :
    i < (T.keys l).length := by
  have := (findRun_isRunOf (T.ordered l) h).lt
  simpa [keyLevel] using this

theorem findKey_eq {l : Place} {i : Nat} (h : (T.keys l)[i]? = some lpa) :
    findKey (T.keys l) lpa = some i := by
  obtain ⟨hi, hk⟩ := List.getElem?_eq_some_iff.mp h
  have hlen : (keyLevel (T.keys l)).runs.length = (T.keys l).length := length_map ..
  have hne : (keyLevel (T.keys l)).runs ≠ [] := by
    intro he
    rw [he] at hlen
    simp only [length_nil] at hlen
    omega
  obtain ⟨r, hr, hrun⟩ := findRun_spec (T.ordered l) hne lpa
  have hmem : (⟨(), lpa⟩ : Keyset Unit) ∈ runAt (keyLevel (T.keys l)).runs i := by
    simp [runAt, keyLevel, h]
  have := hrun.unique (T.ordered l) (by omega) hmem rfl
  rw [this]
  exact hr

/-- No run of a level is marked as moved to the level being built. -/
def Unmarked (T : Tree) (s : St π) : Prop :=
  ∀ id, T.IsRun id → id.1 ≠ .cLevel → s.comp id ≠ .seqmov ∧ s.comp id ≠ .seqcomp

/-- The run is not being compacted. -/
def Live (s : St π) (id : RunId) : Prop := id.1 = .cLevel ∨ s.comp id = .notcomp

/-- A run that has the page, by address and by the first key of the header. -/
structure Holds (T : Tree) (s : St π) (id : RunId) (p : Nat) (lpa : Key) : Prop where
  isRun : T.IsRun id
  pbn : s.pbn id = p
  key : T.key id = some lpa

theorem search_spec (hu : Unmarked T s) (p : Nat) (lpa : Key) {js : List Nat}
    (hjs : ∀ j ∈ js, j < T.levelN) :
    (search T s p lpa js = .unknown ∧ ∀ j ∈ js, ∀ i, ¬ Holds T s (.disk j, i) p lpa) ∨
      (∃ id, Holds T s id p lpa ∧ s.comp id = .notcomp ∧ search T s p lpa js = .move id) ∨
      ∃ id, Holds T s id p lpa ∧ ¬ Live s id ∧ search T s p lpa js = .drop id := by
  induction js with
  | nil => exact .inl ⟨rfl, fun j hj => by cases hj⟩
  | cons j js ih =>
    have hrest := ih fun k hk => hjs k (.tail _ hk)
    -- a run of level `j` with the page is the one that `find_run` returns
    have hskip : (∀ i, ¬ Holds T s (.disk j, i) p lpa) →
        search T s p lpa (j :: js) = search T s p lpa js →
        (search T s p lpa (j :: js) = .unknown ∧
            ∀ k ∈ j :: js, ∀ i, ¬ Holds T s (.disk k, i) p lpa) ∨
          (∃ id, Holds T s id p lpa ∧ s.comp id = .notcomp ∧ search T s p lpa (j :: js) = .move id) ∨
          ∃ id, Holds T s id p lpa ∧ ¬ Live s id ∧ search T s p lpa (j :: js) = .drop id := by
      intro hnone he
      rw [he]
      rcases hrest with ⟨h1, h2⟩ | h
      · refine .inl ⟨h1, fun k hk => ?_⟩
        rcases mem_cons.mp hk with rfl | hk
        · exact hnone
        · exact h2 k hk
      · exact .inr h
    cases hf : findKey (T.keys (.disk j)) lpa with
    | none =>
      refine hskip (fun i hh => ?_) (by rw [search, hf])
      rw [findKey_eq hh.key] at hf
      cases hf
    | some i =>
      by_cases hc : s.pbn (.disk j, i) = p ∧ T.key (.disk j, i) = some lpa
      · have hrun : T.IsRun (.disk j, i) := by
          refine ⟨fun k hk => ?_, findKey_lt hf⟩
          cases hk
          exact hjs j mem_cons_self
        have hh : Holds T s (.disk j, i) p lpa := ⟨hrun, hc.1, hc.2⟩
        obtain ⟨h1, h2⟩ := hu _ hrun (by simp)
        refine .inr ?_
        rw [search, hf]
        dsimp only
        rw [if_pos hc]
        cases hs : s.comp (.disk j, i) with
        | notcomp => exact .inl ⟨_, hh, hs, rfl⟩
        | seqmov => exact absurd hs h1
        | seqcomp => exact absurd hs h2
        | comp => exact .inr ⟨_, hh, by simp [Live, hs], rfl⟩
        | readed => exact .inr ⟨_, hh, by simp [Live, hs], rfl⟩
        | invbygc => exact .inr ⟨_, hh, by simp [Live, hs], rfl⟩
        | onelev => exact .inr ⟨_, hh, by simp [Live, hs], rfl⟩
      · refine hskip (fun i' hh => hc ?_) (by rw [search, hf]; exact if_neg hc)
        have := findKey_eq hh.key
        rw [hf] at this
        cases this
        exact ⟨hh.pbn, hh.key⟩

theorem verdict_spec (hu : Unmarked T s) (hp : ∃ id, Holds T s id p lpa) :
    (∃ id, Holds T s id p lpa ∧ Live s id ∧ verdict T s p lpa = .move id) ∨
      ∃ id, Holds T s id p lpa ∧ ¬ Live s id ∧ verdict T s p lpa = .drop id := by
  unfold verdict
  have hlt : ∀ j ∈ range T.levelN, j < T.levelN := fun j hj => mem_range.mp hj
  rcases search_spec hu p lpa hlt with ⟨h1, h2⟩ | ⟨id, hh, hc, he⟩ | ⟨id, hh, hc, he⟩
  · obtain ⟨⟨l, i⟩, hh⟩ := hp
    cases l with
    | disk j => exact absurd hh (h2 j (mem_range.mpr (hh.isRun.level j rfl)) i)
    | cLevel =>
      refine .inl ⟨_, hh, .inl rfl, ?_⟩
      rw [h1]
      unfold searchBuilt
      rw [findKey_eq hh.key]
      exact if_pos hh.pbn
  · exact .inl ⟨id, hh, .inr hc, by rw [he]⟩
  · exact .inr ⟨id, hh, hc, by rw [he]⟩

end

/-! ## One page of the victim -/

/-- The state between two collections. -/
structure Sane (T : Tree) (g : Geom) (s : St π) : Prop where
  rows : Rows g s.map
  active : ∃ a, s.map.active = some a ∧ InUse g s.map a
  reserve : ∃ r, s.map.reserve = some r ∧ InUse g s.map r ∧ s.map.used r = 0 ∧ s.map.active ≠ some r
  held : ∀ p, s.map.bits p = true → ∃ id, Holds T s id p (runKey (s.data p))

/-- While the pages `l` of the victim are still to be looked at; `d` are the
headers that were read. -/
structure Collecting (T : Tree) (g : Geom) (seg : Nat) (d : Nat → Run π) (s : St π) (l : List Nat) :
    Prop where
  moving : Moving g seg (l.countP s.map.bits) s.map
  unmarked : Unmarked T s
  pages : ∀ p ∈ l, p / g.pps = seg
  nodup : l.Nodup
  data : ∀ p, p / g.pps = seg → s.data p = d p
  held : ∀ p, s.map.bits p = true → p / g.pps ≠ seg ∨ p ∈ l →
    ∃ id, Holds T s id p (runKey (s.data p))

/-- What a round of the loop does. -/
inductive Collected (T : Tree) (g : Geom) (seg : Nat) (d : Nat → Run π) (s : St π) (p : Nat) :
    St π → Prop
  | skip (hp : s.map.bits p = false) : Collected T g seg d s p s
  | drop {id : RunId} (hp : s.map.bits p = true) (hh : Holds T s id p (runKey (d p)))
      (hl : ¬ Live s id) :
      Collected T g seg d s p { s with comp := update s.comp id .invbygc }
  | move {id : RunId} {m : HeaderPage.St} {q : Nat} (hp : s.map.bits p = true)
      (hh : Holds T s id p (runKey (d p))) (hl : Live s id) (hq : s.map.bits q = false)
      (hseg : q / g.pps ≠ seg) (hm : m.bits = update s.map.bits q true) :
      Collected T g seg d s p { s with
        map := m
        data := update s.data q (d p)
        pbn := update s.pbn id q }

section
variable {T : Tree} {g : Geom} {s s' : St π} {seg p : Nat} {d : Nat → Run π} {l : List Nat}

theorem Unmarked.drop (hu : Unmarked T s) (id : RunId) :
    Unmarked T { s with comp := update s.comp id .invbygc } := by
  intro id' hr hc
  by_cases he : id' = id
  · subst he; simp
  · simpa only [update_of_ne he] using hu id' hr hc

theorem Collecting.step (C : Collecting T g seg d s (p :: l)) :
    ∃ s', collectPage T g seg d s p = .ok s' ∧ Collected T g seg d s p s' ∧
      Collecting T g seg d s' l ∧ budget g s.map ≤ budget g s'.map + (s.map.bits p).toNat := by
  have hseg := C.pages p mem_cons_self
  have hnd := C.nodup
  rw [nodup_cons] at hnd
  have hpages : ∀ q ∈ l, q / g.pps = seg := fun q hq => C.pages q (.tail _ hq)
  have hM := C.moving
  rw [countP_cons] at hM
  unfold collectPage
  by_cases hp : s.map.bits p = true
  · rw [if_pos hp]
    rw [if_pos hp] at hM
    have hhold := C.held p hp (.inr mem_cons_self)
    rw [C.data p hseg] at hhold
    rcases verdict_spec C.unmarked hhold with ⟨id, hh, hl, hv⟩ | ⟨id, hh, hl, hv⟩
    · obtain ⟨m, q, hget, hM', hq, hqs, hbits, hbud⟩ := hM.getRPPA
      refine ⟨_, by rw [hv]; dsimp only; rw [hget]; rfl, .move hp hh hl hq hqs hbits, ?_, ?_⟩
      · have hcount : l.countP m.bits = l.countP s.map.bits := by
          refine countP_congr fun r hr => ?_
          rw [hbits, update_of_ne fun he : r = q => hqs (he ▸ hpages r hr)]
        refine ⟨by change Moving g seg (l.countP m.bits) m; rw [hcount]; exact hM', C.unmarked, hpages,
          hnd.2, fun r hr => ?_, fun r hr hin => ?_⟩
        · change update s.data q (d p) r = d r
          rw [update_of_ne fun he : r = q => hqs (he ▸ hr)]
          exact C.data r hr
        · change m.bits r = true at hr
          by_cases he : r = q
          · -- the copy belongs to the run that had the original
            subst he
            refine ⟨id, hh.isRun, update_self .., ?_⟩
            change T.key id = some (runKey (update s.data r (d p) r))
            rw [update_self]
            exact hh.key
          · rw [hbits, update_of_ne he] at hr
            obtain ⟨id', hh'⟩ := C.held r hr (hin.imp_right (mem_cons_of_mem _))
            have hne : id' ≠ id := by
              rintro rfl
              have hrp : r = p := hh'.pbn.symm.trans hh.pbn
              rcases hin with hin | hin
              · exact hin (hrp ▸ hseg)
              · exact hnd.1 (hrp ▸ hin)
            refine ⟨id', hh'.isRun, ?_, ?_⟩
            · change update s.pbn id q id' = r
              rw [update_of_ne hne]
              exact hh'.pbn
            · change T.key id' = some (runKey (update s.data q (d p) r))
              rw [update_of_ne he]
              exact hh'.key
      · change budget g s.map ≤ budget g m + _
        rw [hp, Bool.toNat_true]
        omega
    · refine ⟨_, by rw [hv], .drop hp hh hl, ?_, ?_⟩
      · have hM' : Moving g seg (l.countP s.map.bits) s.map := by
          obtain ⟨a, h1, h2, h3, h4⟩ := hM.active
          exact ⟨hM.rows, hM.inUse, by have := hM.few; omega, ⟨a, h1, h2, h3, fun hr => by
            have := h4 hr; omega⟩, hM.reserve⟩
        refine ⟨hM', C.unmarked.drop id, hpages, hnd.2, C.data, fun r hr hin => ?_⟩
        obtain ⟨id', hh'⟩ := C.held r hr (hin.imp_right (mem_cons_of_mem _))
        exact ⟨id', hh'.isRun, hh'.pbn, hh'.key⟩
      · exact Nat.le_add_right _ _
  · rw [if_neg hp]
    rw [if_neg hp] at hM
    have hp' : s.map.bits p = false := by simpa using hp
    exact ⟨s, rfl, .skip hp', ⟨hM, C.unmarked, hpages, hnd.2, C.data, fun r hr hin =>
      C.held r hr (hin.imp_right (mem_cons_of_mem _))⟩, Nat.le_add_right _ _⟩

/-! ## Where the runs are -/

/-- Each valid page is the page of one run only. -/
def ExactlyOne (T : Tree) (s : St π) : Prop :=
  ∀ id id', T.IsRun id → T.IsRun id' → s.map.bits (s.pbn id) = true → s.pbn id' = s.pbn id → id' = id

/-- The run has been visited in the victim, and was live. -/
def Visited (g : Geom) (seg : Nat) (s0 : St π) (l : List Nat) (id : RunId) : Prop :=
  Live s0 id ∧ s0.map.bits (s0.pbn id) = true ∧ s0.pbn id / g.pps = seg ∧ s0.pbn id ∉ l

/-- The runs compared with the state `s0` in which the collection began. -/
structure Tracked (T : Tree) (g : Geom) (seg : Nat) (s0 s : St π) (l : List Nat) : Prop where
  moved : ∀ id, T.IsRun id → Visited g seg s0 l id →
    s.map.bits (s.pbn id) = true ∧ s.pbn id / g.pps ≠ seg ∧ s.data (s.pbn id) = s0.data (s0.pbn id)
  same : ∀ id, T.IsRun id → ¬ Visited g seg s0 l id → s.pbn id = s0.pbn id
  comp : ∀ id, T.IsRun id → s0.pbn id ∈ l → s.comp id = s0.comp id
  frame : ∀ q, s0.map.bits q = true → q / g.pps ≠ seg → s.map.bits q = true ∧ s.data q = s0.data q
  inside : ∀ q, q / g.pps = seg → s.map.bits q = s0.map.bits q

theorem Tracked.step {s0 : St π} (K : Tracked T g seg s0 s (p :: l)) (U : ExactlyOne T s0)
    (hpl : p ∉ l) (hseg : p / g.pps = seg) (hd : d = s0.data)
    (h : Collected T g seg d s p s') : Tracked T g seg s0 s' l := by
  -- a visited run counts as visited from now on if its page is not `p`
  have hweak : ∀ id, Visited g seg s0 (p :: l) id → Visited g seg s0 l id := fun id hv =>
    ⟨hv.1, hv.2.1, hv.2.2.1, fun hm => hv.2.2.2 (.tail _ hm)⟩
  have hback : ∀ id, Visited g seg s0 l id → s0.pbn id ≠ p → Visited g seg s0 (p :: l) id :=
    fun id hv hne => ⟨hv.1, hv.2.1, hv.2.2.1, fun hm => (mem_cons.mp hm).elim hne hv.2.2.2⟩
  have hcomp : ∀ id, T.IsRun id → s0.pbn id ∈ l → s.comp id = s0.comp id := fun id hr hm =>
    K.comp id hr (.tail _ hm)
  -- a run that has `p` now had it at the beginning
  have horig : ∀ id, T.IsRun id → s.pbn id = p → s0.pbn id = p := by
    intro id hr hp
    by_cases hv : Visited g seg s0 (p :: l) id
    · exact absurd (hp ▸ hseg) (K.moved id hr hv).2.1
    · exact (K.same id hr hv).symm.trans hp
  have hlive : ∀ id, T.IsRun id → s0.pbn id = p → (Live s id ↔ Live s0 id) := by
    intro id hr hp
    unfold Live
    rw [K.comp id hr (hp ▸ (.head _))]
  have hone : ∀ id id', T.IsRun id → T.IsRun id' → s0.map.bits p = true → s0.pbn id = p →
      s0.pbn id' = p → id' = id := fun id id' hr hr' hb hp hp' =>
    U id id' hr hr' (hp ▸ hb) (hp'.trans hp.symm)
  cases h with
  | skip hp =>
    rw [K.inside p hseg] at hp
    refine ⟨fun id hr hv => K.moved id hr (hback id hv fun he => ?_), fun id hr hv =>
      K.same id hr fun h => hv (hweak id h), hcomp, K.frame, K.inside⟩
    have := hv.2.1
    rw [he, hp] at this
    cases this
  | @drop id hp hh hl =>
    rw [K.inside p hseg] at hp
    have hid := horig id hh.isRun hh.pbn
    refine ⟨fun id' hr hv => K.moved id' hr (hback id' hv fun he => hl ?_), fun id' hr hv =>
      K.same id' hr fun h => hv (hweak id' h), fun id' hr hm => ?_, K.frame, K.inside⟩
    · have := hone id id' hh.isRun hr hp hid he
      subst this
      exact (hlive id' hr hid).mpr hv.1
    · have hne : id' ≠ id := by
        rintro rfl
        exact hpl (hid ▸ hm)
      change update s.comp id .invbygc id' = s0.comp id'
      rw [update_of_ne hne]
      exact hcomp id' hr hm
  | @move id m q hp hh hl hq hqs hm =>
    rw [K.inside p hseg] at hp
    have hid := horig id hh.isRun hh.pbn
    have hkeep : ∀ r, s.map.bits r = true → m.bits r = true ∧ update s.data q (d p) r = s.data r := by
      intro r hr
      have hne : r ≠ q := by
        rintro rfl
        rw [hq] at hr
        cases hr
      rw [hm, update_of_ne hne, update_of_ne hne]
      exact ⟨hr, rfl⟩
    refine ⟨fun id' hr hv => ?_, fun id' hr hv => ?_, hcomp, fun r hr hs => ?_, fun r hr => ?_⟩
    · change m.bits (update s.pbn id q id') = true ∧ update s.pbn id q id' / g.pps ≠ seg ∧
        update s.data q (d p) (update s.pbn id q id') = s0.data (s0.pbn id')
      by_cases he : id' = id
      · subst he
        rw [update_self, update_self, hm, update_self, hid, hd]
        exact ⟨rfl, hqs, rfl⟩
      · rw [update_of_ne he]
        have hne : s0.pbn id' ≠ p := fun hp' => he (hone id id' hh.isRun hr hp hid hp')
        obtain ⟨h1, h2, h3⟩ := K.moved id' hr (hback id' hv hne)
        obtain ⟨h4, h5⟩ := hkeep _ h1
        exact ⟨h4, h2, h5.trans h3⟩
    · have hne : id' ≠ id := by
        rintro rfl
        refine hv ⟨(hlive id' hr hid).mp hl, hid ▸ hp, hid ▸ hseg, hid ▸ hpl⟩
      change update s.pbn id q id' = s0.pbn id'
      rw [update_of_ne hne]
      exact K.same id' hr fun h => hv (hweak id' h)
    · obtain ⟨h1, h2⟩ := K.frame r hr hs
      obtain ⟨h3, h4⟩ := hkeep r h1
      exact ⟨h3, h4.trans h2⟩
    · change m.bits r = s0.map.bits r
      rw [hm, update_of_ne fun he : r = q => hqs (he ▸ hr)]
      exact K.inside r hr

end

/-! ## A whole collection -/

section
variable {T : Tree} {g : Geom} {s s' : St π} {seg : Nat} {d : Nat → Run π}

theorem Collecting.all {l : List Nat} (C : Collecting T g seg d s l) :
    ∃ s', l.foldlM (collectPage T g seg d) s = .ok s' ∧ Collecting T g seg d s' [] ∧
      budget g s.map ≤ budget g s'.map + l.countP s.map.bits ∧
      ∀ s0, ExactlyOne T s0 → d = s0.data → Tracked T g seg s0 s l → Tracked T g seg s0 s' [] := by
  induction l generalizing s with
  | nil => exact ⟨s, rfl, C, Nat.le_add_right _ _, fun _ _ _ K => K⟩
  | cons p l ih =>
    obtain ⟨s1, h1, hc, C1, hb1⟩ := C.step
    obtain ⟨s2, h2, C2, hb2, K2⟩ := ih C1
    have hseg := C.pages p mem_cons_self
    have hpl := (nodup_cons.mp C.nodup).1
    have hcount : l.countP s1.map.bits = l.countP s.map.bits := by
      refine countP_congr fun r hr => ?_
      cases hc with
      | skip => rfl
      | drop => rfl
      | @move id m q hp hh hl hq hqs hm =>
        rw [hm, update_of_ne fun he : r = q => hqs (he ▸ C1.pages r hr)]
    refine ⟨s2, by rw [foldlM_cons, h1]; exact h2, C2, ?_, fun s0 U hd K =>
      K2 s0 U hd (K.step U hpl hseg hd hc)⟩
    cases hp : s.map.bits p <;> simp [hp] at hb1 ⊢ <;> omega

theorem Sane.retired (W : Sane T g s) (hlt : seg < g.segs) (hinv : 0 < invSum g s.map seg) :
    Moving g seg (validIn g s.map seg) (retire s.map seg) ∧ (retire s.map seg).bits = s.map.bits ∧
      ptRemainPage g s.map + s.map.used seg ≤ budget g (retire s.map seg) := by
  have R := W.rows
  have hc := R.counted seg
  have hu := R.used_le seg
  have hin := R.inUse hlt hinv
  obtain ⟨a, ha, hau⟩ := W.active
  obtain ⟨r, hr, hru, hr0, har⟩ := W.reserve
  have hrs : r ≠ seg := by
    rintro rfl
    omega
  unfold HeaderPage.retire
  split
  · rename_i hact
    cases ha.symm.trans hact
    refine ⟨⟨R.roles _ _, ⟨hin.lt, hin.not_free⟩, by omega, ⟨r, hr, ⟨hru.lt, hru.not_free⟩, hrs, fun _ => ?_⟩,
      fun b hb => by cases hb⟩, rfl, ?_⟩
    · change s.map.used r + _ < g.pps
      omega
    · simp only [budget, ptRemainPage, ha, hr, map_some, getD_some, hr0,
        isSome_none, Bool.false_eq_true, if_false]
      omega
  · rename_i hact
    refine ⟨⟨R, hin, by omega, ⟨a, ha, hau, fun he => hact (he ▸ ha), fun hn => by
      rw [hr] at hn; cases hn⟩, fun b hb => ?_⟩, rfl, ?_⟩
    · cases hr.symm.trans hb
      exact ⟨hru, hr0, hrs, har⟩
    · simp only [budget, hr, isSome_some, if_true]
      omega

theorem Moving.finish {m : HeaderPage.St} (M0 : Moving g seg 0 m) :
    ptTrimSegment g m seg = .ok (trimmed g m seg) ∧ derefActive (trimmed g m seg) = .ok () ∧
      ∃ m' a r, renewReserve g (trimmed g m seg) = .ok m' ∧ Rows g m' ∧
        (m'.active = some a ∧ InUse g m' a) ∧
        (m'.reserve = some r ∧ InUse g m' r ∧ m'.used r = 0 ∧ m'.active ≠ some r) ∧
        m'.bits = (trimmed g m seg).bits ∧ ptRemainPage g m' = budget g m := by
  obtain ⟨a, ha, hau, has, -⟩ := M0.active
  have R := M0.rows.trim M0.inUse
  have hact : (trimmed g m seg).active = some a := ha
  have haf : a ∉ m.free ++ [seg] := by
    rw [mem_append, mem_singleton, not_or]
    exact ⟨hau.not_free, has⟩
  have husedA : (trimmed g m seg).used a = m.used a := update_of_ne has _ _
  refine ⟨M0.rows.trimSegment M0.inUse, ?_, ?_⟩
  · unfold derefActive
    rw [hact]
    rfl
  unfold renewReserve
  cases hr : m.reserve with
  | some r =>
    obtain ⟨hru, hr0, hrs, hra⟩ := M0.reserve r hr
    have hres : (trimmed g m seg).reserve = some r := hr
    rw [hres]
    refine ⟨trimmed g m seg, a, r, rfl, R, ⟨hact, hau.lt, haf⟩, ⟨hr, ⟨hru.lt, ?_⟩, ?_, hra⟩, rfl, ?_⟩
    · change r ∉ m.free ++ [seg]
      rw [mem_append, mem_singleton, not_or]
      exact ⟨hru.not_free, hrs⟩
    · exact (update_of_ne hrs _ _).trans hr0
    · simp only [budget, ptRemainPage, hact, ha, hr, map_some, getD_some, husedA,
        isSome_some, if_true]
      simp only [trimmed, length_append, length_singleton, add_mul, one_mul]
      omega
  | none =>
    have hres : (trimmed g m seg).reserve = none := hr
    rw [hres]
    obtain ⟨b, rest, hf⟩ : ∃ b rest, m.free ++ [seg] = b :: rest := exists_cons_of_ne_nil (by simp)
    obtain ⟨hget, R', hlt, hnot, h0⟩ := R.getSegment (a := b) hf
    have hab : a ∉ b :: rest := hf ▸ haf
    rw [mem_cons, not_or] at hab
    refine ⟨_, a, b, by dsimp only; rw [hget]; rfl, R'.roles m.active (some b), ⟨ha, hau.lt, hab.2⟩,
      ⟨rfl, ⟨hlt, hnot⟩, h0, fun he => hab.1 (some.inj (ha.symm.trans he))⟩, rfl, ?_⟩
    have hlen : m.free.length = rest.length := by
      have := congrArg length hf
      simpa using this
    simp only [budget, ptRemainPage, ha, hr, hlen, map_some, getD_some, husedA,
      isSome_none, Bool.false_eq_true, if_false, add_zero]

/-- What `gc_header` with the renewal of the reserve does to the runs. -/
structure Moves (T : Tree) (g : Geom) (seg : Nat) (s s' : St π) : Prop where
  kept : ∀ id, T.IsRun id → Live s id → s.map.bits (s.pbn id) = true →
    s'.map.bits (s'.pbn id) = true ∧ s'.data (s'.pbn id) = s.data (s.pbn id)
  others : ∀ id, T.IsRun id → ¬ (Live s id ∧ s.map.bits (s.pbn id) = true ∧ s.pbn id / g.pps = seg) →
    s'.pbn id = s.pbn id
  empty : ∀ p, p / g.pps = seg → s'.map.bits p = false

theorem Sane.collecting (W : Sane T g s) (hu : Unmarked T s) (hlt : seg < g.segs)
    (hinv : 0 < invSum g s.map seg) :
    Collecting T g seg s.data { s with map := retire s.map seg } (pagesIn g seg) ∧
      Tracked T g seg s { s with map := retire s.map seg } (pagesIn g seg) := by
  obtain ⟨hM, hbits, -⟩ := W.retired hlt hinv
  refine ⟨⟨?_, hu, fun p hp => mem_pagesIn.mp hp, pagesIn_nodup g seg, fun _ _ => rfl,
    fun p hp _ => ?_⟩, fun id _ hv => absurd (mem_pagesIn.mpr hv.2.2.1) hv.2.2.2, fun _ _ _ => rfl,
    fun _ _ _ => rfl, fun q hq _ => ?_, fun q _ => congrFun hbits q⟩
  · change Moving g seg ((pagesIn g seg).countP (retire s.map seg).bits) _
    rw [hbits]
    exact hM
  · change (retire s.map seg).bits p = true at hp
    rw [hbits] at hp
    obtain ⟨id, hh⟩ := W.held p hp
    exact ⟨id, hh.isRun, hh.pbn, hh.key⟩
  · change (retire s.map seg).bits q = true ∧ _
    rw [hbits]
    exact ⟨hq, rfl⟩

theorem Tracked.moves (K : Tracked T g seg s s' []) {m : HeaderPage.St}
    (hm : m.bits = (trimmed g s'.map seg).bits) : Moves T g seg s { s' with map := m } := by
  refine ⟨fun id hr hl hb => ?_, fun id hr hv => K.same id hr fun h => hv ⟨h.1, h.2.1, h.2.2.1⟩,
    fun p hp => ?_⟩
  · change m.bits (s'.pbn id) = true ∧ s'.data (s'.pbn id) = _
    rw [hm, trimmed_bits]
    by_cases hin : s.pbn id / g.pps = seg
    · obtain ⟨h1, h2, h3⟩ := K.moved id hr ⟨hl, hb, hin, not_mem_nil⟩
      exact ⟨⟨h2, h1⟩, h3⟩
    · obtain ⟨h1, h2⟩ := K.frame _ hb hin
      rw [K.same id hr fun hv => hin hv.2.2.1]
      exact ⟨⟨hin, h1⟩, h2⟩
  · change m.bits p = false
    rw [hm]
    by_contra hb
    exact (trimmed_bits.mp (by simpa using hb)).1 hp

theorem gcHeader_spec (W : Sane T g s) (hu : Unmarked T s) :
    (∃ seg s', ptGetGcTarget g s.map = .ok seg ∧ gcHeader T g s = .ok s' ∧ Sane T g s' ∧
        Unmarked T s' ∧ 0 < invSum g s.map seg ∧
        ptRemainPage g s.map + invSum g s.map seg ≤ ptRemainPage g s'.map ∧
        (ExactlyOne T s → Moves T g seg s s')) ∨
      (gcHeader T g s = .error .other ∧ ∀ seg < g.segs, invSum g s.map seg = 0) := by
  obtain ⟨a, ha, -⟩ := W.active
  have hderef : derefActive s.map = .ok () := by
    unfold derefActive
    rw [ha]
    rfl
  rcases W.rows.gcTarget with ⟨seg, hseg, hlt, hinv, -⟩ | ⟨hseg, hnone⟩
  · obtain ⟨-, hbits, hbud⟩ := W.retired hlt hinv
    obtain ⟨C, K⟩ := W.collecting hu hlt hinv
    obtain ⟨s1, h1, C1, hb1, K1⟩ := C.all
    obtain ⟨htrim, hd2, m, b, r, hren, R, hact, hres, hmb, hrem⟩ := C1.moving.finish
    refine .inl ⟨seg, { s1 with map := m }, hseg, ?_, ⟨R, ⟨b, hact⟩, ⟨r, hres⟩, fun p hp => ?_⟩,
      C1.unmarked, hinv, ?_, fun U => (K1 s U rfl K).moves hmb⟩
    · unfold gcHeader
      rw [hderef, hseg]
      refine (congrArg (fun x : M (St π) => x >>= fun s => ptTrimSegment g s.map seg >>= fun m =>
        derefActive m >>= fun _ => renewReserve g m >>= fun m => .ok { s with map := m }) h1).trans ?_
      change (ptTrimSegment g s1.map seg >>= _) = _
      rw [htrim]
      change (derefActive (trimmed g s1.map seg) >>= _) = _
      rw [hd2]
      rw [hren]
      rfl
    · change m.bits p = true at hp
      rw [hmb, trimmed_bits] at hp
      obtain ⟨id, hh⟩ := C1.held p hp.2 (.inl hp.1)
      exact ⟨id, hh.isRun, hh.pbn, hh.key⟩
    · have hv : (pagesIn g seg).countP (retire s.map seg).bits = validIn g s.map seg := by
        rw [hbits]
        rfl
      have hc := W.rows.counted seg
      rw [hrem]
      change budget g (retire s.map seg) ≤ _ + (pagesIn g seg).countP (retire s.map seg).bits at hb1
      omega
  · refine .inr ⟨?_, hnone⟩
    unfold gcHeader
    rw [hderef, hseg]
    rfl

theorem retry_ends (needed : Nat) (W : Sane T g s) (hu : Unmarked T s) :
    ∃ n s' done, retry T g needed n s = some (s', done) ∧
      (done = true → needed ≤ ptRemainPage g s'.map) ∧
      (done = false → ∀ seg < g.segs, invSum g s'.map seg = 0) := by
  -- each collection gains a page
  induction hk : needed - ptRemainPage g s.map using Nat.strong_induction_on generalizing s with
  | _ k ih =>
    rcases gcHeader_spec W hu with ⟨seg, s1, -, h1, W1, hu1, hpos, hgain, -⟩ | ⟨h1, hnone⟩
    · by_cases hless : ptRemainPage g s1.map < needed
      · obtain ⟨n, s', b, hr, hb⟩ := ih _ (by omega) W1 hu1 rfl
        refine ⟨n + 1, s', b, ?_, hb⟩
        rw [retry, h1]
        dsimp only
        rw [if_pos hless]
        exact hr
      · refine ⟨1, s1, true, ?_, fun _ => by omega, fun h => (by cases h)⟩
        rw [retry, h1]
        exact if_neg hless
    · exact ⟨1, s, false, by rw [retry, h1], fun h => (by cases h), fun _ => hnone⟩

/-- With no run marked `SEQMOV` or `SEQCOMP`: `gc_header` and the renewal of
the reserve keep the header of every run that is not being compacted, change
no other address, empty the victim and gain its invalid pages; where no page
is invalid, the program ends. -/
theorem gc_header_moves (W : Sane T g s) (hu : Unmarked T s) (U : ExactlyOne T s) :
    ((∃ seg s', ptGetGcTarget g s.map = .ok seg ∧ gcHeader T g s = .ok s' ∧ Moves T g seg s s' ∧
          ptRemainPage g s.map + invSum g s.map seg ≤ ptRemainPage g s'.map) ∨
        (gcHeader T g s = .error .other ∧ ∀ seg < g.segs, invSum g s.map seg = 0)) ∧
      ∀ needed, ∃ n s' done, retry T g needed n s = some (s', done) ∧
        (done = true → needed ≤ ptRemainPage g s'.map) ∧
        (done = false → ∀ seg < g.segs, invSum g s'.map seg = 0) := by
  refine ⟨?_, fun needed => retry_ends needed W hu⟩
  rcases gcHeader_spec W hu with ⟨seg, s', hseg, h, -, -, -, hgain, hm⟩ | h
  · exact .inl ⟨seg, s', hseg, h, hm U, hgain⟩
  · exact .inr h

end

/-! ## A partition of three segments -/

section

/-- Three segments of four pages. -/
def threeByFour : Geom := ⟨2, 2, 3, Nat.two_pos, Nat.two_pos⟩

/-- Two levels, while a compaction builds a third one. -/
def twoLevels : Tree where
  levelN := 2
  keys
    | .disk 0 => [countKey 5, countKey 6]
    | .disk 1 => [countKey 8]
    | .disk _ => []
    | .cLevel => [countKey 7]
  sorted l := by
    rcases l with (_ | _ | _) | _ <;> simp
    decide

/-- Segment 0 is the reserve. Of segment 1 page 4 is invalid, 5 and 6 have the
headers of the first level, whose second run is being compacted, and 7 has that
of the level being built. Segment 2 is active, with the header of the second level. -/
def fourRuns : St Unit where
  map := {
    free := []
    active := some 2
    reserve := some 0
    used := fun seg => if seg = 1 then 4 else if seg = 2 then 1 else 0
    bits := fun p => decide (5 ≤ p ∧ p < 9)
    inv := fun seg c => if seg = 1 ∧ c = 0 then 1 else 0
    erasedQ := []
    nowAssign := 3
    alloc := fun p => decide (5 ≤ p ∧ p < 9) }
  data := fun p => [⟨(), countKey p⟩]
  pbn
    | (.disk 0, i) => 5 + i
    | (.disk _, _) => 8
    | (.cLevel, _) => 7
  comp := fun id => if id = (.disk 0, 1) then .comp else .notcomp

theorem isRun_twoLevels {id : RunId} :
    twoLevels.IsRun id ↔ id ∈ [(Place.disk 0, 0), (.disk 0, 1), (.cLevel, 0), (.disk 1, 0)] := by
  obtain ⟨l, i⟩ := id
  constructor
  · rintro ⟨hl, hi⟩
    rcases l with (_ | _ | j) | _
    · have : i < 2 := hi
      interval_cases i <;> decide
    · cases Nat.lt_one_iff.mp hi
      decide
    · exact absurd hi (Nat.not_lt_zero i)
    · cases Nat.lt_one_iff.mp hi
      decide
  · intro h
    fin_cases h <;> exact ⟨by rintro j ⟨⟩ <;> decide, by decide⟩

theorem fourRuns_bits {p : Nat} : fourRuns.map.bits p = true ↔ 5 ≤ p ∧ p < 9 := decide_eq_true_iff

theorem fourRuns_rows : Rows threeByFour fourRuns.map := by
  have hpps : threeByFour.pps = 4 := rfl
  refine ⟨fun seg => ?_, fun p hp => ?_, fun p hp => ?_, fun seg => ?_, nodup_nil,
    fun _ h => (by cases h), fun _ h => (by cases h), rfl⟩
  · simp only [fourRuns, hpps]
    split_ifs <;> omega
  · obtain ⟨h5, h9⟩ := fourRuns_bits.mp hp
    interval_cases p <;> decide
  · obtain ⟨h5, h9⟩ := fourRuns_bits.mp hp
    interval_cases p <;> decide
  · by_cases hs : seg < 3
    · interval_cases seg <;> decide
    · have hv : validIn threeByFour fourRuns.map seg = 0 := by
        refine countP_eq_zero.mpr fun p hp => ?_
        have := mem_pagesIn.mp hp
        rw [hpps] at this
        rw [fourRuns_bits]
        omega
      have hi : invSum threeByFour fourRuns.map seg = 0 := by
        simp [invSum, fourRuns, show seg ≠ 1 from by omega]
      omega

theorem fourRuns_sane : Sane twoLevels threeByFour fourRuns := by
  refine ⟨fourRuns_rows, ⟨2, rfl, Nat.lt_succ_self 2, not_mem_nil⟩, ⟨0, rfl, ⟨Nat.succ_pos 2,
    not_mem_nil⟩, rfl, fun h => (by cases h)⟩, fun p hp => ?_⟩
  obtain ⟨h5, h9⟩ := fourRuns_bits.mp hp
  interval_cases p
  · exact ⟨(.disk 0, 0), isRun_twoLevels.mpr (by decide), rfl, rfl⟩
  · exact ⟨(.disk 0, 1), isRun_twoLevels.mpr (by decide), rfl, rfl⟩
  · exact ⟨(.cLevel, 0), isRun_twoLevels.mpr (by decide), rfl, rfl⟩
  · exact ⟨(.disk 1, 0), isRun_twoLevels.mpr (by decide), rfl, rfl⟩

/-- The headers of the first run and of the level being built move to pages 9
and 10, the second run loses its page to the compaction, the run of the second
level stays, and the reserve is not needed. -/
theorem gc_header_moves_two_of_four :
    (Sane twoLevels threeByFour fourRuns ∧ Unmarked twoLevels fourRuns ∧
      ExactlyOne twoLevels fourRuns) ∧
    ((∃ seg s', ptGetGcTarget threeByFour fourRuns.map = .ok seg ∧
        gcHeader twoLevels threeByFour fourRuns = .ok s' ∧
        Moves twoLevels threeByFour seg fourRuns s' ∧
        ptRemainPage threeByFour fourRuns.map + invSum threeByFour fourRuns.map seg ≤
          ptRemainPage threeByFour s'.map) ∨
      (gcHeader twoLevels threeByFour fourRuns = .error .other ∧
        ∀ seg < threeByFour.segs, invSum threeByFour fourRuns.map seg = 0)) ∧
    (gcHeader twoLevels threeByFour fourRuns).toOption.map
      (fun s => ([(.disk 0, 0), (.cLevel, 0), (.disk 1, 0)].map s.pbn, s.comp (.disk 0, 1),
        s.map.reserve)) = some ([9, 10, 8], .invbygc, some 0) := by
  have hu : Unmarked twoLevels fourRuns := by
    intro id _ _
    simp only [fourRuns]
    split <;> decide
  have hU : ExactlyOne twoLevels fourRuns := by
    intro id id' h h' _ he
    have h := isRun_twoLevels.mp h
    have h' := isRun_twoLevels.mp h'
    revert he
    fin_cases h <;> fin_cases h' <;> decide
  exact ⟨⟨fourRuns_sane, hu, hU⟩, (gc_header_moves fourRuns_sane hu hU).1, by decide +kernel⟩

end

end FlashDriver.Lsmtree.HeaderGc
