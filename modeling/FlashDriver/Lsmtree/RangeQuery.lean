import FlashDriver.Core.LTS
import FlashDriver.Core.Selection
import FlashDriver.Lsmtree.RangeGet

/-!
# The answer of a range query

`shown` lists what the memtable and the levels show from a start key on, and `sources` all
that they have. A range query of `num` keys takes the smallest key shown `num` times, and
the source that it takes from moves on.

* `rangeHits_spec`: the loops of the code do that.
* `completion_once`: whatever the order in which the device answers, the request ends once.
* `range_query`: the answer is the `num` smallest keys, each in its newest version, exactly if
  these versions are shown and, but for the last key, no older ones are.
-/
namespace FlashDriver.Lsmtree.RangeGet

open List Option
open Core.Selection
open FlashDriver.Core (LTS)

variable {δ : Type}

/-! ## Keys in order -/

/-- A key, in the order of `KEYCMP`. -/
structure OrdKey where
  key : Key
  deriving DecidableEq

instance : LinearOrder OrdKey where
  le a b := keycmp a.key b.key ≠ .gt
  lt a b := keycmp a.key b.key = .lt
  le_refl a := by
    rw [keycmp_eq_iff.mpr rfl]
    decide
  le_trans a b c hab hbc hac := by
    rw [keycmp_gt_iff] at hac
    exact hab (keycmp_gt_iff.mpr (keycmp_lt_of_le hbc hac))
  lt_iff_le_not_ge a b := by
    rw [keycmp_swap b.key a.key]
    cases keycmp a.key b.key <;> simp
  le_antisymm a b hab hba := by
    rw [keycmp_swap b.key a.key] at hba
    cases h : keycmp a.key b.key with
    | lt => rw [h] at hba; exact absurd rfl hba
    | eq => exact congrArg OrdKey.mk (keycmp_eq_iff.mp h)
    | gt => exact absurd h hab
  le_total a b := by
    rw [keycmp_swap b.key a.key]
    cases keycmp a.key b.key <;> simp
  toDecidableLE a b := inferInstanceAs (Decidable (keycmp a.key b.key ≠ .gt))
  toDecidableEq := inferInstance
  toDecidableLT a b := inferInstanceAs (Decidable (keycmp a.key b.key = .lt))

def hitKey (h : Hit) : OrdKey := ⟨h.key⟩

theorem hitKey_lt_iff {x y : Hit} : hitKey x < hitKey y ↔ keycmp y.key x.key = .gt :=
  keycmp_gt_iff.symm

/-! ## One round -/

/-- The entries of the levels from `i` on, as hits. -/
def levelsFrom : Nat → List (List Ent) → List (List Hit)
  | _, [] => []
  | i, es :: ess => es.map (.disk i) :: levelsFrom (i + 1) ess

def memHits (σ : Lsm δ) (nodes : List Nat) : List Hit := nodes.map fun n => .mem (σ.mem.key n)

/-- `R` holds of the iterators of the levels from `i` on and what they have before them. -/
def Each (R : Nat → LevelIter → List Ent → Prop) :
    Nat → List LevelIter → List (List Ent) → Prop
  | _, [], [] => True
  | i, it :: its, rem :: rems => R i it rem ∧ Each R (i + 1) its rems
  | _, _, _ => False

section
variable {R R' : Nat → LevelIter → List Ent → Prop} {i t : Nat} {its : List LevelIter}
  {rems : List (List Ent)} {rem rem' : List Ent} {it : LevelIter}

theorem Each.get (h : Each R i its rems) (ht : rems[t]? = some rem) :
    ∃ it, its[t]? = some it ∧ R (i + t) it rem := by
  induction rems generalizing i its t with
  | nil => cases ht
  | cons r rems ih =>
    cases its with
    | nil => exact h.elim
    | cons a its =>
      cases t with
      | zero =>
        cases (show r = rem by simpa using ht)
        exact ⟨a, rfl, h.1⟩
      | succ t =>
        obtain ⟨it, hit, hR⟩ := ih h.2 (t := t) (by simpa using ht)
        exact ⟨it, by simpa using hit, by rwa [Nat.add_right_comm, add_assoc] at hR⟩

theorem Each.set (h : Each R i its rems) (hR : R (i + t) it rem') :
    Each R i (its.set t it) (rems.set t rem') := by
  induction rems generalizing i its t with
  | nil =>
    cases its with
    | nil => exact h
    | cons a its => exact h.elim
  | cons r rems ih =>
    cases its with
    | nil => exact h.elim
    | cons a its =>
      cases t with
      | zero => exact ⟨hR, h.2⟩
      | succ t => exact ⟨h.1, ih h.2 (by rwa [Nat.add_right_comm, add_assoc])⟩

theorem Each.imp (h : Each R i its rems) (hR : ∀ i it rem, R i it rem → R' i it rem) :
    Each R' i its rems := by
  induction rems generalizing i its with
  | nil => cases its <;> exact h
  | cons r rems ih =>
    cases its with
    | nil => exact h.elim
    | cons a its => exact ⟨hR _ _ _ h.1, ih h.2⟩

theorem levelsFrom_getElem? :
    (levelsFrom i rems)[t]? = rems[t]?.map (map (.disk (i + t))) := by
  induction rems generalizing i t with
  | nil => rfl
  | cons r rems ih =>
    cases t with
    | zero => rfl
    | succ t =>
      rw [levelsFrom, getElem?_cons_succ, getElem?_cons_succ, ih, Nat.add_right_comm, add_assoc]

theorem levelsFrom_mem {hs : List Hit} (h : hs ∈ levelsFrom i rems) :
    ∃ (t : Nat) (rem : List Ent), rems[t]? = some rem ∧ hs = rem.map (.disk (i + t)) := by
  obtain ⟨t, ht⟩ := mem_iff_getElem?.mp h
  rw [levelsFrom_getElem?, map_eq_some_iff] at ht
  obtain ⟨rem, hrem, rfl⟩ := ht
  exact ⟨t, rem, hrem, rfl⟩

theorem levelsFrom_pop : (levelsFrom i rems).modify t tail = levelsFrom i (rems.modify t tail) := by
  induction rems generalizing i t with
  | nil => simp [levelsFrom]
  | cons r rems ih =>
    cases t with
    | zero => simp [levelsFrom]
    | succ t => simp [levelsFrom, ih]

end

section
variable {σ : Lsm δ} {p : Params} {s : Key} {c : Cursor} {ns nodes : List Nat}
  {rems : List (List Ent)}

/-- The iterator of level `i`. -/
abbrev At (σ : Lsm δ) (p : Params) (s : Key) (i : Nat) : LevelIter → List Ent → Prop :=
  LevelAt (i < σ.levelCaching) p.mapping s i

abbrev ReadyAt (σ : Lsm δ) (p : Params) (s : Key) (i : Nat) : LevelIter → List Ent → Prop :=
  Ready (i < σ.levelCaching) p.mapping s i

theorem least_newMin (i : Nat) (m : Option Hit) (es : List Ent) (ts : List (List Hit)) :
    least hitKey (es.map (.disk i) :: ts) m = least hitKey ts (newMin i m es.head?) := by
  cases es with
  | nil => cases m <;> rfl
  | cons e es =>
    cases m with
    | none => rfl
    | some m =>
      have hiff : hitKey (.disk i e) < hitKey m ↔ keycmp m.key e.key = .gt := hitKey_lt_iff
      simp only [map_cons, least, head?_cons, newMin, hiff]
      split <;> rfl

theorem scanLevels_spec {its : List LevelIter} {i : Nat} (h : Each (At σ p s) i its rems)
    (m : Option Hit) :
    ∃ its', scanLevels σ p s i m its = some (least hitKey (levelsFrom i rems) m, its') ∧
      Each (ReadyAt σ p s) i its' rems := by
  induction rems generalizing i its m with
  | nil =>
    cases its with
    | nil => exact ⟨[], rfl, trivial⟩
    | cons a its => exact h.elim
  | cons r rems ih =>
    cases its with
    | nil => exact h.elim
    | cons it its =>
      obtain ⟨it', hpick, hready⟩ := pickLevel_spec h.1
      obtain ⟨its', hscan, hrest⟩ := ih h.2 (newMin i m r.head?)
      refine ⟨it' :: its', ?_, hready, hrest⟩
      rw [scanLevels, hpick, levelsFrom, least_newMin]
      simp [hscan]

/-- The cursor in the memtable has `nodes` before it. -/
def MemAt (σ : Lsm δ) (ns : List Nat) (c : Cursor) (nodes : List Nat) : Prop :=
  (c.node = none ∧ nodes = []) ∨ (c.noMemtable = false ∧ (∃ pre, ns = pre ++ nodes) ∧
      c.node = some (nodes.headD σ.memtable.header))

theorem memMin_spec (W : Skip.Wf σ.mem σ.memtable ns) (M : MemAt σ ns c nodes) :
    (memMin σ c).1 = (memHits σ nodes).head? ∧
      ∀ its, MemAt σ ns ⟨c.node, (memMin σ c).2, its⟩ nodes := by
  rcases M with ⟨hnode, rfl⟩ | ⟨hno, ⟨pre, rfl⟩, hnode⟩
  · refine ⟨?_, fun its => .inl ⟨hnode, rfl⟩⟩
    unfold memMin
    rw [hnode]
    split <;> rfl
  · have hmin : memMin σ c = (if nodes.headD σ.memtable.header = σ.memtable.header then none
          else some (.mem (σ.mem.node (nodes.headD σ.memtable.header)).key), false) := by
      unfold memMin
      rw [hno, hnode]
      rfl
    rw [hmin]
    refine ⟨?_, fun its => .inr ⟨rfl, ⟨pre, rfl⟩, hnode⟩⟩
    cases nodes with
    | nil => exact if_pos rfl
    | cons n nodes =>
      have hne : n ≠ σ.memtable.header := by
        rintro rfl
        have hnd := (nodup_cons.mp W.tower.nodup).1
        exact hnd (mem_append_right _ mem_cons_self)
      exact if_neg hne

/-- All the sources, from the memtable on. -/
abbrev streams (σ : Lsm δ) (nodes : List Nat) (rems : List (List Ent)) : List (List Hit) :=
  memHits σ nodes :: levelsFrom 0 rems

structure Standing (σ : Lsm δ) (p : Params) (s : Key) (ns : List Nat) (c : Cursor)
    (nodes : List Nat) (rems : List (List Ent)) : Prop where
  mem : MemAt σ ns c nodes
  levels : Each (At σ p s) 0 c.iters rems

theorem least_streams : least hitKey (streams σ nodes rems) none =
    least hitKey (levelsFrom 0 rems) (memHits σ nodes).head? := by
  cases nodes <;> rfl

theorem round_spec (W : Skip.Wf σ.mem σ.memtable ns) (S : Standing σ p s ns c nodes rems) :
    ∃ c', round σ p s c = some (least hitKey (streams σ nodes rems) none, c') ∧
      ((least hitKey (streams σ nodes rems) none = none ∧ Standing σ p s ns c' nodes rems) ∨
        ∃ x nodes' rems', least hitKey (streams σ nodes rems) none = some x ∧
          Standing σ p s ns c' nodes' rems' ∧
          streams σ nodes' rems' = (streams σ nodes rems).modify x.src tail) := by
  obtain ⟨hmin, hmem⟩ := memMin_spec W S.mem
  obtain ⟨its, hscan, hready⟩ := scanLevels_spec S.levels (memHits σ nodes).head?
  have hlevels : Each (At σ p s) 0 its rems := hready.imp fun _ _ _ h => h.level
  have hround : round σ p s c = advance σ ⟨c.node, (memMin σ c).2, its⟩
      (least hitKey (streams σ nodes rems) none) := by
    rw [round]
    simp only [hmin, hscan, least_streams, bind_eq_bind, bind_some]
  rw [hround]
  cases hl : least hitKey (streams σ nodes rems) none with
  | none => exact ⟨_, rfl, .inl ⟨rfl, hmem its, hlevels⟩⟩
  | some x =>
    obtain ⟨hs, hin, hx⟩ := (least_mem hl).resolve_left (by simp)
    rcases mem_cons.mp hin with rfl | hin
    · -- the next node of the memtable
      cases nodes with
      | nil => cases hx
      | cons n nodes =>
        cases (show Hit.mem (σ.mem.key n) = x from some.inj hx)
        rcases hmem its with ⟨-, hnil⟩ | ⟨hno, ⟨pre, hpre⟩, hnode⟩
        · cases hnil
        · have hnext : σ.mem.list n 1 = some (nodes.headD σ.memtable.header) := by
            have hsplit : ns = (pre ++ [n]) ++ nodes := by rw [hpre]; simp
            rw [hsplit] at W
            have := W.next
            rwa [getLastD_concat] at this
          have hnode' : c.node = some n := hnode
          refine ⟨⟨some (nodes.headD σ.memtable.header), (memMin σ c).2, its⟩, ?_,
            .inr ⟨_, nodes, rems, rfl, ⟨.inr ⟨hno, ⟨pre ++ [n], ?_⟩, rfl⟩, hlevels⟩, ?_⟩⟩
          · simp [advance, hnode', hnext]
          · rw [hpre]
            simp
          · simp [streams, memHits, Hit.src]
    · -- the next entry of a level
      obtain ⟨t, rem, ht, rfl⟩ := levelsFrom_mem hin
      cases rem with
      | nil => cases hx
      | cons e rem =>
        rw [zero_add] at hx
        cases (show Hit.disk t e = x from some.inj hx)
        obtain ⟨it, hit, hR⟩ := hready.get ht
        rw [zero_add] at hR
        obtain ⟨iter, hnext, hAt⟩ := hR.next e rem rfl
        have hpop : rems.set t rem = rems.modify t tail := by
          rw [modify_eq_set, ht]
          rfl
        refine ⟨⟨c.node, (memMin σ c).2, its.set t ⟨iter, it.cnt⟩⟩, ?_,
          .inr ⟨_, nodes, rems.set t rem, rfl, ⟨?_, ?_⟩, ?_⟩⟩
        · simp [advance, hit, hnext]
        · exact hmem _
        · exact hlevels.set (by rw [zero_add]; exact hAt)
        · rw [streams, streams, Hit.src, modify_succ_cons, levelsFrom_pop, hpop]

theorem select_none {n : Nat} {ts : List (List Hit)} (h : least hitKey ts none = none) :
    select hitKey Hit.src n ts = [] := by
  cases n with
  | zero => rfl
  | succ n => rw [select, h]

theorem rounds_spec (W : Skip.Wf σ.mem σ.memtable ns) (S : Standing σ p s ns c nodes rems)
    (n : Nat) :
    ∃ hs, rounds σ p s n c = some hs ∧ hs.length = n ∧
      hs.reduceOption = select hitKey Hit.src n (streams σ nodes rems) := by
  induction n generalizing c nodes rems with
  | zero => exact ⟨[], rfl, rfl, rfl⟩
  | succ n ih =>
    obtain ⟨c', hround, hcase⟩ := round_spec W S
    rcases hcase with ⟨hnone, S'⟩ | ⟨x, nodes', rems', hx, S', hpop⟩
    · obtain ⟨hs, hrest, hlen, hsel⟩ := ih S'
      refine ⟨none :: hs, ?_, by simp [hlen], ?_⟩
      · rw [rounds, hround, hnone]
        simp [hrest]
      · rw [reduceOption_cons_of_none, hsel, select_none hnone, select_none hnone]
    · obtain ⟨hs, hrest, hlen, hsel⟩ := ih S'
      refine ⟨some x :: hs, ?_, by simp [hlen], ?_⟩
      · rw [rounds, hround, hx]
        simp [hrest]
      · rw [reduceOption_cons_of_some, hsel, hpop, select, hx]

end

/-! ## What is shown -/

/-- A tree with the nodes `ns` in its memtable and the entries `esss` on its levels. -/
structure Wf (σ : Lsm δ) (ns : List Nat) (esss : List (List (List Ent))) : Prop where
  mem : Skip.Wf σ.mem σ.memtable ns
  counted : Skip.Counted σ.mem σ.memtable ns
  levels : List.Forall₂ LevelWf σ.disk esss
  caching : σ.levelCaching ≤ σ.disk.length

/-- The pages of level `i` that the query looks at: none if no run has the start key in its
range, one if the level is kept in memory, else up to two, without those whose entry of
`mapping_data` is cleared. -/
def levelPages (σ : Lsm δ) (s : Key) (i : Nat) (l : RangeLevel) (ess : List (List Ent)) :
    List (List Ent) :=
  match foundRun l.runs s with
  | none => []
  | some r =>
    if i < σ.levelCaching then (ess.drop r).take 1
    else if erased σ s (i * 2) then []
    else if erased σ s (i * 2 + 1) then (ess.drop r).take 1
    else (ess.drop r).take 2

def shownLevel (σ : Lsm δ) (s : Key) (i : Nat) (l : RangeLevel) (ess : List (List Ent)) :
    List Ent :=
  (levelPages σ s i l ess).flatMap fun es => cut (fromKey s es)

def shownFrom (σ : Lsm δ) (s : Key) : Nat → List RangeLevel → List (List (List Ent)) →
    List (List Ent)
  | i, l :: ls, ess :: esss => shownLevel σ s i l ess :: shownFrom σ s (i + 1) ls esss
  | _, _, _ => []

/-- What the memtable and the levels show from `s` on. -/
def shown (σ : Lsm δ) (ns : List Nat) (esss : List (List (List Ent))) (s : Key) :
    List (List Hit) :=
  streams σ (ns.filter fun n => !σ.mem.before s n) (shownFrom σ s 0 σ.disk esss)

section
variable {σ : Lsm δ} {p : Params} {s : Key} {ns : List Nat} {esss : List (List (List Ent))}
  {l : RangeLevel} {ess : List (List Ent)} {i r : Nat}

theorem LevelWf.page (L : LevelWf l ess) (hr : r < l.runs.length) :
    ∃ es, ess.drop r = es :: ess.drop (r + 1) ∧ PageAt (l.runs.get ⟨r, hr⟩).page es := by
  have hlen : l.runs.length = ess.length := L.arranged.headers.length_eq
  have hre : r < ess.length := by omega
  have H := L.arranged.headers.get hr hre
  exact ⟨ess[r], drop_eq_getElem_cons hre, H.encodes, H.fits, H.sorted,
    L.nonempty _ (getElem_mem hre)⟩

theorem iter_on {page : Page} {es later : List Ent} {caching : Bool}
    {mapping : Nat → Option Page} (P : PageAt page es) (hl : Later caching mapping s i 1 later) :
    ∃ it, (headerGetKeyiter page s).map (fun h => LevelIter.mk (some h) 1) = some it ∧
      LevelAt caching mapping s i it (cut (fromKey s es) ++ later) := by
  obtain ⟨b, hb, hpos, hdrop⟩ := P.getKeyiter s
  refine ⟨⟨some ⟨page, b⟩, 1⟩, by rw [hb]; rfl, ?_⟩
  rw [← hdrop]
  exact .on P hpos hl

theorem levelIter_spec (L : LevelWf l ess) (hl : σ.disk[i]? = some l)
    (hp : ∀ i j, j < 2 → p.mapping (i * 2 + j) =
      if erased σ s (i * 2 + j) then none else pageOf σ s i j) :
    ∃ it, levelIter σ p s (l, i) = some it ∧ At σ p s i it (shownLevel σ s i l ess) := by
  unfold levelIter shownLevel levelPages
  dsimp only
  by_cases hc : i < σ.levelCaching
  · rw [if_pos hc, arrayBinarySearch_eq L.arranged, bind_some]
    cases hfound : foundRun l.runs s with
    | none => exact ⟨_, rfl, .off⟩
    | some r =>
      obtain ⟨hr, -, -⟩ := findIdx?_eq_some_iff_getElem.mp hfound
      obtain ⟨es, hes, P⟩ := L.page hr
      have hlater : Later (i < σ.levelCaching) p.mapping s i 1 [] :=
        .none (.inl (by simpa using hc))
      obtain ⟨it, hit, hAt⟩ := iter_on P hlater
      refine ⟨it, ?_, ?_⟩
      · simpa [hr] using hit
      · simpa [At, hc, hes] using hAt
  · have hmap := hp i 0 (by omega)
    rw [add_zero] at hmap
    have hci : σ.levelCaching ≤ i := by omega
    rw [if_neg hc]
    simp only [rangeGetNum, hmap, pageOf_eq hl hci]
    cases hfound : foundRun l.runs s with
    | none =>
      refine ⟨⟨none, 1⟩, ?_, .off⟩
      simp
    | some r =>
      obtain ⟨hr, -, -⟩ := findIdx?_eq_some_iff_getElem.mp hfound
      obtain ⟨es, hes, P⟩ := L.page hr
      by_cases he : erased σ s (i * 2) = true
      · refine ⟨⟨none, 1⟩, ?_, ?_⟩
        · simp [he]
        · simpa [hc, he] using LevelAt.off
      · have hcf : decide (i < σ.levelCaching) = false := decide_eq_false hc
        have hmap1 := hp i 1 (by omega)
        rw [pageOf_eq hl hci, hfound, bind_some] at hmap1
        by_cases he1 : erased σ s (i * 2 + 1) = true
        · rw [if_pos he1] at hmap1
          obtain ⟨it, hit, hAt⟩ := iter_on P
            (.none (.inr (.inr hmap1)) : Later (i < σ.levelCaching) p.mapping s i 1 [])
          refine ⟨it, ?_, ?_⟩
          · simpa [he, hr] using hit
          · simpa [At, hc, he, he1, hes] using hAt
        · rw [if_neg he1] at hmap1
          by_cases hr1 : r + 1 < l.runs.length
          · obtain ⟨es', hes', P'⟩ := L.page hr1
            have hm : p.mapping (i * 2 + 1) = some (l.runs.get ⟨r + 1, hr1⟩).page := by
              rw [hmap1, getElem?_eq_getElem hr1]
              rfl
            obtain ⟨it, hit, hAt⟩ := iter_on P (Later.page (s := s) hcf hm P')
            refine ⟨it, ?_, ?_⟩
            · simpa [he, hr] using hit
            · simpa [At, hc, he, he1, hes, hes'] using hAt
          · have hm : p.mapping (i * 2 + 1) = none := by
              rw [hmap1, getElem?_eq_none (by omega)]
              rfl
            have hnil : ess.drop (r + 1) = [] := by
              have hlen : l.runs.length = ess.length := L.arranged.headers.length_eq
              exact drop_eq_nil_of_le (by omega)
            obtain ⟨it, hit, hAt⟩ := iter_on P
              (.none (.inr (.inr hm)) : Later (i < σ.levelCaching) p.mapping s i 1 [])
            refine ⟨it, ?_, ?_⟩
            · simpa [he, hr] using hit
            · simpa [At, hc, he, he1, hes, hnil] using hAt

theorem iters_spec (hp : ∀ i j, j < 2 → p.mapping (i * 2 + j) =
      if erased σ s (i * 2 + j) then none else pageOf σ s i j)
    {ls : List RangeLevel} (hls : ∀ j, ls[j]? = σ.disk[i + j]?)
    (L : List.Forall₂ LevelWf ls esss) :
    ∃ its, (ls.zipIdx i).mapM (levelIter σ p s) = some its ∧
      Each (At σ p s) i its (shownFrom σ s i ls esss) := by
  induction L generalizing i with
  | nil => exact ⟨[], rfl, trivial⟩
  | @cons l ess ls esss hl L ih =>
    have h0 : σ.disk[i]? = some l := by simpa using (hls 0).symm
    obtain ⟨it, hit, hAt⟩ := levelIter_spec (p := p) (s := s) hl h0 hp
    obtain ⟨its, hits, hEach⟩ := ih (i := i + 1) fun j => by
      have := hls (j + 1)
      rw [getElem?_cons_succ] at this
      rw [this]
      congr 1
      omega
    refine ⟨it :: its, ?_, hAt, hEach⟩
    rw [zipIdx_cons, mapM_cons, hit]
    simp [hits]

theorem rangeHits_spec (W : Wf σ ns esss) (hs : s.length ≤ 255)
    (hp : ∀ i j, j < 2 → p.mapping (i * 2 + j) =
      if erased σ s (i * 2 + j) then none else pageOf σ s i j) (num : Nat) :
    ∃ hits, rangeHits σ p s num = some hits ∧ hits.length = num ∧
      hits.reduceOption = select hitKey Hit.src num (shown σ ns esss s) := by
  obtain ⟨pre, post, rfl, hpre, hpost, hlow⟩ := Skip.lowerbound_spec W.mem W.counted hs
  obtain ⟨its, hits, hEach⟩ := iters_spec (i := 0) hp (fun j => by rw [zero_add]) W.levels
  have hfilter : ((pre ++ post).filter fun n => !σ.mem.before s n) = post := by
    rw [filter_append, filter_eq_nil_iff.mpr, filter_eq_self.mpr]
    · rfl
    · intro n hn
      simp [hpost n hn]
    · intro n hn
      simp [hpre n hn]
  have S : Standing σ p s (pre ++ post)
      ⟨if pre ++ post = [] then none else some (post.headD σ.memtable.header), false, its⟩ post
      (shownFrom σ s 0 σ.disk esss) := by
    refine ⟨?_, hEach⟩
    by_cases hnil : pre ++ post = []
    · exact .inl ⟨if_pos hnil, (append_eq_nil_iff.mp hnil).2⟩
    · exact .inr ⟨rfl, ⟨pre, rfl⟩, if_neg hnil⟩
  obtain ⟨hits', hrounds, hlen, hsel⟩ := rounds_spec W.mem S num
  refine ⟨hits', ?_, hlen, ?_⟩
  · rw [rangeHits, hlow]
    simp only [bind_eq_bind, bind_some, hits]
    exact hrounds
  · rw [hsel, shown, hfilter]

end

/-! ## What there is -/

/-- All that the memtable and the levels have, newest first. -/
def sources (σ : Lsm δ) (ns : List Nat) (esss : List (List (List Ent))) : List (List Hit) :=
  streams σ ns (esss.map flatten)

/-- The keys from `s` on, in order and without repetition. -/
def keysFrom (σ : Lsm δ) (ns : List Nat) (esss : List (List (List Ent))) (s : Key) :
    List OrdKey :=
  (((sources σ ns esss).flatten.map hitKey).filter fun k => OrdKey.mk s ≤ k).toFinset.sort (· ≤ ·)

/-- The newest version of a key. -/
def newest (σ : Lsm δ) (ns : List Nat) (esss : List (List (List Ent))) (k : OrdKey) : Hit :=
  ((sources σ ns esss).flatten.find? fun x => hitKey x = k).getD (.mem k.key)

section
variable {σ : Lsm δ} {s : Key} {ns : List Nat} {esss : List (List (List Ent))} {l : RangeLevel}
  {ess : List (List Ent)} {i : Nat} {x : Hit} {e : Ent}

theorem LevelWf.flatten_sorted (L : LevelWf l ess) : Sorted ess.flatten := by
  have A := L.arranged
  have hlen : l.runs.length = ess.length := A.headers.length_eq
  have hat : ∀ j (hj : j < ess.length), HeaderOf (l.runs.get ⟨j, hlen ▸ hj⟩) ess[j] :=
    fun j hj => A.headers.get (hlen ▸ hj) hj
  apply pairwise_flatten.mpr
  constructor
  · intro es hes
    obtain ⟨j, hj, rfl⟩ := mem_iff_getElem.mp hes
    exact (hat j hj).sorted
  · apply pairwise_iff_getElem.mpr
    intro j k hj hk hjk x hx y hy
    have hapart := pairwise_iff_getElem.mp A.apart j k (by omega) (by omega) hjk
    have hx' := ((hat j hj).inside x hx).2
    have hy' := ((hat k hk).inside y hy).1
    have hlt := keycmp_lt_of_le hx' hapart
    cases hc : keycmp (l.runs.get ⟨k, by omega⟩).key y.key with
    | lt => exact keycmp_trans hlt hc
    | eq => rwa [← keycmp_eq_iff.mp hc]
    | gt => exact absurd hc hy'

theorem sources_streams (W : Wf σ ns esss) : Streams hitKey Hit.src (sources σ ns esss) := by
  constructor
  · intro t hs ht x hx
    cases t with
    | zero =>
      cases (show memHits σ ns = hs by simpa [sources] using ht)
      obtain ⟨n, -, rfl⟩ := mem_map.mp hx
      rfl
    | succ t =>
      have ht : (levelsFrom 0 (esss.map flatten))[t]? = some hs := by simpa [sources] using ht
      rw [levelsFrom_getElem?, map_eq_some_iff, zero_add] at ht
      obtain ⟨es, -, rfl⟩ := ht
      obtain ⟨e, -, rfl⟩ := mem_map.mp hx
      rfl
  · intro hs hmem
    rcases mem_cons.mp hmem with rfl | hmem
    · exact pairwise_map.mpr W.mem.sorted
    · obtain ⟨t, es, ht, rfl⟩ := levelsFrom_mem hmem
      obtain ⟨ess, hess, rfl⟩ := mem_map.mp (mem_of_getElem? ht)
      obtain ⟨j, hj, rfl⟩ := mem_iff_getElem.mp hess
      have hjd : j < σ.disk.length := W.levels.length_eq ▸ hj
      exact pairwise_map.mpr (W.levels.get hjd hj).flatten_sorted

theorem fromKey_sublist (s : Key) (es : List Ent) : (fromKey s es).Sublist es := filter_sublist

theorem cut_sublist (es : List Ent) : (cut es).Sublist es :=
  (takeWhile_sublist _).trans (dropLast_sublist es)

theorem levelPages_sublist : (levelPages σ s i l ess).Sublist ess := by
  have htake : ∀ r n, ((ess.drop r).take n).Sublist ess := fun r n =>
    (take_sublist ..).trans (drop_sublist ..)
  unfold levelPages
  split
  · exact nil_sublist _
  · split
    · exact htake _ _
    · split
      · exact nil_sublist _
      · split <;> exact htake _ _

theorem shownLevel_sublist : (shownLevel σ s i l ess).Sublist ess.flatten := by
  have hpages : ∀ pages : List (List Ent),
      (pages.flatMap fun es => cut (fromKey s es)).Sublist pages.flatten := by
    intro pages
    induction pages with
    | nil => exact List.Sublist.refl _
    | cons es pages ih =>
      rw [flatMap_cons, flatten_cons]
      exact ((cut_sublist _).trans (fromKey_sublist s es)).append ih
  exact (hpages _).trans levelPages_sublist.flatten

theorem of_mem_shownLevel (h : e ∈ shownLevel σ s i l ess) :
    keycmp e.key s ≠ .lt ∧ e.ppa ≠ noPpa := by
  obtain ⟨es, -, he⟩ := mem_flatMap.mp h
  refine ⟨?_, ?_⟩
  · have := (cut_sublist _).subset he
    simpa [fromKey] using (mem_filter.mp this).2
  · simpa using mem_takeWhile_imp he

theorem shownFrom_getElem? {ls : List RangeLevel} {t : Nat} {es : List Ent}
    (h : (shownFrom σ s i ls esss)[t]? = some es) :
    ∃ l ess, esss[t]? = some ess ∧ es = shownLevel σ s (i + t) l ess := by
  induction ls generalizing i esss t with
  | nil => cases esss <;> cases h
  | cons l ls ih =>
    cases esss with
    | nil => cases h
    | cons ess esss =>
      cases t with
      | zero => exact ⟨l, ess, rfl, (some.inj h).symm⟩
      | succ t =>
        obtain ⟨l, ess, hess, rfl⟩ := ih h
        exact ⟨l, ess, by simpa using hess, by rw [Nat.add_right_comm, add_assoc]⟩

theorem shownFrom_sublists {ls : List RangeLevel} (hlen : ls.length = esss.length) :
    List.Forall₂ List.Sublist (levelsFrom i (shownFrom σ s i ls esss))
      (levelsFrom i (esss.map flatten)) := by
  induction ls generalizing i esss with
  | nil =>
    cases esss with
    | nil => exact .nil
    | cons ess esss => cases hlen
  | cons l ls ih =>
    cases esss with
    | nil => cases hlen
    | cons ess esss => exact .cons (shownLevel_sublist.map _) (ih (Nat.succ.inj hlen))

theorem shown_sublists (W : Wf σ ns esss) (s : Key) :
    List.Forall₂ List.Sublist (shown σ ns esss s) (sources σ ns esss) :=
  .cons (filter_sublist.map _) (shownFrom_sublists W.levels.length_eq)

theorem of_mem_shown (h : x ∈ (shown σ ns esss s).flatten) :
    OrdKey.mk s ≤ hitKey x ∧ ∀ t e, x = .disk t e → e.ppa ≠ noPpa := by
  have hle : ∀ k : Key, keycmp k s ≠ .lt → OrdKey.mk s ≤ OrdKey.mk k := by
    intro k hk
    change keycmp s k ≠ .gt
    rwa [Ne, keycmp_gt_iff]
  obtain ⟨hs, hmem, hx⟩ := mem_flatten.mp h
  rcases mem_cons.mp hmem with rfl | hmem
  · obtain ⟨n, hn, rfl⟩ := mem_map.mp hx
    refine ⟨hle _ ?_, fun t e h => (by cases h)⟩
    simpa [Skip.Mem.before, Hit.key] using (mem_filter.mp hn).2
  · obtain ⟨t, es, ht, rfl⟩ := levelsFrom_mem hmem
    obtain ⟨e, he, rfl⟩ := mem_map.mp hx
    obtain ⟨l, ess, -, rfl⟩ := shownFrom_getElem? ht
    obtain ⟨h1, h2⟩ := of_mem_shownLevel he
    refine ⟨hle _ h1, fun t e h => ?_⟩
    cases h
    exact h2

theorem mem_keysFrom {k : OrdKey} : k ∈ keysFrom σ ns esss s ↔
    (∃ x ∈ (sources σ ns esss).flatten, hitKey x = k) ∧ OrdKey.mk s ≤ k := by
  rw [keysFrom, Finset.mem_sort, List.mem_toFinset, List.mem_filter, List.mem_map,
    decide_eq_true_eq]

theorem shown_covers (W : Wf σ ns esss) (s : Key) :
    Covers hitKey Hit.src (shown σ ns esss s) (keysFrom σ ns esss s) (newest σ ns esss) := by
  have S := sources_streams W
  have hsub := (sublists_flatten (shown_sublists W s)).subset
  have hnew : ∀ x ∈ (sources σ ns esss).flatten, hitKey (newest σ ns esss (hitKey x)) = hitKey x ∧
      (newest σ ns esss (hitKey x)).src ≤ x.src ∧
      (x.src = (newest σ ns esss (hitKey x)).src → x = newest σ ns esss (hitKey x)) := by
    intro x hx
    obtain ⟨y, hy, -, hk, hle, heq⟩ := S.find_first hx
    rw [newest, hy]
    exact ⟨hk, hle, heq⟩
  refine ⟨S.of_sublists (shown_sublists W s), ?_, fun x hx => ?_, fun k hk => ?_, fun x hx => ?_,
    fun x hx => ?_⟩
  · exact (Finset.sortedLT_sort _).pairwise
  · exact mem_keysFrom.mpr ⟨⟨x, hsub hx, rfl⟩, (of_mem_shown hx).1⟩
  · obtain ⟨⟨x, hx, rfl⟩, -⟩ := mem_keysFrom.mp hk
    exact (hnew x hx).1
  · exact (hnew x (hsub hx)).2.1
  · exact (hnew x (hsub hx)).2.2

end

/-! ## Completion -/

inductive Phase where
  | headers | queued | data | done
  deriving DecidableEq, Repr

/-- Of the reads of a phase `toIssue` are still to be issued and `flying` are at the device;
`ended` counts the calls of `end_req`. -/
structure ReqSt where
  phase : Phase
  toIssue : Nat
  flying : Nat
  now : Nat
  max : Int
  ended : Nat

/-- mirrors algorithm/Lsmtree/lsmtree_multi.c:204-220 -/
def startData (max : Int) (reads ended : Nat) : ReqSt :=
  if max = 0 then ⟨.done, 0, 0, 0, max, ended + 1⟩ else ⟨.data, reads, 0, 0, max, ended⟩

/-- mirrors algorithm/Lsmtree/lsmtree_multi.c:294-306; without header pages to read the
second part follows at once -/
def startHeaders (p : Params) (max : Int) (reads : Nat) : ReqSt :=
  if p.max = 0 then startData max reads 0 else ⟨.headers, p.reads, 0, 0, p.max, 0⟩

/-- mirrors algorithm/Lsmtree/lsmtree_multi.c:71-112: a header page that completes the set
puts the request back into the queue, a data page ends it -/
def rangeEndReq (q : ReqSt) : ReqSt :=
  if ((q.now + 1 : Nat) : Int) = q.max then
    match q.phase with
    | .headers => { q with now := q.now + 1, phase := .queued }
    | .data => { q with now := q.now + 1, phase := .done, ended := q.ended + 1 }
    | _ => { q with now := q.now + 1 }
  else { q with now := q.now + 1 }

/-- `restart`: the thread that issues the reads takes the request from the queue again. -/
inductive Act where
  | issue | complete | restart
  deriving DecidableEq, Repr

def reqStep (max : Int) (reads : Nat) (q : ReqSt) : Act → Option ReqSt
  | .issue => if q.toIssue = 0 then none
    else some { q with toIssue := q.toIssue - 1, flying := q.flying + 1 }
  | .complete => if q.flying = 0 then none else some (rangeEndReq { q with flying := q.flying - 1 })
  | .restart =>
    if q.phase = .queued ∧ q.toIssue = 0 then some (startData max reads q.ended) else none

/-- The request with the header pages of `p`, and with `max` and the number of `reads` for the
data pages. -/
def completion (p : Params) (max : Int) (reads : Nat) : LTS ReqSt Act where
  init q := q = startHeaders p max reads
  step q a q' := reqStep max reads q a = some q'

/-- `R` header pages and `D` data pages are read; `n` steps were made. -/
def Tracked (R D n : Nat) (q : ReqSt) : Prop :=
  match q.phase with
  | .headers => q.ended = 0 ∧ q.max = R ∧ q.toIssue + q.flying + q.now = R ∧ q.now < R ∧
      n + q.toIssue = R + q.now
  | .queued => q.ended = 0 ∧ q.toIssue = 0 ∧ q.flying = 0 ∧ n ≤ 2 * R
  | .data => q.ended = 0 ∧ q.max = D ∧ q.toIssue + q.flying + q.now = D ∧ q.now < D ∧
      n + q.toIssue ≤ 2 * R + 1 + D + q.now
  | .done => q.ended = 1 ∧ q.toIssue = 0 ∧ q.flying = 0 ∧ n ≤ 2 * R + 1 + 2 * D

section
variable {p : Params} {max : Int} {R D n : Nat} {q q' : ReqSt}

theorem startData_tracked (h : max = D) (hn : n ≤ 2 * R + 1) :
    Tracked R D n (startData max D 0) := by
  unfold startData
  split
  · refine ⟨rfl, rfl, rfl, by omega⟩
  · refine ⟨rfl, h, by simp, by dsimp only; omega, by dsimp only; omega⟩

theorem rangeEndReq_tracked (h : Tracked R D n q) (hf : q.flying ≠ 0) :
    Tracked R D (n + 1) (rangeEndReq { q with flying := q.flying - 1 }) := by
  unfold rangeEndReq
  dsimp only
  cases hp : q.phase with
  | headers =>
    simp only [Tracked, hp] at h
    split <;> simp only [Tracked] <;> omega
  | queued =>
    simp only [Tracked, hp] at h
    omega
  | data =>
    simp only [Tracked, hp] at h
    split <;> simp only [Tracked] <;> omega
  | done =>
    simp only [Tracked, hp] at h
    omega

theorem reqStep_tracked {a : Act} (hD : max = D) (h : Tracked R D n q)
    (hs : reqStep max D q a = some q') : Tracked R D (n + 1) q' := by
  cases a with
  | issue =>
    rw [reqStep] at hs
    split at hs
    · cases hs
    · cases hs
      cases hp : q.phase with
      | headers =>
        simp only [Tracked, hp] at h ⊢
        omega
      | data =>
        simp only [Tracked, hp] at h ⊢
        omega
      | queued =>
        simp only [Tracked, hp] at h
        omega
      | done =>
        simp only [Tracked, hp] at h
        omega
  | complete =>
    rw [reqStep] at hs
    split at hs
    · cases hs
    · rename_i hf
      cases hs
      exact rangeEndReq_tracked h hf
  | restart =>
    rw [reqStep] at hs
    split at hs
    · rename_i hq
      cases hs
      simp only [Tracked, hq.1] at h
      rw [h.1]
      exact startData_tracked hD (by omega)
    · cases hs

theorem Tracked.progress (h : Tracked R D n q) :
    q.ended = 1 ∨ ∃ a q', reqStep max D q a = some q' := by
  have hread : 0 < q.toIssue + q.flying → ∃ a q', reqStep max D q a = some q' := by
    intro hpos
    by_cases hi : q.toIssue = 0
    · exact ⟨.complete, _, if_neg (by omega)⟩
    · exact ⟨.issue, _, if_neg hi⟩
  cases hp : q.phase with
  | headers =>
    simp only [Tracked, hp] at h
    exact .inr (hread (by omega))
  | queued =>
    simp only [Tracked, hp] at h
    exact .inr ⟨.restart, _, if_pos ⟨hp, h.2.1⟩⟩
  | data =>
    simp only [Tracked, hp] at h
    exact .inr (hread (by omega))
  | done =>
    simp only [Tracked, hp] at h
    exact .inl h.1

theorem Tracked.bounds (h : Tracked R D n q) : q.ended ≤ 1 ∧ n ≤ 2 * R + 1 + 2 * D := by
  cases hp : q.phase <;> simp only [Tracked, hp] at h <;> omega

theorem completion_once (hR : p.max = p.reads) (hD : max = D) {tr : List Act}
    (h : (completion p max D).Exec tr q) :
    q.ended ≤ 1 ∧ (q.ended = 1 ∨ ∃ a q', (completion p max D).step q a q') ∧
      tr.length ≤ 2 * p.reads + 1 + 2 * D := by
  have hT : Tracked p.reads D tr.length q := by
    apply h.history_inv (I := fun tr q => Tracked p.reads D tr.length q)
    constructor
    · rintro q rfl
      unfold startHeaders
      split
      · exact startData_tracked hD (by simp)
      · refine ⟨rfl, hR, by simp, by dsimp only; omega, by simp⟩
    · intro tr q a q' hq hs
      rw [length_append]
      exact reqStep_tracked hD hq hs
  obtain ⟨h1, h2⟩ := hT.bounds
  exact ⟨h1, hT.progress, h2⟩

end

/-! ## The counters of the data pages -/

theorem dataMax_eq {hs : List (Option Hit)} (h : ∀ t e, some (.disk t e) ∈ hs → e.ppa ≠ noPpa) :
    dataMax hs.length hs = (dataReads hs).length := by
  have hfold : ∀ (hs : List (Option Hit)) (m : Int),
      (∀ t e, some (.disk t e) ∈ hs → e.ppa ≠ noPpa) →
      hs.foldl countDown m + hs.length = m + (dataReads hs).length := by
    intro hs
    induction hs with
    | nil => simp [dataReads]
    | cons x hs ih =>
      intro m hx
      have ih' := fun m => ih m fun t e he => hx t e (.tail _ he)
      rw [foldl_cons]
      match x with
      | none =>
        have hr : dataReads (none :: hs) = dataReads hs := rfl
        have := ih' (m - 1)
        simp only [hr, countDown, length_cons]
        push_cast
        omega
      | some (.mem k) =>
        have hr : dataReads (some (.mem k) :: hs) = dataReads hs := rfl
        have := ih' (m - 1)
        simp only [hr, countDown, length_cons]
        push_cast
        omega
      | some (.disk t e) =>
        have hne : e.ppa ≠ noPpa := hx t e mem_cons_self
        have hr : (dataReads (some (.disk t e) :: hs)).length = (dataReads hs).length + 1 := by
          simp [dataReads, dataRead, hne]
        have := ih' m
        simp only [hr, countDown, length_cons]
        push_cast
        omega
  have := hfold hs hs.length h
  unfold dataMax
  omega

/-! ## The answer -/

section
variable {σ : Lsm δ} {s : Key} {ns : List Nat} {esss : List (List (List Ent))}

/-- A range query of `num` keys from `s` on: the request ends once, after a bounded number
of steps, and the hits are the newest versions of the first `num` keys if and only if
these are shown and nothing older is, but for the last key. -/
theorem range_query (W : Wf σ ns esss) (hs : s.length ≤ 255) (num : Nat) :
    ∃ p hits, mappingRead σ s = some p ∧ rangeHits σ p s num = some hits ∧
      (∀ tr q, (completion p (dataMax num hits) (dataReads hits).length).Exec tr q → q.ended ≤ 1 ∧
        (q.ended = 1 ∨
          ∃ a q', (completion p (dataMax num hits) (dataReads hits).length).step q a q') ∧
        tr.length ≤ 2 * p.reads + 1 + 2 * (dataReads hits).length) ∧
      (hits.reduceOption = ((keysFrom σ ns esss s).take num).map (newest σ ns esss) ↔
        ∀ j k, j < num → (keysFrom σ ns esss s)[j]? = some k →
          newest σ ns esss k ∈ (shown σ ns esss s).flatten ∧
          (j + 1 < num → ∀ x ∈ (shown σ ns esss s).flatten, hitKey x = k →
            x = newest σ ns esss k)) := by
  have L : ∀ l ∈ σ.disk, ∃ ess, LevelWf l ess := by
    intro l hl
    obtain ⟨i, hi, rfl⟩ := mem_iff_getElem.mp hl
    have hie : i < esss.length := W.levels.length_eq ▸ hi
    exact ⟨esss[i], W.levels.get hi hie⟩
  obtain ⟨p, hp, hmax, hmap⟩ := mappingRead_spec W.caching L s
  obtain ⟨hits, hhits, hlen, hsel⟩ := rangeHits_spec W hs hmap num
  have haddr : ∀ t e, some (.disk t e) ∈ hits → e.ppa ≠ noPpa := by
    intro t e he
    have hmem : Hit.disk t e ∈ hits.reduceOption := reduceOption_mem_iff.mpr he
    rw [hsel] at hmem
    exact (of_mem_shown (select_subset hmem)).2 t e rfl
  refine ⟨p, hits, hp, hhits, fun tr q h => ?_, ?_⟩
  · apply completion_once hmax _ h
    rw [← hlen]
    exact dataMax_eq haddr
  · rw [hsel]
    exact select_eq_iff (shown_covers W s)

/-- Memory without nodes. -/
def noNodes : Skip.Mem Unit := ⟨fun _ => ⟨0, [], 0, none, false, 0⟩, fun _ _ => none, 0⟩

/-- An empty memtable and one level with the keys `[1]` and `[3]` on a cached page. -/
def oneLevel : Lsm Unit where
  mem := (Skip.skiplistInit noNodes).1
  memtable := (Skip.skiplistInit noNodes).2
  disk := [⟨[1], [3], [⟨⟨[1], [3], twoKeys⟩, true⟩]⟩]
  levelCaching := 0

/-- The levels have the keys `[1]` and `[3]`, and `[0]`, `[2]` and `[5]`; the second page is not
cached. -/
def twoLevels : Lsm Unit where
  mem := (Skip.skiplistInit noNodes).1
  memtable := (Skip.skiplistInit noNodes).2
  disk := [⟨[1], [3], [⟨⟨[1], [3], twoKeys⟩, true⟩]⟩,
    ⟨[0], [5], [⟨⟨[0], [5], threeKeys 0 2 5⟩, false⟩]⟩]
  levelCaching := 0

def twoLevelsEnts : List (List (List Ent)) :=
  [[[⟨7, [1]⟩, ⟨8, [3]⟩]], [[⟨5, [0]⟩, ⟨6, [2]⟩, ⟨9, [5]⟩]]]

theorem twoLevels_wf : Wf twoLevels [] twoLevelsEnts where
  mem := Skip.init_wf noNodes
  counted := Skip.init_counted noNodes
  levels := by
    refine .cons ⟨twoKeys_arranged, by simp, ?_, ?_⟩ (.cons ⟨⟨.cons ⟨⟨?_, ?_, ?_⟩, ⟨?_, ?_, ?_⟩, ?_, ?_⟩ .nil,
      ?_, ?_⟩, by simp, ?_, ?_⟩ .nil) <;> decide +kernel
  caching := Nat.zero_le _

/-- The two smallest keys from `[1]` on, one of each level, are found. -/
theorem range_query_two :
    ∃ p hits, mappingRead twoLevels [1] = some p ∧ rangeHits twoLevels p [1] 2 = some hits ∧
      (∀ tr q, (completion p (dataMax 2 hits) (dataReads hits).length).Exec tr q → q.ended ≤ 1 ∧
        (q.ended = 1 ∨
          ∃ a q', (completion p (dataMax 2 hits) (dataReads hits).length).step q a q') ∧
        tr.length ≤ 2 * p.reads + 1 + 2 * (dataReads hits).length) ∧
      hits.reduceOption = [.disk 0 ⟨7, [1]⟩, .disk 1 ⟨6, [2]⟩] := by
  have hkeys : keysFrom twoLevels [] twoLevelsEnts [1] = [⟨[1]⟩, ⟨[2]⟩, ⟨[3]⟩, ⟨[5]⟩] := by
    rw [keysFrom, show (filter _ _).toFinset = [OrdKey.mk [1], ⟨[2]⟩, ⟨[3]⟩, ⟨[5]⟩].toFinset by
      decide +kernel]
    exact (toFinset_sort (· ≤ ·) (by decide +kernel)).mpr (by decide +kernel)
  obtain ⟨p, hits, h1, h2, h3, h4⟩ := range_query (s := [1]) twoLevels_wf (by decide) 2
  rw [hkeys] at h4
  refine ⟨p, hits, h1, h2, h3, (h4.mpr fun j k hj hk => ?_).trans (by decide +kernel)⟩
  have h : ∀ j < 2, ∀ k ∈ [OrdKey.mk [1], ⟨[2]⟩, ⟨[3]⟩, ⟨[5]⟩][j]?,
      newest twoLevels [] twoLevelsEnts k ∈ (shown twoLevels [] twoLevelsEnts [1]).flatten ∧
      (j + 1 < 2 → ∀ x ∈ (shown twoLevels [] twoLevelsEnts [1]).flatten, hitKey x = k →
        x = newest twoLevels [] twoLevelsEnts k) := by
    decide +kernel
  exact h j hj k hk

/-- Two keys are asked for and two are there, but only the first is found. -/
theorem second_key_missed :
    ((mappingRead oneLevel [1]).bind fun p => rangeHits oneLevel p [1] 2) =
        some [some (.disk 0 ⟨7, [1]⟩), none] ∧
      Hit.disk 0 ⟨8, [3]⟩ ∈ (sources oneLevel [] [[[⟨7, [1]⟩, ⟨8, [3]⟩]]]).flatten := by
  constructor
  · decide +kernel
  · decide +kernel

end

end FlashDriver.Lsmtree.RangeGet
