import FlashDriver.Lsmtree.HeaderLoop
import FlashDriver.Lsmtree.Repack

/-!
# Data collection (`__gc_data`)

The pages of the victim are read, and their footers say where values begin and
how long they are. Each value becomes a node in the bucket of its length. Then
`gc_data_header_update` finds out which nodes are live, writes those to new
pages and puts their keys with the new addresses into `LSM.gc_list`.

`gc_data_header_update_add` hands over the bucket of length 2 together with
the number of all nodes. So the loops over the nodes read past the end of that
bucket as soon as the victim has a value of another length.

`gc_data_iff`: for every delay of the header reads the collection ends with
each live value in one new place and in the list once, and nothing else,
exactly if all values have length 2 and `Settles` holds of each of them.
`one_piece_value` is a victim with a single value, of length 1.
-/
namespace FlashDriver.Lsmtree.Gc

open List Option Function
open Lsmtree.Variable

variable {β : Type}

/-! ## The victim -/

/-- A page: its footer, and the key and the value that begin at a piece. -/
structure DataPage (β : Type) where
  page : Nat
  foot : Nat → Nat
  stored : Nat → Key × β
  fits : ∀ j < npc, j + foot j ≤ npc

structure Victim (β : Type) where
  pages : List (DataPage β)
  len_le : pages.length ≤ pps
  nodup : (pages.map (·.page)).Nodup

/-- The pages that `moveTo_fr_page(true)` returns: of the reserve, so not in a
block of the victim, and in turn. -/
structure Supply (v : Victim β) where
  page : Nat → Nat
  inj : Function.Injective page
  outside : ∀ n, ∀ p ∈ v.pages, page n ≠ p.page

def nodeAt (p : DataPage β) (j : Nat) : Node β :=
  ⟨⟨(p.stored j).1, p.page * npc + j⟩, (p.stored j).2, p.foot j⟩

/-- mirrors algorithm/Lsmtree/page_kv.c:277-316: from piece `j` on -/
def scanFrom (p : DataPage β) : Nat → Nat → List (Node β)
  | 0, _ => []
  | fuel + 1, j =>
    if npc ≤ j then []
    else if p.foot j = 0 then scanFrom p fuel (j + 1)
    else if p.foot j = npc then [nodeAt p j]
    else nodeAt p j :: scanFrom p fuel (j + p.foot j)

def scanPage (p : DataPage β) : List (Node β) := scanFrom p npc 0

/-- The nodes in the order in which they are found. -/
def scan (v : Victim β) : List (Node β) := v.pages.flatMap scanPage

/-- The number of nodes for which a bucket is allocated. -/
def room (k : Nat) : Nat := if k = npc then pps else 8 * pps

def push (b : Bucket β) (t : Node β) : Option (Bucket β) :=
  if (b t.plength).length = room t.plength then none
  else some (update b t.plength (t :: b t.plength))

def buckets (ts : List (Node β)) : Option (Bucket β) := ts.foldlM push fun _ => []

/-! ## The collection -/

/-- A dropped node has `plength` 0. -/
def settle (status : Nat → Status) (g : List (Node β)) : List (Node β) :=
  g.mapIdx fun i t => if status i = .noUptDone then { t with plength := 0 } else t

/-- The field `nppa` of a node, which is known by its old address. -/
def nppaOf (ps : List (Put (Node β))) (t : Node β) : Option Nat :=
  (ps.find? fun p => p.item.target.ppa = t.target.ppa).map (·.ppa)

/-- mirrors algorithm/Lsmtree/skiplist.c:184-218: a key that is there aborts -/
def gcInsert (l : List (Key × Nat)) (k : Key) (a : Nat) : Option (List (Key × Nat)) :=
  if (l.map (·.1)).contains k then none else some (l ++ [(k, a)])

/-- mirrors algorithm/Lsmtree/page_kv.c:616-647 -/
def gcList (ps : List (Put (Node β))) (g : List (Node β)) : Option (List (Key × Nat)) :=
  g.foldlM (fun l t =>
    if t.plength = 0 then some l
    else (nppaOf ps t).bind (gcInsert l t.target.lpa)) []

structure Out (β : Type) where
  placed : List (Put (Node β))
  list : List (Key × Nat)

def targets (g : List (Node β)) (i : Nat) : Target := (g[i]?.map (·.target)).getD ⟨[], 0⟩

/-- mirrors algorithm/Lsmtree/page_kv.c:216-349 and 367-382 -/
def gcData (L : Lsm) (delay : Nat → Nat) {v : Victim β} (S : Supply v) (fuel : Nat) :
    Option (Out β) := do
  let b ← buckets (scan v)
  let g := (b 2).reverse
  let s ← loop L delay (targets g) g.length (scan v).length fuel (.init L)
  let g := settle s.status g
  let ps ← repack (reserved S.page) 0 (update b 2 g.reverse)
  let l ← gcList ps g
  some ⟨ps, l⟩

/-! ## What it is for -/

/-- The value is what a lookup of its key would find. -/
def Live (L : Lsm) (t : Target) : Prop :=
  t.lpa ∉ L.memtable ∧ firstMapping L.cfg L.disk t.lpa = some t.ppa

instance (L : Lsm) (t : Target) : Decidable (Live L t) := inferInstanceAs (Decidable (_ ∧ _))

/-- The live values are in one new place each, outside of the victim, and in the
list once each; nothing else is. -/
structure Collected (L : Lsm) {v : Victim β} (S : Supply v) (o : Out β) : Prop where
  written : ((o.placed.map (·.item) : List (Node β)) : Multiset (Node β)) =
    ((scan v).filter fun t => decide (Live L t.target) : List (Node β))
  laid : ∀ u ∈ o.placed, ∃ j, Lies Node.plength (S.page j) u
  off : o.placed.Pairwise Off
  outside : ∀ u ∈ o.placed, ∀ p ∈ v.pages, u.ppa / npc ≠ p.page
  listed : (o.list : Multiset (Key × Nat)) =
    (o.placed.map fun p => (p.item.target.lpa, p.ppa) : List (Key × Nat))

/-- The level takes part in a search for the key. -/
def Searched (L : Lsm) (k : Key) (i : Nat) : Prop :=
  filterSkips L.cfg L.disk i k = false ∧ (L.disk i).runs ≠ []

/-- The first of the levels from `i` on, `n` of them, that takes part in the
search and has the key. -/
structure FoundAt (L : Lsm) (k : Key) (i n l a : Nat) : Prop where
  ge : i ≤ l
  lt : l < i + n
  searched : Searched L k l
  has : lookup (L.disk l).runs.flatten k = some a
  first : ∀ j, i ≤ j → j < l → Searched L k j → lookup (L.disk j).runs.flatten k = none

/-- No lookup of a client reads a header that the search for the key needs. -/
def Undisturbed (L : Lsm) (k : Key) (i l : Nat) : Prop :=
  ∀ j, i ≤ j → j ≤ l → L.cfg.levelCaching ≤ j → Searched L k j →
    ∀ r, findRun (L.disk j) k = some r → L.flying (j, r) = false

/-- The search for the key decides about the value as it should. A key in the
memtable must not have its address in a cached level, and if it is in no cached
level some other level must take part in the search. Any other key must be
found, with the value's address exactly if the value is live. -/
structure Settles (L : Lsm) (t : Target) : Prop where
  buffered : t.lpa ∈ L.memtable →
    (∃ l a, l < L.cfg.levelCaching ∧ FoundAt L t.lpa 0 L.cfg.levelN l a ∧ a ≠ t.ppa) ∨
    (∀ l a, FoundAt L t.lpa 0 L.cfg.levelN l a → L.cfg.levelCaching ≤ l) ∧
      ∃ l, L.cfg.levelCaching ≤ l ∧ l < L.cfg.levelN ∧ Searched L t.lpa l
  fresh : t.lpa ∉ L.memtable → ∃ l a, FoundAt L t.lpa 0 L.cfg.levelN l a ∧
      (a = t.ppa ↔ firstMapping L.cfg L.disk t.lpa = some t.ppa) ∧ Undisturbed L t.lpa 0 l

/-! ## The search, level by level -/

section
variable {L : Lsm} {t : Target} {k : Key} {i n l a : Nat}

theorem not_searched (h : ¬ Searched L k i) :
    filterSkips L.cfg L.disk i k = true ∨ findRun (L.disk i) k = none := by
  by_cases hf : filterSkips L.cfg L.disk i k = true
  · exact .inl hf
  · refine .inr (findRun_nil ?_)
    by_contra hne
    exact h ⟨by simpa using hf, hne⟩

theorem Searched.run (h : Searched L k i) : ∃ r, findRun (L.disk i) k = some r ∧
    lookup (L.run (i, r)) k = lookup (L.disk i).runs.flatten k := by
  obtain ⟨r, hr, -⟩ := findRun_spec (L.ordered i) h.2 k
  exact ⟨r, hr, lookup_findRun (L.ordered i) hr⟩

theorem verdictFrom_skip (h : ¬ Searched L t.lpa i) :
    verdictFrom L t (n + 1) i = verdictFrom L t n (i + 1) := by
  rw [verdictFrom]
  rcases not_searched h with h | h
  · rw [if_pos h]
  · rw [h]; simp

theorem foundAt_succ (h : Searched L k i → lookup (L.disk i).runs.flatten k = none) :
    FoundAt L k i (n + 1) l a ↔ FoundAt L k (i + 1) n l a := by
  constructor
  · intro F
    have hne : l ≠ i := fun he => by
      subst he
      have := F.has
      rw [h F.searched] at this; cases this
    have := F.ge
    have := F.lt
    exact ⟨by omega, by omega, F.searched, F.has, fun j h1 h2 => F.first j (by omega) h2⟩
  · intro F
    have := F.ge
    have := F.lt
    refine ⟨by omega, by omega, F.searched, F.has, fun j h1 h2 hs => ?_⟩
    by_cases he : j = i
    · subst he; exact h hs
    · exact F.first j (by omega) h2 hs

theorem foundAt_here (hs : Searched L k i) (ha : lookup (L.disk i).runs.flatten k = some a) :
    FoundAt L k i (n + 1) i a :=
  ⟨le_rfl, by omega, hs, ha, fun j h1 h2 => by omega⟩

theorem FoundAt.here (hs : Searched L k i) (ha : lookup (L.disk i).runs.flatten k = some a) {b : Nat}
    (F : FoundAt L k i n l b) : l = i ∧ b = a := by
  have hl : l = i := by
    by_contra hne
    have hnone := F.first i (le_rfl) (by have := F.ge; omega) hs
    rw [ha] at hnone; cases hnone
  subst hl
  have := F.has
  rw [ha] at this
  exact ⟨rfl, (some.inj this).symm⟩

theorem verdictFrom_buffered (hm : t.lpa ∈ L.memtable) {b : Bool} :
    verdictFrom L t n i = some b ↔
      (∃ l a, l < L.cfg.levelCaching ∧ FoundAt L t.lpa i n l a ∧ b = (a == t.ppa)) ∨
      (∀ l a, FoundAt L t.lpa i n l a → L.cfg.levelCaching ≤ l) ∧
        (∃ l, L.cfg.levelCaching ≤ l ∧ i ≤ l ∧ l < i + n ∧ Searched L t.lpa l) ∧ b = false := by
  induction n generalizing i with
  | zero =>
    refine iff_of_false (by simp [verdictFrom]) fun h => ?_
    rcases h with ⟨l, a, -, F, -⟩ | ⟨-, ⟨l, -, h1, h2, -⟩, -⟩
    · have := F.ge; have := F.lt; omega
    · omega
  | succ n ih =>
    -- the levels after this one decide
    have hnext : (Searched L t.lpa i → lookup (L.disk i).runs.flatten t.lpa = none) →
        (Searched L t.lpa i → i < L.cfg.levelCaching) →
        ((∃ l a, l < L.cfg.levelCaching ∧ FoundAt L t.lpa i (n + 1) l a ∧ b = (a == t.ppa)) ∨
          (∀ l a, FoundAt L t.lpa i (n + 1) l a → L.cfg.levelCaching ≤ l) ∧
          (∃ l, L.cfg.levelCaching ≤ l ∧ i ≤ l ∧ l < i + (n + 1) ∧ Searched L t.lpa l) ∧
          b = false ↔ verdictFrom L t n (i + 1) = some b) := by
      intro hnone hcache
      rw [ih]
      simp only [foundAt_succ hnone]
      have hex : (∃ l, L.cfg.levelCaching ≤ l ∧ i ≤ l ∧ l < i + (n + 1) ∧ Searched L t.lpa l) ↔
          ∃ l, L.cfg.levelCaching ≤ l ∧ i + 1 ≤ l ∧ l < i + 1 + n ∧ Searched L t.lpa l := by
        constructor
        · intro h
          obtain ⟨l, h1, h2, h3, h4⟩ := h
          have hne : l ≠ i := fun he => by
            subst he
            have := hcache h4
            omega
          exact ⟨l, h1, by omega, by omega, h4⟩
        · intro h
          obtain ⟨l, h1, h2, h3, h4⟩ := h
          exact ⟨l, h1, by omega, by omega, h4⟩
      rw [hex]
    by_cases hs : Searched L t.lpa i
    · obtain ⟨r, hr, hrun⟩ := hs.run
      rw [verdictFrom, if_neg (by simp [hs.1]), hr]
      dsimp only
      rw [hrun]
      by_cases hc : i < L.cfg.levelCaching
      · rw [if_pos hc]
        cases hl : lookup (L.disk i).runs.flatten t.lpa with
        | none => exact (hnext (fun _ => hl) fun _ => hc).symm
        | some a =>
          constructor
          · intro h
            exact .inl ⟨i, a, hc, foundAt_here hs hl, (some.inj h).symm⟩
          · intro h
            rcases h with ⟨l, a', -, F, hb⟩ | ⟨hall, -⟩
            · obtain ⟨-, rfl⟩ := F.here hs hl
              rw [hb]
            · have := hall i a (foundAt_here hs hl)
              omega
      · rw [if_neg hc, if_pos hm]
        constructor
        · intro h
          refine .inr ⟨fun l a F => ?_, ⟨i, by omega, le_rfl, by omega, hs⟩, (some.inj h).symm⟩
          have := F.ge
          omega
        · intro h
          rcases h with ⟨l, a, hlt, F, -⟩ | ⟨-, -, rfl⟩
          · have := F.ge
            omega
          · rfl
    · rw [verdictFrom_skip hs]
      exact (hnext (fun h => absurd h hs) fun h => absurd h hs).symm

theorem undisturbed_succ (h : Searched L k i → L.cfg.levelCaching ≤ i →
    ∀ r, findRun (L.disk i) k = some r → L.flying (i, r) = false) :
    Undisturbed L k i l ↔ Undisturbed L k (i + 1) l := by
  constructor
  · intro U j h1 h2
    exact U j (by omega) h2
  · intro U j h1 h2 h3 h4 r hr
    by_cases he : j = i
    · subst he; exact h h4 h3 r hr
    · exact U j (by omega) h2 h3 h4 r hr

theorem verdictFrom_fresh (hm : t.lpa ∉ L.memtable) {b : Bool} :
    verdictFrom L t n i = some b ↔
      ∃ l a, FoundAt L t.lpa i n l a ∧ b = (a == t.ppa) ∧ Undisturbed L t.lpa i l := by
  induction n generalizing i with
  | zero =>
    refine iff_of_false (by simp [verdictFrom]) fun h => ?_
    obtain ⟨l, a, F, -⟩ := h
    have := F.ge
    have := F.lt
    omega
  | succ n ih =>
    have hnext : (Searched L t.lpa i → lookup (L.disk i).runs.flatten t.lpa = none) →
        (Searched L t.lpa i → L.cfg.levelCaching ≤ i →
          ∀ r, findRun (L.disk i) t.lpa = some r → L.flying (i, r) = false) →
        ((∃ l a, FoundAt L t.lpa i (n + 1) l a ∧ b = (a == t.ppa) ∧ Undisturbed L t.lpa i l) ↔
          verdictFrom L t n (i + 1) = some b) := by
      intro hnone hidle
      rw [ih]
      simp only [foundAt_succ hnone, undisturbed_succ hidle]
    by_cases hs : Searched L t.lpa i
    · obtain ⟨r, hr, hrun⟩ := hs.run
      rw [verdictFrom, if_neg (by simp [hs.1]), hr]
      dsimp only
      rw [hrun]
      have hfound : ∀ {a : Nat}, lookup (L.disk i).runs.flatten t.lpa = some a →
          (Undisturbed L t.lpa i i) → (some (a == t.ppa) = some b ↔
            ∃ l a, FoundAt L t.lpa i (n + 1) l a ∧ b = (a == t.ppa) ∧ Undisturbed L t.lpa i l) := by
        intro a hl hU
        constructor
        · intro h
          exact ⟨i, a, foundAt_here hs hl, (some.inj h).symm, hU⟩
        · intro h
          obtain ⟨l, a', F, hb, -⟩ := h
          obtain ⟨-, rfl⟩ := F.here hs hl
          rw [hb]
      by_cases hc : i < L.cfg.levelCaching
      · rw [if_pos hc]
        cases hl : lookup (L.disk i).runs.flatten t.lpa with
        | none => exact (hnext (fun _ => hl) fun _ h => by omega).symm
        | some a => exact hfound hl fun j h1 h2 h3 => by omega
      · rw [if_neg hc, if_neg hm]
        by_cases hfly : L.flying (i, r) = true
        · rw [if_pos hfly]
          refine iff_of_false (by simp) fun h => ?_
          obtain ⟨l, a, F, -, U⟩ := h
          have := U i (le_rfl) F.ge (by omega) hs r hr
          rw [hfly] at this; cases this
        · rw [if_neg hfly]
          have hidle : ∀ r', findRun (L.disk i) t.lpa = some r' → L.flying (i, r') = false := by
            intro r' hr'
            rw [hr] at hr'
            cases hr'
            simpa using hfly
          cases hl : lookup (L.disk i).runs.flatten t.lpa with
          | none => exact (hnext (fun _ => hl) fun _ _ => hidle).symm
          | some a =>
            refine hfound hl fun j h1 h2 h3 h4 r' hr' => ?_
            obtain rfl : j = i := by omega
            exact hidle r' hr'
    · rw [verdictFrom_skip hs]
      exact (hnext (fun h => absurd h hs) fun h => absurd h hs).symm

theorem verdict_iff (L : Lsm) (t : Target) :
    verdict L t = some (decide (Live L t)) ↔ Settles L t := by
  unfold verdict searchAt
  rw [Nat.sub_zero]
  by_cases hm : t.lpa ∈ L.memtable
  · have hlive : decide (Live L t) = false := by simp [Live, hm]
    rw [hlive, verdictFrom_buffered hm]
    constructor
    · intro h
      refine ⟨fun _ => ?_, fun h => absurd hm h⟩
      rcases h with ⟨l, a, hl, F, hb⟩ | ⟨hall, ⟨l, h1, -, h2, h3⟩, -⟩
      · exact .inl ⟨l, a, hl, F, by simpa using hb.symm⟩
      · exact .inr ⟨hall, l, h1, by omega, h3⟩
    · intro S
      rcases S.buffered hm with ⟨l, a, hl, F, hne⟩ | ⟨hall, l, h1, h2, h3⟩
      · exact .inl ⟨l, a, hl, F, by simp [hne]⟩
      · exact .inr ⟨hall, ⟨l, h1, Nat.zero_le _, by omega, h3⟩, rfl⟩
  · have hlive : Live L t ↔ firstMapping L.cfg L.disk t.lpa = some t.ppa := by simp [Live, hm]
    rw [verdictFrom_fresh hm]
    have hb : ∀ a : Nat, decide (Live L t) = (a == t.ppa) ↔
        (a = t.ppa ↔ firstMapping L.cfg L.disk t.lpa = some t.ppa) := by
      intro a
      rw [← hlive, Bool.eq_iff_iff]
      simp only [decide_eq_true_eq, beq_iff_eq]
      exact ⟨fun h => h.symm, fun h => h.symm⟩
    simp only [hb]
    exact ⟨fun h => ⟨fun h' => absurd h' hm, fun _ => h⟩, fun S => S.fresh hm⟩

theorem verdict_inj {t u : Target} (hk : t.lpa = u.lpa) (ht : verdict L t = some true)
    (hu : verdict L u = some true) : t.ppa = u.ppa := by
  unfold verdict searchAt at ht hu
  rw [Nat.sub_zero] at ht hu
  have hsame : ∀ {l a l' a'}, FoundAt L t.lpa 0 L.cfg.levelN l a →
      FoundAt L t.lpa 0 L.cfg.levelN l' a' → a = a' := by
    intro l a l' a' F F'
    have hl : l = l' := by
      rcases Nat.lt_trichotomy l l' with h | h | h
      · have := F'.first l F.ge h F.searched
        rw [F.has] at this; cases this
      · exact h
      · have := F.first l' F'.ge h F'.searched
        rw [F'.has] at this; cases this
    subst hl
    have := F.has
    rw [F'.has] at this
    exact (some.inj this).symm
  have hfound : ∀ w : Target, verdictFrom L w L.cfg.levelN 0 = some true →
      ∃ l a, FoundAt L w.lpa 0 L.cfg.levelN l a ∧ a = w.ppa := by
    intro w hw
    by_cases hm : w.lpa ∈ L.memtable
    · rcases (verdictFrom_buffered hm).mp hw with ⟨l, a, -, F, hb⟩ | ⟨-, -, hb⟩
      · exact ⟨l, a, F, by simpa using hb.symm⟩
      · cases hb
    · obtain ⟨l, a, F, hb, -⟩ := (verdictFrom_fresh hm).mp hw
      exact ⟨l, a, F, by simpa using hb.symm⟩
  obtain ⟨l, a, F, ha⟩ := hfound t ht
  obtain ⟨l', a', F', ha'⟩ := hfound u hu
  rw [← hk] at F'
  rw [← ha, ← ha', hsame F F']

end

/-! ## Scanning -/

section
variable {ts : List (Node β)} {b : Bucket β}

theorem scanFrom_ppa (p : DataPage β) (fuel j : Nat) :
    (scanFrom p fuel j).Pairwise (fun t u => t.target.ppa < u.target.ppa) ∧
      ∀ t ∈ scanFrom p fuel j, p.page * npc + j ≤ t.target.ppa ∧ t.target.ppa < p.page * npc + npc ∧
        t.plength ≠ 0 ∧ t.plength ≤ npc := by
  induction fuel generalizing j with
  | zero => exact ⟨List.Pairwise.nil, fun t ht => by cases ht⟩
  | succ fuel ih =>
    rw [scanFrom]
    split
    · exact ⟨List.Pairwise.nil, fun t ht => by cases ht⟩
    · rename_i hj
      have hfit := p.fits j (by omega)
      split
      · refine ⟨(ih (j + 1)).1, fun t ht => ?_⟩
        obtain ⟨h1, h2, h3, h4⟩ := (ih (j + 1)).2 t ht
        exact ⟨by omega, h2, h3, h4⟩
      · rename_i hz
        have hnode : p.page * npc + j ≤ (nodeAt p j).target.ppa ∧
            (nodeAt p j).target.ppa < p.page * npc + npc ∧ (nodeAt p j).plength ≠ 0 ∧
            (nodeAt p j).plength ≤ npc := by
          refine ⟨le_rfl, ?_, hz, ?_⟩
          · change p.page * npc + j < _; omega
          · change p.foot j ≤ npc; omega
        split
        · refine ⟨pairwise_singleton _ _, fun t ht => ?_⟩
          rw [mem_singleton.mp ht]; exact hnode
        · obtain ⟨h1, h2⟩ := ih (j + p.foot j)
          refine ⟨pairwise_cons.mpr ⟨fun t ht => ?_, h1⟩, fun t ht => ?_⟩
          · have := (h2 t ht).1
            change p.page * npc + j < t.target.ppa
            omega
          · rcases mem_cons.mp ht with rfl | ht
            · exact hnode
            · obtain ⟨h3, h4, h5, h6⟩ := h2 t ht
              exact ⟨by omega, h4, h5, h6⟩

theorem scan_nodup (v : Victim β) : ((scan v).map (·.target.ppa)).Nodup := by
  unfold scan
  rw [map_flatMap, nodup_flatMap]
  refine ⟨fun p _ => ?_, ?_⟩
  · rw [nodup_iff_pairwise_ne, pairwise_map]
    exact (scanFrom_ppa p npc 0).1.imp fun h => ne_of_lt h
  · have hnd := v.nodup
    rw [nodup_iff_pairwise_ne, pairwise_map] at hnd
    refine hnd.imp fun {p q} hne => ?_
    -- addresses of different pages differ
    intro x hx hy
    obtain ⟨t, ht, rfl⟩ := mem_map.mp hx
    obtain ⟨u, hu, he⟩ := mem_map.mp hy
    obtain ⟨h1, h2, -⟩ := (scanFrom_ppa p npc 0).2 t ht
    obtain ⟨h3, h4, -⟩ := (scanFrom_ppa q npc 0).2 u hu
    simp only [npc] at h1 h2 h3 h4 he
    omega

theorem scanFrom_length (p : DataPage β) (fuel j : Nat) (h : ∀ t ∈ scanFrom p fuel j, t.plength = 2) :
    2 * (scanFrom p fuel j).length ≤ npc - j := by
  induction fuel generalizing j with
  | zero => exact Nat.zero_le _
  | succ fuel ih =>
    rw [scanFrom] at h ⊢
    split
    · exact Nat.zero_le _
    · rename_i hj
      rw [if_neg hj] at h
      split
      · rename_i hz
        rw [if_pos hz] at h
        have := ih (j + 1) h
        omega
      · rename_i hz
        rw [if_neg hz] at h
        split
        · rename_i hn
          rw [if_pos hn] at h
          have hlen : p.foot j = 2 := h _ mem_cons_self
          rw [hlen] at hn
          cases hn
        · rename_i hn
          rw [if_neg hn] at h
          have hlen : p.foot j = 2 := h _ mem_cons_self
          have hfit := p.fits j (by omega)
          rw [hlen] at h hfit ⊢
          have := ih (j + 2) fun t ht => h t (.tail _ ht)
          simp only [length_cons]
          omega

theorem scan_length (v : Victim β) (h : ∀ t ∈ scan v, t.plength = 2) : (scan v).length ≤ 8 * pps := by
  have hpages : ∀ ps : List (DataPage β), (∀ p ∈ ps, ∀ t ∈ scanPage p, t.plength = 2) →
      (ps.flatMap scanPage).length ≤ 8 * ps.length := by
    intro ps
    induction ps with
    | nil => intro _; exact Nat.zero_le _
    | cons p ps ih =>
      intro hp
      have h1 := scanFrom_length p npc 0 (hp p mem_cons_self)
      have h2 := ih fun q hq => hp q (.tail _ hq)
      rw [flatMap_cons, length_append, length_cons]
      simp only [npc, scanPage] at h1 ⊢
      omega
  have := hpages v.pages fun p hp t ht => h t (mem_flatMap.mpr ⟨p, hp, ht⟩)
  have := v.len_le
  unfold scan
  omega

/-! ## Buckets -/

theorem foldlM_push {b0 b : Bucket β} (h : ts.foldlM push b0 = some b) (k : Nat) :
    b k = (ts.filter fun t => t.plength = k).reverse ++ b0 k := by
  induction ts generalizing b0 with
  | nil => cases h; rfl
  | cons t ts ih =>
    rw [foldlM_cons] at h
    obtain ⟨b1, h1, h⟩ := bind_eq_some_iff.mp h
    unfold push at h1
    split at h1
    · cases h1
    · cases h1
      rw [ih h]
      by_cases hk : t.plength = k
      · subst hk; simp
      · rw [update_of_ne (Ne.symm hk)]
        simp [hk]

theorem buckets_eq (h : buckets ts = some b) (k : Nat) :
    b k = (ts.filter fun t => t.plength = k).reverse := by
  have := foldlM_push h k
  simpa using this

theorem buckets_two (hlen : ts.length ≤ 8 * pps) (h : ∀ t ∈ ts, t.plength = 2) :
    ∃ b, buckets ts = some b := by
  have hpush : ∀ (us : List (Node β)) (b0 : Bucket β), (∀ t ∈ us, t.plength = 2) →
      (b0 2).length + us.length ≤ 8 * pps → ∃ b, us.foldlM push b0 = some b := by
    intro us
    induction us with
    | nil => intro b0 _ _; exact ⟨b0, rfl⟩
    | cons t us ih =>
      intro b0 h2 hl
      have ht := h2 t mem_cons_self
      rw [length_cons] at hl
      have hroom : room 2 = 8 * pps := rfl
      obtain ⟨b, hb⟩ := ih (update b0 2 (t :: b0 2)) (fun u hu => h2 u (.tail _ hu))
        (by rw [update_self, length_cons]; omega)
      refine ⟨b, ?_⟩
      rw [foldlM_cons]
      have hp : push b0 t = some (update b0 2 (t :: b0 2)) := by
        unfold push
        rw [ht, if_neg (by rw [hroom]; omega)]
      rw [hp]
      exact hb
  exact hpush ts _ h (by simpa using hlen)

theorem filter_two_length : (ts.filter fun t => t.plength = 2).length = ts.length ↔
    ∀ t ∈ ts, t.plength = 2 := by
  rw [length_filter_eq_length_iff]
  simp

end

/-! ## The list -/

section
variable {ps : List (Put (Node β))} {g : List (Node β)}

theorem nppaOf_mem (hnd : (ps.map (·.item.target.ppa)).Nodup) {p : Put (Node β)} (hp : p ∈ ps) :
    nppaOf ps p.item = some p.ppa := by
  unfold nppaOf
  induction ps with
  | nil => cases hp
  | cons q ps ih =>
    rw [map_cons, nodup_cons] at hnd
    rcases mem_cons.mp hp with rfl | hp
    · simp
    · have hne : q.item.target.ppa ≠ p.item.target.ppa := fun he =>
        hnd.1 (mem_map.mpr ⟨p, hp, he.symm⟩)
      rw [find?_cons_of_neg (by simpa using hne)]
      exact ih hnd.2 hp

/-- An entry of the list. -/
def entry (ps : List (Put (Node β))) (t : Node β) : Key × Nat := (t.target.lpa, (nppaOf ps t).getD 0)

theorem gcList_eq (hps : ∀ t ∈ g, t.plength ≠ 0 → nppaOf ps t ≠ none)
    (hnd : ((g.filter fun t => t.plength ≠ 0).map (·.target.lpa)).Nodup) :
    gcList ps g = some ((g.filter fun t => t.plength ≠ 0).map (entry ps)) := by
  have hfold : ∀ (us : List (Node β)) (acc : List (Key × Nat)),
      (∀ t ∈ us, t.plength ≠ 0 → nppaOf ps t ≠ none) →
      (acc.map (·.1) ++ (us.filter fun t => t.plength ≠ 0).map (·.target.lpa)).Nodup →
      us.foldlM (fun l t => if t.plength = 0 then some l
        else (nppaOf ps t).bind (gcInsert l t.target.lpa)) acc =
        some (acc ++ (us.filter fun t => t.plength ≠ 0).map (entry ps)) := by
    intro us
    induction us with
    | nil => intro acc _ _; simp
    | cons t us ih =>
      intro acc hus hacc
      have hus' : ∀ u ∈ us, u.plength ≠ 0 → nppaOf ps u ≠ none := fun u hu =>
        hus u (.tail _ hu)
      rw [foldlM_cons]
      by_cases hz : t.plength = 0
      · rw [if_pos hz, filter_cons_of_neg (by simp [hz])]
        rw [filter_cons_of_neg (by simp [hz])] at hacc
        exact ih acc hus' hacc
      · rw [if_neg hz, filter_cons_of_pos (by simp [hz])]
        rw [filter_cons_of_pos (by simp [hz]), map_cons] at hacc
        obtain ⟨a, ha⟩ := ne_none_iff_exists'.mp (hus t mem_cons_self hz)
        have hfresh : t.target.lpa ∉ acc.map (·.1) := fun hm =>
          (nodup_append.mp hacc).2.2 _ hm _ mem_cons_self rfl
        have hentry : entry ps t = (t.target.lpa, a) := by simp [entry, ha]
        rw [ha, bind_some, gcInsert, if_neg (by rwa [contains_iff_mem])]
        have := ih (acc ++ [(t.target.lpa, a)]) hus' (by simpa using hacc)
        rw [map_cons, hentry]
        simpa using this
  have := hfold g [] hps (by simpa using hnd)
  simpa [gcList] using this

end

/-! ## The whole collection -/

section
variable {L : Lsm} {delay : Nat → Nat} {v : Victim β} {S : Supply v} {fuel : Nat}

theorem targets_eq {g : List (Node β)} {i : Nat} (h : i < g.length) : targets g i = g[i].target := by
  simp [targets, h]

/-- A node as the header check leaves it. -/
def judged (L : Lsm) (t : Node β) : Node β :=
  if verdict L t.target = some true then t else { t with plength := 0 }

theorem settle_eq {g : List (Node β)} {s : St}
    (h : loop L delay (targets g) g.length g.length fuel (.init L) = some s) :
    settle s.status g = g.map (judged L) := by
  refine ext_getElem (by simp [settle]) fun i h1 h2 => ?_
  have hi : i < g.length := by simpa using h2
  simp only [settle, getElem_mapIdx, getElem_map, judged]
  rcases loop_verdict delay h hi with ⟨hs, hv⟩ | ⟨hs, hv⟩
  · rw [targets_eq hi] at hv
    rw [if_neg (by simp [hs]), if_pos hv]
  · rw [targets_eq hi] at hv
    rw [if_pos hs, if_neg (by simp [hv])]

theorem filter_judged {ts : List (Node β)} (h : ∀ t ∈ ts, t.plength = 2) :
    (ts.map (judged L)).filter (fun t => t.plength ≠ 0) =
      ts.filter fun t => verdict L t.target = some true := by
  induction ts with
  | nil => rfl
  | cons t ts ih =>
    have h2 := h t mem_cons_self
    have ih := ih fun u hu => h u (.tail _ hu)
    rw [map_cons]
    by_cases hv : verdict L t.target = some true
    · have hj : judged L t = t := if_pos hv
      rw [hj, filter_cons_of_pos (by simp [h2]), filter_cons_of_pos (by simp [hv]), ih]
    · have hj : (judged L t).plength = 0 := by simp [judged, hv]
      rw [filter_cons_of_neg (by simp [hj]), filter_cons_of_neg (by simp [hv]), ih]

theorem live_keys_nodup (v : Victim β) :
    (((scan v).filter fun t => verdict L t.target = some true).map (·.target.lpa)).Nodup := by
  have hnd := (scan_nodup v)
  rw [nodup_iff_pairwise_ne, pairwise_map] at hnd ⊢
  refine (hnd.filter _).imp_of_mem fun {t u} ht hu hne he => hne ?_
  have ht' := (mem_filter.mp ht).2
  have hu' := (mem_filter.mp hu).2
  exact verdict_inj he (by simpa using ht') (by simpa using hu')

theorem gcData_two (h2 : ∀ t ∈ scan v, t.plength = 2) {s : St}
    (h : loop L delay (targets (scan v)) (scan v).length (scan v).length fuel (.init L) = some s) :
    ∃ o, gcData L delay S fuel = some o ∧
      ((o.placed.map (·.item) : List (Node β)) : Multiset (Node β)) =
        ((scan v).filter fun t => verdict L t.target = some true : List (Node β)) ∧
      (∀ u ∈ o.placed, ∃ j, Lies Node.plength (S.page j) u) ∧ o.placed.Pairwise Off ∧
      (o.list : Multiset (Key × Nat)) =
        (o.placed.map fun p => (p.item.target.lpa, p.ppa) : List (Key × Nat)) := by
  obtain ⟨b, hb⟩ := buckets_two (scan_length v h2) h2
  have hb2 : (b 2).reverse = scan v := by
    rw [buckets_eq hb, reverse_reverse, filter_eq_self]
    simpa using h2
  have hbk : ∀ k, k ≠ 2 → b k = [] := by
    intro k hk
    rw [buckets_eq hb, reverse_eq_nil_iff, filter_eq_nil_iff]
    intro t ht
    simp [h2 t ht, Ne.symm hk]
  -- the bucket of length 2 after the check
  obtain ⟨g, hg⟩ : ∃ g, g = (scan v).map (judged L) := ⟨_, rfl⟩
  have hsettle : settle s.status (b 2).reverse = g := by rw [hb2, hg]; exact settle_eq h
  have hbk' : ∀ k, k ≠ 2 → update b 2 g.reverse k = [] := fun k hk => by
    rw [update_of_ne hk, hbk k hk]
  have hsorts : Sorts true Node.plength (update b 2 g.reverse) := by
    refine ⟨fun k hk => ?_, fun k t ht => ?_⟩ <;> by_cases he : k = 2
    · rw [he]
      decide
    · exact absurd (hbk' k he) hk
    · subst he
      rw [update_self, mem_reverse, hg] at ht
      obtain ⟨u, hu, rfl⟩ := mem_map.mp ht
      unfold judged
      split
      · exact .inl (h2 u hu)
      · exact .inr ⟨rfl, rfl⟩
    · rw [hbk' k he] at ht
      cases ht
  have hfilter : g.filter (fun t => t.plength ≠ 0) =
      (scan v).filter fun t => verdict L t.target = some true := by
    rw [hg]; exact filter_judged h2
  have hkept : kept (update b 2 g.reverse) =
      ((scan v).filter fun t => verdict L t.target = some true : List (Node β)) := by
    unfold kept
    rw [Finset.sum_eq_single 2]
    · rw [live, update_self, filter_reverse, Multiset.coe_reverse, hfilter]
    · intro k _ hk
      rw [live_nil (hbk' k hk)]; rfl
    · intro hn
      exact absurd (Finset.mem_range.mpr (by decide)) hn
  obtain ⟨ps, hps, hlaid, hoff, hacc⟩ := repack_spec S.inj hsorts
  rw [hkept] at hacc
  have hperm := Multiset.coe_eq_coe.mp hacc
  have hnd : (ps.map (·.item.target.ppa)).Nodup := by
    have h1 := (hperm.map (·.target.ppa)).nodup_iff.mpr
      ((scan_nodup v).sublist (filter_sublist.map _))
    rw [List.map_map] at h1
    exact h1
  have hfound : ∀ t ∈ g, t.plength ≠ 0 → nppaOf ps t ≠ none := by
    intro t ht hz
    have hm : t ∈ g.filter fun t => t.plength ≠ 0 := mem_filter.mpr ⟨ht, by simpa using hz⟩
    rw [hfilter] at hm
    obtain ⟨p, hp, rfl⟩ := mem_map.mp (hperm.mem_iff.mpr hm)
    rw [nppaOf_mem hnd hp]; simp
  have hlist := gcList_eq hfound (by rw [hfilter]; exact live_keys_nodup v)
  refine ⟨⟨ps, (g.filter fun t => t.plength ≠ 0).map (entry ps)⟩, ?_, hacc, hlaid, hoff, ?_⟩
  · unfold gcData
    rw [hb]
    simp only [bind_eq_bind, bind_some, hb2]
    rw [h, bind_some, ← hb2, hsettle, hps, bind_some, hlist]
    rfl
  · rw [hfilter]
    refine Multiset.coe_eq_coe.mpr ((hperm.symm.map (entry ps)).trans (List.Perm.of_eq ?_))
    rw [List.map_map]
    refine map_congr_left fun p hp => ?_
    simp [entry, nppaOf_mem hnd hp]

theorem gcData_mixed (hne : ¬ ∀ t ∈ scan v, t.plength = 2) : gcData L delay S fuel = none := by
  unfold gcData
  cases hb : buckets (scan v) with
  | none => rfl
  | some b =>
    have hlen : (b 2).reverse.length < (scan v).length := by
      rw [buckets_eq hb, reverse_reverse]
      refine lt_of_le_of_ne (length_filter_le _ _) fun he => hne ?_
      exact filter_two_length.mp he
    have hcnt : (St.init L).doneCnt ≠ (scan v).length := by
      change 0 ≠ _
      omega
    simp only [bind_eq_bind, bind_some]
    rw [loop_short delay hlen hcnt]
    rfl

/-- A collection is right, for every delay of the header reads, exactly if the
victim's values are all of length 2 and the search settles each of them. -/
theorem gc_data_iff (L : Lsm) {v : Victim β} (S : Supply v) :
    (∀ delay, ∃ fuel o, gcData L delay S fuel = some o ∧ Collected L S o) ↔
      ∀ t ∈ scan v, t.plength = 2 ∧ Settles L t.target := by
  constructor
  · intro h
    obtain ⟨fuel, o, ho, C⟩ := h fun _ => 0
    have h2 : ∀ t ∈ scan v, t.plength = 2 := by
      by_contra hne
      rw [gcData_mixed hne] at ho; cases ho
    -- the header check has come to its end
    obtain ⟨s, hs⟩ : ∃ s, loop L (fun _ => 0) (targets (scan v)) (scan v).length (scan v).length
        fuel (.init L) = some s := by
      obtain ⟨b, hb⟩ := buckets_two (scan_length v h2) h2
      have hb2 : (b 2).reverse = scan v := by
        rw [buckets_eq hb, reverse_reverse, filter_eq_self]
        simpa using h2
      unfold gcData at ho
      rw [hb] at ho
      simp only [bind_eq_bind, bind_some, hb2] at ho
      obtain ⟨s, hs, -⟩ := bind_eq_some_iff.mp ho
      exact ⟨s, hs⟩
    obtain ⟨o', ho', hwritten, -⟩ := gcData_two h2 hs (S := S)
    rw [ho] at ho'
    cases ho'
    intro t ht
    refine ⟨h2 t ht, (verdict_iff L t.target).mp ?_⟩
    have hmem : ∀ u, u ∈ (scan v).filter (fun t => decide (Live L t.target)) ↔
        u ∈ (scan v).filter fun t => verdict L t.target = some true := by
      intro u
      rw [← Multiset.mem_coe, ← Multiset.mem_coe, ← C.written, ← hwritten]
    have hlive : Live L t.target ↔ verdict L t.target = some true := by
      have := hmem t
      simpa [ht] using this
    obtain ⟨i, hi, rfl⟩ := mem_iff_getElem.mp ht
    rcases loop_verdict (fun _ => 0) hs hi with ⟨-, hv⟩ | ⟨-, hv⟩
    · rw [targets_eq hi] at hv
      rw [hv, decide_eq_true (hlive.mpr hv)]
    · rw [targets_eq hi] at hv
      have hnot : ¬ Live L (scan v)[i].target := fun hl => by
        rw [hlive.mp hl] at hv; cases hv
      rw [hv, decide_eq_false hnot]
  · intro h delay
    have h2 : ∀ t ∈ scan v, t.plength = 2 := fun t ht => (h t ht).1
    have hv : ∀ t ∈ scan v, verdict L t.target = some (decide (Live L t.target)) := fun t ht =>
      (verdict_iff L t.target).mpr (h t ht).2
    obtain ⟨fuel, s, hs⟩ := loop_returns delay (Inv.init L (targets (scan v)) (scan v).length)
      fun i hi => by
        rw [targets_eq hi, hv _ (getElem_mem hi)]; simp
    obtain ⟨o, ho, hwritten, hlaid, hoff, hlisted⟩ := gcData_two h2 hs (S := S)
    refine ⟨fuel, o, ho, ?_, hlaid, hoff, fun u hu p hp => ?_, hlisted⟩
    rotate_left
    · obtain ⟨j, hj⟩ := hlaid u hu
      rw [hj.page]
      exact S.outside j p hp
    rw [hwritten]
    congr 1
    refine filter_congr fun t ht => ?_
    rw [hv t ht]
    simp

end

/-! ## A victim with one value -/

/-- One level with one key; a filter that accepts everything. -/
def oneLevel (ppa : Nat) (key : Key) : Lsm where
  cfg := ⟨1, 0, .non, fun _ _ => none⟩
  disk := fun _ => ⟨1, [[⟨ppa, key⟩]], none⟩
  memtable := []
  flying := fun _ => false
  ordered := fun _ => ⟨by simp, by simp [Sorted]⟩

/-- A page with one value, in its first `len` pieces. -/
def onePage (page len : Nat) (key : Key) (value : β) (h : len ≤ npc) : Victim β where
  pages := [⟨page, fun j => if j = 0 then len else 0, fun _ => (key, value), fun j hj => by
    split <;> omega⟩]
  len_le := by simp [pps]
  nodup := by simp

/-- The first data page holds a live value of one piece, and the collection
reads through a null pointer. -/
theorem one_piece_value : ∃ (L : Lsm) (v : Victim Nat), (∀ t ∈ scan v, Live L t.target) ∧
    scan v ≠ [] ∧ ∀ (S : Supply v) delay fuel, gcData L delay S fuel = none := by
  refine ⟨oneLevel (51 * pps * npc) [97], onePage (51 * pps) 1 [97] 7 (by simp [npc]), ?_, ?_, ?_⟩
  · decide
  · decide
  · intro S delay fuel
    refine gcData_mixed fun h => ?_
    revert h
    decide

end FlashDriver.Lsmtree.Gc
