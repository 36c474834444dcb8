import FlashDriver.Lsmtree.HeaderCheck
import FlashDriver.Lsmtree.Variable

/-!
# Writing the live values to new pages (`gc_data_header_update`, its second part)

The nodes of a victim lie in buckets by their length in pieces. Values of a
full page are written one to a page, the others by `variable_value2Page`, which
passes over the nodes that were dropped.

`moveTo_fr_page(true)` takes the pages of the reserve in turn. They are not
trimmed while a collection runs, so none is returned twice, and their footers
are cleared: the segment was erased before it became the reserve.

`repack_spec`: the loops end; every node that is not dropped is written once,
at the address it is given, with its length in the footer, and no two values
overlap.
-/
namespace FlashDriver.Lsmtree.Gc

open List Option Function
open Core.Packing Lsmtree.Variable

variable {β σ : Type}

/-- mirrors algorithm/Lsmtree/page.h (`gc_node`) -/
structure Node (β : Type) where
  target : Target
  value : β
  plength : Nat

/-- mirrors algorithm/Lsmtree/skiplist.h (`l_bucket`); the head of a bucket is its
last entry, `gc_bucket[k][idx[k]-1]` -/
abbrev Bucket (β : Type) := Buckets (Node β)

/-- The pages that `moveTo_fr_page(true)` returns, the first, the second and so on. -/
def reserved (page : Nat → Nat) : Source Nat where
  moveToFrPage n := some (page n, n + 1)
  getOob _ _ _ := 0
  setOob n _ _ := n

/-- mirrors algorithm/Lsmtree/page_kv.c:597-606: the values of a full page -/
def moveFull (S : Source σ) : σ → List (Node β) → Option (σ × List (Nat × List (Put (Node β))))
  | s, [] => some (s, [])
  | s, t :: ts =>
    if t.plength = 0 then moveFull S s ts
    else (S.moveToFrPage s).bind fun r =>
      if S.getOob r.2 r.1 0 ≠ 0 then none
      else (moveFull S (S.setOob r.2 r.1 (update (S.getOob r.2 r.1) 0 npc)) ts).map
        fun q => (q.1, (r.1, [⟨t, r.1 * npc, 0, npc, npc⟩]) :: q.2)

/-- mirrors algorithm/Lsmtree/page_kv.c:597-608 -/
def repack (S : Source σ) (s : σ) (b : Bucket β) : Option (List (Put (Node β))) :=
  (moveFull S s (b npc).reverse).bind fun r =>
    (variableValue2Page true Node.plength S r.1 (update b npc [])).map fun o =>
      (r.2 ++ o.des).flatMap Prod.snd

/-- The nodes that are to be written. -/
def kept (b : Bucket β) : Multiset (Node β) :=
  ∑ k ∈ Finset.range (npc + 1), (live Node.plength b k : Multiset (Node β))

section
variable {S : Source σ} {s : σ} {b : Bucket β}

theorem moveFull_eq (S : Source σ) (ts : List (Node β)) (s : σ) :
    moveFull S s ts = write S s
      ((ts.filter fun t => t.plength ≠ 0).map fun t => [(⟨0, npc, t⟩ : Slot (Node β))]) := by
  induction ts generalizing s with
  | nil => rfl
  | cons t ts ih =>
    rw [moveFull]
    by_cases hz : t.plength = 0
    · rw [if_pos hz, filter_cons_of_neg (by simp [hz]), ih]
    · rw [if_neg hz, filter_cons_of_pos (by simp [hz]), map_cons, write]
      cases S.moveToFrPage s with
      | none => rw [bind_none, bind_none]
      | some r =>
        have hput : put r.1 (⟨0, npc, t⟩ : Slot (Node β)) = ⟨t, r.1 * npc, 0, npc, npc⟩ := by
          simp [put]
        have hfoot : footer (S.getOob r.2 r.1) [put r.1 (⟨0, npc, t⟩ : Slot (Node β))] =
            update (S.getOob r.2 r.1) 0 npc := by
          rw [hput]
          simp [footer]
        simp only [bind_some, map_cons, map_nil]
        rw [hfoot, hput, ih]

theorem write_append (ps qs : List (List (Slot (Node β)))) (s : σ) :
    write S s (ps ++ qs) = (write S s ps).bind fun q =>
      (write S q.1 qs).map fun r => (r.1, q.2 ++ r.2) := by
  induction ps generalizing s with
  | nil => simp [write]
  | cons ss ps ih =>
    rw [cons_append, write, write]
    cases S.moveToFrPage s with
    | none => rfl
    | some r =>
      simp only [bind_some]
      split
      · rfl
      · rw [ih, map_bind, bind_map]
        congr 1
        funext q
        simp [comp_def]

theorem reserved_keeps {page : Nat → Nat} (hinj : Function.Injective page) :
    (reserved page).Keeps (fun _ => True) fun n H => ∀ P ∈ H.map Prod.fst, ∃ j < n, P = page j := by
  refine ⟨fun _ _ => trivial, fun _ => trivial, fun {n H P s'} hI h _ => ?_⟩
  cases h
  refine ⟨fun hm => ?_, fun _ => rfl, fun m Q hQ => ?_⟩
  · obtain ⟨j, hj, he⟩ := hI _ hm
    exact ne_of_gt hj (hinj he)
  · rcases mem_cons.mp hQ with rfl | hQ
    · exact ⟨n, Nat.lt_succ_self n, rfl⟩
    · obtain ⟨j, hj, he⟩ := hI Q hQ
      exact ⟨j, Nat.lt_succ_of_lt hj, he⟩

theorem write_reserved (page : Nat → Nat) (ps : List (List (Slot (Node β)))) (n : Nat) :
    ∃ r, write (reserved page) n ps = some r := by
  induction ps generalizing n with
  | nil => exact ⟨_, rfl⟩
  | cons ss ps ih =>
    obtain ⟨r, hr⟩ := ih (n + 1)
    refine ⟨(r.1, (page n, ss.map (put (page n))) :: r.2), ?_⟩
    simp only [write, reserved, bind_some, ne_eq, not_true, if_false]
    change (write (reserved page) (n + 1) ps).map _ = _
    rw [hr]
    rfl

theorem items_map_snd (b : Bucket β) : (items npc b).map Prod.snd =
    ∑ k ∈ Finset.range (npc + 1), (b k : Multiset (Node β)) := by
  rw [items, ← Multiset.coe_mapAddMonoidHom, map_sum]
  simp [comp_def]

/-- The pages of the full values. -/
def fullPages (b : Bucket β) : List (List (Slot (Node β))) :=
  ((b npc).reverse.filter fun t => t.plength ≠ 0).map fun t => [⟨0, npc, t⟩]

theorem fullPages_neat (hs : Sorts true Node.plength b) :
    ∀ ss ∈ fullPages b, Neat Node.plength ss := by
  intro ss hss
  obtain ⟨t, ht, rfl⟩ := mem_map.mp hss
  obtain ⟨ht, hz⟩ := mem_filter.mp ht
  have hlen : t.plength = npc := by
    rcases hs.length npc t (mem_reverse.mp ht) with h | ⟨-, h⟩
    · exact h
    · simp [h] at hz
  refine ⟨⟨rfl, trivial⟩, by simp [lens], fun x hx => ?_⟩
  rw [mem_singleton.mp hx]
  exact ⟨hlen.symm, Nat.succ_pos 15⟩

theorem kept_eq (b : Bucket β) : kept b = ((fullPages b).flatten.map (·.item) : Multiset (Node β)) +
      (items npc (live Node.plength (update b npc []))).map Prod.snd := by
  have hfull : (fullPages b).flatten.map (·.item) =
      (b npc).reverse.filter fun t => t.plength ≠ 0 := by
    rw [fullPages]
    generalize (b npc).reverse.filter (fun t => t.plength ≠ 0) = ts
    induction ts with
    | nil => rfl
    | cons t ts ih => simpa using ih
  rw [hfull, items_map_snd, kept, Finset.sum_range_succ, Finset.sum_range_succ, filter_reverse,
    Multiset.coe_reverse, add_comm]
  congr 1
  rw [live_nil (update_self npc [] b), Multiset.coe_nil, add_zero]
  refine Finset.sum_congr rfl fun k hk => ?_
  rw [live, live, update_of_ne (ne_of_lt (Finset.mem_range.mp hk))]

theorem repack_spec {page : Nat → Nat} (hinj : Function.Injective page)
    (hs : Sorts true Node.plength b) :
    ∃ ps, repack (reserved page) 0 b = some ps ∧ (∀ u ∈ ps, ∃ j, Lies Node.plength (page j) u) ∧
      ps.Pairwise Off ∧ ((ps.map (·.item) : List (Node β)) : Multiset (Node β)) = kept b := by
  have hs' : Sorts true Node.plength (update b npc []) := by
    refine ⟨fun k hk => ?_, fun k t ht => ?_⟩ <;> by_cases he : k = npc
    · rw [he, update_self] at hk
      exact absurd rfl hk
    · rw [update_of_ne he] at hk
      exact hs.sized k hk
    · rw [he, update_self] at ht
      cases ht
    · rw [update_of_ne he] at ht
      exact hs.length k t ht
  have hlt : ∀ k, update b npc [] k ≠ [] → k < npc := by
    intro k hk
    refine lt_of_le_of_ne (hs'.sized k hk).2 fun he => ?_
    rw [he, update_self] at hk
    exact hk rfl
  obtain ⟨⟨n, full⟩, hfull⟩ := write_reserved page (fullPages b) 0
  obtain ⟨ps, hN, hitems, -, heq⟩ := variableValue2Page_eq hs' hlt (reserved page) n
  obtain ⟨⟨m, des⟩, hdes⟩ := write_reserved page ps n
  have hall : write (reserved page) 0 (fullPages b ++ ps) = some (m, full ++ des) := by
    rw [write_append, hfull, bind_some, hdes]
    rfl
  have hneat : ∀ ss ∈ fullPages b ++ ps, Neat Node.plength ss := fun ss hss =>
    (mem_append.mp hss).elim (fullPages_neat hs ss) (hN ss)
  obtain ⟨hnd, -, hI⟩ := write_keeps (H := []) (reserved_keeps hinj)
    (fun P hP => (by cases hP)) hall trivial
  refine ⟨(full ++ des).flatMap Prod.snd, ?_, fun u hu => ?_, write_off hneat hall hnd, ?_⟩
  · rw [repack, moveFull_eq]
    change (write (reserved page) 0 (fullPages b)).bind _ = _
    rw [hfull, bind_some, heq, hdes]
    rfl
  · obtain ⟨d, hd, hu⟩ := List.mem_flatMap.mp hu
    obtain ⟨j, -, hj⟩ := hI d.1 (by
      rw [List.append_nil, List.map_reverse, List.mem_reverse, List.map_map]
      exact List.mem_map.mpr ⟨d, hd, rfl⟩)
    exact ⟨j, hj ▸ write_lies hneat hall d hd u hu⟩
  · rw [write_items hall, flatten_append, map_append, ← Multiset.coe_add, kept_eq, ← hitems]
    simp [placed, comp_def]

end

end FlashDriver.Lsmtree.Gc
