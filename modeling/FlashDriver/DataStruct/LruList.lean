import FlashDriver.Core.DList

/-!
# The LRU list (`include/data_struct/lru_list.c`)

A doubly linked list of nodes with a head, a tail and a count, on which the
mapping caches base their evictions. Nodes are addresses; the data of an
address is there while the node is allocated, and following a null pointer or
the pointer to a freed node has no result. Which address `malloc` returns is
not said, only that it is not in use.

* `detach_spec`: the two branches that `lru_update` and `lru_delete` share
  take a node out of the list.
* `push_rep`, `update_rep`, `delete_rep`, `pop_rep`: what each function does
  to the sequence of nodes that the pointers represent.
* `recent`: along every run the nodes stand in the order of their last push
  or update.
* `lru_list`: both together, for every run.
-/
namespace FlashDriver.DataStruct.LruList

open List Option Function
open Core.DList (Links Linked)

variable {δ : Type}

/-! ## The functions -/

/-- mirrors include/data_struct/lru_list.h:7-17: the fields of the list and those of the nodes;
`data` is there for the nodes that are allocated. -/
structure Lru (δ : Type) where
  size : Int
  head : Option Nat
  tail : Option Nat
  next : Nat → Option Nat
  prev : Nat → Option Nat
  data : Nat → Option δ

namespace Lru

/-- `x->next` -/
def getNext (s : Lru δ) (x : Nat) : Option (Option Nat) := (s.data x).map fun _ => s.next x

/-- `x->prev` -/
def getPrev (s : Lru δ) (x : Nat) : Option (Option Nat) := (s.data x).map fun _ => s.prev x

/-- `p->next=v` -/
def setNext (s : Lru δ) (p v : Option Nat) : Option (Lru δ) := do
  let x ← p
  let _ ← s.data x
  some { s with next := update s.next x v }

/-- `p->prev=v` -/
def setPrev (s : Lru δ) (p v : Option Nat) : Option (Lru δ) := do
  let x ← p
  let _ ← s.data x
  some { s with prev := update s.prev x v }

end Lru

/-- mirrors include/data_struct/lru_list.c:3-7 -/
def lruInit : Lru δ := ⟨0, none, none, fun _ => none, fun _ => none, fun _ => none⟩

/-- mirrors include/data_struct/lru_list.c:14-28, where `malloc` returned `now` -/
def lruPush (s : Lru δ) (now : Nat) (table : δ) : Option (Lru δ) :=
  let s := { s with
    data := update s.data now (some table)
    next := update s.next now none
    prev := update s.prev now none }
  if s.size = 0 then some { s with head := some now, tail := some now, size := s.size + 1 }
  else do
    let s ← s.setPrev s.head (some now)
    let s ← s.setNext (some now) s.head
    some { s with head := some now, size := s.size + 1 }

/-- mirrors include/data_struct/lru_list.c:30-46 -/
def lruPop (s : Lru δ) : Option (Lru δ × Option δ) :=
  if s.head = none ∨ s.size = 0 then some (s, none)
  else do
    let now ← s.tail
    let re ← s.data now
    let s := { s with tail := s.prev now }
    let s ← if s.tail ≠ none then s.setNext s.tail none else some { s with head := none }
    some ({ s with size := s.size - 1, data := update s.data now none }, some re)

/-- mirrors include/data_struct/lru_list.c:55-62 and 82-89 -/
def detach (s : Lru δ) (now : Nat) : Option (Lru δ) :=
  if some now = s.tail then do
    let p ← s.getPrev now
    let s := { s with tail := p }
    s.setNext s.tail none
  else do
    let p ← s.getPrev now
    let n ← s.getNext now
    let s ← s.setNext p n
    let n ← s.getNext now
    let p ← s.getPrev now
    s.setPrev n p

/-- mirrors include/data_struct/lru_list.c:48-67 -/
def lruUpdate (s : Lru δ) (now : Option Nat) : Option (Lru δ) :=
  match now with
  | none => some s
  | some now =>
    if some now = s.head then some s
    else do
      let s ← detach s now
      let s ← s.setPrev (some now) none
      let s ← s.setPrev s.head (some now)
      let s ← s.setNext (some now) s.head
      some { s with head := some now }

/-- mirrors include/data_struct/lru_list.c:69-92 -/
def lruDelete (s : Lru δ) (now : Option Nat) : Option (Lru δ) :=
  match now with
  | none => some s
  | some now => do
    let s ← if some now = s.head then do
        let n ← s.getNext now
        let s := { s with head := n }
        if s.head ≠ none then s.setPrev s.head none else some { s with tail := none }
      else detach s now
    some { s with size := s.size - 1, data := update s.data now none }

/-! ## The sequence that the pointers represent -/

/-- The pointers as those of a doubly linked list. -/
def Lru.links (s : Lru δ) : Links Nat := ⟨s.prev, s.next, s.head, s.tail⟩

/-- The pointers represent the nodes `xs` with their data, from the head on, and `size` is
their number. -/
structure Rep (s : Lru δ) (xs : List (Nat × δ)) : Prop where
  linked : Linked s.links (xs.map Prod.fst)
  size : s.size = xs.length
  data : ∀ x ∈ xs, s.data x.1 = some x.2

theorem init_rep : Rep (lruInit : Lru δ) [] where
  linked := ⟨nodup_nil, rfl, rfl, fun xs _ _ h => absurd h (by simp)⟩
  size := rfl
  data := by simp

section
variable {s : Lru δ} {xs ys : List (Nat × δ)} {a b : Nat} {d e : δ}

theorem setNext_eq (h : s.data b = some e) (v : Option Nat) :
    s.setNext (some b) v = some { s with next := update s.next b v } := by
  simp [Lru.setNext, h]

theorem setPrev_eq (h : s.data b = some e) (v : Option Nat) :
    s.setPrev (some b) v = some { s with prev := update s.prev b v } := by
  simp [Lru.setPrev, h]

theorem getNext_eq (h : s.data b = some e) : s.getNext b = some (s.next b) := by
  simp [Lru.getNext, h]

theorem getPrev_eq (h : s.data b = some e) : s.getPrev b = some (s.prev b) := by
  simp [Lru.getPrev, h]

theorem Rep.cell (R : Rep s (xs ++ (a, d) :: ys)) :
    s.prev a = (xs.map Prod.fst).getLast? ∧ s.next a = (ys.map Prod.fst).head? :=
  R.linked.cell _ a _ (by simp)

theorem Rep.head_eq (R : Rep s xs) : s.head = (xs.map Prod.fst).head? := R.linked.top

theorem Rep.tail_eq (R : Rep s xs) : s.tail = (xs.map Prod.fst).getLast? := R.linked.bottom

theorem Rep.nodup (R : Rep s xs) : (xs.map Prod.fst).Nodup := R.linked.nodup

theorem Rep.once (R : Rep s (xs ++ (a, d) :: ys)) {x : Nat × δ} (hx : x ∈ xs ++ ys) : x.1 ≠ a := by
  have hnd := R.nodup
  rw [map_append, map_cons, nodup_middle, nodup_cons, ← map_append] at hnd
  intro h
  exact hnd.1 (mem_map.mpr ⟨x, hx, h⟩)

theorem Rep.data_at (R : Rep s (xs ++ (a, d) :: ys)) : s.data a = some d := R.data (a, d) (by simp)

theorem Rep.data_freed (R : Rep s (xs ++ (a, d) :: ys)) {x : Nat × δ} (hx : x ∈ xs ++ ys) :
    update s.data a none x.1 = some x.2 := by
  rw [update_of_ne (R.once hx)]
  refine R.data x ?_
  rcases mem_append.mp hx with h | h
  · exact mem_append_left _ h
  · exact mem_append_right _ (.tail _ h)

theorem Rep.not_head (R : Rep s (xs ++ (a, d) :: ys)) (hx : xs ≠ []) : some a ≠ s.head := by
  obtain ⟨x, us, rfl⟩ := exists_cons_of_ne_nil hx
  rw [R.head_eq]
  intro h
  exact R.once (x := x) (by simp) (by simpa using h.symm)

theorem Rep.not_tail (R : Rep s (xs ++ (a, d) :: ys)) (hy : ys ≠ []) : some a ≠ s.tail := by
  obtain ⟨vs, y, rfl⟩ : ∃ vs y, ys = vs ++ [y] := ⟨_, _, (dropLast_append_getLast hy).symm⟩
  have htail : s.tail = some y.1 := by
    rw [R.tail_eq, ← cons_append, ← append_assoc, map_append]
    exact getLast?_concat
  intro h
  exact R.once (x := y) (by simp) (some.inj (htail.symm.trans h.symm))

/-! ## Taking a node out -/

theorem update_as (f : Nat → Option Nat) (x : Nat) (v : Option Nat) :
    update f x v = fun b => if some x = some b then v else f b := by
  funext b
  simp [update_apply, eq_comm]

theorem links_unlink {s' : Lru δ} {p n : Option Nat} (hp : s.prev a = p) (hn : s.next a = n)
    (hprev : s'.prev = fun b => if n = some b then p else s.prev b)
    (hnext : s'.next = fun b => if p = some b then n else s.next b)
    (hhead : s'.head = if p = none then n else s.head)
    (htail : s'.tail = if n = none then p else s.tail) : s'.links = s.links.unlink a := by
  subst hp hn
  rw [Lru.links, hprev, hnext, hhead, htail]
  rfl

theorem detach_spec (R : Rep s (xs ++ (a, d) :: ys)) (hx : xs ≠ []) :
    ∃ s', detach s a = some s' ∧ s'.links = s.links.unlink a ∧ s'.size = s.size ∧
      s'.data = s.data := by
  obtain ⟨us, p, rfl⟩ : ∃ us p, xs = us ++ [p] := ⟨_, _, (dropLast_append_getLast hx).symm⟩
  obtain ⟨hprev, hnext⟩ := R.cell
  have hprev : s.prev a = some p.1 := by simpa using hprev
  have ha := R.data_at
  have hp : s.data p.1 = some p.2 := R.data p (by simp)
  cases ys with
  | nil =>
    have hnext : s.next a = none := hnext
    have htail : s.tail = some a := by simp [R.tail_eq]
    refine ⟨{ s with tail := some p.1, next := update s.next p.1 none }, ?_, ?_, rfl, rfl⟩
    · rw [detach, if_pos htail.symm, getPrev_eq ha, hprev]
      exact setNext_eq (s := { s with tail := some p.1 }) hp none
    · exact links_unlink hprev hnext (by simp) (update_as ..) (by simp) (by simp)
  | cons n vs =>
    have hnext : s.next a = some n.1 := by simpa using hnext
    have hn : s.data n.1 = some n.2 := R.data n (by simp)
    have hne : a ≠ p.1 := fun h => R.once (x := p) (by simp) h.symm
    refine ⟨{ s with next := update s.next p.1 (some n.1)
                     prev := update s.prev n.1 (some p.1) }, ?_, ?_, rfl, rfl⟩
    · rw [detach, if_neg (R.not_tail (by simp)), getPrev_eq ha, hprev, getNext_eq ha, hnext]
      simp only [bind_eq_bind, bind_some, setNext_eq hp]
      simp [Lru.getNext, Lru.getPrev, Lru.setPrev, ha, hn, hne, hnext, hprev]
    · exact links_unlink hprev hnext (update_as ..) (update_as ..) (by simp) (by simp)

theorem Rep.without {s' : Lru δ} (R : Rep s (xs ++ (a, d) :: ys))
    (hl : s'.links = s.links.unlink a) (hs : s'.size = s.size - 1)
    (hd : s'.data = update s.data a none) : Rep s' (xs ++ ys) where
  linked := by
    have h := R.linked
    rw [map_append, map_cons] at h
    rw [hl, map_append]
    exact h.unlink
  size := by
    rw [hs, R.size, length_append, length_append, length_cons]
    omega
  data x hx := by
    rw [hd]
    exact R.data_freed hx

theorem delete_rep (R : Rep s (xs ++ (a, d) :: ys)) :
    ∃ s', lruDelete s (some a) = some s' ∧ Rep s' (xs ++ ys) := by
  have ha := R.data_at
  obtain ⟨hprev, hnext⟩ := R.cell
  by_cases hx : xs = []
  · subst hx
    have hprev : s.prev a = none := hprev
    have hhead : s.head = some a := by simp [R.head_eq]
    cases ys with
    | nil =>
      have hnext : s.next a = none := hnext
      refine ⟨{ s with head := none, tail := none, size := s.size - 1,
                       data := update s.data a none }, ?_, R.without ?_ rfl rfl⟩
      · simp [lruDelete, hhead, getNext_eq ha, hnext]
      · exact links_unlink hprev hnext (by simp) (by simp) (by simp) (by simp)
    | cons n vs =>
      have hnext : s.next a = some n.1 := by simpa using hnext
      have hn : s.data n.1 = some n.2 := R.data n (by simp)
      refine ⟨{ s with head := some n.1, prev := update s.prev n.1 none,
                       size := s.size - 1, data := update s.data a none }, ?_,
        R.without ?_ rfl rfl⟩
      · simp [lruDelete, hhead, getNext_eq ha, hnext,
          setPrev_eq (s := { s with head := some n.1 }) hn]
      · exact links_unlink hprev hnext (update_as ..) (by simp) (by simp) (by simp)
  · obtain ⟨s', hs', hl, hsz, hda⟩ := detach_spec R hx
    refine ⟨{ s' with size := s'.size - 1, data := update s'.data a none }, ?_,
      R.without hl (by rw [hsz]) (by rw [hda])⟩
    simp [lruDelete, R.not_head hx, hs']

theorem pop_rep (R : Rep s (xs ++ [(a, d)])) :
    ∃ s', lruPop s = some (s', some d) ∧ Rep s' xs := by
  have ha := R.data_at
  obtain ⟨hprev, hnext⟩ := R.cell
  have hnext : s.next a = none := hnext
  have htail : s.tail = some a := by simp [R.tail_eq]
  have hne : ¬ (s.head = none ∨ s.size = 0) := by
    rw [R.head_eq, R.size]
    simp
    omega
  have hrest : xs = xs ++ [] := (append_nil xs).symm
  by_cases hx : xs = []
  · subst hx
    have hprev : s.prev a = none := hprev
    refine ⟨{ s with head := none, tail := none, size := s.size - 1,
                     data := update s.data a none }, ?_, ?_⟩
    · simp [lruPop, hne, htail, ha, hprev]
    · rw [hrest]
      refine R.without ?_ rfl rfl
      exact links_unlink hprev hnext (by simp) (by simp) (by simp) (by simp)
  · obtain ⟨us, p, rfl⟩ : ∃ us p, xs = us ++ [p] := ⟨_, _, (dropLast_append_getLast hx).symm⟩
    have hprev : s.prev a = some p.1 := by simpa using hprev
    have hp : s.data p.1 = some p.2 := R.data p (by simp)
    refine ⟨{ s with tail := some p.1, next := update s.next p.1 none,
                     size := s.size - 1, data := update s.data a none }, ?_, ?_⟩
    · simp [lruPop, hne, htail, ha, hprev, setNext_eq (s := { s with tail := some p.1 }) hp]
    · rw [hrest]
      refine R.without ?_ rfl rfl
      exact links_unlink hprev hnext (by simp) (update_as ..) (by simp) (by simp)

theorem pop_empty (R : Rep s []) : lruPop s = some (s, none) := by
  rw [lruPop, if_pos (.inl R.head_eq)]

/-! ## Putting a node at the head -/

theorem links_push {s' : Lru δ} {h : Option Nat} (hh : s.head = h)
    (hprev : s'.prev = fun b => if b = a then none else if h = some b then some a else s.prev b)
    (hnext : s'.next = fun b => if b = a then h else s.next b)
    (hhead : s'.head = some a) (htail : s'.tail = if s.tail = none then some a else s.tail) :
    s'.links = s.links.push a := by
  subst hh
  rw [Lru.links, hprev, hnext, hhead, htail]
  rfl

theorem update_update_as (f : Nat → Option Nat) {h : Nat} (hne : h ≠ a) :
    update (update f a none) h (some a) =
      fun b => if b = a then none else if some h = some b then some a else f b := by
  funext b
  by_cases hb : b = h
  · subst hb
    simp [hne]
  · by_cases hba : b = a
    · subst hba
      simp [hb]
    · simp [hb, hba, Ne.symm hb]

theorem Rep.with {s' : Lru δ} (hl : Linked s.links (xs.map Prod.fst)) (ha : a ∉ xs.map Prod.fst)
    (hs' : s'.links = s.links.push a) (hsz : s'.size = xs.length + 1)
    (hd : ∀ x ∈ (a, d) :: xs, s'.data x.1 = some x.2) : Rep s' ((a, d) :: xs) where
  linked := by
    rw [hs', map_cons]
    exact hl.push ha
  size := by
    rw [hsz, length_cons]
    rfl
  data := hd

theorem push_rep (R : Rep s xs) (ha : a ∉ xs.map Prod.fst) (d : δ) :
    ∃ s', lruPush s a d = some s' ∧ Rep s' ((a, d) :: xs) := by
  have hdata : ∀ x ∈ (a, d) :: xs, update s.data a (some d) x.1 = some x.2 := by
    intro x hx
    rcases mem_cons.mp hx with rfl | hx
    · exact update_self ..
    · have hne : x.1 ≠ a := fun h => ha (mem_map.mpr ⟨x, hx, h⟩)
      rw [update_of_ne hne]
      exact R.data x hx
  cases xs with
  | nil =>
    have hhead : s.head = none := R.head_eq
    have htail : s.tail = none := R.tail_eq
    have hsz : s.size = 0 := R.size
    refine ⟨_, by rw [lruPush]; exact if_pos hsz, Rep.with R.linked ha ?_ ?_ hdata⟩
    · exact links_push hhead (by funext b; simp [update_apply])
        (by funext b; simp [update_apply]) rfl (by simp [htail])
    · simp [hsz]
  | cons x xs =>
    have hhead : s.head = some x.1 := R.head_eq
    have hne : x.1 ≠ a := fun h => ha (by simp [h])
    have hx : update s.data a (some d) x.1 = some x.2 := hdata x (by simp)
    have hsz : s.size ≠ 0 := by
      rw [R.size, length_cons]
      omega
    have htail : s.tail ≠ none := by simp [R.tail_eq]
    refine ⟨{ s with data := update s.data a (some d)
                     next := update s.next a (some x.1)
                     prev := update (update s.prev a none) x.1 (some a)
                     head := some a, size := s.size + 1 }, ?_, Rep.with R.linked ha ?_ ?_ hdata⟩
    · simp [lruPush, hsz, hhead, Lru.setPrev, Lru.setNext, hx]
    · refine links_push hhead (update_update_as s.prev hne) ?_ rfl (by simp [htail])
      funext b
      simp [update_apply]
    · simp [R.size]

theorem update_rep (R : Rep s (xs ++ (a, d) :: ys)) :
    ∃ s', lruUpdate s (some a) = some s' ∧ Rep s' ((a, d) :: (xs ++ ys)) := by
  by_cases hx : xs = []
  · subst hx
    have hhead : some a = s.head := by simp [R.head_eq]
    exact ⟨s, if_pos hhead, R⟩
  · obtain ⟨x, us, rfl⟩ := exists_cons_of_ne_nil hx
    obtain ⟨s1, h1, hl, hsz, hda⟩ := detach_spec R hx
    have ha : s1.data a = some d := by rw [hda, R.data_at]
    have hx1 : s1.data x.1 = some x.2 := by rw [hda, R.data x (by simp)]
    have hne : x.1 ≠ a := R.once (by simp)
    have hlinked : Linked s1.links ((x :: us ++ ys).map Prod.fst) := by
      have h := R.linked
      rw [map_append, map_cons] at h
      rw [hl, map_append]
      exact h.unlink
    have hhead : s1.head = some x.1 := hlinked.top
    have htail : s1.tail ≠ none := by
      rw [show s1.tail = _ from hlinked.bottom]
      simp
    have hout : a ∉ (x :: us ++ ys).map Prod.fst := by
      intro h
      obtain ⟨y, hy, hya⟩ := mem_map.mp h
      exact R.once hy hya
    refine ⟨{ s1 with prev := update (update s1.prev a none) x.1 (some a)
                      next := update s1.next a (some x.1)
                      head := some a }, ?_, Rep.with hlinked hout ?_ ?_ ?_⟩
    · simp [lruUpdate, R.not_head hx, h1, Lru.setPrev, Lru.setNext, ha, hx1, hhead]
    · refine links_push hhead (update_update_as s1.prev hne) ?_ rfl (by simp [htail])
      funext b
      simp [update_apply]
    · simp only [hsz, R.size, length_append, length_cons]
      omega
    · intro y hy
      change s1.data y.1 = _
      rw [hda]
      refine R.data y ?_
      simp only [mem_cons, mem_append] at hy ⊢
      tauto

end

/-! ## Runs -/

inductive Op (δ : Type)
  | push (now : Nat) (table : δ)
  | update (now : Nat)
  | delete (now : Nat)
  | pop
  deriving DecidableEq

/-- One call, without its return value. -/
def step (s : Lru δ) : Op δ → Option (Lru δ)
  | .push now table => lruPush s now table
  | .update now => lruUpdate s (some now)
  | .delete now => lruDelete s (some now)
  | .pop => (lruPop s).map Prod.fst

/-- The calls one after the other, from the empty list on. -/
def run (ops : List (Op δ)) : Option (Lru δ) := ops.foldlM step lruInit

/-- The nodes other than `a`, in their order. -/
def others (a : Nat) (xs : List (Nat × δ)) : List (Nat × δ) := xs.filter fun x => x.1 ≠ a

/-- What a call does to the sequence of nodes. -/
def seqStep (xs : List (Nat × δ)) : Op δ → List (Nat × δ)
  | .push now table => (now, table) :: xs
  | .update now => xs.filter (fun x => x.1 = now) ++ others now xs
  | .delete now => others now xs
  | .pop => xs.dropLast

/-- The sequence of nodes after the calls. -/
def contents (ops : List (Op δ)) : List (Nat × δ) := ops.foldl seqStep []

/-- `malloc` returns an address that is not in use; `lru_update` and `lru_delete` are called on
nodes of the list. -/
def Allowed (xs : List (Nat × δ)) : Op δ → Prop
  | .push now _ => now ∉ xs.map Prod.fst
  | .update now => now ∈ xs.map Prod.fst
  | .delete now => now ∈ xs.map Prod.fst
  | .pop => True

/-- Every call of the run is allowed when it is made. -/
def AllowedFrom (xs : List (Nat × δ)) : List (Op δ) → Prop
  | [] => True
  | op :: ops => Allowed xs op ∧ AllowedFrom (seqStep xs op) ops

section
variable {s : Lru δ} {xs ys : List (Nat × δ)} {ops : List (Op δ)} {op : Op δ} {a : Nat} {d : δ}

theorem Rep.split (R : Rep s xs) (h : a ∈ xs.map Prod.fst) :
    ∃ us d vs, xs = us ++ (a, d) :: vs ∧ others a xs = us ++ vs ∧
      xs.filter (fun x => x.1 = a) = [(a, d)] := by
  obtain ⟨⟨b, d⟩, hx, rfl⟩ := mem_map.mp h
  obtain ⟨us, vs, rfl⟩ := append_of_mem hx
  have hu : ∀ x ∈ us, x.1 ≠ b := fun x hx => R.once (mem_append_left _ hx)
  have hv : ∀ x ∈ vs, x.1 ≠ b := fun x hx => R.once (mem_append_right _ hx)
  refine ⟨us, d, vs, rfl, ?_, ?_⟩
  · rw [others, filter_append, filter_cons_of_neg (by simp),
      filter_eq_self.mpr (by simpa using hu), filter_eq_self.mpr (by simpa using hv)]
  · rw [filter_append, filter_cons_of_pos (by simp), filter_eq_nil_iff.mpr (by simpa using hu),
      filter_eq_nil_iff.mpr (by simpa using hv)]
    rfl

theorem step_rep (R : Rep s xs) (h : Allowed xs op) :
    ∃ s', step s op = some s' ∧ Rep s' (seqStep xs op) := by
  cases op with
  | push now table => exact push_rep R h table
  | update now =>
    obtain ⟨us, d, vs, he, ho, hf⟩ := R.split h
    rw [seqStep, ho, hf]
    rw [he] at R
    obtain ⟨s', hs', R'⟩ := update_rep R
    exact ⟨s', hs', R'⟩
  | delete now =>
    obtain ⟨us, d, vs, he, ho, -⟩ := R.split h
    rw [seqStep, ho]
    rw [he] at R
    exact delete_rep R
  | pop =>
    by_cases hx : xs = []
    · subst hx
      exact ⟨s, by rw [step, pop_empty R]; rfl, R⟩
    · obtain ⟨us, x, rfl⟩ : ∃ us x, xs = us ++ [x] := ⟨_, _, (dropLast_append_getLast hx).symm⟩
      obtain ⟨s', hs', R'⟩ := pop_rep R
      refine ⟨s', by rw [step, hs']; rfl, ?_⟩
      rwa [seqStep, dropLast_concat]

theorem run_rep (R : Rep s xs) (h : AllowedFrom xs ops) :
    ∃ s', ops.foldlM step s = some s' ∧ Rep s' (ops.foldl seqStep xs) := by
  induction ops generalizing s xs with
  | nil => exact ⟨s, rfl, R⟩
  | cons op ops ih =>
    obtain ⟨s1, h1, R1⟩ := step_rep R h.1
    obtain ⟨s', h', R'⟩ := ih R1 h.2
    refine ⟨s', ?_, R'⟩
    rw [foldlM_cons, h1]
    exact h'

/-! ## The order of use -/

/-- The call pushes or updates the node. -/
def Touches (a : Nat) : Op δ → Bool
  | .push now _ => now = a
  | .update now => now = a
  | .delete _ => false
  | .pop => false

/-- The number of the last call that pushed or updated a node. -/
def lastTouch (a : Nat) (ops : List (Op δ)) : Nat :=
  ops.zipIdx.foldl (fun t o => if Touches a o.1 then o.2 + 1 else t) 0

theorem lastTouch_concat : lastTouch a (ops ++ [op]) =
    if Touches a op then ops.length + 1 else lastTouch a ops := by
  simp [lastTouch, zipIdx_append]

theorem lastTouch_le : lastTouch a ops ≤ ops.length := by
  induction ops using reverseRecOn with
  | nil => exact le_refl 0
  | append_singleton ops op ih =>
    rw [lastTouch_concat, length_append, length_singleton]
    split <;> omega

theorem contents_concat : contents (ops ++ [op]) = seqStep (contents ops) op := by
  simp [contents]

theorem allowedFrom_concat : AllowedFrom xs (ops ++ [op]) ↔
    AllowedFrom xs ops ∧ Allowed (ops.foldl seqStep xs) op := by
  induction ops generalizing xs with
  | nil => simp [AllowedFrom]
  | cons o ops ih => simp [AllowedFrom, ih, and_assoc]

/-- The nodes stand in the order of their last use, the latest first. -/
def Recent (ops : List (Op δ)) (xs : List (Nat × δ)) : Prop :=
  xs.Pairwise fun x y => lastTouch y.1 ops < lastTouch x.1 ops

theorem Recent.frame (h : Recent ops xs) (hx : ∀ x ∈ xs, Touches x.1 op = false) :
    Recent (ops ++ [op]) xs := by
  refine List.Pairwise.imp_of_mem (fun {x y} hmx hmy hxy => ?_) h
  rw [lastTouch_concat, lastTouch_concat, hx x hmx, hx y hmy]
  exact hxy

theorem Recent.cons (h : Recent (ops ++ [op]) xs) (hx : ∀ x ∈ xs, Touches x.1 op = false)
    (ha : Touches a op = true) : Recent (ops ++ [op]) ((a, d) :: xs) := by
  refine pairwise_cons.mpr ⟨fun x hmx => ?_, h⟩
  rw [lastTouch_concat, lastTouch_concat, hx x hmx, ha]
  exact Nat.lt_succ_of_le lastTouch_le

theorem recent_step (R : Rep s xs) (hr : Recent ops xs) (h : Allowed xs op) :
    Recent (ops ++ [op]) (seqStep xs op) := by
  cases op with
  | push now table =>
    have hx : ∀ x ∈ xs, Touches x.1 (Op.push now table) = false := by
      intro x hx
      have hne : now ≠ x.1 := fun he => h (he ▸ mem_map_of_mem hx)
      simp [Touches, hne]
    exact (hr.frame hx).cons hx (by simp [Touches])
  | update now =>
    obtain ⟨us, d, vs, -, -, hf⟩ := R.split h
    have hx : ∀ x ∈ others now xs, Touches x.1 (Op.update now : Op δ) = false := by
      intro x hx
      have hne : x.1 ≠ now := by simpa using (mem_filter.mp hx).2
      simp [Touches, Ne.symm hne]
    rw [seqStep, hf]
    have hsub : Recent ops (others now xs) := List.Pairwise.sublist filter_sublist hr
    exact (hsub.frame hx).cons hx (by simp [Touches])
  | delete now =>
    have hsub : Recent ops (others now xs) := List.Pairwise.sublist filter_sublist hr
    exact hsub.frame fun _ _ => rfl
  | pop =>
    have hsub : Recent ops xs.dropLast := List.Pairwise.sublist (dropLast_sublist xs) hr
    exact hsub.frame fun _ _ => rfl

theorem recent (h : AllowedFrom [] ops) : Recent ops (contents ops) := by
  induction ops using reverseRecOn with
  | nil => exact List.Pairwise.nil
  | append_singleton ops op ih =>
    obtain ⟨h1, h2⟩ := allowedFrom_concat.mp h
    obtain ⟨s, -, R⟩ := run_rep init_rep h1
    rw [contents_concat]
    exact recent_step R (ih h1) h2

end

/-- After every run the pointers represent the sequence of the nodes, `size` in number; what each
function does to it; and that `lru_pop` takes the node whose last push or update is the oldest. -/
theorem lru_list (ops : List (Op δ)) (h : AllowedFrom [] ops) :
    ∃ s, run ops = some s ∧ Rep s (contents ops) ∧ (∀ a d, a ∉ (contents ops).map Prod.fst →
        ∃ s', lruPush s a d = some s' ∧ Rep s' ((a, d) :: contents ops)) ∧
      (∀ a d, (a, d) ∈ contents ops →
        ∃ s', lruUpdate s (some a) = some s' ∧ Rep s' ((a, d) :: others a (contents ops))) ∧
      (∀ a d, (a, d) ∈ contents ops →
        ∃ s', lruDelete s (some a) = some s' ∧ Rep s' (others a (contents ops))) ∧
      (contents ops = [] → lruPop s = some (s, none)) ∧
      (∀ xs a d, contents ops = xs ++ [(a, d)] → (∃ s', lruPop s = some (s', some d) ∧ Rep s' xs) ∧
        ∀ x ∈ xs, lastTouch a ops < lastTouch x.1 ops) := by
  obtain ⟨s, hs, R⟩ := run_rep init_rep h
  change Rep s (contents ops) at R
  refine ⟨s, hs, R, fun a d ha => push_rep R ha d, fun a d ha => ?_, fun a d ha => ?_,
    fun he => pop_empty (he ▸ R), fun xs a d he => ⟨pop_rep (he ▸ R), fun x hx => ?_⟩⟩
  · obtain ⟨us, d', vs, he, ho, hf⟩ := R.split (mem_map_of_mem ha)
    have hd : d = d' := by
      have hm : (a, d) ∈ (contents ops).filter fun x => x.1 = a := by simpa using ha
      rw [hf, mem_singleton, Prod.mk.injEq] at hm
      exact hm.2
    rw [ho, hd]
    exact update_rep (he ▸ R)
  · obtain ⟨us, d', vs, he, ho, -⟩ := R.split (mem_map_of_mem ha)
    rw [ho]
    exact delete_rep (he ▸ R)
  · have hr := recent h
    rw [he, Recent, pairwise_append] at hr
    exact hr.2.2 x hx (a, d) (.head _)

theorem lru_list_three : ∃ s, run [Op.push 1 'a', .push 2 'b', .update 1] = some s ∧
    (∃ s', lruPop s = some (s', some 'b') ∧ Rep s' [(1, 'a')]) := by
  obtain ⟨s, hs, -, -, -, -, -, hpop⟩ :=
    lru_list [Op.push 1 'a', .push 2 'b', .update 1] (by simp [AllowedFrom, Allowed, seqStep])
  exact ⟨s, hs, (hpop [(1, 'a')] 2 'b' (by decide)).1⟩

end FlashDriver.DataStruct.LruList
