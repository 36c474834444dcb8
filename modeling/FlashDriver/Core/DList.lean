import Mathlib

/-!
# Doubly linked lists

Cells have links up and down, and the list its first and last cell. `Linked`
says that the links are those of a given list of cells. It mentions no other
cell, so that a cell which was taken out may keep its old links.

* `Linked.unlink`, `Linked.push`: taking a cell out and putting one on top.
* `Linked.up_iff_down`: the links are inverse to each other.
-/
namespace FlashDriver.Core.DList

open List

variable {α : Type}

structure Links (α : Type) where
  up : α → Option α
  down : α → Option α
  top : Option α
  bottom : Option α

/-- The cells `l` are linked in this order, from the top down. -/
structure Linked (L : Links α) (l : List α) : Prop where
  nodup : l.Nodup
  top : L.top = l.head?
  bottom : L.bottom = l.getLast?
  cell : ∀ xs a ys, l = xs ++ a :: ys → L.up a = xs.getLast? ∧ L.down a = ys.head?

section
variable {L : Links α} {l xs ys : List α} {a b : α}

theorem Linked.disjoint (h : Linked L (xs ++ a :: ys)) :
    xs.Nodup ∧ ys.Nodup ∧ ∀ x ∈ xs, x ∉ ys := by
  have hnd := h.nodup
  rw [nodup_append, nodup_cons] at hnd
  exact ⟨hnd.1, hnd.2.1.2, fun x hx hy => hnd.2.2 x hx x (.tail _ hy) rfl⟩

theorem Linked.up_iff_down (h : Linked L l) (ha : a ∈ l) (hb : b ∈ l) :
    L.up b = some a ↔ L.down a = some b := by
  obtain ⟨xs, ys, he⟩ := append_of_mem ha
  obtain ⟨us, vs, he'⟩ := append_of_mem hb
  rw [(h.cell xs a ys he).2, (h.cell us b vs he').1]
  constructor
  · intro hlast
    obtain ⟨ws, rfl⟩ := getLast?_eq_some_iff.mp hlast
    -- the cell below `a` is found at the same split of the list
    have hsplit : l = ws ++ a :: (b :: vs) := by rw [he']; simp
    rw [← (h.cell xs a ys he).2, (h.cell ws a (b :: vs) hsplit).2]
    rfl
  · intro hhead
    obtain ⟨ws, rfl⟩ := head?_eq_some_iff.mp hhead
    have hsplit : l = (xs ++ [a]) ++ b :: ws := by rw [he]; simp
    rw [← (h.cell us b vs he').1, (h.cell (xs ++ [a]) b ws hsplit).1]
    simp

end

/-! ## Taking a cell out -/

section
variable [DecidableEq α]

/-- The cells `u` and `d`, where there are any, become neighbours. -/
def Links.bridge (L : Links α) (u d : Option α) : Links α :=
  { L with
    up := fun b => if d = some b then u else L.up b
    down := fun b => if u = some b then d else L.down b }

def Links.unlink (L : Links α) (a : α) : Links α :=
  { L.bridge (L.up a) (L.down a) with
    top := if L.up a = none then L.down a else L.top
    bottom := if L.down a = none then L.up a else L.bottom }

variable {L : Links α} {l xs ys us vs zs : List α} {a b : α}

theorem unlink_up (L : Links α) (a b : α) :
    (L.unlink a).up b = if L.down a = some b then L.up a else L.up b := rfl

theorem unlink_down (L : Links α) (a b : α) :
    (L.unlink a).down b = if L.up a = some b then L.down a else L.down b := rfl

theorem Linked.unlink_above (h : Linked L (xs ++ a :: ys)) (hx : xs = us ++ b :: zs) :
    (L.unlink a).up b = us.getLast? ∧ (L.unlink a).down b = (zs ++ ys).head? := by
  obtain ⟨hup, hdown⟩ := h.cell xs a ys rfl
  obtain ⟨hxs, -, hdisj⟩ := h.disjoint
  have hcell := h.cell us b (zs ++ a :: ys) (by rw [hx]; simp)
  have hb : b ∈ xs := hx ▸ mem_append_right us mem_cons_self
  have hne : ys.head? ≠ some b := fun hh => hdisj b hb (mem_of_head? hh)
  rw [unlink_up, unlink_down, hup, hdown, if_neg hne, hcell.1, hcell.2]
  refine ⟨rfl, ?_⟩
  cases zs with
  | nil => simp [hx]
  | cons w zs =>
    -- `b` is not the last one above `a`
    have hlast : xs.getLast? ≠ some b := by
      intro hl
      rw [hx] at hl hxs
      simp only [getLast?_append, getLast?_cons_cons] at hl
      rw [nodup_append, nodup_cons] at hxs
      exact hxs.2.1.1 (mem_of_getLast? (by simpa using hl))
    rw [if_neg hlast]
    rfl

theorem Linked.unlink_below (h : Linked L (xs ++ a :: ys)) (hy : ys = zs ++ b :: vs) :
    (L.unlink a).up b = (xs ++ zs).getLast? ∧ (L.unlink a).down b = vs.head? := by
  obtain ⟨hup, hdown⟩ := h.cell xs a ys rfl
  obtain ⟨-, hys, hdisj⟩ := h.disjoint
  have hcell := h.cell (xs ++ a :: zs) b vs (by rw [hy]; simp)
  have hb : b ∈ ys := hy ▸ mem_append_right zs mem_cons_self
  have hne : xs.getLast? ≠ some b := fun hl => hdisj b (mem_of_getLast? hl) hb
  rw [unlink_up, unlink_down, hup, hdown, if_neg hne, hcell.1, hcell.2]
  refine ⟨?_, rfl⟩
  cases zs with
  | nil => simp [hy]
  | cons z zs =>
    have hzb : z ≠ b := by
      rintro rfl
      rw [hy] at hys
      simp at hys
    simp [hy, hzb, getLast?_append]

theorem Linked.unlink (h : Linked L (xs ++ a :: ys)) : Linked (L.unlink a) (xs ++ ys) := by
  obtain ⟨hup, hdown⟩ := h.cell xs a ys rfl
  obtain ⟨hxs, hys, hdisj⟩ := h.disjoint
  refine ⟨nodup_append.mpr ⟨hxs, hys, fun x hx y hy he => hdisj x hx (he ▸ hy)⟩, ?_, ?_, ?_⟩
  · change (if L.up a = none then L.down a else L.top) = _
    rw [hup, hdown, h.top]
    cases xs with
    | nil => simp
    | cons x xs => simp
  · change (if L.down a = none then L.up a else L.bottom) = _
    rw [hup, hdown, h.bottom]
    cases ys with
    | nil => simp
    | cons y ys => simp [getLast?_append]
  · intro us b vs he
    rcases append_eq_append_iff.mp he with ⟨zs, rfl, hy⟩ | ⟨zs, hx, hv⟩
    · exact h.unlink_below hy
    · cases zs with
      | nil =>
        have hy : ys = [] ++ b :: vs := by simpa using hv.symm
        have hcell := h.unlink_below hy
        rwa [append_nil, show xs = us by simpa using hx] at hcell
      | cons z zs =>
        obtain ⟨rfl, rfl⟩ : b = z ∧ vs = zs ++ ys := by simpa using hv
        exact h.unlink_above hx

/-! ## Putting a cell on top -/

def Links.push (L : Links α) (a : α) : Links α where
  up b := if b = a then none else if L.top = some b then some a else L.up b
  down b := if b = a then L.top else L.down b
  top := some a
  bottom := if L.bottom = none then some a else L.bottom

theorem Linked.push (h : Linked L l) (ha : a ∉ l) : Linked (L.push a) (a :: l) := by
  refine ⟨nodup_cons.mpr ⟨ha, h.nodup⟩, rfl, ?_, fun xs b ys he => ?_⟩
  · change (if L.bottom = none then some a else L.bottom) = _
    rw [h.bottom]
    cases l with
    | nil => rfl
    | cons c l => simp
  · change (if b = a then none else if L.top = some b then some a else L.up b) = _ ∧
      (if b = a then L.top else L.down b) = _
    cases xs with
    | nil =>
      obtain ⟨rfl, rfl⟩ : a = b ∧ l = ys := by simpa using he
      rw [if_pos rfl, if_pos rfl, h.top]
      exact ⟨rfl, rfl⟩
    | cons x xs =>
      obtain ⟨rfl, rfl⟩ : a = x ∧ l = xs ++ b :: ys := by simpa using he
      obtain ⟨hup, hdown⟩ := h.cell xs b ys rfl
      have hne : b ≠ a := fun hba => ha (hba ▸ mem_append_right xs mem_cons_self)
      rw [if_neg hne, if_neg hne, h.top, hdown]
      refine ⟨?_, rfl⟩
      cases xs with
      | nil => simp
      | cons c xs =>
        have hcb : c ≠ b := by
          rintro rfl
          have := h.nodup
          simp at this
        simp [hcb, hup]

end

end FlashDriver.Core.DList
