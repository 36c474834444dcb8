import Mathlib

/-!
# Addresses with back pointers

A log-structured store never overwrites: every owner has at most one current
copy, every address in use names the owner of the copy it holds, and a new copy
is claimed at an address that is not in use before or after the old one is
released.

* `TwoWay`: the two maps are inverse to each other on the addresses in use.
  `release` and `claim` are the moves that keep them so.
* `Once`: in a history of writes and invalidations, no address is invalidated
  twice without a write of it in between (`Once.between`).
-/
namespace FlashDriver.Core.BackMap

open List Option Function

variable {ι π : Type*} [DecidableEq ι] [DecidableEq π]

/-! ## Owners and addresses -/

/-- `back` of an address in use is the owner whose address it is. -/
structure TwoWay (addr : ι → Option π) (live : π → Bool) (back : π → ι) : Prop where
  isLive : ∀ i p, addr i = some p → live p = true
  back_eq : ∀ i p, addr i = some p → back p = i
  addr_eq : ∀ p, live p = true → addr (back p) = some p

variable {addr : ι → Option π} {live : π → Bool} {back : π → ι}

omit [DecidableEq ι] [DecidableEq π] in
theorem TwoWay.inj (T : TwoWay addr live back) {i j : ι} {p : π} (hi : addr i = some p)
    (hj : addr j = some p) : i = j :=
  (T.back_eq i p hi).symm.trans (T.back_eq j p hj)

theorem TwoWay.release (T : TwoWay addr live back) {i : ι} {p : π} (hi : addr i = some p) :
    TwoWay (update addr i none) (update live p false) back := by
  have hother : ∀ j q, update addr i none j = some q → addr j = some q ∧ q ≠ p := by
    intro j q hj
    by_cases he : j = i
    · subst he; simp at hj
    · rw [update_of_ne he] at hj
      refine ⟨hj, fun hq => he ?_⟩
      subst hq
      exact T.inj hj hi
  refine ⟨fun j q hj => ?_, fun j q hj => T.back_eq j q (hother j q hj).1, fun q hq => ?_⟩
  · rw [update_of_ne (hother j q hj).2]
    exact T.isLive j q (hother j q hj).1
  · by_cases he : q = p
    · subst he; simp at hq
    · rw [update_of_ne he] at hq
      have ha := T.addr_eq q hq
      have hne : back q ≠ i := fun hb => he (some.inj ((hb ▸ ha).symm.trans hi))
      rw [update_of_ne hne]
      exact ha

theorem TwoWay.claim (T : TwoWay addr live back) {i : ι} {p : π} (hi : addr i = none)
    (hp : live p = false) :
    TwoWay (update addr i (some p)) (update live p true) (update back p i) := by
  have hother : ∀ j q, j ≠ i → addr j = some q → q ≠ p := by
    intro j q _ hj hq
    subst hq
    have := T.isLive j q hj
    rw [hp] at this
    cases this
  refine ⟨fun j q hj => ?_, fun j q hj => ?_, fun q hq => ?_⟩
  · by_cases he : j = i
    · subst he
      rw [update_self] at hj
      cases hj
      exact update_self ..
    · rw [update_of_ne he] at hj
      rw [update_of_ne (hother j q he hj)]
      exact T.isLive j q hj
  · by_cases he : j = i
    · subst he
      rw [update_self] at hj
      cases hj
      exact update_self ..
    · rw [update_of_ne he] at hj
      rw [update_of_ne (hother j q he hj)]
      exact T.back_eq j q hj
  · by_cases he : q = p
    · subst he
      rw [update_self, update_self]
    · rw [update_of_ne he] at hq
      have ha := T.addr_eq q hq
      have hne : back q ≠ i := by
        intro hb
        rw [hb, hi] at ha
        cases ha
      rw [update_of_ne he, update_of_ne hne]
      exact ha

omit [DecidableEq ι] [DecidableEq π] in
theorem TwoWay.congr_back (T : TwoWay addr live back) {back' : π → ι}
    (h : ∀ p, live p = true → back' p = back p) : TwoWay addr live back' := by
  refine ⟨T.isLive, fun i p hi => (h p (T.isLive i p hi)).trans (T.back_eq i p hi), fun p hp => ?_⟩
  rw [h p hp]
  exact T.addr_eq p hp

/-! ## The history of an address -/

inductive Ev (π : Type*) where
  | write (p : π)
  | invalidate (p : π)

/-- The last event of the history, newest first, that names `p` is a write. -/
def written : List (Ev π) → π → Bool
  | [], _ => false
  | .write q :: l, p => if p = q then true else written l p
  | .invalidate q :: l, p => if p = q then false else written l p

/-- Every invalidation is one of an address that was written since. -/
def Once : List (Ev π) → Prop
  | [] => True
  | .write _ :: l => Once l
  | .invalidate p :: l => written l p = true ∧ Once l

theorem written_write (l : List (Ev π)) (p : π) :
    written (.write p :: l) = update (written l) p true := by
  funext q
  rw [written, update_apply]

theorem written_invalidate (l : List (Ev π)) (p : π) :
    written (.invalidate p :: l) = update (written l) p false := by
  funext q
  rw [written, update_apply]

theorem Once.suffix {l l' : List (Ev π)} (h : Once (l ++ l')) : Once l' := by
  induction l with
  | nil => exact h
  | cons e l ih =>
    cases e with
    | write p => exact ih h
    | invalidate p => exact ih h.2

theorem mem_of_written {l l' : List (Ev π)} {p : π}
    (h : written (l ++ .invalidate p :: l') p = true) : Ev.write p ∈ l := by
  induction l with
  | nil => simp [written] at h
  | cons e l ih =>
    cases e with
    | write q =>
      by_cases he : p = q
      · subst he; exact mem_cons_self
      · rw [cons_append, written, if_neg he] at h
        exact .tail _ (ih h)
    | invalidate q =>
      by_cases he : p = q
      · subst he; simp [written] at h
      · rw [cons_append, written, if_neg he] at h
        exact .tail _ (ih h)

theorem Once.between {l1 l2 l3 : List (Ev π)} {p : π}
    (h : Once (l1 ++ .invalidate p :: (l2 ++ .invalidate p :: l3))) : Ev.write p ∈ l2 :=
  mem_of_written h.suffix.1

end FlashDriver.Core.BackMap
