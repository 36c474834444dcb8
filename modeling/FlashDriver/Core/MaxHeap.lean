import Mathlib

/-!
# Sifting in an array-shaped binary max-heap

The body is a function from slots to optional elements: slot `i` has the
children `2 * i` and `2 * i + 1`, and slot 0 is not used. `key` ranks the
elements. `siftDown` moves the element of a slot towards the leaves until no
child ranks above it.

* `elems_siftDown`: the multiset of stored elements is unchanged.
* `siftDown_heap`: if every slot strictly below `i` dominates its children,
  then after sifting `i` so does every slot from `i` down.
* `siftDown_extend`: the form used by a bottom-up construction, for any set
  of slots already in order.
* `root_max`: with every slot in order, the root ranks at least as high as
  every element.
-/
namespace FlashDriver.Core.MaxHeap

open Option Function

variable {α : Type*}

/-- Exchange the contents of two slots. -/
def swap (f : Nat → Option α) (i j : Nat) : Nat → Option α := fun k =>
  if k = i then f j else if k = j then f i else f k

theorem swap_eq (f : Nat → Option α) (i j : Nat) : swap f i j = f ∘ Equiv.swap i j := by
  funext k
  simp only [swap, comp, Equiv.swap_apply_def]
  split
  · rfl
  · split <;> rfl

@[simp] theorem swap_left (f : Nat → Option α) (i j : Nat) : swap f i j i = f j := by simp [swap]

@[simp] theorem swap_right (f : Nat → Option α) (i j : Nat) : swap f i j j = f i := by
  simp only [swap]; split <;> simp_all

theorem swap_other (f : Nat → Option α) {i j k : Nat} (hi : k ≠ i) (hj : k ≠ j) :
    swap f i j k = f k := by simp [swap, hi, hj]

/-- The stored elements of the slots `0 .. n`. -/
def elems (f : Nat → Option α) (n : Nat) : Multiset α := (Multiset.range (n + 1)).filterMap f

theorem mem_elems {f : Nat → Option α} {n : Nat} {a : α} :
    a ∈ elems f n ↔ ∃ i, i ≤ n ∧ f i = some a := by
  simp only [elems, Multiset.mem_filterMap, Multiset.mem_range, Nat.lt_succ_iff]

theorem elems_succ (f : Nat → Option α) (n : Nat) :
    elems f (n + 1) = (f (n + 1)).elim 0 (fun a => {a}) + elems f n := by
  unfold elems
  rw [Multiset.range_succ]
  cases h : f (n + 1) with
  | none => rw [Multiset.filterMap_cons_none _ _ h]; simp
  | some a => rw [Multiset.filterMap_cons_some _ _ _ h]; simp

theorem card_elems {f : Nat → Option α} {n : Nat} (h0 : f 0 = none)
    (h : ∀ i, 1 ≤ i → i ≤ n → (f i).isSome) : (elems f n).card = n := by
  induction n with
  | zero =>
    show (Multiset.filterMap f (0 ::ₘ 0)).card = 0
    rw [Multiset.filterMap_cons_none _ _ h0]
    rfl
  | succ n ih =>
    obtain ⟨a, ha⟩ := isSome_iff_exists.mp (h (n + 1) (by omega) (le_rfl))
    rw [elems_succ, ha, elim_some, Multiset.card_add, Multiset.card_singleton,
      ih fun i h1 hi => h i h1 (by omega), add_comm]

theorem elems_congr {f g : Nat → Option α} {n : Nat} (h : ∀ i, i ≤ n → f i = g i) :
    elems f n = elems g n := by
  induction n with
  | zero =>
    have h0 := h 0 (le_refl 0)
    simp only [elems, zero_add, Multiset.range_succ, Multiset.range_zero]
    cases hf : f 0 with
    | none => rw [Multiset.filterMap_cons_none _ _ hf, Multiset.filterMap_cons_none _ _ (h0 ▸ hf)]; rfl
    | some a =>
      rw [Multiset.filterMap_cons_some _ _ _ hf, Multiset.filterMap_cons_some _ _ _ (h0 ▸ hf)]; rfl
  | succ n ih =>
    rw [elems_succ, elems_succ, h (n + 1) (le_rfl), ih fun i hi => h i (by omega)]

theorem elems_swap (f : Nat → Option α) {n i j : Nat} (hi : i ≤ n) (hj : j ≤ n) :
    elems (swap f i j) n = elems f n := by
  have hmap : (Multiset.range (n + 1)).map (Equiv.swap i j) = Multiset.range (n + 1) := by
    have h := Finset.map_perm (σ := Equiv.swap i j) (s := Finset.range (n + 1)) (by
      intro k hk
      simp only [ne_eq, Set.mem_ofPred_eq] at hk
      simp only [Finset.coe_range, Set.mem_Iio]
      by_contra hlt
      exact hk (Equiv.swap_apply_of_ne_of_ne (by omega) (by omega)))
    simpa using congrArg Finset.val h
  unfold elems
  rw [swap_eq, ← Multiset.filterMap_map, hmap]

/-! ## Sifting -/

section Sift
variable (key : α → Nat)

/-- The higher-ranked child of a slot; the right one on a tie. -/
def maxChild (f : Nat → Option α) (i : Nat) : Option Nat :=
  match f (2 * i), f (2 * i + 1) with
  | some l, some r => if key r < key l then some (2 * i) else some (2 * i + 1)
  | some _, none => some (2 * i)
  | none, some _ => some (2 * i + 1)
  | none, none => none

/-- The child that has to move up into slot `i`, if there is one. -/
def rising (f : Nat → Option α) (i : Nat) : Option Nat :=
  match f i, maxChild key f i with
  | some a, some c => match f c with
    | some b => if key a < key b then some c else none
    | none => none
  | _, _ => none

def siftDown : Nat → (Nat → Option α) → Nat → (Nat → Option α)
  | 0, f, _ => f
  | n + 1, f, i => match rising key f i with
    | some c => siftDown n (swap f i c) c
    | none => f

/-- Slot `i` ranks at least as high as its children. -/
def HeapAt (f : Nat → Option α) (i : Nat) : Prop :=
  ∀ a, f i = some a → ∀ c, c = 2 * i ∨ c = 2 * i + 1 → ∀ b, f c = some b → key b ≤ key a

variable {key}

theorem maxChild_spec {f : Nat → Option α} {i c : Nat} (h : maxChild key f i = some c) :
    (c = 2 * i ∨ c = 2 * i + 1) ∧
      ∃ b, f c = some b ∧ ∀ c', c' = 2 * i ∨ c' = 2 * i + 1 → ∀ b', f c' = some b' → key b' ≤ key b := by
  unfold maxChild at h
  split at h
  · rename_i l r hl hr
    split at h
    · rename_i hlt
      cases h
      refine ⟨.inl rfl, l, hl, ?_⟩
      rintro c' (rfl | rfl) b' hb'
      · rw [hl] at hb'; cases hb'; exact le_rfl
      · rw [hr] at hb'; cases hb'; exact le_of_lt hlt
    · rename_i hge
      cases h
      refine ⟨.inr rfl, r, hr, ?_⟩
      rintro c' (rfl | rfl) b' hb'
      · rw [hl] at hb'; cases hb'; omega
      · rw [hr] at hb'; cases hb'; exact le_rfl
  · rename_i l hl hr
    cases h
    refine ⟨.inl rfl, l, hl, ?_⟩
    rintro c' (rfl | rfl) b' hb'
    · rw [hl] at hb'; cases hb'; exact le_rfl
    · rw [hr] at hb'; cases hb'
  · rename_i r hl hr
    cases h
    refine ⟨.inr rfl, r, hr, ?_⟩
    rintro c' (rfl | rfl) b' hb'
    · rw [hl] at hb'; cases hb'
    · rw [hr] at hb'; cases hb'; exact le_rfl
  · cases h

theorem maxChild_none {f : Nat → Option α} {i : Nat} (h : maxChild key f i = none) :
    f (2 * i) = none ∧ f (2 * i + 1) = none := by
  unfold maxChild at h
  split at h
  · split at h <;> cases h
  · cases h
  · cases h
  · rename_i hl hr; exact ⟨hl, hr⟩

theorem rising_spec {f : Nat → Option α} {i c : Nat} (h : rising key f i = some c) :
    (c = 2 * i ∨ c = 2 * i + 1) ∧ ∃ a b, f i = some a ∧ f c = some b ∧ key a < key b ∧
      ∀ c', c' = 2 * i ∨ c' = 2 * i + 1 → ∀ b', f c' = some b' → key b' ≤ key b := by
  unfold rising at h
  split at h
  · rename_i a c0 ha hc
    obtain ⟨hcc, b, hb, hmax⟩ := maxChild_spec hc
    simp only [hb] at h
    split at h
    · rename_i hlt; cases h; exact ⟨hcc, a, b, ha, hb, hlt, hmax⟩
    · cases h
  · cases h

theorem heapAt_of_rising_none {f : Nat → Option α} {i : Nat} (h : rising key f i = none) :
    HeapAt key f i := by
  intro a ha c hc b hb
  unfold rising at h
  cases hm : maxChild key f i with
  | none =>
    obtain ⟨hl, hr⟩ := maxChild_none hm
    rcases hc with rfl | rfl
    · rw [hl] at hb; cases hb
    · rw [hr] at hb; cases hb
  | some c0 =>
    obtain ⟨-, b0, hb0, hmax⟩ := maxChild_spec hm
    simp only [ha, hm, hb0] at h
    have hle := hmax c hc b hb
    split at h
    · cases h
    · omega

theorem siftDown_rise {n : Nat} {f : Nat → Option α} {i c : Nat} (h : rising key f i = some c) :
    siftDown key (n + 1) f i = siftDown key n (swap f i c) c := by simp [siftDown, h]

theorem siftDown_stop {n : Nat} {f : Nat → Option α} {i : Nat} (h : rising key f i = none) :
    siftDown key (n + 1) f i = f := by simp [siftDown, h]

theorem rising_bound {f : Nat → Option α} {i c N : Nat} (h : rising key f i = some c)
    (hb : ∀ k, N < k → f k = none) : i ≤ N ∧ c ≤ N := by
  obtain ⟨-, a, b, ha, hc, -, -⟩ := rising_spec h
  constructor
  · by_contra hk; rw [hb i (by omega)] at ha; cases ha
  · by_contra hk; rw [hb c (by omega)] at hc; cases hc

theorem swap_bound {f : Nat → Option α} {i c N : Nat} (hi : i ≤ N) (hc : c ≤ N)
    (hb : ∀ k, N < k → f k = none) : ∀ k, N < k → swap f i c k = none := by
  intro k hk
  rw [swap_other f (by omega) (by omega)]; exact hb k hk

theorem elems_siftDown (n : Nat) (f : Nat → Option α) (i N : Nat) (hb : ∀ k, N < k → f k = none) :
    elems (siftDown key n f i) N = elems f N := by
  induction n generalizing f i with
  | zero => rfl
  | succ n ih =>
    cases hc : rising key f i with
    | some c =>
      obtain ⟨hi, hcN⟩ := rising_bound hc hb
      rw [siftDown_rise hc, ih _ _ (swap_bound hi hcN hb), elems_swap f hi hcN]
    | none => rw [siftDown_stop hc]

theorem siftDown_isSome (n : Nat) (f : Nat → Option α) (i k : Nat) :
    (siftDown key n f i k).isSome = (f k).isSome := by
  induction n generalizing f i with
  | zero => rfl
  | succ n ih =>
    cases hc : rising key f i with
    | some c =>
      obtain ⟨-, a, b, ha, hb, -, -⟩ := rising_spec hc
      rw [siftDown_rise hc, ih]
      unfold swap
      split
      · simp_all
      · split <;> simp_all
    | none => rw [siftDown_stop hc]

/-! ## Subtrees -/

/-- `k` lies in the subtree rooted at `i`. -/
def Desc (i k : Nat) : Prop := ∃ d, k / 2 ^ d = i

theorem desc_self (i : Nat) : Desc i i := ⟨0, by simp⟩

theorem div_pow_succ (k d : Nat) : k / 2 ^ (d + 1) = k / 2 ^ d / 2 := by
  rw [pow_succ, Nat.div_div_eq_div_mul]

theorem div_pow_succ' (k d : Nat) : k / 2 ^ (d + 1) = k / 2 / 2 ^ d := by
  rw [pow_succ, mul_comm, Nat.div_div_eq_div_mul]

theorem desc_le {i k : Nat} (h : Desc i k) : i ≤ k := by
  obtain ⟨d, rfl⟩ := h; exact Nat.div_le_self _ _

theorem desc_child {i k c : Nat} (h : Desc i k) (hc : c = 2 * k ∨ c = 2 * k + 1) : Desc i c := by
  obtain ⟨d, hd⟩ := h
  refine ⟨d + 1, ?_⟩
  rw [div_pow_succ', show c / 2 = k by omega, hd]

theorem desc_of_child {i c k : Nat} (hc : c = 2 * i ∨ c = 2 * i + 1) (h : Desc c k) : Desc i k := by
  obtain ⟨d, hd⟩ := h
  exact ⟨d + 1, by rw [div_pow_succ, hd]; omega⟩

theorem desc_cases {i k : Nat} (h : Desc i k) :
    k = i ∨ ∃ c, (c = 2 * i ∨ c = 2 * i + 1) ∧ Desc c k := by
  obtain ⟨d, hd⟩ := h
  cases d with
  | zero => left; simpa using hd
  | succ d =>
    right
    rw [div_pow_succ] at hd
    exact ⟨k / 2 ^ d, by omega, d, rfl⟩

theorem desc_one : ∀ {k : Nat}, 1 ≤ k → Desc 1 k := by
  intro k
  induction k using Nat.strongRecOn with
  | ind k ih =>
    intro hk
    by_cases h1 : k = 1
    · subst h1; exact desc_self 1
    · exact desc_child (ih (k / 2) (by omega) (by omega)) (by omega)

theorem desc_parent {i k c : Nat} (hc : c = 2 * k ∨ c = 2 * k + 1) (h : Desc i c) :
    c = i ∨ Desc i k := by
  obtain ⟨d, hd⟩ := h
  cases d with
  | zero => left; simpa using hd
  | succ d => right; exact ⟨d, by rw [div_pow_succ', show c / 2 = k by omega] at hd; exact hd⟩

theorem desc_disjoint {i c c' k : Nat} (hi : 1 ≤ i) (hc : c = 2 * i ∨ c = 2 * i + 1)
    (hc' : c' = 2 * i ∨ c' = 2 * i + 1) (h : Desc c k) (h' : Desc c' k) : c = c' := by
  obtain ⟨d, hd⟩ := h
  obtain ⟨e, he⟩ := h'
  -- both are ancestors of `k`; were they at different depths, one would lie a level up
  have key : ∀ {d e : Nat}, d < e → (k / 2 ^ e) ≤ (k / 2 ^ d) / 2 := by
    intro d e hde
    obtain ⟨m, rfl⟩ : ∃ m, e = d + 1 + m := ⟨e - (d + 1), by omega⟩
    rw [Nat.pow_add, ← Nat.div_div_eq_div_mul, div_pow_succ]
    exact Nat.div_le_self _ _
  rcases Nat.lt_trichotomy d e with h1 | h1 | h1
  · have := key h1; omega
  · subst h1; omega
  · have := key h1; omega

theorem not_desc_of_lt {i k : Nat} (h : k < i) : ¬ Desc i k := fun hd => by
  have := desc_le hd; omega

/-! ## Order after a sift -/

theorem siftDown_frame (n : Nat) (f : Nat → Option α) (i k : Nat) (hk : ¬ Desc i k) :
    siftDown key n f i k = f k := by
  induction n generalizing f i with
  | zero => rfl
  | succ n ih =>
    cases hc : rising key f i with
    | some c =>
      obtain ⟨hcc, -⟩ := rising_spec hc
      have hkc : ¬ Desc c k := fun h => hk (desc_of_child hcc h)
      rw [siftDown_rise hc, ih _ _ hkc, swap_other]
      · rintro rfl; exact hk (desc_self _)
      · rintro rfl; exact hkc (desc_self _)
    | none => rw [siftDown_stop hc]

theorem siftDown_root (n : Nat) (f : Nat → Option α) (i : Nat) (hi : 1 ≤ i) :
    siftDown key n f i i = f i ∨ ∃ c, (c = 2 * i ∨ c = 2 * i + 1) ∧ siftDown key n f i i = f c := by
  cases n with
  | zero => left; rfl
  | succ n =>
    cases hc : rising key f i with
    | some c =>
      obtain ⟨hcc, -⟩ := rising_spec hc
      right
      refine ⟨c, hcc, ?_⟩
      rw [siftDown_rise hc, siftDown_frame n _ c i (not_desc_of_lt (by omega)), swap_left]
    | none => left; rw [siftDown_stop hc]

theorem heapAt_congr {f g : Nat → Option α} {k : Nat} (h : HeapAt key f k) (h0 : g k = f k)
    (h1 : ∀ c, c = 2 * k ∨ c = 2 * k + 1 → g c = f c) : HeapAt key g k := by
  intro a ha c hc b hb
  rw [h0] at ha; rw [h1 c hc] at hb
  exact h a ha c hc b hb

theorem siftDown_heap (n : Nat) (f : Nat → Option α) (i N : Nat) (hi : 1 ≤ i)
    (hb : ∀ k, N < k → f k = none) (hn : N < i + n)
    (hd : ∀ k, Desc i k → k ≠ i → HeapAt key f k) :
    ∀ k, Desc i k → HeapAt key (siftDown key n f i) k := by
  induction n generalizing f i with
  | zero =>
    intro k hk a ha
    have := desc_le hk
    rw [siftDown, hb k (by omega)] at ha
    cases ha
  | succ n ih =>
    cases hc : rising key f i with
    | some c =>
      rw [siftDown_rise hc]
      obtain ⟨hcc, a, b, ha, hbc, hlt, hmax⟩ := rising_spec hc
      obtain ⟨hiN, hcN⟩ := rising_bound hc hb
      have hci : c ≠ i := by omega
      have hdc : Desc i c := desc_of_child hcc (desc_self c)
      -- below `c` nothing was exchanged yet
      have hsub : ∀ k, Desc c k → HeapAt key (siftDown key n (swap f i c) c) k := by
        refine ih _ c (by omega) (swap_bound hiN hcN hb) (by omega) ?_
        intro k hk hkc
        have hck := desc_le hk
        refine heapAt_congr (hd k (desc_of_child hcc hk) (by omega)) ?_ ?_
        · exact swap_other f (by omega) hkc
        · intro c' hc'; exact swap_other f (by omega) (by omega)
      intro k hk
      rcases desc_cases hk with rfl | ⟨c', hcc', hk'⟩
      · intro a' ha' c' hc' b' hb'
        rw [siftDown_frame n _ c k (not_desc_of_lt (by omega)), swap_left, hbc] at ha'
        cases ha'
        by_cases hcc'' : c' = c
        · subst hcc''
          rcases @siftDown_root α key n (swap f k c') c' (by omega) with h | ⟨e, he, h⟩
          · rw [h, swap_right, ha] at hb'; cases hb'; omega
          · rw [h, swap_other f (by omega) (by omega)] at hb'
            exact hd c' hdc (by omega) _ hbc e he _ hb'
        · have hnd : ¬ Desc c c' := fun h =>
            hcc'' (desc_disjoint hi hc' hcc (desc_self c') h)
          rw [siftDown_frame n _ c c' hnd, swap_other f (by omega) hcc''] at hb'
          exact hmax c' hc' b' hb'
      · by_cases he : c' = c
        · subst he; exact hsub k hk'
        · have hout : ∀ k', Desc c' k' → siftDown key n (swap f i c) c k' = f k' := by
            intro k' hk'
            have h1 : ¬ Desc c k' := fun h => he (desc_disjoint hi hcc' hcc hk' h)
            have h2 := desc_le hk'
            rw [siftDown_frame n _ c k' h1, swap_other f (by omega)]
            rintro rfl; exact h1 (desc_self _)
          have h2 := desc_le hk'
          refine heapAt_congr (hd k hk (by omega)) (hout k hk') ?_
          intro e hec; exact hout e (desc_child hk' hec)
    | none =>
      rw [siftDown_stop hc]
      intro k hk
      by_cases hki : k = i
      · subst hki; exact heapAt_of_rising_none hc
      · exact hd k hk hki

theorem siftDown_extend (n : Nat) (f : Nat → Option α) (i N : Nat) (D : Nat → Prop) (hi : 1 ≤ i)
    (hb : ∀ k, N < k → f k = none) (hn : N < i + n) (hD : ∀ k, D k → HeapAt key f k)
    (hbelow : ∀ k, Desc i k → k ≠ i → D k) (hpar : ¬ D (i / 2)) :
    ∀ k, D k ∨ k = i → HeapAt key (siftDown key n f i) k := by
  intro k hk
  by_cases hdk : Desc i k
  · exact siftDown_heap n f i N hi hb hn (fun k' h1 h2 => hD k' (hbelow k' h1 h2)) k hdk
  · have hDk : D k := hk.resolve_right fun h => hdk (h ▸ desc_self i)
    refine heapAt_congr (hD k hDk) (siftDown_frame n f i k hdk) ?_
    intro c hc
    refine siftDown_frame n f i c fun h => ?_
    rcases desc_parent hc h with rfl | h
    · exact hpar (by rwa [show c / 2 = k by omega])
    · exact hdk h

theorem root_max {f : Nat → Option α} (hgap : ∀ k, 1 < k → (f k).isSome → (f (k / 2)).isSome)
    (h : ∀ k, 1 ≤ k → HeapAt key f k) :
    ∀ k, 1 ≤ k → ∀ b, f k = some b → ∃ a, f 1 = some a ∧ key b ≤ key a := by
  intro k
  induction k using Nat.strongRecOn with
  | ind k ih =>
    intro hk b hb
    by_cases h1 : k = 1
    · subst h1; exact ⟨b, hb, le_rfl⟩
    · obtain ⟨p, hp⟩ := isSome_iff_exists.mp (hgap k (by omega) (by simp [hb]))
      obtain ⟨a, ha, hle⟩ := ih (k / 2) (by omega) (by omega) p hp
      have := h (k / 2) (by omega) p hp k (by omega) b hb
      exact ⟨a, ha, by omega⟩

end Sift

end FlashDriver.Core.MaxHeap
