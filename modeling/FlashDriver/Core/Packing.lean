import Mathlib

/-!
# Largest-first packing

Items lie in buckets by their length. A page of `cap` units is filled from the
front: the longest item that still fits is taken from the head of its bucket,
until nothing that is left fits. Then the next page is begun.

* `pack_spec`: the loop ends with all buckets empty, every item is in one page,
  and in its page it begins where the one before it ends.
* `pages_le`: items that came from `n` pages take at most `n + (n + 1) / 3`
  pages. Nothing longer than a third of a page is left over after the first
  `n` pages, and fewer than `n` items are left over at all.
-/
namespace FlashDriver.Core.Packing

open List Function

variable {α : Type}

/-- Items by length. -/
abbrev Buckets (α : Type) := Nat → List α

/-- The longest length up to the given one that has an item. -/
def pick (b : Buckets α) : Nat → Nat
  | 0 => 0
  | m + 1 => if (b (m + 1)).isEmpty then pick b m else m + 1

/-- An item in a page. -/
structure Slot (α : Type) where
  off : Nat
  len : Nat
  item : α

/-- One page from `off` on; `remain` rounds are enough. -/
def fillFrom : Nat → Buckets α → Nat → Nat → List (Slot α) × Buckets α
  | 0, b, _, _ => ([], b)
  | fuel + 1, b, off, remain =>
    let k := pick b remain
    if k = 0 then ([], b)
    else match b k with
      | [] => ([], b)
      | x :: rest =>
        let r := fillFrom fuel (update b k rest) (off + k) (remain - k)
        (⟨off, k, x⟩ :: r.1, r.2)

def fill (cap : Nat) (b : Buckets α) : List (Slot α) × Buckets α := fillFrom cap b 0 cap

/-- The number of items. -/
def size (cap : Nat) (b : Buckets α) : Nat := ∑ k ∈ Finset.range (cap + 1), (b k).length

/-- The pages that are filled while items are left; `none`: out of fuel. -/
def packFrom (cap : Nat) : Nat → Buckets α → Option (List (List (Slot α)))
  | 0, _ => none
  | fuel + 1, b =>
    if size cap b = 0 then some []
    else (packFrom cap fuel (fill cap b).2).map ((fill cap b).1 :: ·)

def pack (cap : Nat) (b : Buckets α) : Option (List (List (Slot α))) :=
  packFrom cap (size cap b + 1) b

/-! ## Buckets -/

/-- The items with their lengths. -/
def items (cap : Nat) (b : Buckets α) : Multiset (Nat × α) :=
  ∑ k ∈ Finset.range (cap + 1), ((b k).map (Prod.mk k) : Multiset (Nat × α))

/-- Every item has a length between 1 and `cap`. -/
def Sized (cap : Nat) (b : Buckets α) : Prop := ∀ k, b k ≠ [] → 1 ≤ k ∧ k ≤ cap

section
variable {b : Buckets α} {cap k m : Nat} {x : α} {rest : List α}

theorem card_items (cap : Nat) (b : Buckets α) : (items cap b).card = size cap b := by
  simp [items, size, Multiset.card_sum]

theorem size_eq_zero : size cap b = 0 ↔ ∀ k ≤ cap, b k = [] := by
  simp only [size, Finset.sum_eq_zero_iff, Finset.mem_range, length_eq_zero_iff]
  exact ⟨fun h k hk => h k (by omega), fun h k hk => h k (by omega)⟩

theorem mem_items {e : Nat × α} : e ∈ items cap b ↔ e.1 ≤ cap ∧ e.2 ∈ b e.1 := by
  simp only [items, Multiset.mem_sum, Finset.mem_range, Multiset.mem_coe, mem_map]
  constructor
  · rintro ⟨k, hk, x, hx, rfl⟩
    exact ⟨by omega, hx⟩
  · rintro ⟨hk, hx⟩
    exact ⟨e.1, by omega, e.2, hx, rfl⟩

theorem items_pop (hk : k ≤ cap) (h : b k = x :: rest) :
    items cap b = (k, x) ::ₘ items cap (update b k rest) := by
  have hm : k ∈ Finset.range (cap + 1) := Finset.mem_range.mpr (by omega)
  have hrest : ∑ j ∈ (Finset.range (cap + 1)).erase k,
      ((update b k rest j).map (Prod.mk j) : Multiset (Nat × α)) =
      ∑ j ∈ (Finset.range (cap + 1)).erase k, ((b j).map (Prod.mk j) : Multiset (Nat × α)) := by
    refine Finset.sum_congr rfl fun j hj => ?_
    rw [update_of_ne (Finset.mem_erase.mp hj).1]
  unfold items
  rw [← Finset.add_sum_erase _ _ hm, ← Finset.add_sum_erase _ (fun j =>
    ((update b k rest j).map (Prod.mk j) : Multiset (Nat × α))) hm, hrest,
    update_self, h, map_cons, ← Multiset.cons_coe, Multiset.cons_add]

theorem items_push (hk : k ≤ cap) (x : α) :
    items cap (update b k (x :: b k)) = (k, x) ::ₘ items cap b := by
  rw [items_pop hk (update_self k (x :: b k) b), update_idem, update_eq_self]

theorem Sized.push (hs : Sized cap b) (h1 : 1 ≤ k) (h2 : k ≤ cap) (x : α) :
    Sized cap (update b k (x :: b k)) := by
  intro j hj
  by_cases he : j = k
  · subst he
    exact ⟨h1, h2⟩
  · rw [update_of_ne he] at hj
    exact hs j hj

theorem Sized.pop (hs : Sized cap b) (h : b k = x :: rest) :
    Sized cap (update b k rest) := by
  intro j hj
  by_cases he : j = k
  · subst he
    exact hs j (by rw [h]; exact cons_ne_nil x rest)
  · rw [update_of_ne he] at hj
    exact hs j hj

theorem pop_nil (h : b k = x :: rest) {j : Nat} (hj : b j = []) :
    update b k rest j = [] := by
  have hne : j ≠ k := by
    rintro rfl
    rw [h] at hj
    cases hj
  rw [update_of_ne hne]
  exact hj

theorem pick_le (b : Buckets α) (m : Nat) : pick b m ≤ m := by
  induction m with
  | zero => exact le_refl 0
  | succ m ih =>
    rw [pick]
    split
    · omega
    · exact le_rfl

theorem pick_ne (h : pick b m ≠ 0) : b (pick b m) ≠ [] := by
  induction m with
  | zero => exact absurd rfl h
  | succ m ih =>
    rw [pick] at h ⊢
    split
    · rename_i he
      rw [if_pos he] at h
      exact ih h
    · rename_i he
      simpa using he

theorem pick_above (h1 : pick b m < k) (h2 : k ≤ m) : b k = [] := by
  induction m with
  | zero => omega
  | succ m ih =>
    rw [pick] at h1
    split at h1
    · rename_i he
      rcases Nat.eq_or_lt_of_le h2 with h2 | h2
      · subst h2
        simpa using he
      · exact ih h1 (by omega)
    · omega

theorem pick_min (h : ∀ k, b k ≠ [] → k ≤ cap) (m : Nat) : pick b (min m cap) = pick b m := by
  rcases Nat.le_total m cap with hm | hm
  · rw [Nat.min_eq_left hm]
  · rw [Nat.min_eq_right hm]
    induction m with
    | zero => rw [Nat.le_zero.mp hm]
    | succ m ih =>
      rcases Nat.eq_or_lt_of_le hm with he | he
      · rw [he]
      · have hnil : b (m + 1) = [] := by
          by_contra hne
          have := h (m + 1) hne
          omega
        rw [pick, hnil, if_pos isEmpty_nil]
        exact ih (by omega)

end

/-! ## One page -/

/-- Each item begins where the one before it ends. -/
def Laid : Nat → List (Slot α) → Prop
  | _, [] => True
  | off, s :: ss => s.off = off ∧ Laid (off + s.len) ss

def lens (ss : List (Slot α)) : List Nat := ss.map (·.len)

/-- The items of a page with their lengths. -/
def placed (ss : List (Slot α)) : List (Nat × α) := ss.map fun s => (s.len, s.item)

section
variable {b : Buckets α} {cap fuel off remain : Nat} {ss : List (Slot α)}

theorem Laid.bounds (h : Laid off ss) :
    ∀ s ∈ ss, off ≤ s.off ∧ s.off + s.len ≤ off + (lens ss).sum := by
  induction ss generalizing off with
  | nil => intro s hs; cases hs
  | cons t ss ih =>
    obtain ⟨h1, h2⟩ := h
    intro s hs
    simp only [lens, map_cons, sum_cons]
    rcases mem_cons.mp hs with rfl | hs
    · omega
    · have := ih h2 s hs
      simp only [lens] at this
      omega

theorem Laid.disjoint (h : Laid off ss) : ss.Pairwise fun s t => s.off + s.len ≤ t.off := by
  induction ss generalizing off with
  | nil => exact List.Pairwise.nil
  | cons t ss ih =>
    obtain ⟨h1, h2⟩ := h
    refine pairwise_cons.mpr ⟨fun s hs => ?_, ih h2⟩
    have := (h2.bounds s hs).1
    omega

/-- What filling a page does. -/
structure Filled (cap remain off : Nat) (b : Buckets α) (r : List (Slot α) × Buckets α) : Prop where
  laid : Laid off r.1
  sum_le : (lens r.1).sum ≤ remain
  items : items cap b = (placed r.1 : Multiset (Nat × α)) + items cap r.2
  sized : Sized cap r.2
  anti : ∀ k, b k = [] → r.2 k = []
  /-- nothing that is left fits -/
  full : ∀ k, 1 ≤ k → k + (lens r.1).sum ≤ remain → r.2 k = []

theorem fillFrom_spec (hs : Sized cap b) (hf : remain ≤ fuel) :
    Filled cap remain off b (fillFrom fuel b off remain) := by
  induction fuel generalizing b off remain with
  | zero =>
    refine ⟨trivial, Nat.zero_le _, ?_, hs, fun _ h => h, fun k h1 h2 => ?_⟩
    · change Packing.items cap b = 0 + Packing.items cap b
      rw [zero_add]
    · omega
  | succ fuel ih =>
    obtain ⟨k, hk⟩ : ∃ k, k = pick b remain := ⟨_, rfl⟩
    simp only [fillFrom, ← hk]
    split
    · rename_i h0
      refine ⟨trivial, Nat.zero_le _, ?_, hs, fun _ h => h, fun j h1 h2 => ?_⟩
      · change Packing.items cap b = 0 + Packing.items cap b
        rw [zero_add]
      · exact pick_above (b := b) (by omega) (le_trans (Nat.le_add_right j _) h2)
    · rename_i h0
      have hne : b k ≠ [] := hk ▸ pick_ne (hk ▸ h0)
      have hle : k ≤ remain := hk ▸ pick_le b remain
      obtain ⟨x, rest, hb⟩ := exists_cons_of_ne_nil hne
      obtain ⟨h1, h2, h3, h4, h5, h6⟩ : Filled cap (remain - k) (off + k)
          (update b k rest) (fillFrom fuel (update b k rest) (off + k)
            (remain - k)) := ih (hs.pop hb) (by omega)
      rw [hb]
      dsimp only
      generalize fillFrom fuel (update b k rest) (off + k) (remain - k) = r at h1 h2 h3 h4 h5 h6 ⊢
      simp only [lens] at h2 h6
      refine ⟨⟨rfl, h1⟩, ?_, ?_, h4, fun j hj => h5 j (pop_nil hb hj), fun j hj1 hj2 => ?_⟩
      · simp only [lens, map_cons, sum_cons]
        omega
      · rw [items_pop (hs k hne).2 hb, h3]
        simp only [placed, map_cons]
        rw [← Multiset.cons_coe, Multiset.cons_add]
      · simp only [lens, map_cons, sum_cons] at hj2
        exact h6 j hj1 (by omega)

theorem fillFrom_head (off : Nat) (hf : remain ≤ fuel) {k : Nat} (h1 : 1 ≤ k) (h2 : k ≤ remain)
    (hk : b k ≠ []) :
    ∃ u x rest, b u = x :: rest ∧ k ≤ u ∧ u ≤ remain ∧ 1 ≤ fuel ∧ fillFrom fuel b off remain =
        (⟨off, u, x⟩ ::
          (fillFrom (fuel - 1) (update b u rest) (off + u) (remain - u)).1,
          (fillFrom (fuel - 1) (update b u rest) (off + u) (remain - u)).2) := by
  obtain ⟨fuel, rfl⟩ : ∃ n, fuel = n + 1 := ⟨fuel - 1, by omega⟩
  have hle : k ≤ pick b remain := by
    by_contra hlt
    exact hk (pick_above (by omega) h2)
  have h0 : pick b remain ≠ 0 := by omega
  obtain ⟨x, rest, hb⟩ := exists_cons_of_ne_nil (pick_ne h0)
  refine ⟨pick b remain, x, rest, hb, hle, pick_le b remain, by omega, ?_⟩
  simp only [fillFrom, if_neg h0, hb, Nat.add_sub_cancel]

end

/-! ## How many pages -/

/-- A page that is closed while `later` is left: nothing of it fits, the first
item is the longest, and whatever fits behind the first is not longer than the
second. -/
def Closed (cap : Nat) (p later : List Nat) : Prop :=
  (∀ t ∈ later, cap < p.sum + t) ∧ ∃ u rest, p = u :: rest ∧ ∀ t ∈ later, t ≤ u ∧
      (u + t ≤ cap → ∃ v rest', rest = v :: rest' ∧ t ≤ v)

/-- Pages as the packing leaves them. -/
def Best (cap : Nat) : List (List Nat) → Prop
  | [] => True
  | p :: ps => Closed cap p ps.flatten ∧ Best cap ps

section
variable {cap s : Nat} {p later later' : List Nat} {ps qs src : List (List Nat)}

theorem Closed.mono (h : Closed cap p later) (hsub : ∀ t ∈ later', t ∈ later) :
    Closed cap p later' := by
  obtain ⟨h1, u, rest, hp, h2⟩ := h
  exact ⟨fun t ht => h1 t (hsub t ht), u, rest, hp, fun t ht => h2 t (hsub t ht)⟩

theorem Best.append (h : Best cap (ps ++ qs)) :
    (∀ p ∈ ps, Closed cap p qs.flatten) ∧ Best cap qs := by
  induction ps with
  | nil => exact ⟨fun p hp => (by cases hp), h⟩
  | cons p ps ih =>
    obtain ⟨h1, h2⟩ := h
    obtain ⟨h3, h4⟩ := ih h2
    refine ⟨fun q hq => ?_, h4⟩
    rcases mem_cons.mp hq with rfl | hq
    · refine h1.mono fun t ht => ?_
      obtain ⟨r, hr, htr⟩ := mem_flatten.mp ht
      exact mem_flatten.mpr ⟨r, mem_append_right _ hr, htr⟩
    · exact h3 q hq

/-- An item that is alone among those from `s` on counts twice. -/
def weight (cap s t : Nat) : Nat := if t < s then 0 else if cap < t + s then 2 else 1

theorem weight_pos {t : Nat} (h : s ≤ t) : 1 ≤ weight cap s t := by
  unfold weight
  rw [if_neg (by omega)]
  split <;> omega

theorem weight_filter (l : List Nat) :
    (l.map (weight cap s)).sum = ((l.filter fun t => s ≤ t).map (weight cap s)).sum := by
  induction l with
  | nil => rfl
  | cons t l ih =>
    by_cases h : s ≤ t
    · rw [filter_cons_of_pos (by simpa using h), map_cons, map_cons, sum_cons, sum_cons, ih]
    · rw [filter_cons_of_neg (by simpa using h), map_cons, sum_cons, ih, weight,
        if_pos (by omega), zero_add]

theorem sum_filter_le (l : List Nat) : (l.filter fun t => s ≤ t).sum ≤ l.sum :=
  List.Sublist.sum_le_sum List.filter_sublist fun _ _ => Nat.zero_le _

theorem weight_le_two (h : cap < 3 * s) (hl : p.sum ≤ cap) : (p.map (weight cap s)).sum ≤ 2 := by
  rw [weight_filter]
  have hsum := sum_filter_le (s := s) p
  have hmem : ∀ t ∈ p.filter fun t => s ≤ t, s ≤ t := fun t ht => by
    simpa using (mem_filter.mp ht).2
  generalize p.filter (fun t => s ≤ t) = f at hsum hmem ⊢
  match f with
  | [] => exact Nat.zero_le 2
  | [a] =>
    simp only [map_cons, map_nil, sum_cons, sum_nil, weight]
    split
    · omega
    · split <;> omega
  | [a, b] =>
    have ha := hmem a (by simp)
    have hb := hmem b (by simp)
    simp only [sum_cons, sum_nil] at hsum
    simp only [map_cons, map_nil, sum_cons, sum_nil, weight]
    rw [if_neg (by omega), if_neg (by omega), if_neg (by omega), if_neg (by omega)]
    omega
  | a :: b :: c :: f =>
    have ha := hmem a (by simp)
    have hb := hmem b (by simp)
    have hc := hmem c (by simp)
    simp only [sum_cons] at hsum
    omega

theorem Closed.two_le_weight (h : Closed cap p later) (hs : s ∈ later) :
    2 ≤ (p.map (weight cap s)).sum := by
  obtain ⟨-, u, rest, rfl, h2⟩ := h
  obtain ⟨hu, hv⟩ := h2 s hs
  rw [map_cons, sum_cons]
  by_cases hfit : u + s ≤ cap
  · obtain ⟨v, rest', rfl, hsv⟩ := hv hfit
    have h1 : 1 ≤ weight cap s u := weight_pos hu
    have h2 : 1 ≤ weight cap s v := weight_pos hsv
    rw [map_cons, sum_cons]
    omega
  · unfold weight
    rw [if_neg (by omega), if_pos (by omega)]
    omega

theorem sum_flatten_le {f : Nat → Nat} {c : Nat} (h : ∀ p ∈ ps, (p.map f).sum ≤ c) :
    (ps.flatten.map f).sum ≤ ps.length * c := by
  induction ps with
  | nil => simp
  | cons p ps ih =>
    have h1 := h p mem_cons_self
    have h2 := ih fun q hq => h q (.tail _ hq)
    rw [flatten_cons, map_append, sum_append, length_cons, Nat.succ_mul]
    omega

theorem le_sum_flatten {f : Nat → Nat} {c : Nat} (h : ∀ p ∈ ps, c ≤ (p.map f).sum) :
    ps.length * c ≤ (ps.flatten.map f).sum := by
  induction ps with
  | nil => simp
  | cons p ps ih =>
    have h1 := h p mem_cons_self
    have h2 := ih fun q hq => h q (.tail _ hq)
    rw [flatten_cons, map_append, sum_append, length_cons, Nat.succ_mul]
    omega

theorem three_mul_le (hps : ∀ p ∈ ps, Closed cap p qs.flatten) (hlen : ps.length = src.length)
    (hp : (ps ++ qs).flatten.Perm src.flatten) (hsrc : ∀ p ∈ src, p.sum ≤ cap)
    (hs : s ∈ qs.flatten) : 3 * s ≤ cap := by
  by_contra hlt
  have hup : (src.flatten.map (weight cap s)).sum ≤ src.length * 2 :=
    sum_flatten_le fun p hp => weight_le_two (by omega) (hsrc p hp)
  have hlow : ps.length * 2 ≤ (ps.flatten.map (weight cap s)).sum :=
    le_sum_flatten fun p hp => (hps p hp).two_le_weight hs
  have hone : 1 ≤ (qs.flatten.map (weight cap s)).sum :=
    le_trans (weight_pos (le_refl s)) (le_sum_of_mem (mem_map.mpr ⟨s, hs, rfl⟩))
  have heq := (hp.map (weight cap s)).sum_eq
  rw [flatten_append, map_append, sum_append] at heq
  omega

theorem mul_succ_le {E : List Nat} (h : ∀ p ∈ ps, ∀ t ∈ E, cap < p.sum + t)
    (hlen : ps.length ≤ E.length) : ps.length * (cap + 1) ≤ ps.flatten.sum + E.sum := by
  induction ps generalizing E with
  | nil => simp
  | cons p ps ih =>
    cases E with
    | nil => simp at hlen
    | cons t E =>
      have h1 := h p mem_cons_self t mem_cons_self
      have h2 := ih (E := E) (fun q hq u hu => h q (.tail _ hq) u
        (.tail _ hu)) (by simpa using hlen)
      rw [flatten_cons, sum_append, sum_cons, length_cons, Nat.succ_mul]
      omega

theorem Best.three_le (h : Best cap (p :: ps)) (hshort : ∀ t ∈ (p :: ps).flatten, t ≤ s)
    (hcap : 3 * s ≤ cap) : 3 * ps.length + 1 ≤ (p :: ps).flatten.length := by
  induction ps generalizing p with
  | nil =>
    obtain ⟨⟨-, u, rest, rfl, -⟩, -⟩ := h
    simp
  | cons q ps ih =>
    obtain ⟨hp, hq⟩ := h
    have hsub : ∀ t ∈ (q :: ps).flatten, t ≤ s := fun t ht => hshort t (by
      rw [flatten_cons]; exact mem_append_right _ ht)
    have h2 := ih hq hsub
    obtain ⟨u, hu⟩ : ∃ u, u ∈ (q :: ps).flatten := by
      obtain ⟨⟨-, u, rest, rfl, -⟩, -⟩ := hq
      exact ⟨u, by simp⟩
    have hfull := hp.1 u hu
    have husmall := hsub u hu
    have hsum : p.sum ≤ p.length * s := by
      have := sum_le_card_nsmul p s fun t ht => hshort t (by
        rw [flatten_cons]; exact mem_append_left _ ht)
      simpa using this
    have h3 : 3 ≤ p.length := by
      by_contra hlt
      have : p.length * s ≤ 2 * s := Nat.mul_le_mul_right s (by omega)
      omega
    rw [flatten_cons, length_append, length_cons]
    omega

theorem Best.length_le (h : Best cap ps) (hp : ps.flatten.Perm src.flatten)
    (hsrc : ∀ p ∈ src, p.sum ≤ cap) : ps.length ≤ src.length + (src.length + 1) / 3 := by
  by_cases hle : ps.length ≤ src.length
  · omega
  obtain ⟨front, extra, rfl, hlen⟩ : ∃ front extra, ps = front ++ extra ∧
      front.length = src.length :=
    ⟨ps.take src.length, ps.drop src.length, (take_append_drop _ _).symm, by
      rw [length_take]; omega⟩
  obtain ⟨hfront, hextra⟩ := h.append
  rw [length_append] at hle ⊢
  cases extra with
  | nil => simp at hle; omega
  | cons q qs =>
    have hshort : ∀ t ∈ (q :: qs).flatten, t ≤ cap / 3 := fun t ht => by
      have := three_mul_le hfront hlen hp hsrc ht
      omega
    have hmany := hextra.three_le hshort (by omega)
    have htotal : src.flatten.sum ≤ src.length * cap := by
      have hid : ∀ p ∈ src, (p.map id).sum ≤ cap := by simpa using hsrc
      simpa using sum_flatten_le hid
    have hfew : (q :: qs).flatten.length < src.length := by
      by_contra hge
      have hpos : 0 < src.length := by
        rw [← hlen]
        by_contra hz
        have hnil : front = [] := length_eq_zero_iff.mp (by omega)
        have hsrc0 : src = [] := length_eq_zero_iff.mp (by omega)
        have := hp.length_eq
        rw [hnil, hsrc0, nil_append, flatten_nil, length_nil] at this
        omega
      have hover := mul_succ_le (fun p hp t ht => (hfront p hp).1 t ht)
        (by omega : front.length ≤ (q :: qs).flatten.length)
      have heq := hp.sum_eq
      rw [flatten_append, sum_append] at heq
      rw [hlen, Nat.mul_succ] at hover
      omega
    rw [length_cons]
    omega

end

/-! ## The whole packing -/

section
variable {b : Buckets α} {cap fuel : Nat}

theorem fill_closed (hs : Sized cap b) {later : List Nat}
    (hlater : ∀ t ∈ later, (fill cap b).2 t ≠ []) (hne : (fill cap b).1 ≠ []) :
    Closed cap (lens (fill cap b).1) later := by
  have F : Filled cap cap 0 b (fill cap b) := fillFrom_spec hs (le_refl cap)
  refine ⟨fun t ht => ?_, ?_⟩
  · by_contra hlt
    exact hlater t ht (F.full t (F.sized t (hlater t ht)).1 (by omega))
  obtain ⟨s, ss, hss⟩ := exists_cons_of_ne_nil hne
  refine ⟨s.len, lens ss, by rw [hss]; rfl, fun t ht => ?_⟩
  obtain ⟨ht1, ht2⟩ := F.sized t (hlater t ht)
  have hbt : b t ≠ [] := fun h => hlater t ht (F.anti t h)
  obtain ⟨u, x, rest, hb, htu, hu, hcap, heq⟩ := fillFrom_head 0 (le_refl cap) ht1 ht2 hbt
  change fill cap b = _ at heq
  rw [heq] at hss
  obtain ⟨rfl, rfl⟩ := cons.inj hss
  refine ⟨htu, fun hfit => ?_⟩
  change u + t ≤ cap at hfit
  -- the item is still there when the second one is chosen
  have F' : Filled cap (cap - u) (0 + u) (update b u rest)
      (fillFrom (cap - 1) (update b u rest) (0 + u) (cap - u)) :=
    fillFrom_spec (hs.pop hb) (by omega)
  have hbt' : update b u rest t ≠ [] := fun h => hlater t ht (by
    rw [heq]
    exact F'.anti t h)
  obtain ⟨v, y, rest', -, htv, -, -, heq'⟩ :=
    fillFrom_head (0 + u) (by omega : cap - u ≤ cap - 1) ht1 (by omega) hbt'
  rw [heq']
  exact ⟨v, _, rfl, htv⟩

theorem fill_ne (hs : Sized cap b) (hne : size cap b ≠ 0) : (fill cap b).1 ≠ [] := by
  obtain ⟨k, hk, hb⟩ : ∃ k, k ≤ cap ∧ b k ≠ [] := by
    by_contra h
    refine hne (size_eq_zero.mpr fun k hk => ?_)
    by_contra hb
    exact h ⟨k, hk, hb⟩
  obtain ⟨u, x, rest, -, -, -, -, heq⟩ := fillFrom_head 0 (le_refl cap) (hs k hb).1 hk hb
  change fill cap b = _ at heq
  rw [heq]
  exact cons_ne_nil _ _

theorem map_fst_placed (ss : List (Slot α)) : (placed ss).map Prod.fst = lens ss := by
  simp [placed, lens]

theorem lens_flatten (ps : List (List (Slot α))) : (ps.map lens).flatten = lens ps.flatten := by
  simp only [lens, map_flatten]
  rfl

theorem packFrom_spec (hs : Sized cap b) (hf : size cap b < fuel) :
    ∃ ps, packFrom cap fuel b = some ps ∧ (∀ ss ∈ ps, Laid 0 ss ∧ (lens ss).sum ≤ cap) ∧
      (placed ps.flatten : Multiset (Nat × α)) = items cap b ∧ Best cap (ps.map lens) := by
  induction fuel generalizing b with
  | zero => omega
  | succ fuel ih =>
    rw [packFrom]
    split
    · rename_i hz
      refine ⟨[], rfl, fun ss hss => (by cases hss), ?_, trivial⟩
      rw [← card_items, Multiset.card_eq_zero] at hz
      rw [hz]
      rfl
    · rename_i hz
      have F : Filled cap cap 0 b (fill cap b) := fillFrom_spec hs (le_refl cap)
      have hne := fill_ne hs hz
      have hlt : size cap (fill cap b).2 < size cap b := by
        rw [← card_items, ← card_items, F.items, Multiset.card_add, Multiset.coe_card, placed,
          length_map]
        have := length_pos_of_ne_nil hne
        omega
      obtain ⟨ps, h1, h2, h3, h4⟩ := ih F.sized (by omega)
      refine ⟨(fill cap b).1 :: ps, by rw [h1]; rfl, fun ss hss => ?_, ?_, ?_, h4⟩
      · rcases mem_cons.mp hss with rfl | hss
        · exact ⟨F.laid, F.sum_le⟩
        · exact h2 ss hss
      · rw [F.items, ← h3, flatten_cons, placed, map_append, ← Multiset.coe_add]
        rfl
      · refine fill_closed hs (fun t ht => ?_) hne
        change t ∈ (ps.map lens).flatten at ht
        rw [lens_flatten, ← map_fst_placed] at ht
        obtain ⟨e, he, rfl⟩ := mem_map.mp ht
        have hmem : e ∈ items cap (fill cap b).2 := by
          rw [← h3]
          exact he
        exact ne_nil_of_mem (mem_items.mp hmem).2

theorem pack_spec (hs : Sized cap b) :
    ∃ ps, pack cap b = some ps ∧ (∀ ss ∈ ps, Laid 0 ss ∧ (lens ss).sum ≤ cap) ∧
      (placed ps.flatten : Multiset (Nat × α)) = items cap b ∧ Best cap (ps.map lens) :=
  packFrom_spec hs (Nat.lt_succ_self _)

theorem pages_le {ps : List (List (Slot α))} {src : List (List Nat)} (hB : Best cap (ps.map lens))
    (hitems : (placed ps.flatten : Multiset (Nat × α)) = items cap b)
    (hsrc : ∀ p ∈ src, p.sum ≤ cap)
    (hfrom : (items cap b).map Prod.fst = (src.flatten : Multiset Nat)) :
    ps.length ≤ src.length + (src.length + 1) / 3 := by
  have hperm : (ps.map lens).flatten.Perm src.flatten := by
    rw [← Multiset.coe_eq_coe, ← hfrom, ← hitems, Multiset.map_coe, map_fst_placed, lens_flatten]
  have := hB.length_le hperm hsrc
  rwa [length_map] at this

end

end FlashDriver.Core.Packing
