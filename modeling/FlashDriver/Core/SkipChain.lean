import Mathlib

/-!
# Chains of pointers, one above the other

A circular list is followed through a partial function `nx`. A tower is a
family of such lists over one sequence of nodes: list `i` visits, in the order
of the sequence, the nodes of height at least `i`.

* `walk_eq`: following a chain while a test holds ends at the last node of
  the part that passes it.
* `descend_eq`: searching a tower from its top list down finds, in every
  list, the last node of that part.
* `Tower.insert`, `Tower.cut_upper`, `Tower.cut_lower`: a tower with a node
  linked in, and the two towers that it is cut into.
-/
namespace FlashDriver.Core.SkipChain

open List Option Function

variable {α : Type}

/-! ## Chains -/

/-- Following `nx` from `a` visits `xs` and then arrives at `b`. -/
def Chain (nx : α → Option α) : α → List α → α → Prop
  | a, [], b => nx a = some b
  | a, x :: xs, b => nx a = some x ∧ Chain nx x xs b

section
variable {nx nx' : α → Option α} {a b c : α} {xs ys : List α}

@[simp] theorem chain_nil : Chain nx a [] b ↔ nx a = some b := Iff.rfl

@[simp] theorem chain_cons {x : α} : Chain nx a (x :: xs) b ↔ nx a = some x ∧ Chain nx x xs b :=
  Iff.rfl

theorem chain_append {y : α} :
    Chain nx a (xs ++ y :: ys) b ↔ Chain nx a xs y ∧ Chain nx y ys b := by
  induction xs generalizing a with
  | nil => rfl
  | cons x xs ih => rw [cons_append, chain_cons, chain_cons, ih, and_assoc]

theorem Chain.head (h : Chain nx a xs b) : nx a = some (xs.headD b) := by
  cases xs with
  | nil => exact h
  | cons x xs => exact h.1

theorem Chain.suffix (h : Chain nx a (xs ++ ys) b) : Chain nx (xs.getLastD a) ys b := by
  induction xs generalizing a with
  | nil => exact h
  | cons x xs ih =>
    rw [getLastD_cons]
    exact ih h.2

theorem Chain.from (h : Chain nx a xs b) (ha : nx' c = nx a) (hx : ∀ x ∈ xs, nx' x = nx x) :
    Chain nx' c xs b := by
  induction xs generalizing a c with
  | nil =>
    rw [chain_nil, ha]
    exact h
  | cons x xs ih =>
    refine ⟨ha.trans h.1, ih h.2 (hx x mem_cons_self) fun y hy => ?_⟩
    exact hx y (.tail _ hy)

theorem Chain.congr (h : Chain nx a xs b) (hx : ∀ x ∈ a :: xs, nx' x = nx x) : Chain nx' a xs b :=
  h.from (hx a mem_cons_self) fun x hm => hx x (.tail _ hm)

theorem Chain.aim (h : Chain nx a (xs ++ ys) b) (hnd : (a :: xs).Nodup)
    (hlast : nx' (xs.getLastD a) = some c)
    (hx : ∀ x ∈ a :: xs, x ≠ xs.getLastD a → nx' x = nx x) : Chain nx' a xs c := by
  induction xs generalizing a with
  | nil => exact hlast
  | cons x xs ih =>
    rw [getLastD_cons] at hlast hx
    have hnd' := nodup_cons.mp hnd
    have hne : a ≠ xs.getLastD x := by
      intro heq
      apply hnd'.1
      rw [heq]
      exact getLastD_mem_cons
    refine ⟨(hx a mem_cons_self hne).trans h.1, ih h.2 hnd'.2 hlast fun y hy => ?_⟩
    exact hx y (.tail _ hy)

end

theorem getLastD_append (a : α) (xs ys : List α) :
    (xs ++ ys).getLastD a = ys.getLastD (xs.getLastD a) := by
  induction xs generalizing a with
  | nil => rfl
  | cons x xs ih => rw [cons_append, getLastD_cons, getLastD_cons, ih]

/-- `nx'` has `x` linked in behind `u`. -/
structure Linked (nx nx' : α → Option α) (u x : α) : Prop where
  node : nx' x = nx u
  prev : nx' u = some x
  other : ∀ a, a ≠ x → a ≠ u → nx' a = nx a

/-- `nx'` has the list at `h` cut behind `u`, and the front part hung in at `r`. -/
structure Parted (nx nx' : α → Option α) (h r u : α) : Prop where
  head : nx' h = nx u
  first : nx' r = nx h
  last : nx' u = some r
  other : ∀ a, a ≠ h → a ≠ r → a ≠ u → nx' a = nx a

section
variable {nx nx' : α → Option α} {a b x h r : α} {ps qs : List α}

theorem Chain.link (hc : Chain nx a (ps ++ qs) b) (hl : Linked nx nx' (ps.getLastD a) x)
    (hnd : (a :: (ps ++ qs)).Nodup) (hx : x ∉ a :: (ps ++ qs)) : Chain nx' a (ps ++ x :: qs) b := by
  rw [← cons_append, nodup_append] at hnd
  obtain ⟨hps, -, hdis⟩ := hnd
  rw [chain_append]
  constructor
  · apply hc.aim hps hl.prev
    intro y hy hne
    refine hl.other y ?_ hne
    rintro rfl
    exact hx (by rw [← cons_append]; exact mem_append_left _ hy)
  · apply hc.suffix.from hl.node
    intro y hy
    apply hl.other
    · rintro rfl
      exact hx (.tail _ (mem_append_right _ hy))
    · exact fun heq => hdis _ getLastD_mem_cons y hy heq.symm

theorem Chain.part_back (hc : Chain nx h (ps ++ qs) h) (hp : Parted nx nx' h r (ps.getLastD h))
    (hnd : (h :: (ps ++ qs)).Nodup) (hr : r ∉ h :: (ps ++ qs)) : Chain nx' h qs h := by
  rw [← cons_append, nodup_append] at hnd
  obtain ⟨-, -, hdis⟩ := hnd
  apply hc.suffix.from hp.head
  intro y hy
  apply hp.other
  · exact fun heq => hdis h mem_cons_self y hy heq.symm
  · rintro rfl
    exact hr (.tail _ (mem_append_right _ hy))
  · exact fun heq => hdis _ getLastD_mem_cons y hy heq.symm

theorem Chain.part_front (hc : Chain nx h (ps ++ qs) h) (hp : Parted nx nx' h r (ps.getLastD h))
    (hne : ps ≠ []) (hnd : (h :: (ps ++ qs)).Nodup) (hr : r ∉ h :: (ps ++ qs)) :
    Chain nx' r ps r := by
  cases ps with
  | nil => exact absurd rfl hne
  | cons p ps =>
    rw [getLastD_cons] at hp
    obtain ⟨hh, hnd⟩ := nodup_cons.mp hnd
    rw [nodup_append] at hnd
    refine ⟨hp.first.trans hc.1, hc.2.aim hnd.1 hp.last fun y hy hlast => ?_⟩
    apply hp.other y _ _ hlast
    · rintro rfl
      exact hh (mem_append_left _ hy)
    · rintro rfl
      exact hr (.tail _ (mem_append_left _ hy))

/-- The front part `ps` of the list at `h` is hung in at `r`; where it is empty the list stays. -/
structure CutRow (nx nx' : α → Option α) (h r : α) (ps : List α) : Prop where
  part : ps ≠ [] → Parted nx nx' h r (ps.getLastD h)
  stay : ps = [] → nx' r = some r ∧ ∀ a, a ≠ r → nx' a = nx a

theorem CutRow.front (C : CutRow nx nx' h r ps) (hc : Chain nx h (ps ++ qs) h)
    (hnd : (h :: (ps ++ qs)).Nodup) (hr : r ∉ h :: (ps ++ qs)) : Chain nx' r ps r := by
  by_cases hne : ps = []
  · rw [hne]
    exact (C.stay hne).1
  · exact hc.part_front (C.part hne) hne hnd hr

theorem CutRow.back (C : CutRow nx nx' h r ps) (hc : Chain nx h (ps ++ qs) h)
    (hnd : (h :: (ps ++ qs)).Nodup) (hr : r ∉ h :: (ps ++ qs)) : Chain nx' h qs h := by
  by_cases hne : ps = []
  · rw [hne, nil_append] at hc hr
    refine hc.congr fun a ha => (C.stay hne).2 a ?_
    rintro rfl
    exact hr ha
  · exact hc.part_back (C.part hne) hnd hr

end

/-! ## Following a chain -/

/-- Following `nx` while the next node passes `p`, at most `fuel` steps. -/
def walk (nx : α → Option α) (p : α → Bool) : Nat → α → Option α
  | 0, _ => none
  | fuel + 1, x => do
    let y ← nx x
    if p y then walk nx p fuel y else some x

theorem walk_stop {nx : α → Option α} {p : α → Bool} {a b : α} {fuel : Nat} (h : nx a = some b)
    (hb : p b = false) (hf : 0 < fuel) : walk nx p fuel a = some a := by
  cases fuel with
  | zero => omega
  | succ fuel =>
    rw [walk, h]
    simp [hb]

theorem walk_eq {nx : α → Option α} {p : α → Bool} {a b : α} {ps qs : List α} {fuel : Nat}
    (hc : Chain nx a (ps ++ qs) b) (hps : ∀ x ∈ ps, p x = true) (hqs : ∀ x ∈ qs, p x = false)
    (hb : p b = false) (hf : ps.length < fuel) : walk nx p fuel a = some (ps.getLastD a) := by
  induction ps generalizing a fuel with
  | nil =>
    refine walk_stop hc.head ?_ (by simpa using hf)
    cases qs with
    | nil => exact hb
    | cons q qs => exact hqs q mem_cons_self
  | cons x ps ih =>
    cases fuel with
    | zero => omega
    | succ fuel =>
      have hx := hps x mem_cons_self
      rw [walk, hc.1, getLastD_cons, bind_eq_bind, bind_some, if_pos hx]
      exact ih hc.2 (fun y hy => hps y (.tail _ hy)) (by rw [length_cons] at hf; omega)

/-! ## Towers -/

/-- The nodes that list `i` visits. -/
def row (height : α → Nat) (i : Nat) (ns : List α) : List α := ns.filter fun n => i ≤ height n

section
variable {height : α → Nat} {i : Nat} {ns ms : List α}

theorem row_append : row height i (ns ++ ms) = row height i ns ++ row height i ms :=
  filter_append ..

theorem mem_row {n : α} : n ∈ row height i ns ↔ n ∈ ns ∧ i ≤ height n := by
  simp [row]

theorem row_cons {n : α} : row height i (n :: ns) =
    if i ≤ height n then n :: row height i ns else row height i ns := by
  simp [row, filter_cons]

theorem row_nil : row height i ([] : List α) = [] := rfl

/-- The greatest height of the nodes. -/
def tallest (height : α → Nat) (ns : List α) : Nat := ns.foldr (fun n k => max (height n) k) 0

theorem le_tallest {n : α} (h : n ∈ ns) : height n ≤ tallest height ns := by
  induction ns with
  | nil => cases h
  | cons m ns ih =>
    rw [tallest, foldr_cons]
    rcases mem_cons.mp h with rfl | h
    · exact Nat.le_max_left ..
    · exact le_trans (ih h) (Nat.le_max_right ..)

theorem tallest_congr {height' : α → Nat} (h : ∀ n ∈ ns, height' n = height n) :
    tallest height' ns = tallest height ns := by
  induction ns with
  | nil => rfl
  | cons n ns ih =>
    simp only [tallest, foldr_cons] at ih ⊢
    rw [h n mem_cons_self, ih fun m hm => h m (.tail _ hm)]

theorem tallest_lt {k : Nat} (hk : 0 < k) (h : ∀ n ∈ ns, height n < k) : tallest height ns < k := by
  induction ns with
  | nil => exact hk
  | cons n ns ih =>
    rw [tallest, foldr_cons, Nat.max_lt]
    exact ⟨h n mem_cons_self, ih fun m hm => h m (.tail _ hm)⟩

theorem tallest_cons {n : α} : tallest height (n :: ns) = max (height n) (tallest height ns) := rfl

theorem tallest_concat {n : α} : tallest height (ns ++ [n]) = max (tallest height ns) (height n) := by
  induction ns with
  | nil => simp [tallest]
  | cons m ns ih => rw [cons_append, tallest_cons, tallest_cons, ih, Nat.max_assoc]

theorem tallest_append : tallest height (ns ++ ms) = max (tallest height ns) (tallest height ms) := by
  induction ns with
  | nil => simp [tallest]
  | cons n ns ih =>
    simp only [tallest, cons_append, foldr_cons] at ih ⊢
    rw [ih, Nat.max_assoc]

theorem row_eq_nil_iff (hi : 1 ≤ i) : row height i ns = [] ↔ tallest height ns < i := by
  induction ns with
  | nil => exact ⟨fun _ => hi, fun _ => rfl⟩
  | cons n ns ih =>
    rw [row_cons, tallest, foldr_cons]
    split
    · rename_i hle
      refine ⟨fun h => (by cases h), fun h => ?_⟩
      have := Nat.le_max_left (height n) (tallest height ns)
      rw [tallest] at this
      omega
    · rename_i hgt
      rw [ih, Nat.max_lt]
      exact ⟨fun h => ⟨by omega, h⟩, fun h => h.2⟩

theorem row_length_le : (row height i ns).length ≤ ns.length := length_filter_le ..

theorem row_nodup {a : α} (h : (a :: ns).Nodup) : (a :: row height i ns).Nodup := by
  rw [nodup_cons] at *
  exact ⟨fun hm => h.1 (mem_row.mp hm).1, h.2.filter _⟩

theorem getLastD_row_mem {a : α} (h : ∀ n ∈ ns, n ∈ ms) : (row height i ns).getLastD a ∈ a :: ms := by
  rcases mem_cons.mp (getLastD_mem_cons (l := row height i ns) (a := a)) with hl | hl
  · rw [hl]
    exact mem_cons_self
  · exact .tail _ (h _ (mem_row.mp hl).1)

theorem getLastD_row_mem_of_ne {a : α} (h : row height i ns ≠ []) : (row height i ns).getLastD a ∈ ns := by
  cases hrow : row height i ns with
  | nil => exact absurd hrow h
  | cons n ms =>
    have hm : ms.getLastD n ∈ row height i ns := by
      rw [hrow]
      exact getLastD_mem_cons
    rw [getLastD_cons]
    exact (mem_row.mp hm).1

theorem not_mem_row {a b : α} (h : a ∉ b :: ns) : a ∉ b :: row height i ns := by
  intro hm
  rcases mem_cons.mp hm with rfl | hm
  · exact h mem_cons_self
  · exact h (List.mem_cons_of_mem _ (mem_row.mp hm).1)

theorem row_row {j : Nat} (hij : i ≤ j) : row height j (row height i ns) = row height j ns := by
  rw [row, row, row, List.filter_filter]
  congr 1
  funext n
  by_cases h : j ≤ height n
  · simp [h, le_trans hij h]
  · simp [h]

end

/-- List `i` of `nx`, for `i` from 1 to `top`, starts at `h` and visits the nodes of height at
least `i`. -/
structure Tower (nx : Nat → α → Option α) (height : α → Nat) (top : Nat) (h : α) (ns : List α) :
    Prop where
  nodup : (h :: ns).Nodup
  chain : ∀ i, 1 ≤ i → i ≤ top → Chain (nx i) h (row height i ns) h

/-- A search from list `i` down to list 1: in each one, as far as `p` holds. The nodes where it
left the lists are noted in `u`. -/
def descend (nx : Nat → α → Option α) (p : α → Bool) (fuel : Nat) :
    Nat → α → (Nat → Option α) → Option (α × (Nat → Option α))
  | 0, x, u => some (x, u)
  | i + 1, x, u => do
    let x ← walk (nx (i + 1)) p fuel x
    descend nx p fuel i x (update u (i + 1) (some x))

theorem exists_split_getLastD (q : α → Bool) (xs : List α) (a : α) :
    ∃ ps qs, xs = ps ++ qs ∧ ps.getLastD a = (xs.filter q).getLastD a := by
  induction xs generalizing a with
  | nil => exact ⟨[], [], rfl, rfl⟩
  | cons x xs ih =>
    by_cases hx : q x = true
    · obtain ⟨ps, qs, hxs, hl⟩ := ih x
      refine ⟨x :: ps, qs, by rw [hxs]; rfl, ?_⟩
      rw [filter_cons_of_pos hx, getLastD_cons, getLastD_cons, hl]
    · obtain ⟨ps, qs, hxs, hl⟩ := ih a
      rw [filter_cons_of_neg hx]
      cases ps with
      | nil => exact ⟨[], x :: xs, rfl, hl⟩
      | cons y ps => exact ⟨x :: y :: ps, qs, by rw [hxs]; rfl, hl⟩

section
variable {nx nx' : Nat → α → Option α} {height height' : α → Nat} {top : Nat} {h r x : α}
  {pre post : List α}

theorem Tower.walk (T : Tower nx height top h (pre ++ post)) {p : α → Bool} {fuel i : Nat}
    (hi : 1 ≤ i) (ht : i ≤ top) (hpre : ∀ n ∈ pre, p n = true) (hpost : ∀ n ∈ post, p n = false)
    (hh : p h = false) (hf : pre.length < fuel) :
    SkipChain.walk (nx i) p fuel ((row height (i + 1) pre).getLastD h) =
      some ((row height i pre).getLastD h) := by
  obtain ⟨ps, qs, hps, hl⟩ := exists_split_getLastD (fun n => i + 1 ≤ height n) (row height i pre) h
  have hc := T.chain i hi ht
  rw [row_append, hps, append_assoc] at hc
  have hl' : ps.getLastD h = (row height (i + 1) pre).getLastD h := by
    rw [hl, ← row_row (Nat.le_succ i)]
    rfl
  have hmem : ∀ n ∈ qs, n ∈ pre := by
    intro n hn
    have : n ∈ row height i pre := by
      rw [hps]
      exact mem_append_right _ hn
    exact (mem_row.mp this).1
  have hlen : qs.length < fuel := by
    have h1 := congrArg length hps
    have h2 : (row height i pre).length ≤ pre.length := row_length_le
    rw [length_append] at h1
    omega
  rw [← hl', hps, getLastD_append]
  exact walk_eq hc.suffix (fun n hn => hpre n (hmem n hn))
    (fun n hn => hpost n (mem_row.mp hn).1) hh hlen

theorem descend_eq (T : Tower nx height top h (pre ++ post)) {p : α → Bool} {fuel : Nat}
    (hpre : ∀ n ∈ pre, p n = true) (hpost : ∀ n ∈ post, p n = false) (hh : p h = false)
    (hf : pre.length < fuel) {l : Nat} (hl : l ≤ top) (u : Nat → Option α) :
    ∃ u', descend nx p fuel l ((row height (l + 1) pre).getLastD h) u =
        some ((row height 1 pre).getLastD h, u') ∧
      ∀ i, u' i = if 1 ≤ i ∧ i ≤ l then some ((row height i pre).getLastD h) else u i := by
  induction l generalizing u with
  | zero => exact ⟨u, rfl, fun i => (if_neg (by omega)).symm⟩
  | succ l ih =>
    obtain ⟨u', hd, hu'⟩ := ih (by omega)
      (update u (l + 1) (some ((row height (l + 1) pre).getLastD h)))
    refine ⟨u', ?_, fun i => ?_⟩
    · rw [descend, T.walk (by omega) hl hpre hpost hh hf]
      exact hd
    · rw [hu']
      by_cases hi : i = l + 1
      · subst hi
        rw [if_neg (by omega), if_pos (by omega), update_self]
      · rw [update_of_ne hi]
        by_cases hle : 1 ≤ i ∧ i ≤ l
        · rw [if_pos hle, if_pos (by omega)]
        · rw [if_neg hle, if_neg (by omega)]

theorem Tower.insert (T : Tower nx height top h (pre ++ post)) (hx : x ∉ h :: (pre ++ post))
    (hheight : ∀ n ∈ pre ++ post, height' n = height n)
    (hlow : ∀ i, 1 ≤ i → i ≤ top → i ≤ height' x →
      Linked (nx i) (nx' i) ((row height i pre).getLastD h) x)
    (hhigh : ∀ i, 1 ≤ i → i ≤ top → height' x < i → ∀ a, a ≠ x → nx' i a = nx i a) :
    Tower nx' height' top h (pre ++ x :: post) := by
  have hlevel : ∀ {i ns}, (∀ n ∈ ns, n ∈ pre ++ post) → row height' i ns = row height i ns := by
    intro i ns hns
    refine filter_congr fun n hn => ?_
    rw [hheight n (hns n hn)]
  have hpre : ∀ {i}, row height' i pre = row height i pre := hlevel fun n hn => mem_append_left _ hn
  have hpost : ∀ {i}, row height' i post = row height i post :=
    hlevel fun n hn => mem_append_right _ hn
  constructor
  · rw [← cons_append, perm_middle.nodup_iff]
    exact nodup_cons.mpr ⟨hx, T.nodup⟩
  · intro i hi ht
    have hc := T.chain i hi ht
    have hnd : (h :: row height i (pre ++ post)).Nodup := row_nodup T.nodup
    have hx' : x ∉ h :: row height i (pre ++ post) := not_mem_row hx
    rw [row_append, row_cons, hpre, hpost]
    rw [row_append] at hc hnd hx'
    by_cases hle : i ≤ height' x
    · rw [if_pos hle]
      exact hc.link (hlow i hi ht hle) hnd hx'
    · rw [if_neg hle]
      refine hc.congr fun a ha => hhigh i hi ht (by omega) a ?_
      rintro rfl
      exact hx' ha

theorem Tower.cut_lower (T : Tower nx height top h (pre ++ post)) (hr : r ∉ h :: (pre ++ post))
    (hcut : ∀ i, 1 ≤ i → i ≤ top → CutRow (nx i) (nx' i) h r (row height i pre)) :
    Tower nx' height top r pre := by
  constructor
  · have := T.nodup
    rw [← cons_append, nodup_append] at this
    refine nodup_cons.mpr ⟨fun hm => ?_, (nodup_cons.mp this.1).2⟩
    exact hr (.tail _ (mem_append_left _ hm))
  · intro i hi ht
    have hc := T.chain i hi ht
    have hnd : (h :: row height i (pre ++ post)).Nodup := row_nodup T.nodup
    have hr' : r ∉ h :: row height i (pre ++ post) := not_mem_row hr
    rw [row_append] at hc hnd hr'
    exact (hcut i hi ht).front hc hnd hr'

theorem Tower.cut_upper (T : Tower nx height top h (pre ++ post)) (hr : r ∉ h :: (pre ++ post))
    (hcut : ∀ i, 1 ≤ i → i ≤ top → CutRow (nx i) (nx' i) h r (row height i pre)) :
    Tower nx' height top h post := by
  constructor
  · have := T.nodup
    rw [nodup_cons, nodup_append] at this
    exact nodup_cons.mpr ⟨fun hm => this.1 (mem_append_right _ hm), this.2.2.1⟩
  · intro i hi ht
    have hc := T.chain i hi ht
    have hnd : (h :: row height i (pre ++ post)).Nodup := row_nodup T.nodup
    have hr' : r ∉ h :: row height i (pre ++ post) := not_mem_row hr
    rw [row_append] at hc hnd hr'
    exact (hcut i hi ht).back hc hnd hr'

theorem Tower.congr (T : Tower nx height top h pre) (hheight : ∀ n ∈ pre, height' n = height n)
    (hnx : ∀ i, ∀ a ∈ h :: pre, nx' i a = nx i a) : Tower nx' height' top h pre := by
  refine ⟨T.nodup, fun i hi ht => ?_⟩
  have hlevel : row height' i pre = row height i pre :=
    filter_congr fun n hn => by rw [hheight n hn]
  rw [hlevel]
  refine (T.chain i hi ht).congr fun a ha => hnx i a ?_
  rcases mem_cons.mp ha with rfl | ha
  · exact mem_cons_self
  · exact .tail _ (mem_row.mp ha).1

end

end FlashDriver.Core.SkipChain
