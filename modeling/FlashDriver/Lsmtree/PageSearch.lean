import FlashDriver.Lsmtree.Find
import FlashDriver.Lsmtree.Table

/-!
# Searching a level and its header pages

A get searches the array of a level for the run that may have its key
(`array_find_run`) and then the slots of that run's page
(`array_find_keyset`, `findKeyset`). A range query makes an iterator on the page that starts
at the first key not below its own (`array_find_idx_lower_bound`). Both
searches of a page halve a window of slots, which are numbered from 1.

Here the indices are checked: `none` stands for an access outside the array or
the page, and for a loop that does not end.

* `level_lookup`: the two searches find the entry of the key, wherever it is
  in the level, and nothing if there is none.
* `header_iteration`: the iterator stops before the last entry of the page, so
  it is complete only for a start key above all keys.
-/
namespace FlashDriver.Lsmtree

open List Option

/-! ## The array of a level -/

/-- mirrors algorithm/Lsmtree/level.h (`run_t`), with the header page of the run -/
structure ArrRun where
  key : Key
  stop : Key                    -- end
  page : Page

/-- `arrs[i]`, for an index of the array. -/
def arrAt (arrs : List ArrRun) (i : Int) : Option ArrRun := if 0 ≤ i then arrs[i.toNat]? else none

/-- The loop of `array_find_run`; `int` division truncates. -/
def arrayFindRunFrom (arrs : List ArrRun) (lpa : Key) : Nat → Int → Int → Option ArrRun
  | 0, _, _ => none
  | fuel + 1, start, stop =>
    let mid := (start + stop).tdiv 2
    (arrAt arrs mid).bind fun r =>
      match keycmp r.key lpa with
      | .eq => some r
      | .gt =>
        if start > mid - 1 then arrAt arrs ((start + (mid - 1)).tdiv 2)
        else arrayFindRunFrom arrs lpa fuel start (mid - 1)
      | .lt =>
        if mid + 1 > stop then arrAt arrs ((mid + 1 + stop).tdiv 2)
        else arrayFindRunFrom arrs lpa fuel (mid + 1) stop

/-- mirrors array.c:255-280; `some none` is NULL -/
def arrayFindRun (arrs : List ArrRun) (lpa : Key) : Option (Option ArrRun) :=
  if arrs.isEmpty then some none
  else (arrayFindRunFrom arrs lpa arrs.length 0 (arrs.length - 1)).map some

/-! ## The slots of a page -/

/-- The loop of `array_find_idx_lower_bound`; `mid` and `res` are those of the
round before. -/
def lowerBoundFrom (p : Page) (lpa : Key) : Nat → Nat → Nat → Nat → Ordering → Option Nat
  | 0, _, _, _, _ => none
  | fuel + 1, s, e, mid, res =>
    if s ≤ e then
      (readEntry p ((s + e) / 2)).bind fun x =>
        match keycmp x.key lpa with
        | .eq => some ((s + e) / 2)
        | .lt => lowerBoundFrom p lpa fuel ((s + e) / 2 + 1) e ((s + e) / 2) .lt
        | .gt => lowerBoundFrom p lpa fuel s ((s + e) / 2 - 1) ((s + e) / 2) .gt
    else some (if res = .lt then mid + 1 else mid)

/-- mirrors array.c:659-689 -/
def findIdxLowerBound (p : Page) (lpa : Key) : Option Nat :=
  (slot p 0).bind fun n => lowerBoundFrom p lpa (n + 1) 1 n 0 .eq

/-! ## The iterator of a page -/

/-- mirrors array_level.c:169-172 -/
structure HeaderIter where
  data : Page
  idx : Nat

/-- mirrors array_level.c:174-198, for a
page and a key that are given -/
def headerGetKeyiter (data : Page) (key : Key) : Option HeaderIter :=
  (findIdxLowerBound data key).map (HeaderIter.mk data)

/-- mirrors array_level.c:200-221. The
iterator is `none` once `private_data` is NULL, and the entry is `none` for the
result whose `ppa` is -1. -/
def headerNextKey : Option HeaderIter → Option (Option Ent × Option HeaderIter)
  | none => some (none, none)
  | some h => (slot h.data 0).bind fun n =>
    if n > h.idx then
      (readEntry h.data h.idx).map fun e => (some e, some { h with idx := h.idx + 1 })
    else some (none, none)

/-- mirrors array_level.c:223-236 -/
def headerNextKeyPick (h : HeaderIter) : Option (Option Ent) :=
  (slot h.data 0).bind fun n => if n > h.idx then (readEntry h.data h.idx).map some else some none

/-- The entries that the iterator returns up to the end. -/
def iterate : Nat → Option HeaderIter → Option (List Ent)
  | 0, _ => none
  | fuel + 1, it => (headerNextKey it).bind fun r =>
    match r.1 with
    | none => some []
    | some e => (iterate fuel r.2).map (e :: ·)

/-! ## Windows of slots -/

/-- How slot `i` compares with a key. -/
def slotCmp (es : List Ent) (lpa : Key) (i : Nat) : Ordering :=
  keycmp ((es[i - 1]?.map (·.key)).getD []) lpa

/-- The slots outside the window from `s` to `e` are settled. -/
structure Slots (es : List Ent) (lpa : Key) (s e : Nat) : Prop where
  pos : 1 ≤ s
  le : s ≤ e + 1
  bound : e ≤ es.length
  below : ∀ i, 1 ≤ i → i < s → slotCmp es lpa i = .lt
  above : ∀ i, e < i → i ≤ es.length → slotCmp es lpa i = .gt

section
variable {p : Page} {es : List Ent} {lpa : Key} {s e m : Nat}

theorem slotCmp_eq (lpa : Key) {i : Nat} (h : i < es.length) :
    slotCmp es lpa (i + 1) = keycmp (es[i]).key lpa := by
  simp [slotCmp, h]

theorem slotCmp_after (hs : Sorted es) {i j : Nat} (hi : 1 ≤ i) (hij : i < j) (hj : j ≤ es.length)
    (h : slotCmp es lpa i ≠ .lt) : slotCmp es lpa j = .gt := by
  obtain ⟨i, rfl⟩ : ∃ k, i = k + 1 := ⟨i - 1, by omega⟩
  obtain ⟨j, rfl⟩ : ∃ k, j = k + 1 := ⟨j - 1, by omega⟩
  have hlt := pairwise_iff_getElem.mp hs i j (by omega) (by omega) (by omega)
  rw [slotCmp_eq lpa (by omega)] at h
  rw [slotCmp_eq lpa (by omega), keycmp_gt_iff]
  cases hc : keycmp (es[i]).key lpa with
  | lt => exact absurd hc h
  | eq => rw [← keycmp_eq_iff.mp hc]; exact hlt
  | gt => exact keycmp_trans (keycmp_gt_iff.mp hc) hlt

theorem slotCmp_before (hs : Sorted es) {i j : Nat} (hi : 1 ≤ i) (hij : i < j) (hj : j ≤ es.length)
    (h : slotCmp es lpa j ≠ .gt) : slotCmp es lpa i = .lt := by
  by_contra hne
  exact h (slotCmp_after hs hi hij hj hne)

theorem Slots.all (es : List Ent) (lpa : Key) : Slots es lpa 1 es.length :=
  ⟨le_refl 1, by omega, le_rfl, fun i h1 h2 => by omega, fun i h1 h2 => by omega⟩

theorem Slots.right (W : Slots es lpa s e) (hs : Sorted es) (h1 : s ≤ m) (h2 : m ≤ e)
    (hm : slotCmp es lpa m = .lt) : Slots es lpa (m + 1) e := by
  have hb := W.bound
  refine ⟨by omega, by omega, hb, fun i hi hlt => ?_, W.above⟩
  rcases Nat.eq_or_lt_of_le (show i ≤ m by omega) with rfl | h
  · exact hm
  · exact slotCmp_before hs hi h (by omega) (by simp [hm])

theorem Slots.left (W : Slots es lpa s e) (hs : Sorted es) (h1 : s ≤ m) (h2 : m ≤ e)
    (hm : slotCmp es lpa m = .gt) : Slots es lpa s (m - 1) := by
  have hp := W.pos
  have hb := W.bound
  refine ⟨hp, by omega, by omega, W.below, fun i hi hle => ?_⟩
  rcases Nat.eq_or_lt_of_le (show m ≤ i by omega) with rfl | h
  · exact hm
  · exact slotCmp_after hs (by omega) h hle (by simp [hm])

theorem Slots.read (W : Slots es lpa s e) (E : Encodes p es) (F : FitsPage es) (h1 : s ≤ m)
    (h2 : m ≤ e) : ∃ x, readEntry p m = some x ∧ slotCmp es lpa m = keycmp x.key lpa := by
  have hp := W.pos
  have hb := W.bound
  obtain ⟨i, rfl⟩ : ∃ k, m = k + 1 := ⟨m - 1, by omega⟩
  have hi : i < es.length := by omega
  exact ⟨es[i], readEntry_eq E F hi, slotCmp_eq lpa hi⟩

end

/-! ## The lower bound -/

section
variable {p : Page} {es : List Ent} {lpa : Key}

theorem Encodes.slot_zero (E : Encodes p es) : slot p 0 = some es.length := by
  rw [slot_eq (by decide), E.count]

/-- `b` is the first slot whose key is not below `lpa`. -/
structure IsLowerBound (es : List Ent) (lpa : Key) (b : Nat) : Prop where
  pos : 1 ≤ b
  le : b ≤ es.length + 1
  below : ∀ i, 1 ≤ i → i < b → slotCmp es lpa i = .lt
  from_on : ∀ i, b ≤ i → i ≤ es.length → slotCmp es lpa i ≠ .lt

theorem lowerBoundFrom_spec (E : Encodes p es) (F : FitsPage es) (hs : Sorted es)
    {fuel s e mid : Nat} {res : Ordering} (W : Slots es lpa s e) (hf : e + 1 - s < fuel)
    (hlast : s ≤ e ∨ (res = .lt ∧ mid + 1 = s) ∨ (res = .gt ∧ mid = e + 1)) :
    ∃ b, lowerBoundFrom p lpa fuel s e mid res = some b ∧ IsLowerBound es lpa b := by
  induction fuel generalizing s e mid res with
  | zero => omega
  | succ fuel ih =>
    have hpos := W.pos
    have hle := W.le
    have hbound := W.bound
    rw [lowerBoundFrom]
    split
    · rename_i hse
      obtain ⟨x, hx, hcmp⟩ := W.read (m := (s + e) / 2) E F (by omega) (by omega)
      rw [hx, bind_some, ← hcmp]
      cases hc : slotCmp es lpa ((s + e) / 2) with
      | eq =>
        refine ⟨_, rfl, by omega, by omega, fun i h1 h2 => ?_, fun i h1 h2 => ?_⟩
        · exact slotCmp_before hs h1 h2 (by omega) (by simp [hc])
        · rcases Nat.eq_or_lt_of_le h1 with rfl | h
          · simp [hc]
          · have hgt : slotCmp es lpa i = .gt := slotCmp_after hs (by omega) h h2 (by simp [hc])
            simp [hgt]
      | lt =>
        exact ih (W.right hs (by omega) (by omega) hc) (by omega) (.inr (.inl ⟨rfl, rfl⟩))
      | gt =>
        exact ih (W.left hs (by omega) (by omega) hc) (by omega) (.inr (.inr ⟨rfl, by omega⟩))
    · rename_i hse
      have hb : (if res = .lt then mid + 1 else mid) = s := by
        rcases hlast with h | ⟨h1, h2⟩ | ⟨h1, h2⟩
        · omega
        · rw [if_pos h1, h2]
        · rw [if_neg (by simp [h1]), h2]; omega
      refine ⟨s, by rw [hb], hpos, by omega, W.below, fun i h1 h2 => ?_⟩
      rw [W.above i (by omega) h2]
      simp

theorem findIdxLowerBound_spec (E : Encodes p es) (F : FitsPage es) (hs : Sorted es)
    (hne : es ≠ []) (lpa : Key) :
    ∃ b, findIdxLowerBound p lpa = some b ∧ IsLowerBound es lpa b := by
  have hlen := length_pos_of_ne_nil hne
  rw [findIdxLowerBound, E.slot_zero, bind_some]
  exact lowerBoundFrom_spec E F hs (Slots.all es lpa) (by omega) (.inl (by omega))

theorem IsLowerBound.drop_eq {b : Nat} (B : IsLowerBound es lpa b) :
    es.drop (b - 1) = es.filter fun x => keycmp x.key lpa ≠ .lt := by
  have hlow : (es.take (b - 1)).filter (fun x => keycmp x.key lpa ≠ .lt) = [] := by
    refine filter_eq_nil_iff.mpr fun x hx => ?_
    obtain ⟨i, hi, rfl⟩ := mem_iff_getElem.mp hx
    rw [length_take] at hi
    rw [getElem_take, ← slotCmp_eq lpa (by omega), B.below (i + 1) (by omega) (by omega)]
    simp
  have hhigh : (es.drop (b - 1)).filter (fun x => keycmp x.key lpa ≠ .lt) = es.drop (b - 1) := by
    refine filter_eq_self.mpr fun x hx => ?_
    obtain ⟨i, hi, rfl⟩ := mem_iff_getElem.mp hx
    rw [length_drop] at hi
    have hpos := B.pos
    have := B.from_on (b - 1 + i + 1) (by omega) (by omega)
    rw [getElem_drop, ← slotCmp_eq lpa (by omega)]
    simpa using this
  conv_rhs => rw [← take_append_drop (b - 1) es, filter_append, hlow, hhigh]
  rfl

end

/-! ## The iterator -/

section
variable {p : Page} {es : List Ent}

theorem headerNextKeyPick_eq (h : HeaderIter) :
    headerNextKeyPick h = (headerNextKey (some h)).map Prod.fst := by
  unfold headerNextKeyPick headerNextKey
  dsimp only
  cases slot h.data 0 with
  | none => rfl
  | some n =>
    rw [bind_some, bind_some]
    split
    · cases readEntry h.data h.idx <;> rfl
    · rfl

theorem iterate_eq (E : Encodes p es) (F : FitsPage es) {fuel b : Nat} (hb : 1 ≤ b)
    (hf : es.length + 1 - b < fuel) :
    iterate fuel (some ⟨p, b⟩) = some (es.drop (b - 1)).dropLast := by
  induction fuel generalizing b with
  | zero => omega
  | succ fuel ih =>
    rw [iterate, headerNextKey, E.slot_zero, bind_some]
    dsimp only
    split
    · rename_i hlt
      obtain ⟨i, rfl⟩ : ∃ k, b = k + 1 := ⟨b - 1, by omega⟩
      have hi : i < es.length := by omega
      have hcons : es.drop i = es[i] :: es.drop (i + 1) := drop_eq_getElem_cons hi
      have hne : es.drop (i + 1) ≠ [] := by
        rw [Ne, drop_eq_nil_iff]; omega
      rw [readEntry_eq E F hi, map_some, bind_some]
      dsimp only
      rw [ih (by omega) (by omega), map_some, Nat.add_sub_cancel, Nat.add_sub_cancel, hcons,
        dropLast_cons_of_ne_nil hne]
    · rename_i hge
      have hnil : (es.drop (b - 1)).dropLast = [] := by
        rw [← length_eq_zero_iff, length_dropLast, length_drop]
        omega
      rw [bind_some, hnil]

theorem eq_dropLast {α : Type} {l : List α} : l.dropLast = l ↔ l = [] := by
  refine ⟨fun h => ?_, fun h => by rw [h]; rfl⟩
  have := congrArg length h
  rw [length_dropLast] at this
  exact length_eq_zero_iff.mp (by omega)

/-- The iteration from `s` on comes to an end within the page, and it returns
the entries from `s` on if and only if all keys are below `s`. -/
theorem header_iteration (E : Encodes p es) (F : FitsPage es) (hs : Sorted es) (hne : es ≠ [])
    (s : Key) :
    ∃ it got, headerGetKeyiter p s = some it ∧ iterate (es.length + 1) (some it) = some got ∧
      (∀ h, headerNextKeyPick h = (headerNextKey (some h)).map Prod.fst) ∧
      (got = (es.filter fun x => keycmp x.key s ≠ .lt) ↔ ∀ x ∈ es, keycmp x.key s = .lt) := by
  obtain ⟨b, hb, B⟩ := findIdxLowerBound_spec E F hs hne s
  have hpos := B.pos
  refine ⟨⟨p, b⟩, _, by rw [headerGetKeyiter, hb]; rfl, iterate_eq E F hpos (by omega),
    headerNextKeyPick_eq, ?_⟩
  rw [B.drop_eq, eq_dropLast, filter_eq_nil_iff]
  simp

/-- A page with the keys `[1]` and `[3]`. -/
def twoKeys : Page := fun i =>
  ([(0, 2), (3, 4), (4, 5), (5, 4), (6, 10), (7, 4), (1024, 7), (1028, 1), (1029, 8),
    (1033, 3)].lookup i).getD 0

theorem twoKeys_encodes : Encodes twoKeys [⟨7, [1]⟩, ⟨8, [3]⟩] where
  count := by decide +kernel
  offs := by decide +kernel
  data := by decide +kernel

theorem twoKeys_fits : FitsPage [⟨7, [1]⟩, ⟨8, [3]⟩] where
  slots := by decide +kernel
  bytes := by decide +kernel
  len := by decide +kernel

/-- From above the last key nothing is to be returned. -/
theorem header_iteration_above :
    ∃ it got, headerGetKeyiter twoKeys [4] = some it ∧ iterate 3 (some it) = some got ∧
      (∀ h, headerNextKeyPick h = (headerNextKey (some h)).map Prod.fst) ∧
      (got = ([⟨7, [1]⟩, ⟨8, [3]⟩].filter fun x => keycmp x.key [4] ≠ .lt) ↔
        ∀ x ∈ ([⟨7, [1]⟩, ⟨8, [3]⟩] : List Ent), keycmp x.key [4] = .lt) :=
  header_iteration twoKeys_encodes twoKeys_fits (by decide +kernel) (by decide) [4]

/-- The last key of the page is not returned. -/
theorem last_key_dropped :
    (headerGetKeyiter twoKeys [2]).bind (fun it => iterate 3 (some it)) = some [] ∧
      ([⟨7, [1]⟩, ⟨8, [3]⟩] : List Ent).filter (fun x => keycmp x.key [2] ≠ .lt) = [⟨8, [3]⟩] :=
  ⟨by decide +kernel, by decide +kernel⟩

end

/-! ## A level -/

/-- The header page of a run has the entries `es`, with keys in the run's range. -/
structure HeaderOf (r : ArrRun) (es : List Ent) : Prop where
  encodes : Encodes r.page es
  fits : FitsPage es
  sorted : Sorted es
  inside : ∀ x ∈ es, keycmp r.key x.key ≠ .gt ∧ keycmp x.key r.stop ≠ .gt

/-- Runs in order with disjoint ranges, and the entries of their pages. -/
structure Arranged (arrs : List ArrRun) (ess : List (List Ent)) : Prop where
  headers : List.Forall₂ HeaderOf arrs ess
  range : ∀ r ∈ arrs, keycmp r.key r.stop ≠ .gt
  apart : arrs.Pairwise fun a b => keycmp a.stop b.key = .lt

section
variable {arrs : List ArrRun} {ess : List (List Ent)} {lpa : Key}

/-- The first keys as a level of runs with one entry each. -/
def keyRuns (arrs : List ArrRun) : List (Run Unit) := arrs.map fun r => [⟨(), r.key⟩]

theorem runKey_keyRuns {i : Nat} (h : i < arrs.length) :
    runKey (runAt (keyRuns arrs) i) = (arrs[i]).key := by
  simp [runKey, runAt, keyRuns, h]

theorem arrayFindRunFrom_eq {fuel : Nat} {s e : Int} (h0 : 0 ≤ s) (hse : s ≤ e)
    (he : e < arrs.length) :
    arrayFindRunFrom arrs lpa fuel s e =
      (findRunFrom (keyRuns arrs) lpa fuel s e).bind fun i => arrs[i]? := by
  induction fuel generalizing s e with
  | zero => rfl
  | succ fuel ih =>
    have hmid : (s + e).tdiv 2 = (s + e) / 2 := Int.tdiv_eq_ediv_of_nonneg (by omega)
    obtain ⟨m, hm⟩ : ∃ m : Nat, (s + e) / 2 = m := ⟨((s + e) / 2).toNat, by omega⟩
    have hlt : m < arrs.length := by omega
    have hat : arrAt arrs (m : Int) = some arrs[m] := by simp [arrAt, hlt]
    simp only [arrayFindRunFrom, findRunFrom, hmid, hm, hat, bind_some, Int.toNat_natCast,
      runKey_keyRuns hlt]
    cases keycmp (arrs[m]).key lpa with
    | eq => simp [hlt]
    | gt =>
      dsimp only
      split
      · have hnn : 0 ≤ (s + ((m : Int) - 1)).tdiv 2 := by
          rcases Int.lt_or_le (s + ((m : Int) - 1)) 0 with h | h
          · have : s + ((m : Int) - 1) = -1 := by omega
            rw [this]; decide
          · exact Int.tdiv_nonneg h (by decide)
        rw [arrAt, if_pos hnn, bind_some]
      · exact ih h0 (by omega) (by omega)
    | lt =>
      dsimp only
      split
      · rw [arrAt, if_pos (Int.tdiv_nonneg (by omega) (by decide)), bind_some]
      · exact ih (by omega) (by omega) he

theorem Arranged.increasing (A : Arranged arrs ess) : Increasing (keyRuns arrs) := by
  intro i j hij hj
  have hj' : j < arrs.length := by simpa [keyRuns] using hj
  rw [runKey_keyRuns (by omega), runKey_keyRuns hj']
  exact keycmp_lt_of_le (A.range _ (getElem_mem _))
    (pairwise_iff_getElem.mp A.apart i j (by omega) hj' hij)

theorem Arranged.find (A : Arranged arrs ess) (hne : arrs ≠ []) (lpa : Key) :
    ∃ r, ∃ hr : r < arrs.length, arrayFindRun arrs lpa = some (some arrs[r]) ∧
      IsRunOf (keyRuns arrs) lpa r := by
  have hlen := length_pos_of_ne_nil hne
  have hk : (keyRuns arrs).length = arrs.length := length_map ..
  have W : Window (keyRuns arrs) lpa 0 (arrs.length - 1) :=
    ⟨by omega, by omega, by omega, fun j hj => by omega, fun j h1 h2 => by omega⟩
  have hfuel : (arrs.length : Int) - 1 - 0 < arrs.length := by omega
  obtain ⟨r, hr, hrun⟩ := findRunFrom_spec A.increasing W hfuel
  have hlt : r < arrs.length := hk ▸ hrun.lt
  refine ⟨r, hlt, ?_, hrun⟩
  rw [arrayFindRun, if_neg (by simpa using hne),
    arrayFindRunFrom_eq (by omega) (by omega) (by omega), hr, bind_some, getElem?_eq_getElem hlt, map_some]

theorem Arranged.unique (A : Arranged arrs ess) {r j : Nat} (hrun : IsRunOf (keyRuns arrs) lpa r)
    (hr : r < arrs.length) (hj : j < arrs.length) {es : List Ent} (H : HeaderOf arrs[j] es)
    {x : Ent} (hx : x ∈ es) (hk : x.key = lpa) : j = r := by
  obtain ⟨hlow, hhigh⟩ := H.inside x hx
  rw [hk] at hlow hhigh
  rcases Nat.lt_trichotomy j r with hlt | heq | hgt
  · exfalso
    have hbelow := keycmp_lt_of_le hhigh (pairwise_iff_getElem.mp A.apart j r hj hr hlt)
    rcases hrun.starts with h0 | hns
    · omega
    · rw [runKey_keyRuns hr] at hns
      exact hns (keycmp_gt_iff.mpr hbelow)
  · exact heq
  · exfalso
    have habove := hrun.after j hgt (by simpa [keyRuns] using hj)
    rw [runKey_keyRuns hj] at habove
    exact hlow habove

theorem find?_flatten_of_only {α : Type} {q : α → Bool} {xss : List (List α)} {r : Nat}
    (hr : r < xss.length) (h : ∀ j (hj : j < xss.length), j ≠ r → (xss[j]).find? q = none) :
    xss.flatten.find? q = (xss[r]).find? q := by
  have hrest : ∀ l : List (List α), (∀ xs ∈ l, xs.find? q = none) → l.flatten.find? q = none := by
    intro l hl
    refine find?_eq_none.mpr fun x hx => ?_
    obtain ⟨xs, hxs, hmem⟩ := mem_flatten.mp hx
    exact find?_eq_none.mp (hl xs hxs) x hmem
  have htake : (xss.take r).flatten.find? q = none := by
    refine hrest _ fun xs hxs => ?_
    obtain ⟨j, hj, rfl⟩ := mem_iff_getElem.mp hxs
    rw [length_take] at hj
    rw [getElem_take]
    exact h j (by omega) (by omega)
  have hdrop : (xss.drop (r + 1)).flatten.find? q = none := by
    refine hrest _ fun xs hxs => ?_
    obtain ⟨j, hj, rfl⟩ := mem_iff_getElem.mp hxs
    rw [length_drop] at hj
    rw [getElem_drop]
    exact h (r + 1 + j) (by omega) (by omega)
  conv_lhs => rw [← take_append_drop r xss, drop_eq_getElem_cons hr]
  rw [flatten_append, flatten_cons, find?_append, find?_append, htake, hdrop, none_or, or_none]

/-- Both searches stay within the array and the page and come to an end. The
first returns NULL for an empty level only, and the second finds in the page of
the run the entry that the level has for the key. -/
theorem level_lookup (A : Arranged arrs ess) (lpa : Key) :
    (arrayFindRun arrs lpa = some none ∧ arrs = []) ∨
      ∃ r ∈ arrs, arrayFindRun arrs lpa = some (some r) ∧
        findKeyset r.page lpa = some (ess.flatten.find? fun x => x.key = lpa) := by
  by_cases hne : arrs = []
  · exact .inl ⟨by rw [hne]; rfl, hne⟩
  · obtain ⟨r, hr, hfind, hrun⟩ := A.find hne lpa
    refine .inr ⟨arrs[r], getElem_mem hr, hfind, ?_⟩
    have hlen : arrs.length = ess.length := A.headers.length_eq
    have hat : ∀ j (hj : j < ess.length), HeaderOf (arrs.get ⟨j, hlen ▸ hj⟩) ess[j] :=
      fun j hj => (forall₂_iff_get.mp A.headers).2 j (hlen ▸ hj) hj
    have H := hat r (hlen ▸ hr)
    rw [get_eq_getElem] at H
    rw [findKeyset_spec H.encodes H.fits H.sorted, some_inj]
    symm
    refine find?_flatten_of_only (hlen ▸ hr) fun j hj hjr => find?_eq_none.mpr fun x hx => ?_
    rw [decide_eq_true_eq]
    exact fun hk => hjr (A.unique hrun hr (hlen ▸ hj) (hat j hj) hx hk)

theorem twoKeys_arranged : Arranged [⟨[1], [3], twoKeys⟩] [[⟨7, [1]⟩, ⟨8, [3]⟩]] where
  headers := .cons ⟨twoKeys_encodes, twoKeys_fits, by decide +kernel, by decide +kernel⟩ .nil
  range := by decide +kernel
  apart := pairwise_singleton ..

/-- A page with three keys of one byte. -/
def threeKeys (a b c : UInt8) : Page := fun i =>
  ([(0, 3), (3, 4), (4, 5), (5, 4), (6, 10), (7, 4), (8, 15), (9, 4), (1024, 5), (1028, a),
    (1029, 6), (1033, b), (1034, 9), (1038, c)].lookup i).getD 0

/-- Two runs, with two and with three keys. -/
def pairedRuns : List ArrRun := [⟨[1], [3], twoKeys⟩, ⟨[5], [9], threeKeys 5 6 9⟩]

theorem pairedRuns_arranged :
    Arranged pairedRuns [[⟨7, [1]⟩, ⟨8, [3]⟩], [⟨5, [5]⟩, ⟨6, [6]⟩, ⟨9, [9]⟩]] where
  headers := .cons ⟨twoKeys_encodes, twoKeys_fits, by decide +kernel, by decide +kernel⟩
    (.cons ⟨⟨by decide +kernel, by decide +kernel, by decide +kernel⟩,
      ⟨by decide +kernel, by decide +kernel, by decide +kernel⟩, by decide +kernel,
      by decide +kernel⟩ .nil)
  range := by decide +kernel
  apart := by decide +kernel

/-- The key `[6]` is found in the second run. -/
theorem level_lookup_second : ∃ r ∈ pairedRuns, r.key = [5] ∧
    arrayFindRun pairedRuns [6] = some (some r) ∧ findKeyset r.page [6] = some (some ⟨6, [6]⟩) := by
  rcases level_lookup pairedRuns_arranged [6] with ⟨-, h⟩ | ⟨r, hr, hrun, hfind⟩
  · cases h
  · have hkey : (arrayFindRun pairedRuns [6]).map (Option.map ArrRun.key) = some (some [5]) := by
      decide +kernel
    rw [hrun] at hkey
    exact ⟨r, hr, by simpa using hkey, hrun, hfind.trans (by decide +kernel)⟩

end

end FlashDriver.Lsmtree
