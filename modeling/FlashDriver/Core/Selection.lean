import Mathlib

/-!
# Selecting from several sorted streams

`select n ts` takes, `n` times, the smallest first element of the streams `ts`, and from
the earliest of the streams where several have it. Only the stream it is taken from moves
on, so an element with the same key in another stream is still there for the next round.

The answer one may want instead is the first `n` keys of a list `D` of all keys, each with
its best element, the one of the earliest stream.

* `select_eq_iff`: `select` gives that answer exactly if the streams have the best element
  of each of these keys and, but for the last of them, no other element with that key.
-/
namespace FlashDriver.Core.Selection

open List Option

variable {α K : Type*} [LinearOrder K]

/-- The smallest of `m` and the first elements of the streams; `m` and earlier streams
go first. -/
def least (key : α → K) : List (List α) → Option α → Option α
  | [], m => m
  | [] :: ts, m => least key ts m
  | (x :: _) :: ts, none => least key ts (some x)
  | (x :: _) :: ts, some m => least key ts (some (if key x < key m then x else m))

def select (key : α → K) (src : α → Nat) : Nat → List (List α) → List α
  | 0, _ => []
  | n + 1, ts =>
    match least key ts none with
    | none => []
    | some x => x :: select key src n (ts.modify (src x) tail)

variable {key : α → K} {src : α → Nat} {ts : List (List α)} {x y : α} {m : Option α}

/-! ## One round -/

theorem least_isSome (h : m.isSome ∨ ∃ t ∈ ts, t ≠ []) : (least key ts m).isSome := by
  induction ts generalizing m with
  | nil => simpa [least] using h
  | cons t ts ih =>
    cases t with
    | nil => exact ih (by simpa using h)
    | cons z zs => cases m <;> exact ih (.inl rfl)

theorem least_mem (h : least key ts m = some x) :
    m = some x ∨ ∃ t ∈ ts, t.head? = some x := by
  induction ts generalizing m with
  | nil => exact .inl h
  | cons t ts ih =>
    cases t with
    | nil =>
      rcases ih h with hm | ⟨t, ht, hx⟩
      · exact .inl hm
      · exact .inr ⟨t, .tail _ ht, hx⟩
    | cons z zs =>
      have later : (∃ t ∈ ts, t.head? = some x) → ∃ t ∈ (z :: zs) :: ts, t.head? = some x :=
        fun ⟨t, ht, hx⟩ => ⟨t, .tail _ ht, hx⟩
      cases m with
      | none =>
        rcases ih h with hm | hx
        · exact .inr ⟨_, (.head _), hm⟩
        · exact .inr (later hx)
      | some m =>
        rcases ih h with hm | hx
        · by_cases hlt : key z < key m
          · rw [if_pos hlt] at hm
            exact .inr ⟨_, (.head _), hm⟩
          · rw [if_neg hlt] at hm
            exact .inl hm
        · exact .inr (later hx)

theorem least_le (h : least key ts m = some x) :
    (∀ y ∈ m, key x ≤ key y) ∧ ∀ t ∈ ts, ∀ y ∈ t.head?, key x ≤ key y := by
  induction ts generalizing m with
  | nil =>
    cases (show m = some x from h)
    simp
  | cons t ts ih =>
    cases t with
    | nil =>
      obtain ⟨h1, h2⟩ := ih h
      exact ⟨h1, by simpa using h2⟩
    | cons z zs =>
      cases m with
      | none =>
        obtain ⟨h1, h2⟩ := ih h
        have hz : key x ≤ key z := h1 z rfl
        exact ⟨by simp, by simpa using ⟨hz, h2⟩⟩
      | some m =>
        obtain ⟨h1, h2⟩ := ih h
        have hmin : key x ≤ key (if key z < key m then z else m) := h1 _ rfl
        have hz : key x ≤ key z ∧ key x ≤ key m := by
          split at hmin
          · exact ⟨hmin, hmin.trans (le_of_lt ‹_›)⟩
          · exact ⟨hmin.trans (not_lt.mp ‹_›), hmin⟩
        exact ⟨by simpa using hz.2, by simpa using ⟨hz.1, h2⟩⟩

theorem least_stays (h : ∀ t ∈ ts, ∀ y ∈ t.head?, key x ≤ key y) :
    least key ts (some x) = some x := by
  induction ts with
  | nil => rfl
  | cons t ts ih =>
    have ht := ih fun t ht => h t (.tail _ ht)
    cases t with
    | nil => exact ht
    | cons z zs =>
      have hz : key x ≤ key z := h _ mem_cons_self z rfl
      rw [least, if_neg (not_lt.mpr hz), ht]

theorem least_wins {pre post : List (List α)} {xs : List α}
    (hpre : ∀ t ∈ pre, ∀ y ∈ t.head?, key x < key y) (hm : ∀ y ∈ m, key x < key y)
    (hpost : ∀ t ∈ post, ∀ y ∈ t.head?, key x ≤ key y) :
    least key (pre ++ (x :: xs) :: post) m = some x := by
  induction pre generalizing m with
  | nil =>
    cases m with
    | none => exact least_stays hpost
    | some m =>
      rw [nil_append, least, if_pos (hm m rfl)]
      exact least_stays hpost
  | cons t pre ih =>
    have ih' := fun m hm => @ih m (fun t ht => hpre t (.tail _ ht)) hm
    cases t with
    | nil => exact ih' m hm
    | cons z zs =>
      have hz : key x < key z := hpre _ mem_cons_self z rfl
      cases m with
      | none => exact ih' _ (by simpa using hz)
      | some m =>
        apply ih'
        have hm' : key x < key m := hm m rfl
        intro y hy
        cases (show (if key z < key m then z else m) = y from some.inj hy)
        split
        · exact hz
        · exact hm'

/-! ## Sorted streams -/

/-- Stream `i` has elements of source `i`, in the order of their keys. -/
structure Streams (key : α → K) (src : α → Nat) (ts : List (List α)) : Prop where
  src : ∀ i t, ts[i]? = some t → ∀ x ∈ t, src x = i
  sorted : ∀ t ∈ ts, t.Pairwise fun x y => key x < key y

theorem Streams.head_le (S : Streams key src ts) {t : List α} (ht : t ∈ ts) (hx : x ∈ t)
    (hy : t.head? = some y) : key y ≤ key x := by
  have hs := S.sorted t ht
  cases t with
  | nil => cases hx
  | cons z zs =>
    cases (show z = y from some.inj hy)
    rcases mem_cons.mp hx with rfl | hx
    · exact le_refl _
    · exact le_of_lt ((pairwise_cons.mp hs).1 x hx)

theorem Streams.at_src (S : Streams key src ts) {t : List α} (ht : t ∈ ts) (hx : x ∈ t) :
    ts[src x]? = some t := by
  obtain ⟨i, hi, rfl⟩ := mem_iff_getElem.mp ht
  have hget := getElem?_eq_getElem hi
  rw [S.src i _ hget x hx, hget]

theorem Streams.eq_of_key (S : Streams key src ts) (hx : x ∈ ts.flatten) (hy : y ∈ ts.flatten)
    (hs : src x = src y) (hk : key x = key y) : x = y := by
  obtain ⟨t, ht, hxt⟩ := mem_flatten.mp hx
  obtain ⟨t', ht', hyt⟩ := mem_flatten.mp hy
  have hget := S.at_src ht hxt
  rw [hs, S.at_src ht' hyt] at hget
  cases some.inj hget
  by_contra hne
  have hsorted : t.Pairwise fun x y => key x ≠ key y := (S.sorted t ht).imp fun h => ne_of_lt h
  have : Std.Symm fun x y : α => key x ≠ key y := ⟨fun _ _ => Ne.symm⟩
  exact hsorted.forall hxt hyt hne hk

theorem Streams.src_le (S : Streams key src ts) :
    ts.flatten.Pairwise fun x y => src x ≤ src y := by
  rw [pairwise_flatten]
  constructor
  · intro t ht
    obtain ⟨i, hi⟩ := mem_iff_getElem?.mp ht
    apply pairwise_of_forall_mem_list
    intro x hx y hy
    rw [S.src i t hi x hx, S.src i t hi y hy]
  · apply pairwise_iff_getElem.mpr
    intro i j hi hj hij x hx y hy
    rw [S.src i _ (getElem?_eq_getElem hi) x hx, S.src j _ (getElem?_eq_getElem hj) y hy]
    exact le_of_lt hij

theorem Streams.find_first (S : Streams key src ts) (hx : x ∈ ts.flatten) :
    ∃ y, ts.flatten.find? (fun y => key y = key x) = some y ∧ y ∈ ts.flatten ∧ key y = key x ∧
      src y ≤ src x ∧ (src x = src y → x = y) := by
  have hsome : (ts.flatten.find? fun y => key y = key x).isSome :=
    find?_isSome.mpr ⟨x, hx, decide_eq_true rfl⟩
  obtain ⟨y, hy⟩ := isSome_iff_exists.mp hsome
  obtain ⟨hk, as, bs, hsplit, hbefore⟩ := find?_eq_some_iff_append.mp hy
  have hk : key y = key x := of_decide_eq_true hk
  have hyf : y ∈ ts.flatten := mem_of_find?_eq_some hy
  refine ⟨y, hy, hyf, hk, ?_, fun hs => S.eq_of_key hx hyf hs hk.symm⟩
  have hle := S.src_le
  rw [hsplit, pairwise_append] at hle
  rw [hsplit] at hx
  rcases mem_append.mp hx with hx | hx
  · have := hbefore x hx
    simp at this
  · rcases mem_cons.mp hx with rfl | hx
    · exact le_rfl
    · exact (pairwise_cons.mp hle.2.1).1 x hx

theorem Streams.of_sublists {ts' : List (List α)} (S : Streams key src ts)
    (h : List.Forall₂ List.Sublist ts' ts) : Streams key src ts' := by
  have hold : ∀ (i : Nat) (t : List α), ts'[i]? = some t →
      ∃ t', ts[i]? = some t' ∧ t.Sublist t' := by
    intro i t hi
    obtain ⟨hlt, rfl⟩ := List.getElem?_eq_some_iff.mp hi
    have hlt' : i < ts.length := h.length_eq ▸ hlt
    exact ⟨ts[i], getElem?_eq_getElem hlt', h.get hlt hlt'⟩
  constructor
  · intro i t hi x hx
    obtain ⟨t', ht', hsub⟩ := hold i t hi
    exact S.src i t' ht' x (hsub.subset hx)
  · intro t ht
    obtain ⟨i, hi⟩ := mem_iff_getElem?.mp ht
    obtain ⟨t', ht', hsub⟩ := hold i t hi
    exact (S.sorted t' (mem_of_getElem? ht')).sublist hsub

theorem Streams.mem_pop (S : Streams key src ts) {xs : List α} (hx : ts[src x]? = some (x :: xs)) :
    y ∈ (ts.modify (src x) tail).flatten ↔ y ∈ ts.flatten ∧ y ≠ x := by
  have hlt : src x < ts.length := by
    by_contra hge
    rw [getElem?_eq_none (by omega)] at hx
    cases hx
  have hmem : x :: xs ∈ ts := mem_of_getElem? hx
  have hsorted := (pairwise_cons.mp (S.sorted _ hmem)).1
  simp only [mem_flatten]
  constructor
  · rintro ⟨t, ht, hy⟩
    obtain ⟨i, hi⟩ := mem_iff_getElem?.mp ht
    rw [getElem?_modify] at hi
    by_cases hsi : src x = i
    · subst hsi
      rw [hx] at hi
      cases (show xs = t by simpa using hi)
      refine ⟨⟨_, hmem, .tail _ hy⟩, ?_⟩
      rintro rfl
      exact lt_irrefl _ (hsorted _ hy)
    · have hit : ts[i]? = some t := by simpa [hsi] using hi
      refine ⟨⟨t, mem_of_getElem? hit, hy⟩, ?_⟩
      rintro rfl
      exact hsi (S.src i t hit _ hy)
  · rintro ⟨⟨t, ht, hy⟩, hne⟩
    obtain ⟨i, hi⟩ := mem_iff_getElem?.mp ht
    by_cases hsi : src x = i
    · subst hsi
      rw [hx] at hi
      cases (show x :: xs = t by simpa using hi)
      refine ⟨xs, ?_, (mem_cons.mp hy).resolve_left hne⟩
      apply mem_iff_getElem?.mpr
      exact ⟨src x, by simp [hx]⟩
    · refine ⟨t, mem_iff_getElem?.mpr ⟨i, ?_⟩, hy⟩
      simp [hsi, hi]

theorem sublists_flatten {ts' : List (List α)} (h : List.Forall₂ List.Sublist ts' ts) :
    ts'.flatten.Sublist ts.flatten := by
  induction h with
  | nil => exact List.Sublist.refl _
  | cons h _ ih => exact h.append ih

theorem pop_sublists (ts : List (List α)) (i : Nat) :
    List.Forall₂ List.Sublist (ts.modify i tail) ts := by
  induction ts generalizing i with
  | nil => simp
  | cons t ts ih =>
    cases i with
    | zero =>
      exact .cons (tail_sublist t) (forall₂_same.mpr fun t _ => List.Sublist.refl t)
    | succ i => exact .cons (List.Sublist.refl t) (ih i)

theorem Streams.pop (S : Streams key src ts) (i : Nat) :
    Streams key src (ts.modify i tail) :=
  S.of_sublists (pop_sublists ts i)

/-! ## The wanted answer -/

/-- `D` has the keys of the streams, in order, and `best k` comes before every other
element with the key `k`. -/
structure Covers (key : α → K) (src : α → Nat) (ts : List (List α)) (D : List K) (best : K → α) :
    Prop where
  streams : Streams key src ts
  sorted : D.Pairwise (· < ·)
  keys : ∀ x ∈ ts.flatten, key x ∈ D
  key_best : ∀ k, k ∈ D → key (best k) = k
  first : ∀ x ∈ ts.flatten, src (best (key x)) ≤ src x
  only : ∀ x ∈ ts.flatten, src x = src (best (key x)) → x = best (key x)

variable {D : List K} {best : K → α} {d : K}

theorem Covers.least_key_le (C : Covers key src ts (d :: D) best) (hx : x ∈ ts.flatten) :
    d ≤ key x := by
  rcases mem_cons.mp (C.keys x hx) with h | h
  · exact le_of_eq h.symm
  · exact le_of_lt ((pairwise_cons.mp C.sorted).1 _ h)

theorem Covers.taken (C : Covers key src ts (d :: D) best) (h : best d ∈ ts.flatten) :
    least key ts none = some (best d) ∧ ∃ xs, ts[src (best d)]? = some (best d :: xs) := by
  have hkd : key (best d) = d := C.key_best d mem_cons_self
  have hall : ∀ t ∈ ts, ∀ y ∈ t.head?, key (best d) ≤ key y := by
    intro t ht y hy
    rw [hkd]
    exact C.least_key_le (mem_flatten.mpr ⟨t, ht, mem_of_mem_head? hy⟩)
  obtain ⟨t, ht, hmem⟩ := mem_flatten.mp h
  have hget := C.streams.at_src ht hmem
  -- the first element of the stream has the same key and source
  obtain ⟨y, xs, rfl⟩ := exists_cons_of_ne_nil (ne_nil_of_mem hmem)
  have hyf : y ∈ ts.flatten := mem_flatten.mpr ⟨_, ht, (.head _)⟩
  have hky : key y = d := by
    apply le_antisymm
    · rw [← hkd]
      exact C.streams.head_le ht hmem rfl
    · exact C.least_key_le hyf
  have hsy : src y = src (best d) := C.streams.src _ _ hget y mem_cons_self
  have hy : y = best d := by
    have := C.only y hyf
    rw [hky] at this
    exact this hsy
  subst hy
  refine ⟨?_, xs, hget⟩
  -- an earlier stream has no such key
  obtain ⟨pre, post, rfl, hlen⟩ : ∃ pre post, ts = pre ++ (best d :: xs) :: post ∧
      pre.length = src (best d) := by
    obtain ⟨hlt, hv⟩ := List.getElem?_eq_some_iff.mp hget
    refine ⟨ts.take (src (best d)), ts.drop (src (best d) + 1), ?_, ?_⟩
    · rw [← hv, getElem_cons_drop, take_append_drop]
    · rw [length_take]
      omega
  apply least_wins
  · intro t ht z hz
    have hts := mem_append_left ((best d :: xs) :: post) ht
    have hzt := mem_of_mem_head? hz
    have hzf := mem_flatten.mpr ⟨t, hts, hzt⟩
    apply lt_of_le_of_ne (hall t hts z hz)
    intro heq
    have hle := C.first z hzf
    rw [← heq, hkd] at hle
    obtain ⟨i, hi, rfl⟩ := mem_iff_getElem.mp ht
    have hat : (pre ++ (best d :: xs) :: post)[i]? = some pre[i] := by
      rw [getElem?_append_left hi, getElem?_eq_getElem hi]
    have hsz := C.streams.src i pre[i] hat z hzt
    omega
  · simp
  · intro t ht
    exact hall t (mem_append_right _ (.tail _ ht))

theorem Covers.popped (C : Covers key src ts (d :: D) best) {xs : List α}
    (hget : ts[src (best d)]? = some (best d :: xs))
    (hdup : ∀ x ∈ ts.flatten, key x = d → x = best d) :
    Covers key src (ts.modify (src (best d)) tail) D best := by
  have hmem : ∀ x, x ∈ (ts.modify (src (best d)) tail).flatten →
      x ∈ ts.flatten ∧ x ≠ best d := fun x hx => (C.streams.mem_pop hget).mp hx
  refine ⟨C.streams.pop _, (pairwise_cons.mp C.sorted).2, fun x hx => ?_,
    fun k hk => C.key_best k (.tail _ hk), fun x hx => C.first x (hmem x hx).1,
    fun x hx => C.only x (hmem x hx).1⟩
  obtain ⟨hx, hne⟩ := hmem x hx
  refine (mem_cons.mp (C.keys x hx)).resolve_left fun hk => ?_
  exact hne (hdup x hx hk)

theorem select_head_le {n : Nat} (S : Streams key src ts) (hx : x ∈ ts.flatten) :
    ∃ y ys, select key src (n + 1) ts = y :: ys ∧ key y ≤ key x := by
  obtain ⟨t, ht, hxt⟩ := mem_flatten.mp hx
  have hne : t ≠ [] := ne_nil_of_mem hxt
  have hsome : (least key ts none).isSome := least_isSome (.inr ⟨t, ht, hne⟩)
  obtain ⟨y, hy⟩ := isSome_iff_exists.mp hsome
  refine ⟨y, _, by rw [select, hy], ?_⟩
  obtain ⟨z, zs, rfl⟩ := exists_cons_of_ne_nil hne
  exact ((least_le hy).2 _ ht z rfl).trans (S.head_le ht hxt rfl)

theorem select_subset {n : Nat} (h : x ∈ select key src n ts) : x ∈ ts.flatten := by
  induction n generalizing ts with
  | zero => cases h
  | succ n ih =>
    rw [select] at h
    cases hl : least key ts none with
    | none =>
      rw [hl] at h
      cases h
    | some y =>
      rw [hl] at h
      rcases mem_cons.mp h with rfl | h
      · obtain ⟨t, ht, hy⟩ := (least_mem hl).resolve_left (by simp)
        exact mem_flatten.mpr ⟨t, ht, mem_of_mem_head? hy⟩
      · exact (sublists_flatten (pop_sublists ts _)).subset (ih h)

theorem select_eq_iff {n : Nat} (C : Covers key src ts D best) :
    select key src n ts = (D.take n).map best ↔
      ∀ j k, j < n → D[j]? = some k → best k ∈ ts.flatten ∧
        (j + 1 < n → ∀ x ∈ ts.flatten, key x = k → x = best k) := by
  induction n generalizing ts D with
  | zero => simp [select]
  | succ n ih =>
    cases D with
    | nil =>
      have hnone : least key ts none = none := by
        by_contra hne
        obtain ⟨x, hx⟩ := ne_none_iff_exists'.mp hne
        obtain ⟨t, ht, hxt⟩ := (least_mem hx).resolve_left (by simp)
        exact not_mem_nil (C.keys x (mem_flatten.mpr ⟨t, ht, mem_of_mem_head? hxt⟩))
      simp [select, hnone]
    | cons d D =>
      have hkd : key (best d) = d := C.key_best d mem_cons_self
      rw [take_succ_cons, map_cons]
      by_cases hd : best d ∈ ts.flatten
      · obtain ⟨hleast, xs, hget⟩ := C.taken hd
        have hstep : select key src (n + 1) ts =
            best d :: select key src n (ts.modify (src (best d)) tail) := by
          rw [select, hleast]
        have hpop := fun y => C.streams.mem_pop (y := y) hget
        rw [hstep, cons.injEq, and_iff_right rfl]
        by_cases hdup : ∀ x ∈ ts.flatten, key x = d → x = best d
        · rw [ih (C.popped hget hdup)]
          constructor
          · intro h j k hj hk
            cases j with
            | zero =>
              cases (show d = k by simpa using hk)
              exact ⟨hd, fun _ => hdup⟩
            | succ j =>
              have hkD : D[j]? = some k := by simpa using hk
              obtain ⟨h1, h2⟩ := h j k (by omega) hkD
              refine ⟨((hpop _).mp h1).1, fun hlt x hx hxk => h2 (by omega) x ?_ hxk⟩
              refine (hpop x).mpr ⟨hx, ?_⟩
              rintro rfl
              have := (pairwise_cons.mp C.sorted).1 k (mem_of_getElem? hkD)
              rw [← hxk, hkd] at this
              exact lt_irrefl _ this
          · intro h j k hj hk
            obtain ⟨h1, h2⟩ := h (j + 1) k (by omega) (by simpa using hk)
            refine ⟨(hpop _).mpr ⟨h1, ?_⟩, fun hlt x hx => h2 (by omega) x ((hpop x).mp hx).1⟩
            intro he
            have hkm := mem_of_getElem? hk
            have := (pairwise_cons.mp C.sorted).1 k hkm
            rw [← C.key_best k (.tail _ hkm), he, hkd] at this
            exact lt_irrefl _ this
        · cases n with
          | zero =>
            refine iff_of_true (by simp [select]) fun j k hj hk => ?_
            have hj : j = 0 := by omega
            subst hj
            cases (show d = k by simpa using hk)
            exact ⟨hd, fun h => by omega⟩
          | succ n =>
            -- the other element with the first key is selected next
            have hright : ¬ ∀ j k, j < n + 1 + 1 → (d :: D)[j]? = some k → best k ∈ ts.flatten ∧
                (j + 1 < n + 1 + 1 → ∀ x ∈ ts.flatten, key x = k → x = best k) :=
              fun h => hdup ((h 0 d (by omega) rfl).2 (by omega))
            refine iff_of_false (fun h => ?_) hright
            obtain ⟨x, hx⟩ := not_forall.mp hdup
            obtain ⟨hxf, hx⟩ := Classical.not_imp.mp hx
            obtain ⟨hxk, hne⟩ := Classical.not_imp.mp hx
            obtain ⟨y, ys, hy, hle⟩ :=
              select_head_le (n := n) (C.streams.pop _) ((hpop x).mpr ⟨hxf, hne⟩)
            rw [hy] at h
            cases D with
            | nil => cases h
            | cons e D =>
              have hye : y = best e := (cons.inj h).1
              have hlt := (pairwise_cons.mp C.sorted).1 e mem_cons_self
              have hke := C.key_best e (.tail _ mem_cons_self)
              rw [hye, hke, hxk] at hle
              exact absurd hlt (not_lt.mpr hle)
      · refine iff_of_false (fun h => hd (select_subset (h ▸ List.mem_cons_self))) fun h => ?_
        exact hd (h 0 d (by omega) rfl).1

end FlashDriver.Core.Selection
