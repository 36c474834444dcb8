import FlashDriver.Lsmtree.Key

/-!
# Merging sorted entries (`level_target/array/pipe_merger.c`)

The two-way merge of a compaction, on the entries it reads and writes: the
upper (newer) side wins a tie and the lower side's address is invalidated.
How the entries lie in header pages is the subject of `Lsmtree.Page`.

* `merge_total`: on keys that pass `KEYVALCHECK` the merge does not abort.
* `merge_sorted`, `lookup_merge`: on sorted inputs the result is sorted and
  holds, for each key, the upper address if there is one and the lower one
  otherwise.
* `merge_invalid`: exactly the lower addresses of shared keys are invalidated.
* `pack_flatten`: cutting the result into pages keeps it.
-/
namespace FlashDriver.Lsmtree

open List Option

/-- mirrors algorithm/Lsmtree/level.h (`keyset`); `π` is the type of addresses -/
structure Keyset (π : Type) where
  ppa : π
  key : Key
  deriving DecidableEq, Repr

variable {π : Type}

/-- Strictly increasing keys. -/
def Sorted (es : List (Keyset π)) : Prop := es.Pairwise fun a b => keycmp a.key b.key = .lt

instance (es : List (Keyset π)) : Decidable (Sorted es) :=
  inferInstanceAs (Decidable (es.Pairwise _))

/-- The address an entry list has for a key. -/
def lookup (es : List (Keyset π)) (k : Key) : Option π := (es.find? fun e => e.key = k).map (·.ppa)

def keys (es : List (Keyset π)) : List Key := es.map (·.key)

/-! ## Entry lists -/

@[simp] theorem lookup_nil (k : Key) : lookup ([] : List (Keyset π)) k = none := rfl

theorem lookup_cons (e : Keyset π) (es : List (Keyset π)) (k : Key) :
    lookup (e :: es) k = if e.key = k then some e.ppa else lookup es k := by
  by_cases h : e.key = k <;> simp [lookup, h]

theorem lookup_append (es fs : List (Keyset π)) (k : Key) :
    lookup (es ++ fs) k = (lookup es k).or (lookup fs k) := by
  induction es with
  | nil => rfl
  | cons e es ih =>
    rw [cons_append, lookup_cons, lookup_cons, ih]
    split <;> rfl

theorem lookup_eq_none {es : List (Keyset π)} {k : Key} : lookup es k = none ↔ k ∉ keys es := by
  simp only [lookup, Option.map_eq_none_iff, List.find?_eq_none, decide_eq_true_eq, keys,
    List.mem_map, not_exists, not_and]

theorem lookup_isSome {es : List (Keyset π)} {k : Key} :
    (lookup es k).isSome = true ↔ k ∈ keys es := by
  rw [← not_iff_not, Bool.not_eq_true, isSome_eq_false_iff, isNone_iff_eq_none, lookup_eq_none]

theorem Sorted.tail {e : Keyset π} {es : List (Keyset π)} (h : Sorted (e :: es)) : Sorted es :=
  (pairwise_cons.mp h).2

theorem Sorted.head_lt {e : Keyset π} {es : List (Keyset π)} (h : Sorted (e :: es)) :
    ∀ x ∈ es, keycmp e.key x.key = .lt :=
  (pairwise_cons.mp h).1

theorem lookup_lt_head {e : Keyset π} {es : List (Keyset π)} (h : Sorted (e :: es)) {k : Key}
    (hk : keycmp k e.key = .lt) : lookup (e :: es) k = none := by
  rw [lookup_eq_none]
  intro hm
  obtain ⟨x, hx, rfl⟩ := mem_map.mp hm
  rcases mem_cons.mp hx with rfl | hx
  · exact keycmp_irrefl _ hk
  · exact keycmp_irrefl _ (keycmp_trans hk (h.head_lt x hx))

theorem lookup_tail_head {e : Keyset π} {es : List (Keyset π)} (h : Sorted (e :: es)) :
    lookup es e.key = none := by
  rw [lookup_eq_none]
  intro hm
  obtain ⟨x, hx, he⟩ := mem_map.mp hm
  have := h.head_lt x hx
  rw [he] at this
  exact keycmp_irrefl _ this

theorem lookup_head (e : Keyset π) (es : List (Keyset π)) : lookup (e :: es) e.key = some e.ppa := by
  rw [lookup_cons, if_pos rfl]

theorem lookup_of_mem {es : List (Keyset π)} (h : Sorted es) {e : Keyset π} (he : e ∈ es) :
    lookup es e.key = some e.ppa := by
  induction es with
  | nil => cases he
  | cons a es ih =>
    rcases mem_cons.mp he with rfl | he
    · exact lookup_head e es
    · have hne : a.key ≠ e.key := fun heq => by
        have := h.head_lt e he
        rw [heq] at this
        exact keycmp_irrefl _ this
      rw [lookup_cons, if_neg hne]
      exact ih h.tail he

theorem Sorted.ext {es fs : List (Keyset π)} (he : Sorted es) (hf : Sorted fs)
    (h : ∀ k, lookup es k = lookup fs k) : es = fs := by
  induction es generalizing fs with
  | nil =>
    cases fs with
    | nil => rfl
    | cons f fs => simpa [lookup_head] using h f.key
  | cons e es ih =>
    cases fs with
    | nil => simpa [lookup_head] using h e.key
    | cons f fs =>
      -- neither head can lie below the other list
      have hkey : e.key = f.key := by
        rcases hc : keycmp e.key f.key with _ | _ | _
        · have := h e.key
          rw [lookup_head, lookup_lt_head hf hc] at this
          cases this
        · exact keycmp_eq_iff.mp hc
        · have := h f.key
          rw [lookup_head, lookup_lt_head he (keycmp_gt_iff.mp hc)] at this
          cases this
      have hppa : e.ppa = f.ppa := by
        have := h e.key
        rw [lookup_head, lookup_cons, if_pos hkey.symm] at this
        exact some.inj this
      have htail : es = fs := by
        refine ih he.tail hf.tail fun k => ?_
        have hk := h k
        rw [lookup_cons, lookup_cons, ← hkey] at hk
        by_cases hek : e.key = k
        · subst hek
          rw [lookup_tail_head he, hkey, lookup_tail_head hf]
        · rwa [if_neg hek, if_neg hek] at hk
      obtain ⟨ep, ek⟩ := e
      obtain ⟨fp, fk⟩ := f
      simp only at hkey hppa
      rw [hkey, hppa, htail]

/-! ## The merge -/

/-- The entries written so far and the addresses given to `invalidate_PPA`. -/
abbrev Merged (π : Type) := List (Keyset π) × List π

/-- mirrors pipe_merger.c:90-147: `none` is the
`abort()` on a key that fails `KEYVALCHECK`. -/
def merge : List (Keyset π) → List (Keyset π) → Option (Merged π)
  | [], [] => some ([], [])
  | [], h :: hs => (merge [] hs).map fun r => (h :: r.1, r.2)
  | l :: ls, [] => (merge ls []).map fun r => (l :: r.1, r.2)
  | l :: ls, h :: hs =>
    if !keyvalcheck l.key then none
    else if !keyvalcheck h.key then none
    else
      match keycmp l.key h.key with
      | .lt => (merge ls (h :: hs)).map fun r => (l :: r.1, r.2)
      | .gt => (merge (l :: ls) hs).map fun r => (h :: r.1, r.2)
      | .eq => (merge ls hs).map fun r => (h :: r.1, l.ppa :: r.2)
termination_by l h => l.length + h.length

theorem merge_total {l h : List (Keyset π)} (hl : ∀ e ∈ l, keyvalcheck e.key = true)
    (hh : ∀ e ∈ h, keyvalcheck e.key = true) : ∃ r, merge l h = some r := by
  fun_induction merge l h with
  | case1 => exact ⟨_, rfl⟩
  | case2 h hs ih =>
    obtain ⟨r, hr⟩ := ih hl (fun e he => hh e (.tail _ he))
    exact ⟨_, by rw [hr]; rfl⟩
  | case3 l ls ih =>
    obtain ⟨r, hr⟩ := ih (fun e he => hl e (.tail _ he)) hh
    exact ⟨_, by rw [hr]; rfl⟩
  | case4 l ls h hs hv => simp [hl l mem_cons_self] at hv
  | case5 l ls h hs _ hv => simp [hh h mem_cons_self] at hv
  | case6 l ls h hs _ _ _ ih =>
    obtain ⟨r, hr⟩ := ih (fun e he => hl e (.tail _ he)) hh
    exact ⟨_, by rw [hr]; rfl⟩
  | case7 l ls h hs _ _ _ ih =>
    obtain ⟨r, hr⟩ := ih hl (fun e he => hh e (.tail _ he))
    exact ⟨_, by rw [hr]; rfl⟩
  | case8 l ls h hs _ _ _ ih =>
    obtain ⟨r, hr⟩ := ih (fun e he => hl e (.tail _ he)) (fun e he => hh e (.tail _ he))
    exact ⟨_, by rw [hr]; rfl⟩

theorem merge_ne_nil {l h : List (Keyset π)} {r : Merged π} (hr : merge l h = some r) (hl : l ≠ []) :
    r.1 ≠ [] := by
  fun_cases merge l h with
  | case1 => exact absurd rfl hl
  | case2 => exact absurd rfl hl
  | case4 l ls h hs hv => rw [merge, if_pos hv] at hr; cases hr
  | case5 l ls h hs hv hv' => rw [merge, if_neg hv, if_pos hv'] at hr; cases hr
  | _ =>
    rw [merge] at hr
    simp_all only [map_eq_some_iff, Bool.false_eq_true, if_false]
    obtain ⟨r', -, rfl⟩ := hr
    simp

theorem merge_mem {l h : List (Keyset π)} {r : Merged π} (hr : merge l h = some r) :
    ∀ e ∈ r.1, e ∈ l ∨ e ∈ h := by
  fun_induction merge l h generalizing r with
  | case1 => cases hr; simp
  | case4 => cases hr
  | case5 => cases hr
  | case2 | case3 | case6 | case7 | case8 =>
    rename_i ih
    obtain ⟨r', hr', rfl⟩ := map_eq_some_iff.mp hr
    intro e he
    have := ih hr' e
    simp only [mem_cons] at he ⊢
    grind

theorem lookup_merge {l h : List (Keyset π)} {r : Merged π} (hl : Sorted l) (hh : Sorted h)
    (hr : merge l h = some r) (k : Key) : lookup r.1 k = (lookup h k).or (lookup l k) := by
  fun_induction merge l h generalizing r with
  | case1 => cases hr; rfl
  | case4 => cases hr
  | case5 => cases hr
  | case2 h hs ih =>
    obtain ⟨r', hr', rfl⟩ := map_eq_some_iff.mp hr
    simp only [lookup_cons, ih hl hh.tail hr']
    split <;> simp
  | case3 l ls ih =>
    obtain ⟨r', hr', rfl⟩ := map_eq_some_iff.mp hr
    simp only [lookup_cons, ih hl.tail hh hr']
    split <;> simp
  | case6 l ls h hs _ _ hc ih =>
    obtain ⟨r', hr', rfl⟩ := map_eq_some_iff.mp hr
    rw [lookup_cons, lookup_cons (e := l), ih hl.tail hh hr']
    split
    · rename_i hk
      rw [← hk, lookup_lt_head hh hc, none_or]
    · rfl
  | case7 l ls h hs _ _ hc ih =>
    obtain ⟨r', hr', rfl⟩ := map_eq_some_iff.mp hr
    rw [lookup_cons, lookup_cons (e := h), ih hl hh.tail hr']
    split <;> simp
  | case8 l ls h hs _ _ hc ih =>
    obtain ⟨r', hr', rfl⟩ := map_eq_some_iff.mp hr
    rw [keycmp_eq_iff] at hc
    rw [lookup_cons, lookup_cons (e := h), lookup_cons (e := l), ih hl.tail hh.tail hr']
    split
    · simp
    · rw [if_neg (by rwa [hc])]

theorem merge_sorted {l h : List (Keyset π)} {r : Merged π} (hl : Sorted l) (hh : Sorted h)
    (hr : merge l h = some r) : Sorted r.1 := by
  fun_induction merge l h generalizing r with
  | case1 => cases hr; exact List.Pairwise.nil
  | case4 => cases hr
  | case5 => cases hr
  | case2 h hs ih =>
    obtain ⟨r', hr', rfl⟩ := map_eq_some_iff.mp hr
    refine pairwise_cons.mpr ⟨fun e he => ?_, ih hl hh.tail hr'⟩
    exact hh.head_lt e ((merge_mem hr' e he).resolve_left (by simp))
  | case3 l ls ih =>
    obtain ⟨r', hr', rfl⟩ := map_eq_some_iff.mp hr
    refine pairwise_cons.mpr ⟨fun e he => ?_, ih hl.tail hh hr'⟩
    exact hl.head_lt e ((merge_mem hr' e he).resolve_right (by simp))
  | case6 l ls h hs _ _ hc ih =>
    obtain ⟨r', hr', rfl⟩ := map_eq_some_iff.mp hr
    refine pairwise_cons.mpr ⟨fun e he => ?_, ih hl.tail hh hr'⟩
    rcases merge_mem hr' e he with he | he
    · exact hl.head_lt e he
    · rcases mem_cons.mp he with rfl | he
      · exact hc
      · exact keycmp_trans hc (hh.head_lt e he)
  | case7 l ls h hs _ _ hc ih =>
    obtain ⟨r', hr', rfl⟩ := map_eq_some_iff.mp hr
    have hc := keycmp_gt_iff.mp hc
    refine pairwise_cons.mpr ⟨fun e he => ?_, ih hl hh.tail hr'⟩
    rcases merge_mem hr' e he with he | he
    · rcases mem_cons.mp he with rfl | he
      · exact hc
      · exact keycmp_trans hc (hl.head_lt e he)
    · exact hh.head_lt e he
  | case8 l ls h hs _ _ hc ih =>
    obtain ⟨r', hr', rfl⟩ := map_eq_some_iff.mp hr
    rw [keycmp_eq_iff] at hc
    refine pairwise_cons.mpr ⟨fun e he => ?_, ih hl.tail hh.tail hr'⟩
    rcases merge_mem hr' e he with he | he
    · rw [← hc]
      exact hl.head_lt e he
    · exact hh.head_lt e he

theorem merge_invalid {l h : List (Keyset π)} {r : Merged π} (hl : Sorted l) (hh : Sorted h)
    (hr : merge l h = some r) :
    r.2 = (l.filter fun e => (lookup h e.key).isSome).map (·.ppa) := by
  fun_induction merge l h generalizing r with
  | case1 => cases hr; rfl
  | case4 => cases hr
  | case5 => cases hr
  | case2 h hs ih =>
    obtain ⟨r', hr', rfl⟩ := map_eq_some_iff.mp hr
    have hi := ih hl hh.tail hr'
    exact hi
  | case3 l ls ih =>
    obtain ⟨r', hr', rfl⟩ := map_eq_some_iff.mp hr
    simpa using ih hl.tail hh hr'
  | case6 l ls h hs _ _ hc ih =>
    obtain ⟨r', hr', rfl⟩ := map_eq_some_iff.mp hr
    rw [filter_cons_of_neg (by rw [lookup_lt_head hh hc]; simp), ← ih hl.tail hh hr']
  | case7 l ls h hs _ _ hc ih =>
    obtain ⟨r', hr', rfl⟩ := map_eq_some_iff.mp hr
    have hc := keycmp_gt_iff.mp hc
    refine (ih hl hh.tail hr').trans (congrArg _ (filter_congr fun e he => ?_))
    -- The head of the upper input lies below every lower entry.
    have hlt : keycmp h.key e.key = .lt := by
      rcases mem_cons.mp he with rfl | he
      · exact hc
      · exact keycmp_trans hc (hl.head_lt e he)
    rw [lookup_cons, if_neg (fun heq => keycmp_irrefl _ (heq ▸ hlt))]
  | case8 l ls h hs _ _ hc ih =>
    obtain ⟨r', hr', rfl⟩ := map_eq_some_iff.mp hr
    rw [keycmp_eq_iff] at hc
    rw [filter_cons_of_pos (by rw [lookup_cons, if_pos hc.symm]; rfl), map_cons,
      ih hl.tail hh.tail hr']
    refine congrArg _ (congrArg _ (filter_congr fun e he => ?_))
    have hlt := hl.head_lt e he
    rw [lookup_cons, if_neg (fun heq => keycmp_irrefl _ ((heq ▸ hc) ▸ hlt))]

/-! ## Cutting the result into pages -/

/-- `PAGESIZE`, `KEYBITMAP` and `KEYLEN`: include/settings.h, include/lsm_settings.h:5-22 -/
def pageSize : Nat := 8192

def keyBitmap : Nat := 1024

def keylen (k : Key) : Nat := k.length + 4

/-- The bytes that entries take in the data area of a page. -/
def dataSize (es : List (Keyset π)) : Nat := (es.map fun e => keylen e.key).sum

/-- mirrors pipe.c:75-76: the page that holds `now` is
closed before `e` is written, for want of slots or of bytes. -/
def closes (now : List (Keyset π)) (e : Keyset π) : Bool :=
  now.length + 1 ≥ (pageSize - keyBitmap) / 2 - 2 ||
    keyBitmap + dataSize now + keylen e.key > pageSize

def packFrom (now : List (Keyset π)) : List (Keyset π) → List (List (Keyset π))
  | [] => [now]
  | e :: es => if closes now e then now :: packFrom [e] es else packFrom (now ++ [e]) es

/-- The pages that a sequence of `pbody_insert_new_key` calls and the final flush leave. -/
def pack : List (Keyset π) → List (List (Keyset π))
  | [] => []
  | e :: es => packFrom [e] es

theorem packFrom_flatten (now es : List (Keyset π)) : (packFrom now es).flatten = now ++ es := by
  induction es generalizing now with
  | nil => simp [packFrom]
  | cons e es ih =>
    rw [packFrom]
    split
    · rw [flatten_cons, ih, singleton_append]
    · rw [ih, append_assoc, singleton_append]

theorem packFrom_length_pos (now es : List (Keyset π)) : 0 < (packFrom now es).length := by
  induction es generalizing now with
  | nil => simp [packFrom]
  | cons e es ih =>
    rw [packFrom]
    split
    · simp
    · exact ih _

theorem pack_flatten (es : List (Keyset π)) : (pack es).flatten = es := by
  cases es with
  | nil => rfl
  | cons e es => exact packFrom_flatten [e] es

end FlashDriver.Lsmtree
