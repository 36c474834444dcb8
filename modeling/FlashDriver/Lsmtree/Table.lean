import FlashDriver.Lsmtree.Bloom
import FlashDriver.Lsmtree.Page

/-!
# Flushing a chunk (`level_target/array/array_level.c`, `array.c`)

`array_mem_cvt2table` writes a chunk of the memtable into one header page and
fills in the run's first and last key; `array_find_keyset` is the binary
search on such a page.

* `memCvt2table_spec`: the page holds the chunk's entries.
* `findKeyset_spec`: the binary search finds exactly the stored keys.
* `table_round_trip`: when the whole round trip holds, the run's keys included.
-/
namespace FlashDriver.Lsmtree

open List Option
open Core.Bytes

/-! ## `array_mem_cvt2table` -/

/-- The keys of a `run_t`; `none` is a pointer that was freed or never set. -/
structure RunKeys where
  key : Option Key
  end_ : Option Key
  deriving DecidableEq, Repr

/-- The state of the loop over the chunk, and its result. -/
structure Cvt where
  sets : Page
  idx : Nat
  dataStart : Nat
  run : RunKeys
  filter : Option BF

/-- The loop's assignments to the run passed in. -/
def RunKeys.note (run : RunKeys) (idx size : Nat) (k : Key) : RunKeys :=
  if idx = 1 then { run with key := some k }
  else if idx = size then { run with end_ := some k }
  else run

/-- mirrors array_level.c:66-85 -/
def Cvt.put (size : Nat) (s : Cvt) (e : Ent) : Option Cvt := do
  let sets ← putEntry s.sets s.idx s.dataStart e
  some { sets := sets, idx := s.idx + 1, dataStart := (s.dataStart + keylen e.key) % 2 ^ 16
         run := s.run.note s.idx size e.key, filter := bfSetIf s.filter e.key }

/-- mirrors array_level.c:47-91: `sets` is the fresh
buffer, `none` a write behind its end. The `memset` covers 512 bytes, half of the table. -/
def memCvt2table (sets : Page) (mem : List Ent) (input : RunKeys) (filter : Option BF) :
    Option Cvt := do
  let sets ← store pageSize sets 0 (replicate (keyBitmap / 2) 0xff)
  let sets ← setSlot sets 0 mem.length
  let s ← mem.foldlM (Cvt.put mem.length) ⟨sets, 1, keyBitmap, input, filter⟩
  let sets ← setSlot s.sets s.idx s.dataStart
  some { s with sets := sets }

/-! ## `array_find_keyset` -/

/-- mirrors array.c:237-251: the loop on `s` and `e`, at
most `fuel` rounds; the inner `none` is `NULL`. -/
def findFrom (p : Page) (lpa : Key) : Nat → Nat → Nat → Option (Option Ent)
  | 0, s, e => if s ≤ e then none else some none
  | fuel + 1, s, e =>
    if s ≤ e then do
      let target ← readEntry p ((s + e) / 2)
      match keycmp target.key lpa with
      | .eq => some (some target)
      | .lt => findFrom p lpa fuel ((s + e) / 2 + 1) e
      | .gt => findFrom p lpa fuel s ((s + e) / 2 - 1)
    else some none

/-- mirrors array.c:232-253 -/
def findKeyset (p : Page) (lpa : Key) : Option (Option Ent) := do
  let n ← slot p 0
  findFrom p lpa n 1 n

/-! ## The page of a chunk -/

theorem FitsPage.left {es fs : List Ent} (h : FitsPage (es ++ fs)) : FitsPage es where
  slots := by
    have := h.slots
    rw [length_append] at this
    omega
  bytes := by
    have := h.bytes
    rw [dataSize_append] at this
    omega
  len := fun e he => h.len e (mem_append_left _ he)

/-- The keys noted for the entries at positions `i`, `i+1`, … of a chunk of `size` entries. -/
def notes (size : Nat) : Nat → RunKeys → List Ent → RunKeys
  | _, run, [] => run
  | i, run, e :: es => notes size (i + 1) (run.note (i + 1) size e.key) es

theorem foldlM_put (size : Nat) {now es : List Ent} {p : Page} (run : RunKeys) (f : Option BF)
    (F : Filled p now) (h : FitsPage (now ++ es)) :
    ∃ p', es.foldlM (Cvt.put size) ⟨p, now.length + 1, keyBitmap + dataSize now, run, f⟩ =
        some ⟨p', (now ++ es).length + 1, keyBitmap + dataSize (now ++ es),
          notes size now.length run es, (keys es).foldl bfSetIf f⟩ ∧
      Filled p' (now ++ es) ∧ slotAt p' 0 = slotAt p 0 := by
  induction es generalizing now p run f with
  | nil => exact ⟨p, by simp [notes, keys], by simpa using F, rfl⟩
  | cons e es ih =>
    have happ : now ++ e :: es = (now ++ [e]) ++ es := by simp
    rw [happ] at h ⊢
    obtain ⟨p1, hp1, F1, h01⟩ := F.putEntry h.left
    obtain ⟨p2, hp2, F2, h02⟩ := ih (run.note (now.length + 1) size e.key) (bfSetIf f e.key) F1 h
    refine ⟨p2, ?_, F2, h02.trans h01⟩
    have hb := h.left.bytes
    have hsz : (keyBitmap + dataSize now + keylen e.key) % 2 ^ 16 =
        keyBitmap + dataSize (now ++ [e]) := by
      simp only [dataSize_append, dataSize_cons, dataSize_nil, pageSize] at hb ⊢
      omega
    rw [foldlM_cons, Cvt.put, hp1]
    simp only [bind_eq_bind, bind_some, hsz]
    rw [length_append, length_singleton] at hp2
    exact hp2

theorem memCvt2table_spec (p : Page) (es : List Ent) (input : RunKeys) (f : Option BF)
    (h : FitsPage es) :
    ∃ t, memCvt2table p es input f = some t ∧ Encodes t.sets es ∧
      t.run = notes es.length 0 input es ∧ t.filter = (keys es).foldl bfSetIf f := by
  have hs := h.slots
  simp only [keyBitmap] at hs
  have hset := setSlot_eq (p := write p 0 (replicate (keyBitmap / 2) 0xff)) (i := 0)
    (v := es.length) (by simp [pageSize])
  obtain ⟨p1, hp1, F1, h01⟩ := foldlM_put es.length input f
    (Filled.nil (write (write p 0 (replicate (keyBitmap / 2) 0xff)) (2 * 0) (toLe 2 es.length)))
    h
  have hcnt : slotAt p1 0 = es.length := h01.trans (slotAt_setSlot (by omega) hset)
  rw [nil_append] at F1
  obtain ⟨p2, hp2, E⟩ := F1.terminate h hcnt
  refine ⟨⟨p2, es.length + 1, keyBitmap + dataSize es, notes es.length 0 input es,
    (keys es).foldl bfSetIf f⟩, ?_, E, rfl, rfl⟩
  have hst : store pageSize p 0 (replicate (keyBitmap / 2) 0xff) =
      some (write p 0 (replicate (keyBitmap / 2) 0xff)) := store_eq (by rw [length_replicate]; decide)
  have hp1' : es.foldlM (Cvt.put es.length) ⟨write (write p 0 (replicate (keyBitmap / 2) 0xff))
      (2 * 0) (toLe 2 es.length), 1, keyBitmap, input, f⟩ = some ⟨p1, es.length + 1,
        keyBitmap + dataSize es, notes es.length 0 input es, (keys es).foldl bfSetIf f⟩ := hp1
  rw [memCvt2table, hst]
  simp only [bind_eq_bind, bind_some]
  rw [hset, bind_some, hp1', bind_some, hp2, bind_some]

/-! ## The run's keys -/

theorem notes_key_succ {size i : Nat} {run : RunKeys} {es : List Ent} :
    (notes size (i + 1) run es).key = run.key := by
  induction es generalizing i run with
  | nil => rfl
  | cons e es ih =>
    rw [notes, ih, RunKeys.note, if_neg (by omega)]
    split <;> rfl

theorem notes_end (i : Nat) (run : RunKeys) (e : Ent) (es : List Ent) :
    (notes (i + 1 + (es.length + 1)) (i + 1) run (e :: es)).end_ =
      some ((e :: es).getLast (by simp)).key := by
  induction es generalizing i run e with
  | nil => simp [notes, RunKeys.note]
  | cons d es ih =>
    have hsz : i + 1 + ((d :: es).length + 1) = i + 1 + 1 + (es.length + 1) := by
      rw [length_cons]
      omega
    rw [notes, hsz, ih]
    rfl

theorem notes_key {run : RunKeys} {e : Ent} {es : List Ent} :
    (notes (es.length + 1) 0 run (e :: es)).key = some e.key := by
  rw [notes, notes_key_succ]
  rfl

theorem notes_end_zero (run : RunKeys) (e : Ent) (es : List Ent) :
    (notes (es.length + 1) 0 run (e :: es)).end_ =
      if es = [] then run.end_ else some ((e :: es).getLast (by simp)).key := by
  cases es with
  | nil => rfl
  | cons d es =>
    have h := notes_end 0 (run.note 1 ((d :: es).length + 1) e.key) d es
    rw [notes, if_neg (by simp), getLast_cons (by simp), ← h, length_cons]
    congr 2
    omega

/-! ## The binary search -/

theorem Sorted.getElem_lt {es : List Ent} (h : Sorted es) {i j : Nat} (hij : i < j)
    (hj : j < es.length) : keycmp (es[i]).key (es[j]).key = .lt :=
  pairwise_iff_getElem.mp h i j _ hj hij

theorem Sorted.index_gt {es : List Ent} (h : Sorted es) {lpa : Key} {m i : Nat} (hm : m < es.length)
    (hlt : keycmp (es[m]).key lpa = .lt) (hi : i < es.length) (hk : (es[i]).key = lpa) : m < i := by
  subst hk
  by_contra hle
  rcases Nat.lt_or_eq_of_le (le_of_not_gt hle) with him | rfl
  · exact keycmp_irrefl _ (keycmp_trans hlt (h.getElem_lt him hm))
  · exact keycmp_irrefl _ hlt

theorem Sorted.index_lt {es : List Ent} (h : Sorted es) {lpa : Key} {m i : Nat} (hm : m < es.length)
    (hgt : keycmp lpa (es[m]).key = .lt) (hi : i < es.length) (hk : (es[i]).key = lpa) : i < m := by
  subst hk
  by_contra hle
  rcases Nat.lt_or_eq_of_le (le_of_not_gt hle) with him | rfl
  · exact keycmp_irrefl _ (keycmp_trans hgt (h.getElem_lt him hi))
  · exact keycmp_irrefl _ hgt

theorem Sorted.find?_getElem {es : List Ent} (h : Sorted es) {m : Nat} (hm : m < es.length) :
    es.find? (fun x => x.key = (es[m]).key) = some es[m] := by
  rw [find?_eq_some_iff_getElem]
  refine ⟨by simp, m, hm, rfl, fun j hj => ?_⟩
  have hlt := h.getElem_lt hj hm
  simp only [Bool.not_eq_true', decide_eq_false_iff_not]
  intro hjk
  rw [hjk] at hlt
  exact keycmp_irrefl _ hlt

/-- The slots from `s` to `e` are the only ones where `lpa` may stand. -/
def InWindow (es : List Ent) (lpa : Key) (s e : Nat) : Prop :=
  ∀ i (hi : i < es.length), (es[i]).key = lpa → s ≤ i + 1 ∧ i + 1 ≤ e

theorem InWindow.find?_none {es : List Ent} {lpa : Key} {s e : Nat} (h : InWindow es lpa s e)
    (hse : e < s) : es.find? (fun x => x.key = lpa) = none := by
  rw [find?_eq_none]
  intro x hx hk
  obtain ⟨i, hi, rfl⟩ := getElem_of_mem hx
  have := h i hi (by simpa using hk)
  omega

theorem findFrom_spec {p : Page} {es : List Ent} (E : Encodes p es) (h : FitsPage es)
    (hs : Sorted es) {lpa : Key} {fuel s e : Nat} (h1 : 1 ≤ s) (he : e ≤ es.length)
    (hf : e < s + fuel) (hin : InWindow es lpa s e) :
    findFrom p lpa fuel s e = some (es.find? fun x => x.key = lpa) := by
  induction fuel generalizing s e with
  | zero => rw [findFrom, if_neg (by omega), hin.find?_none (by omega)]
  | succ fuel ih =>
    by_cases hse : s ≤ e
    · obtain ⟨m, hm⟩ : ∃ m, (s + e) / 2 = m + 1 := ⟨(s + e) / 2 - 1, by omega⟩
      have hml : m < es.length := by omega
      rw [findFrom, if_pos hse, hm, readEntry_eq E h hml]
      simp only [bind_eq_bind, bind_some]
      split
      · rename_i heq
        rw [keycmp_eq_iff] at heq
        subst heq
        rw [hs.find?_getElem hml]
      · rename_i hlt
        refine ih (by omega) he (by omega) fun i hi hk => ?_
        have := hs.index_gt hml hlt hi hk
        exact ⟨by omega, (hin i hi hk).2⟩
      · rename_i hgt
        refine ih h1 (by omega) (by omega) fun i hi hk => ?_
        have := hs.index_lt hml (keycmp_gt_iff.mp hgt) hi hk
        exact ⟨(hin i hi hk).1, by omega⟩
    · rw [findFrom, if_neg hse, hin.find?_none (by omega)]

theorem findKeyset_spec {p : Page} {es : List Ent} (E : Encodes p es) (h : FitsPage es)
    (hs : Sorted es) (lpa : Key) :
    findKeyset p lpa = some (es.find? fun x => x.key = lpa) := by
  rw [findKeyset, slot_eq (by simp [pageSize]), E.count]
  exact findFrom_spec E h hs (le_rfl) (le_rfl) (by omega) fun i hi _ => by omega

/-! ## The round trip -/

/-- What a flushed chunk gives: the scan enumerates it, the search finds exactly its keys,
and the run has its first and last key. -/
structure RoundTrip (es : List Ent) (t : Cvt) : Prop where
  scan : headerEntries t.sets = some es
  found : ∀ e ∈ es, findKeyset t.sets e.key = some (some e)
  absent : ∀ k, k ∉ keys es → findKeyset t.sets k = some none
  first : t.run.key = es.head?.map (·.key)
  last : t.run.end_ = es.getLast?.map (·.key)

/-- For every chunk within the limits of a page: the table is written, and the round trip
holds iff the chunk has two entries or the run passed in already ends with its only key.
The second branch of the loop's test on `idx` is not taken for the first entry. -/
theorem table_round_trip (sets : Page) (es : List Ent) (input : RunKeys) (filter : Option BF)
    (h1 : 1 ≤ es.length) (hn : es.length ≤ keyBitmap / 2 - 2) (hs : Sorted es)
    (hb : dataSize es ≤ pageSize - keyBitmap) (hl : ∀ e ∈ es, e.key.length < 256) :
    ∃ t, memCvt2table sets es input filter = some t ∧
      (RoundTrip es t ↔ 2 ≤ es.length ∨ input.end_ = es.getLast?.map (·.key)) := by
  have hfit : FitsPage es := by
    refine ⟨?_, ?_, hl⟩
    · simp only [keyBitmap] at hn ⊢
      omega
    · simp only [keyBitmap, pageSize] at hb ⊢
      omega
  obtain ⟨t, ht, E, hrun, -⟩ := memCvt2table_spec sets es input filter hfit
  refine ⟨t, ht, ?_⟩
  cases es with
  | nil => simp at h1
  | cons e es =>
    have hend := notes_end_zero input e es
    rw [length_cons] at hrun
    rw [← hrun] at hend
    have hlast : t.run.end_ = (e :: es).getLast?.map (·.key) ↔
        2 ≤ (e :: es).length ∨ input.end_ = (e :: es).getLast?.map (·.key) := by
      rw [hend, getLast?_eq_some_getLast (by simp)]
      cases es with
      | nil => simp
      | cons d es => simp
    rw [← hlast]
    refine ⟨fun R => R.last, fun hlast => ⟨headerEntries_eq E hfit, fun x hx => ?_, fun k hk => ?_,
      ?_, hlast⟩⟩
    · obtain ⟨i, hi, rfl⟩ := getElem_of_mem hx
      rw [findKeyset_spec E hfit hs, hs.find?_getElem hi]
    · rw [findKeyset_spec E hfit hs, find?_eq_none.mpr]
      intro x hx hxk
      exact hk (mem_map.mpr ⟨x, hx, by simpa using hxk⟩)
    · rw [hrun, notes_key]
      rfl

theorem table_round_trip_two : ∃ t, memCvt2table (fun _ => 0) [⟨7, [97]⟩, ⟨9, [97, 98]⟩] ⟨none, none⟩
    none = some t ∧ RoundTrip [⟨7, [97]⟩, ⟨9, [97, 98]⟩] t := by
  obtain ⟨t, ht, h⟩ := table_round_trip (fun _ => 0) [⟨7, [97]⟩, ⟨9, [97, 98]⟩] ⟨none, none⟩ none
    (by decide) (by decide) (by decide) (by decide) (by decide)
  exact ⟨t, ht, h.mpr (.inl (by decide))⟩

/-- The run that `compaction_empty_level` passes in, both keys freed
(compaction_assistant.c:589-591), keeps no `end` for a chunk of one entry. -/
theorem table_one_entry : ∃ t, memCvt2table (fun _ => 0) [⟨7, [97]⟩] ⟨none, none⟩ none = some t ∧
    ¬ RoundTrip [⟨7, [97]⟩] t := by
  obtain ⟨t, ht, -, hrun, -⟩ := memCvt2table_spec (fun _ => 0) [⟨7, [97]⟩] ⟨none, none⟩ none
    ⟨by decide, by decide, by decide⟩
  refine ⟨t, ht, fun R => ?_⟩
  have hlast := R.last
  rw [hrun] at hlast
  exact absurd hlast (by decide)

end FlashDriver.Lsmtree
