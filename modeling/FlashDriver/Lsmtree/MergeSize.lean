import FlashDriver.Core.NextFit
import FlashDriver.Lsmtree.PipeMerger

/-!
# How many pages a merge makes (`level_target/array/pipe_merger.c`)

`r_data` and, in the pipelined merge, `result_temp` have places for
`o_num+u_num+result_padding` pages. The writer opens a page whenever the next
record does not fit, so it takes as few pages as the order of the keys
allows, but that can be more than there are places.

* `cut_eq_nextFit`: the writer's pages are those of `Core.NextFit`.
* `result_pages_bound`: both merges stay within their places iff the union
  can be cut into that many pages at all.
-/
namespace FlashDriver.Lsmtree

open List Option Function
open FlashDriver.Core

/-! ## The pipelined merge -/

/-- mirrors pipe_merger.c:297-304: the pages that become
`result_temp`, which has `room` places. -/
def resultTemp (room : Nat) : Nat → Bool → PBody → List Page → Option (List Page)
  | 0, _, _, _ => none
  | fuel + 1, init, rp, temp =>
    match pbodyGetData rp init with
    | (none, _) => some temp
    | (some data, rp) =>
      if temp.length < room then resultTemp room fuel false rp (temp ++ [data]) else none

/-- mirrors pipe_merger.c:204-304: the merge is that of
`array_pipe_merger`, without a filter. -/
def arrayPipePMergerCutter (malloc : Nat → Page) (skip : Option (List Ent)) (uData lData : List Page) :
    Option (List Page) := do
  let u ← upperTable (malloc 0) skip uData
  let (rp, _) ← mergePages (fun i => malloc (i + 1)) lData u none
  resultTemp (u.length + lData.length + resultPadding) (rp.w.pidx + 1) true rp []

theorem resultTemp_from (room : Nat) (p : PBody) (k i : Nat) (temp : List Page) (hi : p.w.pidx = i)
    (hm : p.maxPage = p.data.length) (hk : i + k = p.data.length) (hr : temp.length + k ≤ room) :
    resultTemp room (k + 1) false p temp = some (temp ++ p.data.drop i) := by
  induction k generalizing p i temp with
  | zero =>
    rw [resultTemp, pbodyGetData_next, if_neg (by omega), drop_of_length_le (by omega)]
    simp
  | succ k ih =>
    have hlt : i < p.data.length := by omega
    rw [resultTemp, pbodyGetData_next, if_pos (by omega), hi, getElem?_eq_getElem hlt]
    simp only
    rw [if_pos (by omega), ih { p with w := { p.w with pidx := i + 1 } } (i + 1) _ rfl hm
      (by simp only; omega) (by rw [length_append, length_singleton]; omega),
      drop_eq_getElem_cons hlt]
    simp

theorem resultTemp_eq {room : Nat} (p : PBody) (hp : p.w.pidx = p.data.length)
    (hr : p.data.length ≤ room) : resultTemp room (p.w.pidx + 1) true p [] = some p.data := by
  have h := resultTemp_from room { p with maxPage := p.w.pidx, w := { p.w with pidx := 0 } }
    p.w.pidx 0 [] rfl hp (by simp only; omega) (by simp only [length_nil]; omega)
  rw [drop_zero, nil_append] at h
  exact h

/-! ## The pages are a next-fit cut -/

theorem cutFrom_eq_nextFit (now es : List Ent) : cutFrom now es =
    NextFit.cutFrom (fun e : Ent => keylen e.key) (pageSize - keyBitmap) now es := by
  induction es generalizing now with
  | nil => rfl
  | cons e es ih =>
    rw [cutFrom, NextFit.cutFrom, ih, ih]
    rfl

theorem cut_eq_nextFit (es : List Ent) : cut es =
    NextFit.cut (fun e : Ent => keylen e.key) (pageSize - keyBitmap) es := by
  cases es with
  | nil => rfl
  | cons e es => exact cutFrom_eq_nextFit [e] es

/-- The pages that hold `es`, in its order, can be at most `n`. -/
def Cuttable (es : List Ent) (n : Nat) : Prop :=
  ∃ gs : List (List Ent), gs.flatten = es ∧ (∀ g ∈ gs, dataSize g ≤ pageSize - keyBitmap) ∧
    gs.length ≤ n

theorem pack_length_le_iff {es : List Ent} (h : KeysOk es) {n : Nat} :
    (pack es).length ≤ n ↔ Cuttable es n := by
  rw [pack_eq_cut h, cut_eq_nextFit]
  apply NextFit.cut_length_le_iff
  intro e he
  have := (h e he).2
  simp only [keylen, pageSize, keyBitmap]
  omega

/-! ## Places for the result -/

/-- Both inputs have a page, and their union fits the pages there are places for. -/
def RoomFor (L U : List (List Ent)) : Prop :=
  L ≠ [] ∧ U ≠ [] ∧
    ∀ es, IsUnion L.flatten U.flatten es → Cuttable es (L.length + U.length + resultPadding)

section
variable (malloc : Nat → Page) (lower : List Header) (upper : UpperPages)

theorem arrayPipeMerger_room (filter : Option BF) (hL : Sorted (lower.map (·.ents)).flatten)
    (hU : Sorted upper.ents.flatten) :
    (¬ RoomFor (lower.map (·.ents)) upper.ents →
      arrayPipeMerger malloc upper.mem upper.src (lower.map (·.page)) filter = none) ∧
    (RoomFor (lower.map (·.ents)) upper.ents →
      ∃ rp dead, arrayPipeMerger malloc upper.mem upper.src (lower.map (·.page)) filter =
          some (rp, dead) ∧
        rp.w.pidx = rp.data.length ∧
        rp.data.length ≤ lower.length + upper.ents.length + resultPadding) := by
  by_cases hne : lower = []
  · subst hne
    refine ⟨fun _ => ?_, fun h => absurd rfl h.1⟩
    obtain ⟨t, ht, -⟩ := upper.tabled (malloc 0)
    rw [arrayPipeMerger, ht]
    rfl
  obtain ⟨hnone, hsome⟩ := arrayPipeMerger_spec malloc upper lower filter hne
  by_cases hu : upper.ents = []
  · exact ⟨fun _ => hnone (by rw [pipeMerge, if_pos (.inr hu)]), fun h => absurd hu h.2.1⟩
  obtain ⟨r, hr⟩ := merge_headers lower upper
  have hunion : IsUnion (lower.map (·.ents)).flatten upper.ents.flatten r.1 :=
    ⟨merge_sorted hL hU hr, fun k => lookup_merge hL hU hr k⟩
  have hroom : RoomFor (lower.map (·.ents)) upper.ents ↔
      (pack r.1).length ≤ (lower.map (·.ents)).length + upper.ents.length + resultPadding := by
    rw [pack_length_le_iff (KeysOk.merge lower upper hr)]
    refine ⟨fun h => h.2.2 r.1 hunion, fun h => ⟨by simpa using hne, hu, fun es hes => ?_⟩⟩
    rwa [hes.unique hunion]
  rw [pipeMerge_eq (by simpa using hne) hu hr] at hnone hsome
  rw [hroom]
  refine ⟨fun h => hnone (if_pos (by omega)), fun h => ?_⟩
  obtain ⟨rp, hrp, hdata, hpidx⟩ := hsome _ _ (if_neg (by omega))
  refine ⟨rp, _, hrp, hpidx, ?_⟩
  rw [hdata.length_eq]
  simpa using h

theorem arrayPipePMergerCutter_eq : arrayPipePMergerCutter malloc upper.mem upper.src
      (lower.map (·.page)) =
    (arrayPipeMerger malloc upper.mem upper.src (lower.map (·.page)) none).bind fun r =>
      resultTemp (upper.ents.length + lower.length + resultPadding) (r.1.w.pidx + 1) true r.1 [] := by
  obtain ⟨t, ht, T⟩ := upper.tabled (malloc 0)
  rw [arrayPipePMergerCutter, arrayPipeMerger, ht]
  simp only [bind_eq_bind, bind_some, T.length, length_map]

/-- For all header pages, sorted in each input: `array_pipe_merger` and
`array_pipe_p_merger_cutter` make at most `o_num+u_num+result_padding` pages iff the sorted
union can be cut, in the order of the keys, into that many pages of `PAGESIZE-KEYBITMAP`
bytes. Elsewhere they write behind `r_data`. -/
theorem result_pages_bound (filter : Option BF) (hL : Sorted (lower.map (·.ents)).flatten)
    (hU : Sorted upper.ents.flatten) :
    ((∃ rp dead, arrayPipeMerger malloc upper.mem upper.src (lower.map (·.page)) filter =
          some (rp, dead) ∧ rp.w.pidx ≤ lower.length + upper.ents.length + resultPadding) ↔
      RoomFor (lower.map (·.ents)) upper.ents) ∧
    ((∃ temp, arrayPipePMergerCutter malloc upper.mem upper.src (lower.map (·.page)) = some temp ∧
        temp.length ≤ lower.length + upper.ents.length + resultPadding) ↔
      RoomFor (lower.map (·.ents)) upper.ents) := by
  refine ⟨⟨fun h => ?_, fun h => ?_⟩, ⟨fun h => ?_, fun h => ?_⟩⟩
  · by_contra hroom
    obtain ⟨rp, dead, hrp, -⟩ := h
    rw [(arrayPipeMerger_room malloc lower upper filter hL hU).1 hroom] at hrp
    cases hrp
  · obtain ⟨rp, dead, hrp, hpidx, hle⟩ := (arrayPipeMerger_room malloc lower upper filter hL hU).2 h
    exact ⟨rp, dead, hrp, by rwa [hpidx]⟩
  · by_contra hroom
    obtain ⟨temp, htemp, -⟩ := h
    rw [arrayPipePMergerCutter_eq,
      (arrayPipeMerger_room malloc lower upper none hL hU).1 hroom] at htemp
    cases htemp
  · obtain ⟨rp, dead, hrp, hpidx, hle⟩ := (arrayPipeMerger_room malloc lower upper none hL hU).2 h
    refine ⟨rp.data, ?_, hle⟩
    rw [arrayPipePMergerCutter_eq, hrp, bind_some]
    apply resultTemp_eq rp hpidx
    omega

end

theorem result_pages_bound_four :
    (∃ rp dead, arrayPipeMerger (fun _ _ => 0) none (upperPages.map (·.page))
      (lowerPages.map (·.page)) none = some (rp, dead) ∧ rp.w.pidx ≤ 6) ∧
    ∃ temp, arrayPipePMergerCutter (fun _ _ => 0) none (upperPages.map (·.page))
      (lowerPages.map (·.page)) = some temp ∧ temp.length ≤ 6 := by
  have hroom : RoomFor (lowerPages.map (·.ents)) (upperPages.map (·.ents)) := by
    refine ⟨by simp [lowerPages], by simp [upperPages], fun es hes => ?_⟩
    rw [pages_union hes]
    exact ⟨_, rfl, by decide, by decide⟩
  obtain ⟨h, h'⟩ := result_pages_bound (fun _ _ => 0) lowerPages (.runs upperPages) none (by decide)
    (by decide)
  exact ⟨h.mpr hroom, h'.mpr hroom⟩

/-! ## Long keys between short ones -/

theorem keycmp_append {a b : Key} (h : keycmp a b = .lt) (hl : a.length = b.length) (x y : Key) :
    keycmp (a ++ x) (b ++ y) = .lt := by
  rw [keycmp_eq_compare] at *
  induction a generalizing b with
  | nil =>
    rw [eq_nil_of_length_eq_zero hl.symm] at h
    cases h
  | cons c a ih =>
    cases b with
    | nil => cases hl
    | cons d b =>
      rw [List.compare_cons_cons] at h
      rw [List.cons_append, List.cons_append, List.compare_cons_cons]
      cases hcd : compare c d with
      | lt => rfl
      | eq =>
        rw [hcd] at h
        exact ih h (Nat.succ.inj hl)
      | gt =>
        rw [hcd] at h
        cases h

/-- Entry `i` of the union: the last one of 28 has a key of 3 bytes, the others of 252. -/
def mixedEnt (i : Nat) : Ent :=
  ⟨UInt32.ofNat i, if i % 28 = 27 then countKey i else countKey i ++ replicate 249 0⟩

def mixedLen (i : Nat) : Nat := if i % 28 = 27 then 7 else 256

theorem mixedLen_add (k i : Nat) : mixedLen (28 * k + i) = mixedLen i := by
  rw [mixedLen, mixedLen, Nat.mul_add_mod]

theorem mixedLen_le (i : Nat) : mixedLen i ≤ 256 := by
  unfold mixedLen
  split <;> omega

theorem keylen_mixedEnt (i : Nat) : keylen (mixedEnt i).key = mixedLen i := by
  simp only [mixedEnt, keylen, mixedLen]
  split
  · rfl
  · rw [length_append, length_replicate]
    rfl

theorem mixedEnt_lt {i j : Nat} (hij : i < j) (hj : j < 2 ^ 23) :
    keycmp (mixedEnt i).key (mixedEnt j).key = .lt := by
  have h := keycmp_append (countKey_lt hij hj) rfl
  simp only [mixedEnt]
  split
  · split
    · exact countKey_lt hij hj
    · have := h [] (replicate 249 0)
      rwa [append_nil] at this
  · split
    · have := h (replicate 249 0) []
      rwa [append_nil] at this
    · exact h _ _

theorem mixedEnt_sorted {is : List Nat} (h : is.Pairwise (· < ·)) (hlt : ∀ i ∈ is, i < 2 ^ 23) :
    Sorted (is.map mixedEnt) := by
  rw [Sorted, pairwise_map]
  exact List.Pairwise.imp_of_mem (fun {a b} _ hb hab => mixedEnt_lt hab (hlt b hb)) h

theorem mixedEnt_keysOk {is : List Nat} (hlt : ∀ i ∈ is, i < 2 ^ 23) : KeysOk (is.map mixedEnt) := by
  intro e he
  obtain ⟨i, hi, rfl⟩ := mem_map.mp he
  have hi := hlt i hi
  have h := counted_keysOk (i := i) (n := 1) (by omega) ⟨UInt32.ofNat i, countKey i⟩
    (by simp [counted])
  refine ⟨?_, ?_⟩
  · rw [← h.1]
    simp only [mixedEnt]
    split <;> rfl
  · have hlen := keylen_mixedEnt i
    have hle := mixedLen_le i
    rw [keylen] at hlen
    omega

theorem dataSize_mixedEnt (is : List Nat) :
    dataSize (is.map mixedEnt) = (is.map mixedLen).sum := by
  rw [dataSize, List.map_map]
  exact congrArg _ (List.map_congr_left fun i _ => keylen_mixedEnt i)

theorem mixedEnt_fits {is : List Nat} (hs : 2 * (is.length + 2) ≤ keyBitmap)
    (hb : keyBitmap + (is.map mixedLen).sum ≤ pageSize) : FitsPage (is.map mixedEnt) := by
  refine ⟨by rwa [length_map], by rwa [dataSize_mixedEnt], fun e he => ?_⟩
  obtain ⟨i, -, rfl⟩ := mem_map.mp he
  have hlen := keylen_mixedEnt i
  have hle := mixedLen_le i
  rw [keylen] at hlen
  omega

theorem cut_mixedEnt (k m : Nat) :
    (cut ((range' (28 * k) (28 * m + 1)).map mixedEnt)).length = m + 1 := by
  rw [cut_eq_nextFit]
  induction m generalizing k with
  | zero => rfl
  | succ m ih =>
    have hsplit : range' (28 * k) (28 * (m + 1) + 1) =
        range' (28 * k) 28 ++ (28 * (k + 1)) :: range' (28 * (k + 1) + 1) (28 * m) := by
      rw [← range'_succ, show 28 * (k + 1) = 28 * k + 28 by omega, range'_append_1]
      congr 1
      omega
    have hload : NextFit.load (fun e : Ent => keylen e.key) ((range' (28 * k) 28).map mixedEnt) =
        6919 := by
      have hlens : (range' (28 * k) 28).map mixedLen = (range 28).map mixedLen := by
        rw [List.range'_eq_map_range, List.map_map]
        exact map_congr_left fun i _ => mixedLen_add k i
      calc
        _ = ((range' (28 * k) 28).map mixedLen).sum := dataSize_mixedEnt _
        _ = ((range 28).map mixedLen).sum := by rw [hlens]
        _ = 6919 := by decide
    have hlong : keylen (mixedEnt (28 * (k + 1))).key = 256 := by
      rw [keylen_mixedEnt, ← add_zero (28 * (k + 1)), mixedLen_add]
      rfl
    have h := ih (k + 1)
    rw [range'_succ, map_cons] at h
    rw [hsplit, map_append, map_cons, NextFit.cut_block, length_cons, h]
    · simp
    · rw [hload]
      decide
    · rw [hload, hlong]
      decide

/-- The number of the `r`-th long entry. -/
def longNo (r : Nat) : Nat := r + r / 27

theorem longNo_lt {is : List Nat} (h : is.Pairwise (· < ·)) : (is.map longNo).Pairwise (· < ·) := by
  rw [pairwise_map]
  refine h.imp fun {a b} hab => ?_
  simp only [longNo]
  omega

theorem mixedLen_longNo (r : Nat) : mixedLen (longNo r) = 256 := by
  apply if_neg
  simp only [longNo]
  omega

/-- 28 long entries fill a page. -/
def longChunk (p : Fin 82) : Chunk where
  ents := ((List.range' (28 * p) 28).map longNo).map mixedEnt
  fits := by
    refine mixedEnt_fits (by simp [keyBitmap]) ?_
    rw [List.map_map, show mixedLen ∘ longNo = fun _ => 256 from funext mixedLen_longNo]
    simp [keyBitmap, pageSize]
  keysOk := mixedEnt_keysOk fun i hi => by
    obtain ⟨r, hr, rfl⟩ := mem_map.mp hi
    have := mem_range'_1.mp hr
    simp only [longNo]
    omega

def longPages : List Header := (List.finRange 82).map fun p => (longChunk p).header (by simp [longChunk])

def shortChunk : Chunk where
  ents := ((range 85).map fun j => 28 * j + 27).map mixedEnt
  fits := by
    refine mixedEnt_fits (by simp [keyBitmap]) ?_
    decide
  keysOk := mixedEnt_keysOk (by decide)

theorem flatten_range' (k n : Nat) :
    ((range n).map fun p => range' (k * p) k).flatten = range (k * n) := by
  induction n with
  | zero => simp
  | succ n ih =>
    have h := range'_append_1 (s := 0) (m := k * n) (n := k)
    rw [zero_add] at h
    rw [range_succ, map_append, flatten_append, ih, range_eq_range',
      range_eq_range', Nat.mul_succ, ← h]
    simp

theorem longPages_ents : (longPages.map (·.ents)).flatten =
    ((List.range 2296).map longNo).map mixedEnt := by
  have h : longPages.map (·.ents) = ((range 82).map fun p => range' (28 * p) 28).map
      fun is => (is.map longNo).map mixedEnt := by
    rw [longPages, List.map_map, List.map_map, ← List.map_coe_finRange_eq_range, List.map_map]
    rfl
  rw [h, show (2296 : Nat) = 28 * 82 by decide, ← flatten_range', map_flatten, map_flatten,
    List.map_map, List.map_map, List.map_map]
  rfl

theorem isUnion_of_mem {L U es : List Ent} (he : Sorted es) (hL : Sorted L) (hU : Sorted U)
    (h : ∀ e, e ∈ es ↔ e ∈ U ∨ e ∈ L) : IsUnion L U es := by
  refine ⟨he, fun k => ?_⟩
  by_cases hku : k ∈ keys U
  · obtain ⟨e, hm, rfl⟩ := mem_map.mp hku
    rw [lookup_of_mem hU hm, lookup_of_mem he ((h e).mpr (.inl hm))]
    rfl
  · rw [lookup_eq_none.mpr hku, none_or]
    by_cases hkl : k ∈ keys L
    · obtain ⟨e, hm, rfl⟩ := mem_map.mp hkl
      rw [lookup_of_mem hL hm, lookup_of_mem he ((h e).mpr (.inr hm))]
    · have hk : k ∉ keys es := by
        intro hk
        obtain ⟨e, hm, rfl⟩ := mem_map.mp hk
        rcases (h e).mp hm with hm | hm
        · exact hku (mem_map_of_mem hm)
        · exact hkl (mem_map_of_mem hm)
      rw [lookup_eq_none.mpr hkl, lookup_eq_none.mpr hk]

theorem longs_sorted : Sorted (((range 2296).map longNo).map mixedEnt) := by
  refine mixedEnt_sorted (longNo_lt pairwise_lt_range) fun i hi => ?_
  obtain ⟨r, hr, rfl⟩ := List.mem_map.mp hi
  have := mem_range.mp hr
  simp only [longNo]
  omega

theorem mixed_union : IsUnion (longPages.map (·.ents)).flatten shortChunk.ents
    ((List.range 2381).map mixedEnt) := by
  rw [longPages_ents]
  apply isUnion_of_mem
  · refine mixedEnt_sorted List.pairwise_lt_range fun i hi => ?_
    have := List.mem_range.mp hi
    omega
  · exact longs_sorted
  · exact mixedEnt_sorted (by decide) (by decide)
  · intro e
    simp only [shortChunk, List.map_map, List.mem_map, List.mem_range, Function.comp, longNo]
    constructor
    · rintro ⟨i, hi, rfl⟩
      by_cases h27 : i % 28 = 27
      · refine .inl ⟨i / 28, by omega, ?_⟩
        congr 1
        omega
      · refine .inr ⟨i - i / 28, by omega, ?_⟩
        congr 1
        omega
    · rintro (⟨j, hj, rfl⟩ | ⟨r, hr, rfl⟩)
      · exact ⟨28 * j + 27, by omega, rfl⟩
      · exact ⟨r + r / 27, by omega, rfl⟩

/-- 82 full pages of 252-byte keys below one page of 85 three-byte keys: the union takes 86
pages, one more than there are places. -/
theorem result_pages_overrun :
    longPages.length + (UpperPages.chunk shortChunk).ents.length + resultPadding = 85 ∧
    (∀ es, IsUnion (longPages.map (·.ents)).flatten shortChunk.ents es → (pack es).length = 86) ∧
    arrayPipeMerger (fun _ _ => 0) (some shortChunk.ents) [] (longPages.map (·.page)) none = none ∧
    arrayPipePMergerCutter (fun _ _ => 0) (some shortChunk.ents) [] (longPages.map (·.page)) =
      none := by
  have hu : (UpperPages.chunk shortChunk).ents.flatten = shortChunk.ents := List.append_nil _
  have hcap : longPages.length + (UpperPages.chunk shortChunk).ents.length + resultPadding = 85 := by
    rw [longPages, List.length_map, List.length_finRange]
    rfl
  have hkeys : KeysOk ((List.range 2381).map mixedEnt) := mixedEnt_keysOk fun i hi => by
    have := List.mem_range.mp hi
    omega
  have h86 : (pack ((List.range 2381).map mixedEnt)).length = 86 := by
    rw [pack_eq_cut hkeys, List.range_eq_range']
    exact cut_mixedEnt 0 85
  have hroom : ¬ RoomFor (longPages.map (·.ents)) (UpperPages.chunk shortChunk).ents := by
    rintro ⟨-, -, h⟩
    have h := (pack_length_le_iff hkeys).mpr (h _ (by rw [hu]; exact mixed_union))
    rw [h86, List.length_map, hcap] at h
    omega
  have hL : Sorted (longPages.map (·.ents)).flatten := by
    rw [longPages_ents]
    exact longs_sorted
  have hU : Sorted (UpperPages.chunk shortChunk).ents.flatten := by
    rw [hu]
    exact mixedEnt_sorted (by decide) (by decide)
  have hnone := (arrayPipeMerger_room (fun _ _ => 0) longPages (.chunk shortChunk) none hL hU).1 hroom
  refine ⟨hcap, fun es hes => by rw [hes.unique mixed_union, h86], hnone, ?_⟩
  have h := arrayPipePMergerCutter_eq (fun _ _ => 0) longPages (.chunk shortChunk)
  rw [hnone] at h
  exact h

end FlashDriver.Lsmtree
