import FlashDriver.Lsmtree.Leveling
import FlashDriver.Lsmtree.Pipe

/-!
# The host's merge (`level_target/array/pipe_merger.c`)

`array_pipe_merger` merges the header pages of two levels into new pages and
`array_pipe_cutter` hands them out as runs.

* `arrayPipeMerger_spec`: on pages the merge does what `pipeMerge` does on
  their entries.
* `pipe_merge_union`: when the runs hold the sorted union of the inputs, and
  in pages whose offset table is intact.
-/
namespace FlashDriver.Lsmtree

open List
open Core.Bytes

/-! ## The writing body -/

/-- A `p_body` that is written; `data` is the part of `data_ptr` that is set. -/
structure PBody where
  w : Writer
  maxPage : Nat
  data : List Page
  filter : Option BF

/-- A new page is what `malloc` returns, as `data_ptr` was cleared by `calloc`. -/
def PBody.fresh (malloc : Nat → Page) (p : PBody) (i : Nat) : Option Page :=
  if i < p.maxPage then some (malloc i) else none

/-- mirrors pipe.c:70-100 -/
def pbodyInsertNewKey (malloc : Nat → Page) (p : PBody) (e : Ent) (flush : Bool) :
    Option PBody := do
  let (res, w) ← p.w.insertNewKey (p.fresh malloc) e flush
  some { p with w := w, data := p.data ++ res.toList
                filter := if flush then p.filter else bfSetIf p.filter e.key }

/-- mirrors pipe.c:103-116 -/
def pbodyGetData (p : PBody) (init : Bool) : Option Page × PBody :=
  let p := if init then { p with maxPage := p.w.pidx, w := { p.w with pidx := 0 } } else p
  if p.w.pidx < p.maxPage then
    (p.data[p.w.pidx]?, { p with w := { p.w with pidx := p.w.pidx + 1 } })
  else (none, p)

/-! ## The merger and the cutter -/

/-- mirrors pipe_merger.c:15-32: the loop of
`array_mem_cvt2table` without a run and a filter, and slot 0 written at the end. -/
def arraySkipCvt2Data (res : Page) (mem : List Ent) : Option Page := do
  let s ← mem.foldlM (Cvt.put 0) ⟨res, 1, keyBitmap, ⟨none, none⟩, none⟩
  closePage s.sets (s.idx - 1) s.dataStart

/-- The pages of `s` and `o` are read from tables that do not change. -/
def pipeMerger (malloc : Nat → Page) (o u : List Page) : Merger PBody where
  lower _ i := o[i]?
  lowerNum := o.length
  upper _ i := u[i]?
  upperNum := u.length
  insert p e := pbodyInsertNewKey malloc p e false
  room _ := true

/-- A bound of the rounds of the merge loop: the entries that the pages claim to have. -/
def rounds (ps : List Page) : Nat := (ps.map fun p => slotAt p 0).sum

/-- mirrors pipe_merger.c:80-152, over the tables of
lower and upper pages. The key passed with the flush is not used. -/
def mergePages (malloc : Nat → Page) (o u : List Page) (filter : Option BF) :
    Option (PBody × List UInt32) := do
  let c ← (pipeMerger malloc o u).start ⟨.init, o.length + u.length + resultPadding, [], filter⟩
  let c ← (pipeMerger malloc o u).mergeLoop (rounds o + rounds u) c
  let rp ← pbodyInsertNewKey malloc c.rp ⟨0, []⟩ true
  some (rp, c.dead)

/-- The table of upper pages, from a chunk or from the pages of `s`. -/
def upperTable (malloc : Page) (mem : Option (List Ent)) (s : List Page) : Option (List Page) :=
  match mem with
  | some chunk => (arraySkipCvt2Data malloc chunk).map fun p => [p]
  | none => some s

/-- mirrors pipe_merger.c:49-158: the page body and the
addresses given to `invalidate_PPA`. -/
def arrayPipeMerger (malloc : Nat → Page) (mem : Option (List Ent)) (s o : List Page)
    (filter : Option BF) : Option (PBody × List UInt32) := do
  let u ← upperTable (malloc 0) mem s
  mergePages (fun i => malloc (i + 1)) o u filter

/-- A run that was cut: its keys and the page it came from. -/
structure PipeRun where
  key : Key
  end_ : Key
  data : Page

/-- mirrors pipe_merger.c:159-182; where the page is kept
is not modelled. -/
def arrayPipeMakeRun (data : Page) : Option PipeRun := do
  let num ← slot data 0
  let start ← readEntry data 1
  let end_ ← readEntry data num
  some ⟨start.key, end_.key, data⟩

/-- mirrors pipe_merger.c:184-202 -/
def arrayPipeCutter (cutterStart : Bool) (rp : PBody) : Option (Option PipeRun × PBody) :=
  match pbodyGetData rp cutterStart with
  | (none, rp) => some (none, rp)
  | (some data, rp) => (arrayPipeMakeRun data).map fun r => (some r, rp)

/-- The calls of the cutter until it returns `NULL`, at most `fuel`. -/
def cutRuns : Nat → Bool → PBody → Option (List PipeRun)
  | 0, _, _ => none
  | fuel + 1, start, rp => do
    let (run, rp) ← arrayPipeCutter start rp
    match run with
    | none => some []
    | some run => do
      let runs ← cutRuns fuel false rp
      some (run :: runs)

/-- What a merge leaves. -/
structure MergeOut where
  runs : List PipeRun
  dead : List UInt32
  filter : Option BF

/-- mirrors algorithm/Lsmtree/compaction_assistant.c:436-455; what becomes of the runs is the
subject of `Lsmtree.Leveling`. -/
def compactionSubprocessing (malloc : Nat → Page) (top : Option (List Ent)) (src org : List Page)
    (filter : Option BF) : Option MergeOut := do
  let (rp, dead) ← arrayPipeMerger malloc top src org filter
  let runs ← cutRuns (rp.w.pidx + 1) true rp
  some ⟨runs, dead, rp.filter⟩

/-! ## Filling the result pages -/

/-- The body has closed the pages `ps` of at most `n` and fills one that holds `now`. -/
structure PBody.Holds (n : Nat) (p : PBody) (ps : List (List Ent)) (now : List Ent) : Prop where
  at_ : p.w.At ps.length now
  data : List.Forall₂ Closed p.data ps
  ne : now ≠ []
  max : p.maxPage = n

theorem pbody_fills (malloc : Nat → Page) (n : Nat) :
    Fills (fun p e => pbodyInsertNewKey malloc p e false) n (PBody.Holds n) where
  put := by
    intro p ps now e H hc
    obtain ⟨w, hw, A⟩ := insertNewKey_at (p.fresh malloc) H.at_ hc
    refine ⟨{ p with w := w, data := p.data ++ [], filter := bfSetIf p.filter e.key },
      by rw [pbodyInsertNewKey, hw]; rfl, ⟨A, ?_, by simp, H.max⟩⟩
    simpa using H.data
  close := by
    intro p ps now e H hc he hroom
    obtain ⟨q, w, hw, C, A⟩ := (insertNewKey_close (p.fresh malloc) H.at_ hc he).2 _
      (if_pos (by rw [H.max]; exact hroom))
    refine ⟨{ p with w := w, data := p.data ++ [q], filter := bfSetIf p.filter e.key },
      by rw [pbodyInsertNewKey, hw]; rfl, ⟨?_, rel_append H.data (.cons C .nil), by simp, H.max⟩⟩
    rw [length_append]
    exact A
  overrun := by
    intro p ps now e H hc he hroom
    have h := (insertNewKey_close (p.fresh malloc) H.at_ hc he).1 (if_neg (by rw [H.max]; omega))
    simp only [pbodyInsertNewKey, h, Option.bind_eq_bind, Option.bind_none]

theorem pbody_first (malloc : Nat → Page) {n : Nat} {f : Option BF} (hn : 0 < n) (e : Ent)
    (he : e.key.length < 256) :
    ∃ p', pbodyInsertNewKey malloc ⟨.init, n, [], f⟩ e false = some p' ∧ p'.Holds n [] [e] := by
  obtain ⟨w, hw, A⟩ := insertNewKey_init (PBody.fresh malloc ⟨.init, n, [], f⟩) (j := malloc 0)
    (if_pos hn) he
  exact ⟨⟨w, n, [], bfSetIf f e.key⟩, by rw [pbodyInsertNewKey, hw]; rfl, A, .nil, by simp, rfl⟩

theorem PBody.Holds.flush (malloc : Nat → Page) {n : Nat} {p : PBody} {ps : List (List Ent)}
    {now : List Ent} {e : Ent} (H : p.Holds n ps now) :
    ∃ p', pbodyInsertNewKey malloc p e true = some p' ∧
      List.Forall₂ Closed p'.data (ps ++ [now]) ∧ p'.w.pidx = ps.length + 1 := by
  obtain ⟨q, w, hw, C, hpidx, -⟩ := insertNewKey_flush (p.fresh malloc) (e := e) H.at_ H.ne
  exact ⟨{ p with w := w, data := p.data ++ [q] }, by rw [pbodyInsertNewKey, hw]; rfl,
    rel_append H.data (.cons C .nil), hpidx⟩

/-! ## Well-formed inputs -/

/-- Keys of 1 to 254 bytes whose first byte is a `char` that is not negative. -/
def KeysOk (es : List Ent) : Prop := ∀ e ∈ es, keyvalcheck e.key = true ∧ e.key.length ≤ 254

instance (es : List Ent) : Decidable (KeysOk es) := inferInstanceAs (Decidable (∀ e ∈ es, _))

/-- A chunk of the memtable. -/
structure Chunk where
  ents : List Ent
  fits : FitsPage ents
  keysOk : KeysOk ents

/-- A header page and its entries. -/
structure Header extends Chunk where
  page : Page
  enc : Encodes page ents
  ne : ents ≠ []

/-- The upper input of a merge. -/
inductive UpperPages
  | runs (hs : List Header)
  | chunk (c : Chunk)

def UpperPages.mem : UpperPages → Option (List Ent)
  | .runs _ => none
  | .chunk c => some c.ents

def UpperPages.src : UpperPages → List Page
  | .runs hs => hs.map (·.page)
  | .chunk _ => []

/-- The entries, page by page. -/
def UpperPages.ents : UpperPages → List (List Ent)
  | .runs hs => hs.map (·.ents)
  | .chunk c => [c.ents]

theorem UpperPages.keysOk (u : UpperPages) : KeysOk u.ents.flatten := by
  intro e he
  obtain ⟨es, hes, hm⟩ := mem_flatten.mp he
  cases u with
  | runs hs =>
    obtain ⟨h, -, rfl⟩ := mem_map.mp hes
    exact h.keysOk e hm
  | chunk c =>
    rw [mem_singleton.mp hes] at hm
    exact c.keysOk e hm

/-- A table of pages that hold `ess` and claim as many entries. -/
structure Tabled (t : List Page) (ess : List (List Ent)) : Prop where
  readable : Readable (fun i => t[i]?) ess
  length : t.length = ess.length
  rounds : rounds t = ess.flatten.length

theorem tabled_headers (hs : List Header) : Tabled (hs.map (·.page)) (hs.map (·.ents)) where
  readable := by
    intro i hi
    rw [length_map] at hi
    simp only [getElem_map, getElem?_map, getElem?_eq_getElem hi, Option.map_some]
    refine ⟨_, rfl, (hs[i]).enc, (hs[i]).fits, fun e he => ?_, .inl (hs[i]).ne⟩
    have := ((hs[i]).keysOk e he).2
    omega
  length := by simp
  rounds := by
    rw [Lsmtree.rounds, length_flatten, map_map, map_map]
    exact congrArg _ (map_congr_left fun h _ => h.enc.count)

theorem arraySkipCvt2Data_spec (p : Page) {es : List Ent} (h : FitsPage es) :
    ∃ q, arraySkipCvt2Data p es = some q ∧ Encodes q es := by
  obtain ⟨p1, hp1, F, -⟩ := foldlM_put 0 ⟨none, none⟩ none (Filled.nil p) h
  rw [nil_append] at hp1 F
  obtain ⟨q, hq, E⟩ := F.closePage h
  have hp1' : es.foldlM (Cvt.put 0) ⟨p, 1, keyBitmap, ⟨none, none⟩, none⟩ = some _ := hp1
  exact ⟨q, by rw [arraySkipCvt2Data, hp1']; exact hq, E⟩

theorem UpperPages.tabled (malloc : Page) (u : UpperPages) :
    ∃ t, upperTable malloc u.mem u.src = some t ∧ Tabled t u.ents := by
  cases u with
  | runs hs => exact ⟨_, rfl, tabled_headers hs⟩
  | chunk c =>
    obtain ⟨q, hq, E⟩ := arraySkipCvt2Data_spec malloc c.fits
    refine ⟨[q], by simp [upperTable, UpperPages.mem, hq], fun i hi => ?_, rfl, ?_⟩
    · have hi0 : i = 0 := by simpa [UpperPages.ents] using hi
      subst hi0
      refine ⟨q, rfl, E, c.fits, fun e he => ?_, .inr rfl⟩
      have := (c.keysOk e he).2
      omega
    · simp [rounds, UpperPages.ents, E.count]

/-! ## The merge on pages -/

theorem mergePages_nil {malloc : Nat → Page} {o : List Page} {f : Option BF} :
    mergePages malloc o [] f = none := by
  simp only [mergePages, Merger.start, Merger.nextLower, Option.bind_eq_bind]
  cases getNextKey ((pipeMerger malloc o []).lower _) (pipeMerger malloc o []).lowerNum .init with
  | none => rfl
  | some x => rfl

theorem foldlM_push {ω : Type} {M : Merger ω} (hroom : ∀ n, M.room n = true) (ds dead : List UInt32) :
    ds.foldlM M.push dead = some (dead ++ ds) := by
  induction ds generalizing dead with
  | nil => simp
  | cons d ds ih => simp [Merger.push, hroom, ih]

theorem mergePages_eq (malloc : Nat → Page) (f : Option BF) {o t : List Page} {L U : List (List Ent)}
    {r : Merged UInt32} (hL : Tabled o L) (hLne : L ≠ []) (hU : Tabled t U) (hUne : U ≠ [])
    (hm : merge L.flatten U.flatten = some r) :
    mergePages malloc o t f = (r.1.foldlM (fun p e => pbodyInsertNewKey malloc p e false)
      ⟨.init, o.length + t.length + resultPadding, [], f⟩).bind fun p =>
        (pbodyInsertNewKey malloc p ⟨0, []⟩ true).map fun rp => (rp, r.2) := by
  have O : (pipeMerger malloc o t).Over L U fun _ => True :=
    ⟨fun _ _ => hL.readable, hL.length, hLne, fun _ _ => hU.readable, hU.length, hUne,
      fun _ _ _ _ _ => trivial⟩
  obtain ⟨c, hc, A, hrp, hdead⟩ := O.start
    (w := ⟨.init, o.length + t.length + resultPadding, [], f⟩) trivial
  have hfuel : L.flatten.length + U.flatten.length ≤ rounds o + rounds t := by
    rw [hL.rounds, hU.rounds]
  have h := O.mergeLoop_eq hm A trivial hfuel
  rw [Merger.outcome, hrp, hdead, foldlM_push (fun _ => rfl)] at h
  rw [mergePages, hc, Option.bind_eq_bind, Option.bind_some]
  simp only [pipeMerger] at h ⊢
  cases hfold : r.1.foldlM (fun p e => pbodyInsertNewKey malloc p e false)
      ⟨.init, o.length + t.length + resultPadding, [], f⟩ with
  | none =>
    rw [hfold] at h
    rw [Option.map_eq_none_iff.mp h]
    rfl
  | some p =>
    rw [hfold] at h
    obtain ⟨c', hc', hres⟩ := Option.map_eq_some_iff.mp h
    obtain ⟨hp, hd⟩ := Prod.mk.inj hres
    rw [hc']
    simp only [Option.bind_some, hp, hd]
    cases pbodyInsertNewKey malloc p ⟨0, []⟩ true <;> rfl

theorem flatten_headers_ne {o : List Header} (ho : o ≠ []) : (o.map (·.ents)).flatten ≠ [] := by
  obtain ⟨h, hh⟩ := exists_mem_of_ne_nil _ ho
  intro hnil
  exact h.ne (flatten_eq_nil_iff.mp hnil _ (mem_map_of_mem hh))

theorem merge_headers (o : List Header) (u : UpperPages) :
    ∃ r, merge (o.map (·.ents)).flatten u.ents.flatten = some r := by
  have hl : KeysOk (o.map (·.ents)).flatten := (UpperPages.runs o).keysOk
  exact merge_total (fun e he => (hl e he).1) fun e he => (u.keysOk e he).1

theorem arrayPipeMerger_spec (malloc : Nat → Page) (u : UpperPages) (o : List Header) (f : Option BF)
    (ho : o ≠ []) :
    (pipeMerge (o.map (·.ents)) u.ents = none →
      arrayPipeMerger malloc u.mem u.src (o.map (·.page)) f = none) ∧
    ∀ ps dead, pipeMerge (o.map (·.ents)) u.ents = some (ps, dead) →
      ∃ rp, arrayPipeMerger malloc u.mem u.src (o.map (·.page)) f = some (rp, dead) ∧
        List.Forall₂ Closed rp.data ps ∧ rp.w.pidx = rp.data.length := by
  obtain ⟨t, ht, T⟩ := u.tabled (malloc 0)
  have To := tabled_headers o
  have hone : o.map (·.ents) ≠ [] := by simpa using ho
  obtain ⟨r, hr⟩ := merge_headers o u
  rw [arrayPipeMerger, ht, Option.bind_eq_bind, Option.bind_some]
  by_cases hu : u.ents = []
  · have htn : t = [] := eq_nil_of_length_eq_zero (by rw [T.length, hu]; rfl)
    rw [pipeMerge, if_pos (.inr hu), htn, mergePages_nil]
    exact ⟨fun _ => rfl, fun _ _ h => (by cases h)⟩
  · rw [pipeMerge, if_neg (by simp only [hone, hu, or_self, not_false_eq_true]), hr,
      mergePages_eq _ f To hone T hu hr]
    simp only [Option.bind_eq_bind, Option.bind_some]
    rw [To.length, T.length]
    -- the result is not empty and its keys are short
    have hlen : ∀ e ∈ r.1, e.key.length < 256 := by
      intro e he
      have hl : KeysOk (o.map (·.ents)).flatten := (UpperPages.runs o).keysOk
      rcases merge_mem hr e he with h | h
      · exact lt_of_le_of_lt (hl e h).2 (by decide)
      · exact lt_of_le_of_lt (u.keysOk e h).2 (by decide)
    have hne : r.1 ≠ [] := merge_ne_nil hr (flatten_headers_ne ho)
    have hcap : 0 < (o.map (·.ents)).length + u.ents.length + resultPadding := by
      simp only [resultPadding]
      omega
    obtain ⟨hfit, hover⟩ := (pbody_fills (fun i => malloc (i + 1)) _).foldlM_init
      (pbody_first _ (f := f) hcap) hlen hne hcap
    split
    · rename_i hgt
      rw [hover hgt]
      exact ⟨fun _ => rfl, fun _ _ h => (by cases h)⟩
    · rename_i hle
      obtain ⟨p, ps', now', hp, H, hps⟩ := hfit (by omega)
      obtain ⟨rp, hrp, hdata, hpidx⟩ := H.flush (fun i => malloc (i + 1)) (e := ⟨0, []⟩)
      refine ⟨fun h => (by cases h), fun ps dead h => ?_⟩
      cases h
      rw [hps] at hdata
      refine ⟨rp, by rw [hp]; simp only [Option.bind_some, hrp]; rfl, hdata, ?_⟩
      rw [hpidx, hdata.length_eq, ← hps]
      simp

/-! ## The runs -/

theorem pbodyGetData_next (p : PBody) : pbodyGetData p false = if p.w.pidx < p.maxPage then
      (p.data[p.w.pidx]?, { p with w := { p.w with pidx := p.w.pidx + 1 } })
    else (none, p) := rfl

theorem cutRuns_from (p : PBody) (k i : Nat) (hi : p.w.pidx = i) (hm : p.maxPage = p.data.length)
    (hk : i + k = p.data.length) :
    cutRuns (k + 1) false p = (p.data.drop i).mapM arrayPipeMakeRun := by
  induction k generalizing p i with
  | zero =>
    rw [cutRuns, arrayPipeCutter, pbodyGetData_next, if_neg (by omega),
      drop_of_length_le (by omega)]
    rfl
  | succ k ih =>
    have hlt : i < p.data.length := by omega
    have ih' := ih { p with w := { p.w with pidx := i + 1 } } (i + 1) rfl hm (by simp only; omega)
    rw [cutRuns, arrayPipeCutter, pbodyGetData_next, if_pos (by omega), hi,
      getElem?_eq_getElem hlt, drop_eq_getElem_cons hlt, mapM_cons]
    cases hrun : arrayPipeMakeRun p.data[i] with
    | none => simp only [hrun, Option.map_none, Option.bind_eq_bind, Option.bind_none]
    | some run =>
      simp only [hrun, Option.map_some, Option.bind_eq_bind, Option.bind_some, ih']
      rfl

theorem cutRuns_eq (p : PBody) (hp : p.w.pidx = p.data.length) :
    cutRuns (p.w.pidx + 1) true p = p.data.mapM arrayPipeMakeRun := by
  have h := cutRuns_from { p with maxPage := p.w.pidx, w := { p.w with pidx := 0 } } p.w.pidx 0 rfl hp
    (by simp only; omega)
  rw [drop_zero] at h
  exact h

theorem arrayPipeMakeRun_data {p : Page} {r : PipeRun} (h : arrayPipeMakeRun p = some r) :
    r.data = p := by
  simp only [arrayPipeMakeRun, Option.bind_eq_bind] at h
  obtain ⟨n, -, h⟩ := Option.bind_eq_some_iff.mp h
  obtain ⟨s, -, h⟩ := Option.bind_eq_some_iff.mp h
  obtain ⟨e, -, h⟩ := Option.bind_eq_some_iff.mp h
  cases h
  rfl

/-- A run holds `es`: its page reads back as `es`, its keys are the first and the last one,
and its offset table stays below `KEYBITMAP`, where the data start. -/
structure RunHolds (r : PipeRun) (es : List Ent) : Prop where
  decoded : headerEntries r.data = some es
  first : es.head?.map (·.key) = some r.key
  last : es.getLast?.map (·.key) = some r.end_
  table : 2 * (slotAt r.data 0 + 2) ≤ keyBitmap
  area : ∀ i, i ≤ slotAt r.data 0 → keyBitmap ≤ slotAt r.data (i + 1)

theorem arrayPipeMakeRun_holds {p : Page} {es : List Ent} (E : Encodes p es) (hf : FitsPage es)
    (hne : es ≠ []) : ∃ r, arrayPipeMakeRun p = some r ∧ RunHolds r es := by
  have hpos : 0 < es.length := length_pos_of_ne_nil hne
  have hfirst := readEntry_eq E hf hpos
  have hlast := readEntry_eq E hf (i := es.length - 1) (by omega)
  rw [Nat.sub_add_cancel hpos] at hlast
  refine ⟨⟨(es[0]).key, (es[es.length - 1]).key, p⟩, ?_, headerEntries_eq E hf, ?_, ?_, ?_, ?_⟩
  · rw [arrayPipeMakeRun, slot_eq (by simp [pageSize]), E.count]
    simp only [Option.bind_eq_bind, Option.bind_some, hlast]
    rw [hfirst]
    rfl
  · rw [head?_eq_getElem?, getElem?_eq_getElem hpos]
    rfl
  · rw [getLast?_eq_getElem?, getElem?_eq_getElem (by omega)]
    rfl
  · simpa only [E.count] using hf.slots
  · intro i hi
    simp only [E.count] at hi
    simp only [E.offs i hi, offsetOf]
    omega

theorem Closed.smalls {ps : List Page} {ess : List (List Ent)} (h : List.Forall₂ Closed ps ess) :
    ∀ es ∈ ess, Small es := by
  induction h with
  | nil => simp
  | cons hc _ ih =>
    intro es hm
    rcases mem_cons.mp hm with rfl | hm
    · obtain ⟨q, -, hs, -⟩ := hc
      exact hs
    · exact ih es hm

theorem mapM_makeRun {ps : List Page} {ess : List (List Ent)} (h : List.Forall₂ Closed ps ess)
    (hf : ∀ es ∈ ess, FitsPage es ∧ es ≠ []) :
    ∃ rs, ps.mapM arrayPipeMakeRun = some rs ∧ List.Forall₂ RunHolds rs ess := by
  induction h with
  | nil => exact ⟨[], rfl, .nil⟩
  | cons hc _ ih =>
    obtain ⟨hf0, hne⟩ := hf _ mem_cons_self
    obtain ⟨r, hr, R⟩ := arrayPipeMakeRun_holds (hc.encodes hf0) hf0 hne
    obtain ⟨rs, hrs, Rs⟩ := ih fun es hes => hf es (.tail _ hes)
    exact ⟨r :: rs, by rw [mapM_cons, hr, hrs]; rfl, .cons R Rs⟩

theorem RunHolds.tables {rs : List PipeRun} {ess : List (List Ent)} (h : List.Forall₂ RunHolds rs ess) :
    ∀ r ∈ rs, 2 * (slotAt r.data 0 + 2) ≤ keyBitmap := by
  induction h with
  | nil => simp
  | cons hr _ ih =>
    intro r hm
    rcases mem_cons.mp hm with rfl | hm
    · exact hr.table
    · exact ih r hm

theorem mapM_makeRun_table {ps : List Page} {ess : List (List Ent)} {rs : List PipeRun}
    (h : List.Forall₂ Closed ps ess) (hrs : ps.mapM arrayPipeMakeRun = some rs)
    (ht : ∀ r ∈ rs, 2 * (slotAt r.data 0 + 2) ≤ keyBitmap) :
    ∀ es ∈ ess, 2 * (es.length + 2) ≤ keyBitmap := by
  induction h generalizing rs with
  | nil => simp
  | cons hc _ ih =>
    rw [mapM_cons, Option.bind_eq_bind] at hrs
    obtain ⟨r, hr, hrs⟩ := Option.bind_eq_some_iff.mp hrs
    obtain ⟨rs', hrs', hrs⟩ := Option.bind_eq_some_iff.mp hrs
    cases hrs
    intro es hes
    rcases mem_cons.mp hes with rfl | hes
    · have := ht r mem_cons_self
      rwa [arrayPipeMakeRun_data hr, hc.count] at this
    · exact ih hrs' (fun r hr => ht r (.tail _ hr)) es hes

/-! ## The union -/

/-- The sorted union, the upper input first. -/
structure IsUnion (L U es : List Ent) : Prop where
  sorted : Sorted es
  lookup : ∀ k, lookup es k = (Lsmtree.lookup U k).or (Lsmtree.lookup L k)

theorem IsUnion.unique {L U es fs : List Ent} (he : IsUnion L U es) (hf : IsUnion L U fs) : es = fs :=
  he.sorted.ext hf.sorted fun k => by rw [he.lookup, hf.lookup]

/-- `es` filled into pages of `PAGESIZE-KEYBITMAP` bytes, one after the other; `now` is on
the first one. -/
def cutFrom (now : List Ent) : List Ent → List (List Ent)
  | [] => [now]
  | e :: es =>
    if dataSize now + keylen e.key > pageSize - keyBitmap then now :: cutFrom [e] es
    else cutFrom (now ++ [e]) es

def cut : List Ent → List (List Ent)
  | [] => []
  | e :: es => cutFrom [e] es

theorem length_le_dataSize {es : List Ent} (h : KeysOk es) : 5 * es.length ≤ dataSize es := by
  induction es with
  | nil => simp
  | cons e es ih =>
    have ih := ih fun x hx => h x (.tail _ hx)
    have he := (h e mem_cons_self).1
    have hlen : 1 ≤ e.key.length := by
      cases hk : e.key with
      | nil => rw [hk] at he; cases he
      | cons b bs => simp
    simp only [length_cons, dataSize_cons, keylen]
    omega

theorem packFrom_eq_cutFrom {now es : List Ent} (hn : KeysOk now) (hs : Small now) (h : KeysOk es) :
    packFrom now es = cutFrom now es := by
  induction es generalizing now with
  | nil => rfl
  | cons e es ih =>
    have he := h e mem_cons_self
    have hes : KeysOk es := fun x hx => h x (.tail _ hx)
    have hc : closes now e = decide (dataSize now + keylen e.key > pageSize - keyBitmap) := by
      have h5 := length_le_dataSize hn
      have hb := hs.bytes
      simp only [keyBitmap, pageSize] at hb
      rw [Bool.eq_iff_iff]
      simp only [closes, Bool.or_eq_true, decide_eq_true_eq]
      simp only [keyBitmap, pageSize]
      omega
    have h1 : KeysOk [e] := by
      intro x hx
      rw [mem_singleton.mp hx]
      exact he
    rw [packFrom, cutFrom, hc]
    by_cases hgt : dataSize now + keylen e.key > pageSize - keyBitmap
    · rw [if_pos (by simpa using hgt), if_pos hgt, ih h1 (Small.single (by omega)) hes]
    · rw [if_neg (by simpa using hgt), if_neg hgt]
      refine ih ?_ (Small.snoc (by rw [hc]; simpa using hgt)) hes
      intro x hx
      rcases mem_append.mp hx with hx | hx
      · exact hn x hx
      · exact h1 x hx

theorem pack_eq_cut {es : List Ent} (h : KeysOk es) : pack es = cut es := by
  cases es with
  | nil => rfl
  | cons e es =>
    have h1 : KeysOk [e] := by
      intro x hx
      rw [mem_singleton.mp hx]
      exact h e mem_cons_self
    have hlen := (h e mem_cons_self).2
    exact packFrom_eq_cutFrom h1 (Small.single (by omega)) fun x hx => h x (.tail _ hx)

theorem packFrom_ne {now es : List Ent} (hn : now ≠ []) : ∀ pg ∈ packFrom now es, pg ≠ [] := by
  induction es generalizing now with
  | nil => simpa [packFrom] using hn
  | cons e es ih =>
    rw [packFrom]
    split
    · intro pg hpg
      rcases mem_cons.mp hpg with rfl | hpg
      · exact hn
      · exact ih (by simp) pg hpg
    · exact ih (by simp)

theorem pack_ne {es : List Ent} : ∀ pg ∈ pack es, pg ≠ [] := by
  cases es with
  | nil => simp [pack]
  | cons e es => exact packFrom_ne (by simp)

theorem pipeMerge_eq {L U : List (List Ent)} {r : Merged UInt32} (hL : L ≠ []) (hU : U ≠ [])
    (hr : merge L.flatten U.flatten = some r) :
    pipeMerge L U = if (pack r.1).length > L.length + U.length + resultPadding then none
      else some (pack r.1, r.2) := by
  rw [pipeMerge, if_neg (by simp only [hL, hU, or_self, not_false_eq_true]), hr]
  rfl

/-! ## The result of a merge -/

/-- The runs hold the union of the inputs, page by page, and exactly the lower addresses of
the shared keys were invalidated, each once. -/
structure MergeOk (L U : List Ent) (out : MergeOut) : Prop where
  union : ∃ ess, List.Forall₂ RunHolds out.runs ess ∧ IsUnion L U ess.flatten
  dead : out.dead = (L.filter fun e => decide (e.key ∈ keys U)).map (·.ppa)

/-- The union fits: no page takes more entries than the offset table has slots for, and
`r_data` has a place for each page. -/
structure Roomy (L U : List (List Ent)) : Prop where
  slots : ∀ es, IsUnion L.flatten U.flatten es → ∀ pg ∈ cut es, pg.length ≤ keyBitmap / 2 - 2
  pages : ∀ es, IsUnion L.flatten U.flatten es →
    (cut es).length ≤ L.length + U.length + resultPadding

section
variable (malloc : Nat → Page) (lower : List Header) (upper : UpperPages) (filter : Option BF)

theorem KeysOk.merge {r : Merged UInt32}
    (hr : merge (lower.map (·.ents)).flatten upper.ents.flatten = some r) : KeysOk r.1 := by
  have hl : KeysOk (lower.map (·.ents)).flatten := (UpperPages.runs lower).keysOk
  intro e he
  exact (merge_mem hr e he).elim (hl e) (upper.keysOk e)

theorem mergeOk_of_roomy (hne : lower ≠ []) (hL : Sorted (lower.map (·.ents)).flatten)
    (hU : Sorted upper.ents.flatten) (hu : upper.ents ≠ [])
    (hR : Roomy (lower.map (·.ents)) upper.ents) :
    ∃ out, compactionSubprocessing malloc upper.mem upper.src (lower.map (·.page)) filter = some out ∧
      MergeOk (lower.map (·.ents)).flatten upper.ents.flatten out := by
  obtain ⟨r, hr⟩ := merge_headers lower upper
  have hunion : IsUnion (lower.map (·.ents)).flatten upper.ents.flatten r.1 :=
    ⟨merge_sorted hL hU hr, fun k => lookup_merge hL hU hr k⟩
  have hkeys := KeysOk.merge lower upper hr
  have hpages := hR.pages r.1 hunion
  have hslots := hR.slots r.1 hunion
  rw [← pack_eq_cut hkeys] at hpages hslots
  have hpm := pipeMerge_eq (by simpa using hne) hu hr
  rw [if_neg (by omega)] at hpm
  obtain ⟨rp, hrp, hdata, hpidx⟩ := (arrayPipeMerger_spec malloc upper lower filter hne).2 _ _ hpm
  have hf : ∀ pg ∈ pack r.1, FitsPage pg ∧ pg ≠ [] := by
    intro pg hpg
    have hn := hslots pg hpg
    refine ⟨⟨?_, (Closed.smalls hdata pg hpg).bytes, fun e he => ?_⟩, pack_ne pg hpg⟩
    · simp only [keyBitmap] at hn ⊢
      omega
    · have hmem : e ∈ r.1 := by
        rw [← pack_flatten r.1]
        exact mem_flatten.mpr ⟨pg, hpg, he⟩
      exact lt_of_le_of_lt (hkeys e hmem).2 (by decide)
  obtain ⟨rs, hrs, R⟩ := mapM_makeRun hdata hf
  refine ⟨⟨rs, r.2, rp.filter⟩, ?_, ⟨pack r.1, R, ?_⟩, ?_⟩
  · rw [compactionSubprocessing, hrp]
    simp only [Option.bind_eq_bind, Option.bind_some, cutRuns_eq rp hpidx, hrs]
  · rw [pack_flatten]
    exact hunion
  · rw [merge_invalid hL hU hr]
    refine congrArg _ (filter_congr fun e _ => ?_)
    rw [Bool.eq_iff_iff, lookup_isSome, decide_eq_true_eq]

theorem roomy_of_mergeOk (hne : lower ≠ []) (hL : Sorted (lower.map (·.ents)).flatten)
    (hU : Sorted upper.ents.flatten) {out : MergeOut}
    (hout : compactionSubprocessing malloc upper.mem upper.src (lower.map (·.page)) filter = some out)
    (ok : MergeOk (lower.map (·.ents)).flatten upper.ents.flatten out) :
    upper.ents ≠ [] ∧ Roomy (lower.map (·.ents)) upper.ents := by
  obtain ⟨r, hr⟩ := merge_headers lower upper
  have hunion : IsUnion (lower.map (·.ents)).flatten upper.ents.flatten r.1 :=
    ⟨merge_sorted hL hU hr, fun k => lookup_merge hL hU hr k⟩
  have hcut : ∀ es, IsUnion (lower.map (·.ents)).flatten upper.ents.flatten es → cut es = pack r.1 :=
    fun es hes => by rw [hes.unique hunion, pack_eq_cut (KeysOk.merge lower upper hr)]
  obtain ⟨hnone, hsome⟩ := arrayPipeMerger_spec malloc upper lower filter hne
  -- the first page of an empty upper table cannot be read
  have hu : upper.ents ≠ [] := by
    intro hu
    rw [compactionSubprocessing, hnone (by rw [pipeMerge, if_pos (.inr hu)])] at hout
    cases hout
  rw [pipeMerge_eq (by simpa using hne) hu hr] at hnone hsome
  have hp : ¬ (pack r.1).length > (lower.map (·.ents)).length + upper.ents.length + resultPadding := by
    intro hp
    rw [compactionSubprocessing, hnone (if_pos hp)] at hout
    cases hout
  obtain ⟨rp, hrp, hdata, hpidx⟩ := hsome _ _ (if_neg hp)
  rw [compactionSubprocessing, hrp] at hout
  simp only [Option.bind_eq_bind, Option.bind_some, cutRuns_eq rp hpidx] at hout
  obtain ⟨rs, hrs, hout⟩ := Option.bind_eq_some_iff.mp hout
  cases hout
  obtain ⟨ess, hess, -⟩ := ok.union
  refine ⟨hu, fun es hes pg hpg => ?_, fun es hes => ?_⟩
  · rw [hcut es hes] at hpg
    have := mapM_makeRun_table hdata hrs (RunHolds.tables hess) pg hpg
    omega
  · rw [hcut es hes]
    omega

/-- For every non-empty lower sequence of header pages and every upper one: the merge and the
cutter deliver the sorted union, in pages whose offset table is intact, iff the upper
sequence is not empty either and the union is roomy. The writer of the pages allows as many
slots as there are in the data area, not in the table. -/
theorem pipe_merge_union (hne : lower ≠ []) (hL : Sorted (lower.map (·.ents)).flatten)
    (hU : Sorted upper.ents.flatten) :
    (∃ out, compactionSubprocessing malloc upper.mem upper.src (lower.map (·.page)) filter = some out ∧
      MergeOk (lower.map (·.ents)).flatten upper.ents.flatten out) ↔
    upper.ents ≠ [] ∧ Roomy (lower.map (·.ents)) upper.ents := by
  refine ⟨fun h => ?_, fun h => mergeOk_of_roomy malloc lower upper filter hne hL hU h.1 h.2⟩
  obtain ⟨out, hout, ok⟩ := h
  exact roomy_of_mergeOk malloc lower upper filter hne hL hU hout ok

end

/-! ## Counted keys -/

/-- The page of a chunk. -/
def Chunk.header (c : Chunk) (h : c.ents ≠ []) : Header :=
  { c with
    page := (arraySkipCvt2Data (fun _ => 0) c.ents).get (by
      obtain ⟨q, hq, -⟩ := arraySkipCvt2Data_spec (fun _ => 0) c.fits
      rw [hq]
      rfl)
    enc := by
      obtain ⟨q, hq, E⟩ := arraySkipCvt2Data_spec (fun _ => 0) c.fits
      simpa only [hq, Option.get_some] using E
    ne := h }

theorem isUnion_append {L U : List Ent} (h : Sorted (L ++ U)) : IsUnion L U (L ++ U) := by
  refine ⟨h, fun k => ?_⟩
  rw [lookup_append]
  cases hl : lookup L k with
  | none => simp
  | some p =>
    have hu : lookup U k = none := by
      rw [lookup_eq_none]
      intro hm
      have hl' : k ∈ keys L := lookup_isSome.mp (by rw [hl]; rfl)
      obtain ⟨x, hx, rfl⟩ := mem_map.mp hl'
      obtain ⟨y, hy, hxy⟩ := mem_map.mp hm
      have := (pairwise_append.mp h).2.2 x hx y hy
      rw [hxy] at this
      exact keycmp_irrefl _ this
    rw [hu]
    rfl

theorem cutFrom_fits {now es : List Ent} (h : dataSize now + dataSize es ≤ pageSize - keyBitmap) :
    cutFrom now es = [now ++ es] := by
  induction es generalizing now with
  | nil => simp [cutFrom]
  | cons e es ih =>
    rw [dataSize_cons] at h
    rw [cutFrom, if_neg (by omega), ih (by simp only [dataSize_append, dataSize_cons, dataSize_nil]; omega)]
    simp

theorem cut_fits {es : List Ent} (hne : es ≠ []) (h : dataSize es ≤ pageSize - keyBitmap) :
    cut es = [es] := by
  cases es with
  | nil => exact absurd rfl hne
  | cons e es =>
    rw [dataSize_cons] at h
    rw [cut, cutFrom_fits (by simp only [dataSize_cons, dataSize_nil]; omega)]
    rfl

def lowerPages : List Header :=
  [Chunk.header ⟨[⟨7, [97]⟩], ⟨by decide, by decide, by decide⟩, by decide⟩ (by simp),
    Chunk.header ⟨[⟨5, [99]⟩], ⟨by decide, by decide, by decide⟩, by decide⟩ (by simp)]

def upperPages : List Header :=
  [Chunk.header ⟨[⟨9, [97]⟩, ⟨4, [98]⟩], ⟨by decide, by decide, by decide⟩, by decide⟩ (by simp),
    Chunk.header ⟨[⟨6, [99]⟩, ⟨3, [100]⟩], ⟨by decide, by decide, by decide⟩, by decide⟩ (by simp)]

theorem pages_union {es : List Ent} (h : IsUnion (lowerPages.map (·.ents)).flatten
    (upperPages.map (·.ents)).flatten es) : es = (upperPages.map (·.ents)).flatten := by
  refine h.unique ⟨by decide, fun k => ?_⟩
  by_cases hk : k = [97] ∨ k = [99]
  · rcases hk with rfl | rfl <;> rfl
  · obtain ⟨ha, hc⟩ := not_or.mp hk
    have hl : lookup (lowerPages.map (·.ents)).flatten k = none := by
      simpa [lookup_eq_none, keys, lowerPages, Chunk.header] using ⟨ha, hc⟩
    rw [hl, Option.or_none]

theorem pipe_merge_union_two : ∃ out,
    compactionSubprocessing (fun _ _ => 0) (some [⟨9, [97]⟩, ⟨4, [98]⟩]) []
      [(Chunk.header ⟨[⟨7, [97]⟩], ⟨by decide, by decide, by decide⟩, by decide⟩ (by simp)).page]
      none = some out ∧
    MergeOk [⟨7, [97]⟩] [⟨9, [97]⟩, ⟨4, [98]⟩] out := by
  have hu : ∀ es, IsUnion [⟨7, [97]⟩] [⟨9, [97]⟩, ⟨4, [98]⟩] es → es = [⟨9, [97]⟩, ⟨4, [98]⟩] := by
    intro es hes
    refine hes.unique ⟨by decide, fun k => ?_⟩
    simp only [lookup_cons, lookup_nil]
    split <;> [rfl; split <;> rfl]
  refine (pipe_merge_union (fun _ _ => 0)
    [Chunk.header ⟨[⟨7, [97]⟩], ⟨by decide, by decide, by decide⟩, by decide⟩ (by simp)]
    (.chunk ⟨[⟨9, [97]⟩, ⟨4, [98]⟩], ⟨by decide, by decide, by decide⟩, by decide⟩) none
    (by simp) (by decide) (by decide)).mpr ⟨by simp [UpperPages.ents], fun es hes => ?_, fun es hes => ?_⟩
  · rw [hu es hes]
    decide
  · rw [hu es hes]
    decide

/-- Entries `i` to `i+n-1`, each with its number as address. -/
def counted (i n : Nat) : List Ent := (range' i n).map fun j => ⟨UInt32.ofNat j, countKey j⟩

theorem counted_append (i m n : Nat) : counted i m ++ counted (i + m) n = counted i (m + n) := by
  rw [counted, counted, counted, ← map_append, range'_append_1]

theorem counted_sorted {i n : Nat} (h : i + n ≤ 2 ^ 23) : Sorted (counted i n) := by
  rw [Sorted, counted, pairwise_map]
  refine List.Pairwise.imp_of_mem (fun {a b} _ hb hab => ?_) (pairwise_lt_range' 1)
  have := mem_range'_1.mp hb
  exact countKey_lt hab (by omega)

theorem dataSize_counted (i n : Nat) : dataSize (counted i n) = 7 * n := by
  induction n generalizing i with
  | zero => rfl
  | succ n ih =>
    have := ih (i + 1)
    rw [counted] at this ⊢
    rw [range'_succ, map_cons, dataSize_cons, this]
    simp only [keylen, countKey, length_cons, length_nil]
    omega

theorem counted_keysOk {i n : Nat} (h : i + n ≤ 2 ^ 23) : KeysOk (counted i n) := by
  intro e he
  obtain ⟨j, hj, rfl⟩ := mem_map.mp he
  have := mem_range'_1.mp hj
  refine ⟨?_, by simp [countKey]⟩
  simp only [keyvalcheck, countKey, decide_eq_true_eq, UInt8.lt_iff_toNat_lt]
  have : j / 65536 % 256 < 128 := by omega
  simpa using this

/-- A chunk of counted entries. -/
def countedChunk (i n : Nat) (hn : n ≤ 510) (hi : i + n ≤ 2 ^ 23) : Chunk where
  ents := counted i n
  fits := by
    refine ⟨?_, ?_, fun e he => ?_⟩
    · simp only [counted, length_map, length_range', keyBitmap]
      omega
    · rw [dataSize_counted]
      simp only [keyBitmap, pageSize]
      omega
    · exact lt_of_le_of_lt (counted_keysOk hi e he).2 (by decide)
  keysOk := counted_keysOk hi

/-- A full header page of 3-byte keys and one more key: the union fits the bytes of one page,
whose offset table then has a slot too many. -/
theorem pipe_merge_overfull : ¬ ∃ out, compactionSubprocessing (fun _ _ => 0) (some (counted 510 1)) []
      [((countedChunk 0 510 (by decide) (by decide)).header (by simp [countedChunk, counted])).page]
      none = some out ∧ MergeOk (counted 0 510) (counted 510 1) out := by
  intro h
  obtain ⟨out, hout, ok⟩ := h
  let lower : List Header :=
    [(countedChunk 0 510 (by decide) (by decide)).header (by simp [countedChunk, counted])]
  let upper : UpperPages := .chunk (countedChunk 510 1 (by decide) (by decide))
  have hl : (lower.map (·.ents)).flatten = counted 0 510 := append_nil _
  have hu : upper.ents.flatten = counted 510 1 := append_nil _
  have happ : counted 0 510 ++ counted 510 1 = counted 0 511 := counted_append 0 510 1
  have hs : Sorted (counted 0 511) := counted_sorted (by decide)
  obtain ⟨-, R⟩ := roomy_of_mergeOk (fun _ _ => 0) lower upper none (by simp [lower])
    (by rw [hl]; exact counted_sorted (by decide)) (by rw [hu]; exact counted_sorted (by decide))
    hout (by rw [hl, hu]; exact ok)
  have hslots := R.slots (counted 0 511) (by
    rw [hl, hu, ← happ]
    exact isUnion_append (by rwa [happ]))
  rw [cut_fits (by simp [counted]) (by rw [dataSize_counted]; decide)] at hslots
  have := hslots _ (mem_singleton_self _)
  simp [counted, keyBitmap] at this

end FlashDriver.Lsmtree
