import FlashDriver.Lsmtree.Bloom
import FlashDriver.Lsmtree.Merge
import FlashDriver.Lsmtree.RunSelect

/-!
# Levels and their compaction (`algorithm/Lsmtree/compaction.c`)

A level is an array of runs and a Bloom filter; a run is one header page,
here the list of entries put into it. `leveling` builds a fresh level from
a level `des` and either a chunk of the memtable or the level `from`, in
one of four ways: by taking over the source (`compaction_empty_level`), or by
merging in software (`partial_leveling`), in software with pipelined reads
(`pipe_partial_leveling`) or on the device (`hw_partial_leveling`).

`none` is an `abort()` of the code or an access outside its arrays.
-/
namespace FlashDriver.Lsmtree

open List Option Function

abbrev Run (π : Type) := List (Keyset π)

/-- mirrors algorithm/Lsmtree/lsmtree.h (`comp_opt`) -/
inductive CompOpt
  | non | pipe | hw | mixedcomp
  deriving DecidableEq, Repr

/-- The options of a run of the program. The device's merge is not part of the
repository's FTL: it gets the lower and the upper header pages. -/
structure Cfg (π : Type) where
  levelN : Nat
  levelCaching : Nat
  compOpt : CompOpt
  hwDoMerge : List (Run π) → List (Run π) → Option (List (Run π))

/-- mirrors algorithm/Lsmtree/level.h (`level`) -/
structure Level (π : Type) where
  mNum : Nat
  runs : List (Run π)
  filter : Option BF

/-- What `array_init` allocates: `size` runs, and the filter that `bf_init` sizes from
`keynum_in_header*size` and the false positive rate. -/
structure Dim where
  size : Nat
  filter : Option BFSize

namespace Level

variable {π : Type}

/-- mirrors array.c:99-131 -/
def init (d : Dim) : Level π := ⟨d.size, [], d.filter.map BF.init⟩

/-- mirrors array.c:192-230 -/
def insert (l : Level π) (r : Run π) : Option (Level π) :=
  if l.mNum ≤ l.runs.length then none   -- "level full!!!!", abort()
  else some { l with runs := l.runs ++ [r] }

/-- mirrors array.c:737-751 -/
def levCopy (des src : Level π) : Option (Level π) :=
  if des.mNum < src.runs.length then none
  else some { des with runs := src.runs, filter := src.filter }

/-- `bf_set` of every key of `es`, where there is a filter. -/
def setKeys (l : Level π) (es : List (Keyset π)) : Level π :=
  { l with filter := (keys es).foldl bfSetIf l.filter }

end Level

variable {π : Type}

/-- `run_t.key`, the first key of the run's page. -/
def runKey (r : Run π) : Key := (r.head?.map (·.key)).getD []

/-- `run_t.end`, the last key of the run's page. -/
def runEnd (r : Run π) : Key := (r.getLast?.map (·.key)).getD []

/-- The newer input of a compaction: a memtable chunk or the level at an index. -/
inductive Upper (π : Type)
  | mem (chunk : List (Keyset π))
  | level (idx : Nat) (l : Level π)

/-- The header pages of the newer input; a chunk is encoded as one page. -/
def Upper.pages : Upper π → List (Run π)
  | mem chunk => [chunk]
  | level _ l => l.runs

/-- mirrors algorithm/Lsmtree/compaction_assistant.c:587-645 -/
def compactionEmptyLevel (up : Upper π) (des : Level π) : Option (Level π) :=
  match up with
  | .mem chunk => (des.setKeys chunk).insert chunk
  | .level _ src => des.levCopy src

/-- `LSM.result_padding`, set in algorithm/Lsmtree/compaction.c:112. -/
def resultPadding : Nat := 2

/-- mirrors pipe_merger.c:49-158: the result pages and
the invalidated addresses. Reading the first page of no pages and starting more pages than
`r_data` has places for are accesses outside the arrays. -/
def pipeMerge (lower upper : List (Run π)) : Option (List (Run π) × List π) :=
  if lower = [] ∨ upper = [] then none
  else do
    let r ← merge lower.flatten upper.flatten
    if (pack r.1).length > lower.length + upper.length + resultPadding then none
    else some (pack r.1, r.2)

/-- The runs of a level from `key_min` on. -/
def fromKeyMin (runs : List (Run π)) : Option (List (Run π)) :=
  (rangeFindCompaction runKey runEnd runs keyMin []).map fun found => found.filterMap (runs[·]?)

/-- The pages that `partial_leveling` merges of its newer input: those of a level kept in memory
are all formatted, those of another level are looked for. -/
def Upper.selected (cfg : Cfg π) : Upper π → Option (List (Run π))
  | mem chunk => some [chunk]
  | level idx l => if idx < cfg.levelCaching then some l.runs else fromKeyMin l.runs

/-- mirrors algorithm/Lsmtree/compaction.c:179-259: the writer carries the level's filter,
so each written key is set in it. -/
def partialLeveling (cfg : Cfg π) (up : Upper π) (origin t : Level π) : Option (Level π) := do
  let lower ← fromKeyMin origin.runs
  let upper ← up.selected cfg
  let r ← pipeMerge lower upper
  r.1.foldlM Level.insert (t.setKeys r.1.flatten)

/-- mirrors algorithm/Lsmtree/pipeline_compaction2.c:49-115 and
algorithm/Lsmtree/level_target/array/pipe_merger.c:204-324: here the writer is made
without a filter. -/
def pipePartialLeveling (up : Upper π) (origin t : Level π) : Option (Level π) := do
  let r ← pipeMerge origin.runs up.pages
  r.1.foldlM Level.insert t

/-- mirrors algorithm/Lsmtree/hw_compaction.c:27-231: runs are made from the pages that the
device returns. -/
def hwPartialLeveling (cfg : Cfg π) (up : Upper π) (origin t : Level π) : Option (Level π) :=
  match up, cfg.compOpt with
  | .mem _, .mixedcomp => none   -- `lnode->entry` is only set for HW
  | _, _ =>
    if origin.runs = [] ∨ up.pages = [] then none
    else do
      let kt ← cfg.hwDoMerge origin.runs up.pages
      kt.foldlM Level.insert t

/-- mirrors algorithm/Lsmtree/compaction_assistant.c (`compactor.pt_leveling`) -/
def ptLeveling (cfg : Cfg π) (up : Upper π) (origin t : Level π) : Option (Level π) :=
  match cfg.compOpt with
  | .non => partialLeveling cfg up origin t
  | .pipe => pipePartialLeveling up origin t
  | .hw => hwPartialLeveling cfg up origin t
  | .mixedcomp => hwPartialLeveling cfg up origin t

/-- mirrors algorithm/Lsmtree/compaction.c:96-177, up to the level change: what the fresh
level `target` for index `des` is filled with. -/
def fillLevel (cfg : Cfg π) (up : Upper π) (des : Nat) (origin target : Level π) :
    Option (Level π) :=
  if origin.runs = [] then compactionEmptyLevel up target
  else if des < cfg.levelCaching then partialLeveling cfg up origin target
  else if cfg.compOpt = .mixedcomp ∧ des ≠ cfg.levelN - 1 then partialLeveling cfg up origin target
  else ptLeveling cfg up origin target

abbrev Disk (π : Type) := Nat → Level π

/-- One call of `leveling`. `target` is what `lsm_level_resizing` computes for the fresh
level, `zFrom` the filter size for the emptied source level; both come from floating point. -/
inductive LevelingCall (π : Type)
  | flush (chunk : List (Keyset π)) (target : Dim)
  | down (i j : Nat) (target : Dim) (zFrom : Option BFSize)

/-- mirrors algorithm/Lsmtree/compaction.c:96-177 with `level_change` (lines 17-40): the
memtable goes to level 0, a level to one below it. -/
def leveling (cfg : Cfg π) (disk : Disk π) : LevelingCall π → Option (Disk π)
  | .flush chunk d =>
    (fillLevel cfg (.mem chunk) 0 (disk 0) (.init d)).map (update disk 0)
  | .down i j d z =>
    if i < j ∧ j < cfg.levelN then
      (fillLevel cfg (.level i (disk i)) j (disk j) (.init d)).map
        (update (update disk i (.init ⟨(disk i).mNum, z⟩)) j)
    else none

/-! ## Looking up a run -/

/-- mirrors algorithm/Lsmtree/lsmtree.c:849-853: the filter test of `lsm_find_run`, which is
left out on the device's levels. -/
def filterSkips (cfg : Cfg π) (disk : Disk π) (i : Nat) (key : Key) : Bool :=
  if i ≥ cfg.levelCaching ∧ cfg.compOpt = .hw then false
  else !bfCheck (disk i).filter key

/-! ## What a fill does -/

theorem insert_spec {l l' : Level π} {r : Run π} (h : l.insert r = some l') :
    l' = { l with runs := l.runs ++ [r] } := by
  rw [Level.insert] at h
  split at h
  · cases h
  · cases h
    rfl

theorem insert_foldlM {l l' : Level π} {rs : List (Run π)}
    (h : rs.foldlM Level.insert l = some l') : l' = { l with runs := l.runs ++ rs } := by
  induction rs generalizing l with
  | nil =>
    cases h
    simp
  | cons r rs ih =>
    rw [foldlM_cons] at h
    obtain ⟨m, hm, h⟩ := bind_eq_some_iff.mp h
    obtain rfl := insert_spec hm
    simpa using ih h

end FlashDriver.Lsmtree
