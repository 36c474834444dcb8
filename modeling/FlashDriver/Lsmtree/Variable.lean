import FlashDriver.Core.Packing
import FlashDriver.Lsmtree.Key

/-!
# Packing values into pages (`variable_value2Page`)

The values lie in buckets by their length in pieces. A page is filled with the
longest value that still fits, taken from the end of its bucket, and so on; the
next page is begun when nothing fits any more. The address of a value comes
from the block's counter (`idx_of_ppa`), while its bytes go to where the loop
stands in the page (`ptr`), and the footer of the page records the length at
the piece where the value begins.

A flush and a data collection use the same function. A collection passes over
the nodes that it has dropped (`plength == 0`), and takes the length for the
footer from the bucket instead of the value. `isgc` tells them apart. Where the
pages come from (`moveTo_fr_page`) and where their footers are (`pm_get_oob`)
is a `Source`, with a state of its own.

* `variableValue2Page_eq`: the loops end with all buckets empty; the pages are
  those of the largest-first packing (`Core.Packing`) of the values that were
  not dropped, written one after the other to the pages of the source.
* `write_lies`, `write_off`: where a value lies in its page, and that values do
  not overlap if the source hands no page out twice.
* `write_keeps`: an invariant of the source from one page to the whole call.
-/
namespace FlashDriver.Lsmtree.Variable

open List Option Function
open Core.Packing

variable {α σ : Type}

/-- A value that was written: the address it got, the byte of the page's buffer
it was copied to, the pieces that were copied and the length in the footer. -/
structure Put (α : Type) where
  item : α
  ppa : Nat
  ptr : Nat
  len : Nat
  foot : Nat

/-- Pages and their footers. -/
structure Source (σ : Type) where
  moveToFrPage : σ → Option (Nat × σ)       -- `none`: `abort()`
  getOob : σ → Nat → Nat → Nat
  setOob : σ → Nat → (Nat → Nat) → σ

/-- A page being filled; `remain` and `ptr` in bytes. -/
structure Fill (α : Type) where
  bucket : Buckets α
  remain : Nat
  ptr : Nat
  idxOfPpa : Nat
  puts : List (Put α)

structure Out (α σ : Type) where
  src : σ
  bucket : Buckets α
  des : List (Nat × List (Put α))           -- v_des, or the pages written

/-- mirrors algorithm/Lsmtree/lops_default.c:66-90 -/
def defGetPage (nowPpa idxOfPpa plength : Nat) : Option (Nat × Nat) :=
  if npc ≤ idxOfPpa then none
  else some (nowPpa * npc + idxOfPpa, idxOfPpa + plength)

/-- `foot->map` of a page after the values. -/
def footer (map : Nat → Nat) (us : List (Put α)) : Nat → Nat :=
  us.foldl (fun m u => update m (u.ppa % npc) u.foot) map

section
variable (isgc : Bool) (plength : α → Nat) (S : Source σ)

/-- mirrors algorithm/Lsmtree/variable.c:50-79; `none`: `abort()`, or out of fuel -/
def fillLoop (page maxPiece : Nat) : Nat → Fill α → Option (Fill α)
  | 0, _ => none
  | fuel + 1, f =>
    if f.remain = 0 then some f
    else
      let k := pick f.bucket (min (f.remain / piece) maxPiece)
      if k = 0 then some f
      else match f.bucket k with
        | [] => none
        | t :: rest =>
          if isgc ∧ plength t = 0 then
            fillLoop page maxPiece fuel { f with bucket := update f.bucket k rest }
          else (defGetPage page f.idxOfPpa (plength t)).bind fun r =>
            fillLoop page maxPiece fuel
              { bucket := update f.bucket k rest
                remain := f.remain - k * piece
                ptr := f.ptr + k * piece
                idxOfPpa := r.2
                puts := f.puts ++ [⟨t, r.1, f.ptr, k, if isgc then k else plength t⟩] }

/-- mirrors algorithm/Lsmtree/variable.c:31-97 -/
def pageLoop (maxPiece : Nat) : Nat → Out α σ → Option (Out α σ)
  | 0, _ => none
  | fuel + 1, o => (S.moveToFrPage o.src).bind fun r =>
    if S.getOob r.2 r.1 0 ≠ 0 then none     -- the check in pm_get_oob
    else (fillLoop isgc plength r.1 maxPiece (size npc o.bucket + 1)
        ⟨o.bucket, npc * piece, 0, 0, []⟩).bind fun f =>
      let o := ⟨S.setOob r.2 r.1 (footer (S.getOob r.2 r.1) f.puts), f.bucket,
        o.des ++ [(r.1, f.puts)]⟩
      if size npc f.bucket = 0 then some o else pageLoop maxPiece fuel o

/-- mirrors algorithm/Lsmtree/variable.c:10-103 -/
def variableValue2Page (s : σ) (b : Buckets α) : Option (Out α σ) :=
  let maxPiece := pick b (npc - 1)
  if maxPiece = 0 then some ⟨s, b, []⟩
  else pageLoop isgc plength S maxPiece (size npc b + 1) ⟨s, b, []⟩

end

/-! ## The packing behind it -/

/-- What is in the buckets: every value in the bucket of its length; a
collection may also have dropped it. -/
structure Sorts (isgc : Bool) (plength : α → Nat) (b : Buckets α) : Prop where
  sized : ∀ k, b k ≠ [] → 1 ≤ k ∧ k ≤ npc
  length : ∀ k, ∀ t ∈ b k, plength t = k ∨ isgc = true ∧ plength t = 0

/-- The values that are to be written. -/
def live (plength : α → Nat) (b : Buckets α) : Buckets α := fun k =>
  (b k).filter fun t => plength t ≠ 0

/-- A place of the packing, in page `P`. -/
def put (P : Nat) (x : Slot α) : Put α := ⟨x.item, P * npc + x.off, x.off * piece, x.len, x.len⟩

/-- The pages `ps` are written one after the other. -/
def write (S : Source σ) : σ → List (List (Slot α)) → Option (σ × List (Nat × List (Put α)))
  | s, [] => some (s, [])
  | s, ss :: ps => (S.moveToFrPage s).bind fun r =>
    if S.getOob r.2 r.1 0 ≠ 0 then none
    else (write S (S.setOob r.2 r.1 (footer (S.getOob r.2 r.1) (ss.map (put r.1)))) ps).map
      fun q => (q.1, (r.1, ss.map (put r.1)) :: q.2)

section
variable {isgc : Bool} {plength : α → Nat} {b : Buckets α} {k : Nat} {t : α} {rest : List α}

theorem piece_pos : 0 < piece := Nat.succ_pos 511

theorem size_pop (hk : k ≤ npc) (h : b k = t :: rest) :
    size npc (update b k rest) + 1 = size npc b := by
  rw [← card_items, ← card_items, items_pop hk h, Multiset.card_cons]

theorem Sorts.pop (hs : Sorts isgc plength b) (h : b k = t :: rest) :
    Sorts isgc plength (update b k rest) := by
  refine ⟨Sized.pop hs.sized h, fun j u hu => hs.length j u ?_⟩
  by_cases he : j = k
  · subst he
    rw [update_self] at hu
    rw [h]
    exact .tail _ hu
  · rwa [update_of_ne he] at hu

theorem live_pop (b : Buckets α) (k : Nat) (rest : List α) :
    live plength (update b k rest) =
      update (live plength b) k (rest.filter fun t => plength t ≠ 0) := by
  funext j
  by_cases he : j = k
  · subst he
    simp [live]
  · simp [live, he]

theorem live_pop_dropped (h : b k = t :: rest) (ht : plength t = 0) :
    live plength (update b k rest) = live plength b := by
  rw [live_pop]
  have : rest.filter (fun t => plength t ≠ 0) = live plength b k := by simp [live, h, ht]
  rw [this, update_eq_self]

theorem live_cons (h : b k = t :: rest) (ht : plength t ≠ 0) :
    live plength b k = t :: rest.filter fun t => plength t ≠ 0 := by
  simp [live, h, ht]

theorem live_nil (h : b k = []) : live plength b k = [] := by simp [live, h]

theorem Sorts.sized_live (hs : Sorts isgc plength b) : Sized npc (live plength b) := fun k hk =>
  hs.sized k fun h => hk (live_nil h)

theorem pick_live {m : Nat} (hk : k = pick b m) (hne : live plength b k ≠ []) :
    pick (live plength b) m = k := by
  have hle : k ≤ m := hk ▸ pick_le b m
  refine le_antisymm ?_ ?_
  · by_contra hlt
    have hj : pick (live plength b) m ≠ 0 := by omega
    exact pick_ne hj (live_nil (pick_above (by omega) (pick_le _ m)))
  · by_contra hlt
    exact hne (pick_above (by omega) hle)

theorem pick_live_zero {m : Nat} (h : pick b m = 0) : pick (live plength b) m = 0 := by
  by_contra hj
  exact pick_ne hj (live_nil (pick_above (by omega) (pick_le _ m)))

theorem fillLoop_eq {maxPiece fuel : Nat} : ∀ {b : Buckets α} {n off rem : Nat}, rem ≤ n →
    Sorts isgc plength b → (∀ k, b k ≠ [] → k ≤ maxPiece) → off + rem = npc → size npc b < fuel →
    ∃ b' rem' off', Sorts isgc plength b' ∧ (∀ k, b k = [] → b' k = []) ∧
      live plength b' = (fillFrom n (live plength b) off rem).2 ∧
      size npc b' ≤ size npc b ∧ (pick b rem ≠ 0 → size npc b' < size npc b) ∧
      ∀ page us, fillLoop isgc plength page maxPiece fuel
          ⟨b, rem * piece, off * piece, off, us⟩ =
        some ⟨b', rem' * piece, off' * piece, off',
          us ++ (fillFrom n (live plength b) off rem).1.map (put page)⟩ := by
  induction fuel with
  | zero => intro b n off rem _ _ _ _ h; omega
  | succ fuel ih =>
    intro b n off rem hn hs hmax hoff hfuel
    simp only [fillLoop]
    by_cases hz : rem = 0
    · subst hz
      refine ⟨b, 0, off, hs, fun _ h => h, ?_, le_rfl, fun h => absurd rfl h, fun page us => ?_⟩
      · cases n <;> simp [fillFrom, pick]
      · rw [if_pos (zero_mul _)]
        cases n <;> simp [fillFrom, pick]
    obtain ⟨n, rfl⟩ : ∃ m, n = m + 1 := ⟨n - 1, by omega⟩
    obtain ⟨k, hk⟩ : ∃ k, k = pick b rem := ⟨_, rfl⟩
    simp only [if_neg (Nat.mul_ne_zero hz (ne_of_gt piece_pos)), Nat.mul_div_cancel _ piece_pos,
      pick_min hmax, ← hk]
    by_cases h0 : k = 0
    · simp only [if_pos h0, fillFrom, pick_live_zero (hk.symm.trans h0)]
      exact ⟨b, rem, off, hs, fun _ h => h, rfl, le_rfl, fun h => absurd h0 h, by simp⟩
    simp only [if_neg h0]
    have hle : k ≤ rem := hk ▸ pick_le b rem
    have hne : b k ≠ [] := hk ▸ pick_ne (hk ▸ h0)
    obtain ⟨t, rest, hb⟩ := exists_cons_of_ne_nil hne
    have hsize := size_pop (hs.sized k hne).2 hb
    have hmax' : ∀ j, update b k rest j ≠ [] → j ≤ maxPiece := fun j hj =>
      hmax j fun h => hj (pop_nil hb h)
    simp only [hb]
    by_cases hd : isgc = true ∧ plength t = 0
    · -- a dropped value
      obtain ⟨b', rem', off', h1, h2, h3, h4, -, h5⟩ := ih hn (hs.pop hb) hmax' hoff (by omega)
      rw [live_pop_dropped hb hd.2] at h3 h5
      simp only [if_pos hd]
      exact ⟨b', rem', off', h1, fun j hj => h2 j (pop_nil hb hj), h3, by omega, fun _ => by omega, h5⟩
    · have hlen : plength t = k := by
        rcases hs.length k t (by rw [hb]; exact mem_cons_self) with h | h
        · exact h
        · exact absurd h hd
      have hlive : live plength b k = _ := live_cons hb (by omega)
      have hpick : pick (live plength b) rem = k :=
        pick_live hk (by rw [hlive]; exact cons_ne_nil _ _)
      obtain ⟨b', rem', off', h1, h2, h3, h4, -, h5⟩ := ih (n := n)
        (by omega : rem - k ≤ n) (hs.pop hb) hmax' (by omega : off + k + _ = npc) (by omega)
      rw [live_pop] at h3 h5
      rw [hlen] at hd
      simp only [hlen, if_neg hd, defGetPage, if_neg (show ¬ npc ≤ off by omega), bind_some,
        fillFrom, hpick, if_neg h0, hlive, ite_self, ← Nat.sub_mul, ← add_mul]
      refine ⟨b', rem', off', h1, fun j hj => h2 j (pop_nil hb hj), h3, by omega, fun _ => by omega,
        fun page us => ?_⟩
      rw [h5, append_assoc]
      rfl

theorem Sorts.live_eq (hs : Sorts false plength b) : live plength b = b := by
  funext k
  refine filter_eq_self.mpr fun t ht => ?_
  have h1 := (hs.sized k (ne_nil_of_mem ht)).1
  rcases hs.length k t ht with h | ⟨h, -⟩
  · simp only [ne_eq, decide_not, Bool.not_eq_true', decide_eq_false_iff_not]
    omega
  · cases h

theorem packFrom_empty {fuel : Nat} (hf : 0 < fuel) (h : size npc b = 0) :
    Core.Packing.packFrom npc fuel b = some [] := by
  obtain ⟨fuel, rfl⟩ : ∃ m, fuel = m + 1 := ⟨fuel - 1, by omega⟩
  rw [Core.Packing.packFrom, if_pos h]

theorem size_live_zero (h : size npc b = 0) : size npc (live plength b) = 0 := by
  rw [size_eq_zero] at h ⊢
  exact fun k hk => live_nil (h k hk)

theorem fill_empty (hs : Sized npc b) (h : size npc b = 0) : (fill npc b).1 = [] := by
  have F : Core.Packing.Filled npc npc 0 b (fill npc b) := fillFrom_spec hs (le_refl npc)
  rw [← card_items, F.items, Multiset.card_add, Multiset.coe_card, placed, length_map] at h
  exact length_eq_zero_iff.mp (by omega)

theorem Sorts.empty (hs : Sorts isgc plength b) (h : size npc b = 0) : b = fun _ => [] := by
  funext k
  by_contra hk
  exact hk (size_eq_zero.mp h k (hs.sized k hk).2)

theorem Sorts.pick_ne (hs : Sorts isgc plength b) (h : size npc b ≠ 0) : pick b npc ≠ 0 := by
  intro hz
  refine h (size_eq_zero.mpr fun k hk => ?_)
  by_contra hne
  have := (hs.sized k hne).1
  exact hne (pick_above (by omega) hk)

theorem pageLoop_eq {S : Source σ} {maxPiece fuel : Nat} : ∀ {b : Buckets α},
    Sorts isgc plength b → (∀ k, b k ≠ [] → k ≤ maxPiece) → size npc b ≠ 0 → size npc b < fuel →
    ∃ ps tail : List (List (Slot α)), Core.Packing.packFrom npc fuel (live plength b) = some ps ∧
      (∀ ss ∈ tail, ss = []) ∧ (isgc = false → tail = []) ∧
      ∀ s des, pageLoop isgc plength S maxPiece fuel ⟨s, b, des⟩ =
        (write S s (ps ++ tail)).map fun q => ⟨q.1, fun _ => [], des ++ q.2⟩ := by
  induction fuel with
  | zero => intro b _ _ _ h; omega
  | succ fuel ih =>
    intro b hs hmax hne hfuel
    obtain ⟨b', rem', off', h1, h2, h3, -, h4, h5⟩ := fillLoop_eq (le_refl npc) hs hmax
      (zero_add npc) (Nat.lt_succ_self (size npc b))
    have hlt := h4 (hs.pick_ne hne)
    change live plength b' = (fill npc (live plength b)).2 at h3
    have hfill : ∀ page, fillLoop isgc plength page maxPiece (size npc b + 1)
        ⟨b, npc * piece, 0, 0, []⟩ = some ⟨b', rem' * piece, off' * piece, off',
          (fill npc (live plength b)).1.map (put page)⟩ := fun page => by
      have := h5 page []
      rw [zero_mul] at this
      exact this
    -- what the loop does after this page
    obtain ⟨ps, tail, hps, htail, hgc, hrest⟩ : ∃ ps tail : List (List (Slot α)),
        Core.Packing.packFrom npc fuel (live plength b') = some ps ∧ (∀ ss ∈ tail, ss = []) ∧
        (isgc = false → tail = []) ∧ ∀ (s : σ) (des : List (Nat × List (Put α))),
          (if size npc b' = 0 then some (⟨s, b', des⟩ : Out α σ)
            else pageLoop isgc plength S maxPiece fuel ⟨s, b', des⟩) =
          (write S s (ps ++ tail)).map fun q => ⟨q.1, fun _ => [], des ++ q.2⟩ := by
      by_cases hz : size npc b' = 0
      · refine ⟨[], [], packFrom_empty (by omega) (size_live_zero hz), fun _ h => (by cases h),
          fun _ => rfl, fun s des => ?_⟩
        rw [if_pos hz, h1.empty hz]
        simp [write]
      · simp only [if_neg hz]
        exact ih h1 (fun k hk => hmax k fun h => hk (h2 k h)) hz (by omega)
    have hloop : ∀ (s : σ) (des : List (Nat × List (Put α))),
        pageLoop isgc plength S maxPiece (fuel + 1) ⟨s, b, des⟩ =
          (write S s ((fill npc (live plength b)).1 :: (ps ++ tail))).map fun q =>
            ⟨q.1, fun _ => [], des ++ q.2⟩ := by
      intro s des
      rw [pageLoop, write]
      cases S.moveToFrPage s with
      | none => rfl
      | some r =>
        dsimp only [bind_some]
        split
        · rfl
        · rw [hfill, Option.bind_some, hrest, Option.map_map]
          congr 1
          funext q
          simp
    by_cases hz : size npc (live plength b) = 0
    · -- only dropped values were left
      have hnil := fill_empty hs.sized_live hz
      refine ⟨[], (fill npc (live plength b)).1 :: tail, packFrom_empty (by omega) hz, fun ss hss => ?_,
        fun hg => ?_, fun s des => ?_⟩
      · rcases mem_cons.mp hss with rfl | hss
        · exact hnil
        · exact htail ss hss
      · subst hg
        rw [hs.live_eq] at hz
        exact absurd hz hne
      · have F : Core.Packing.Filled npc npc 0 (live plength b) (fill npc (live plength b)) :=
          fillFrom_spec hs.sized_live (le_refl npc)
        have hz' : size npc (live plength b') = 0 := size_eq_zero.mpr fun k hk => by
          rw [h3]
          exact F.anti k (size_eq_zero.mp hz k hk)
        rw [packFrom_empty (by omega) hz'] at hps
        cases hps
        exact hloop s des
    · refine ⟨(fill npc (live plength b)).1 :: ps, tail, ?_, htail, hgc, hloop⟩
      rw [Core.Packing.packFrom, if_neg hz, ← h3, hps]
      rfl

end

/-! ## The pages -/

/-- A page that is filled from the front with values of their own lengths. -/
structure Neat (plength : α → Nat) (ss : List (Slot α)) : Prop where
  laid : Laid 0 ss
  sum_le : (lens ss).sum ≤ npc
  len : ∀ x ∈ ss, x.len = plength x.item ∧ 1 ≤ x.len

section
variable {isgc : Bool} {plength : α → Nat} {b : Buckets α} {S : Source σ} {s s' : σ}
  {ss : List (Slot α)} {ps : List (List (Slot α))} {des : List (Nat × List (Put α))}

theorem variableValue2Page_eq (hs : Sorts isgc plength b) (hlt : ∀ k, b k ≠ [] → k < npc)
    (S : Source σ) (s : σ) :
    ∃ ps : List (List (Slot α)), (∀ ss ∈ ps, Neat plength ss) ∧
      (placed ps.flatten : Multiset (Nat × α)) = items npc (live plength b) ∧
      (isgc = false → Best npc (ps.map lens)) ∧
      variableValue2Page isgc plength S s b = (write S s ps).map fun q => ⟨q.1, fun _ => [], q.2⟩ := by
  have hmax : ∀ k, b k ≠ [] → k ≤ pick b (npc - 1) := by
    intro k hk
    by_contra hgt
    have := hlt k hk
    exact hk (pick_above (lt_of_not_ge hgt) (by omega))
  have hneat : ∀ {ps : List (List (Slot α))}, (∀ ss ∈ ps, Laid 0 ss ∧ (lens ss).sum ≤ npc) →
      (placed ps.flatten : Multiset (Nat × α)) = items npc (live plength b) →
      ∀ ss ∈ ps, Neat plength ss := by
    intro ps hlaid hitems ss hss
    refine ⟨(hlaid ss hss).1, (hlaid ss hss).2, fun x hx => ?_⟩
    have hmem : (x.len, x.item) ∈ items npc (live plength b) := by
      rw [← hitems]
      exact mem_map.mpr ⟨x, mem_flatten.mpr ⟨ss, hss, hx⟩, rfl⟩
    obtain ⟨hx1, hx2⟩ := mem_filter.mp (mem_items.mp hmem).2
    have hx2 : plength x.item ≠ 0 := by simpa using hx2
    rcases hs.length _ _ hx1 with h | ⟨-, h⟩
    · dsimp only at h
      omega
    · exact absurd h hx2
  unfold variableValue2Page
  dsimp only
  split
  · rename_i hz
    have hempty : b = fun _ => [] := by
      funext k
      by_contra hk
      have h1 := hmax k hk
      have h2 := (hs.sized k hk).1
      omega
    refine ⟨[], fun ss hss => (by cases hss), ?_, fun _ => trivial, by rw [hempty]; rfl⟩
    rw [hempty]
    simp [items, live, placed]
  · rename_i hz
    have hne : size npc b ≠ 0 := by
      intro h0
      refine Core.Packing.pick_ne hz (size_eq_zero.mp h0 _ ?_)
      have := pick_le b (npc - 1)
      omega
    obtain ⟨ps, tail, hps, htail, hgc, hloop⟩ := pageLoop_eq (S := S) hs hmax hne (Nat.lt_succ_self _)
    have hsize : size npc (live plength b) < size npc b + 1 := by
      refine Nat.lt_succ_of_le (Finset.sum_le_sum fun k _ => ?_)
      exact length_filter_le _ _
    obtain ⟨ps', hps', hlaid, hitems, hbest⟩ := packFrom_spec hs.sized_live hsize
    rw [hps] at hps'
    cases hps'
    have hflat : (ps ++ tail).flatten = ps.flatten := by
      rw [flatten_append, flatten_eq_nil_iff.mpr htail, append_nil]
    refine ⟨ps ++ tail, fun ss hss => ?_, by rw [hflat]; exact hitems, fun hg => ?_, ?_⟩
    · rcases mem_append.mp hss with hss | hss
      · exact hneat hlaid hitems ss hss
      · rw [htail ss hss]
        exact ⟨trivial, Nat.zero_le _, fun x hx => (by cases hx)⟩
    · rw [hgc hg, append_nil]
      exact hbest
    · exact hloop s []

theorem write_cons (h : write S s (ss :: ps) = some (s', des)) :
    ∃ P s1 des', S.moveToFrPage s = some (P, s1) ∧
      write S (S.setOob s1 P (footer (S.getOob s1 P) (ss.map (put P)))) ps = some (s', des') ∧
      des = (P, ss.map (put P)) :: des' := by
  rw [write] at h
  obtain ⟨⟨P, s1⟩, hr, h⟩ := bind_eq_some_iff.mp h
  split at h
  · cases h
  · obtain ⟨q, hq, h⟩ := map_eq_some_iff.mp h
    cases h
    exact ⟨P, s1, q.2, hr, hq, rfl⟩

theorem write_pages (h : write S s ps = some (s', des)) :
    List.Forall₂ (fun ss d => d.2 = ss.map (put d.1)) ps des := by
  induction ps generalizing s des with
  | nil =>
    cases h
    exact List.Forall₂.nil
  | cons ss ps ih =>
    obtain ⟨P, s1, des', -, hrest, rfl⟩ := write_cons h
    exact List.Forall₂.cons rfl (ih hrest)

theorem write_mem (h : write S s ps = some (s', des)) :
    ∀ d ∈ des, ∃ ss ∈ ps, d.2 = ss.map (put d.1) := by
  have hp := write_pages h
  clear h
  induction hp with
  | nil => exact fun d hd => (by cases hd)
  | @cons ss e ps des he _ ih =>
    intro d hd
    rcases mem_cons.mp hd with rfl | hd
    · exact ⟨ss, (.head _), he⟩
    · obtain ⟨tt, ht, hd⟩ := ih d hd
      exact ⟨tt, .tail _ ht, hd⟩

theorem write_items (h : write S s ps = some (s', des)) :
    (des.flatMap Prod.snd).map (·.item) = ps.flatten.map (·.item) := by
  have hp := write_pages h
  clear h
  induction hp with
  | nil => rfl
  | cons hd _ ih =>
    rw [List.flatMap_cons, List.map_append, ih, hd, List.map_map, List.flatten_cons, List.map_append]
    rfl

/-- While `I` holds of the state and the pages handed out, a page is a new one,
its footer is cleared, and it stays as it is written. `ok` may only be lost. -/
structure Source.Keeps (S : Source σ) (ok : σ → Prop)
    (I : σ → List (Nat × (Nat → Nat)) → Prop) : Prop where
  moved : ∀ {s P s'}, S.moveToFrPage s = some (P, s') → ok s' → ok s
  stored : ∀ {s P m}, ok (S.setOob s P m) → ok s
  fresh : ∀ {s H P s'}, I s H → S.moveToFrPage s = some (P, s') → ok s' →
    P ∉ H.map Prod.fst ∧ (∀ j, S.getOob s' P j = 0) ∧ ∀ m, I (S.setOob s' P m) ((P, m) :: H)

/-- A page with its footer. -/
def footed (d : Nat × List (Put α)) : Nat × (Nat → Nat) := (d.1, footer (fun _ => 0) d.2)

theorem write_ok {ok : σ → Prop} {I : σ → List (Nat × (Nat → Nat)) → Prop} (K : S.Keeps ok I)
    (h : write S s ps = some (s', des)) (hok : ok s') : ok s := by
  induction ps generalizing s des with
  | nil =>
    cases h
    exact hok
  | cons ss ps ih =>
    obtain ⟨P, s1, des, hP, hrest, rfl⟩ := write_cons h
    exact K.moved hP (K.stored (ih hrest))

theorem write_keeps {ok : σ → Prop} {I : σ → List (Nat × (Nat → Nat)) → Prop} (K : S.Keeps ok I)
    {H : List (Nat × (Nat → Nat))} (hI : I s H) (h : write S s ps = some (s', des)) (hok : ok s') :
    (des.map Prod.fst).Nodup ∧ (∀ d ∈ des, d.1 ∉ H.map Prod.fst) ∧
      I s' ((des.map footed).reverse ++ H) := by
  induction ps generalizing s H des with
  | nil =>
    cases h
    exact ⟨nodup_nil, fun d hd => (by cases hd), hI⟩
  | cons ss ps ih =>
    obtain ⟨P, s1, des, hP, hrest, rfl⟩ := write_cons h
    obtain ⟨hnew, hzero, hI1⟩ := K.fresh hI hP (K.stored (write_ok K hrest hok))
    have hmap : S.getOob s1 P = fun _ => 0 := funext hzero
    rw [hmap] at hrest
    obtain ⟨hnd, hout, hI'⟩ := ih (hI1 _) hrest
    refine ⟨nodup_cons.mpr ⟨fun hm => ?_, hnd⟩, fun d hd => ?_, ?_⟩
    · obtain ⟨d, hd, he⟩ := mem_map.mp hm
      exact hout d hd (by rw [he]; exact mem_cons_self)
    · rcases mem_cons.mp hd with rfl | hd
      · exact hnew
      · exact fun hm => hout d hd (.tail _ hm)
    · rw [map_cons, reverse_cons, append_assoc]
      exact hI'

/-! ## Where the values lie -/

/-- Two values do not overlap. -/
def Off (u v : Put α) : Prop := u.ppa + u.len ≤ v.ppa ∨ v.ppa + v.len ≤ u.ppa

/-- A value of length `plength` in page `P`: within the page, copied to the piece
that its address names, and with its length in the footer. -/
structure Lies (plength : α → Nat) (P : Nat) (u : Put α) : Prop where
  page : u.ppa / npc = P
  within : u.ppa % npc + u.len ≤ npc
  ptr : u.ptr = u.ppa % npc * piece
  len : u.len = plength u.item
  foot : u.foot = u.len
  pos : 1 ≤ u.len

theorem Neat.offset (h : Neat plength ss) (P : Nat) {x : Slot α} (hx : x ∈ ss) :
    (put P x).ppa % npc = x.off ∧ x.off + x.len ≤ npc := by
  have h1 := (h.laid.bounds x hx).2
  have h2 := h.sum_le
  have h3 := (h.len x hx).2
  refine ⟨?_, by omega⟩
  change (P * npc + x.off) % npc = x.off
  rw [Nat.mul_add_mod_self_right, Nat.mod_eq_of_lt (by omega)]

theorem Neat.lies (h : Neat plength ss) (P : Nat) {u : Put α} (hu : u ∈ ss.map (put P)) :
    Lies plength P u := by
  obtain ⟨x, hx, rfl⟩ := mem_map.mp hu
  obtain ⟨hmod, hle⟩ := h.offset P hx
  obtain ⟨h1, h2⟩ := h.len x hx
  refine ⟨?_, by rw [hmod]; exact hle, by rw [hmod]; rfl, h1, rfl, h2⟩
  change (P * npc + x.off) / npc = P
  rw [mul_comm, Nat.mul_add_div (by omega), Nat.div_eq_of_lt (by omega), add_zero]

theorem write_lies (hN : ∀ ss ∈ ps, Neat plength ss) (h : write S s ps = some (s', des)) :
    ∀ d ∈ des, ∀ u ∈ d.2, Lies plength d.1 u := by
  intro d hd u hu
  obtain ⟨ss, hss, he⟩ := write_mem h d hd
  exact (hN ss hss).lies d.1 (he ▸ hu)

theorem Lies.off {P Q : Nat} {u v : Put α} (hu : Lies plength P u) (hv : Lies plength Q v)
    (hne : P ≠ Q) : Off u v := by
  have h1 := Nat.div_add_mod u.ppa npc
  have h2 := Nat.div_add_mod v.ppa npc
  rw [hu.page] at h1
  rw [hv.page] at h2
  have h3 := hu.within
  have h4 := hv.within
  rcases Nat.lt_or_gt_of_ne hne with hlt | hgt
  · have := Nat.mul_le_mul_left npc (Nat.succ_le_of_lt hlt)
    rw [Nat.mul_succ] at this
    exact .inl (by omega)
  · have := Nat.mul_le_mul_left npc (Nat.succ_le_of_lt hgt)
    rw [Nat.mul_succ] at this
    exact .inr (by omega)

theorem write_off (hN : ∀ ss ∈ ps, Neat plength ss) (h : write S s ps = some (s', des))
    (hnd : (des.map Prod.fst).Nodup) : (des.flatMap Prod.snd).Pairwise Off := by
  have hlies := write_lies hN h
  have hp := write_pages h
  clear h
  induction hp with
  | nil => exact List.Pairwise.nil
  | @cons ss d ps des hd _ ih =>
    rw [map_cons, nodup_cons] at hnd
    rw [flatMap_cons]
    refine pairwise_append.mpr ⟨?_, ih (fun ss hss => hN ss (.tail _ hss)) hnd.2
      fun e he => hlies e (.tail _ he), fun u hu v hv => ?_⟩
    · rw [hd]
      refine pairwise_map.mpr ((hN ss mem_cons_self).laid.disjoint.imp fun hxy => .inl ?_)
      simp only [put]
      omega
    · obtain ⟨e, he, hv⟩ := mem_flatMap.mp hv
      refine (hlies d mem_cons_self u hu).off (hlies e (.tail _ he) v hv) ?_
      intro hpe
      exact hnd.1 (mem_map.mpr ⟨e, he, hpe.symm⟩)

end

end FlashDriver.Lsmtree.Variable
