import FlashDriver.Lsmtree.Skiplist

/-!
# Dividing a skiplist (`skiplist_divide`)

The nodes up to `target` move to a new list. The upper loop goes down the
rows that are higher than `target`, the lower loop down the rows that
`target` is in; both cut a row with the same three writes, and lower the
level of the side that the row leaves empty.

* `Div.At`: the rows above `i` are cut, those up to `i` are not, and the
  levels are those of the sides as far as they are known.
* `divide_spec`: at a node of a well-formed list, the two lists that are left
  are well formed and the `abort()` is not reached.
-/
namespace FlashDriver.Lsmtree.Skip

open List Option Function
open Core.SkipChain

variable {δ : Type}

/-! ## The loops -/

/-- What the loops of `skiplist_divide` change. -/
structure Div (δ : Type) where
  mem : Mem δ
  inLevel : Nat
  resLevel : Nat
  x : Nat

/-- mirrors algorithm/Lsmtree/skiplist.c:962-982: one list above the height of `target`. -/
def Div.upper (header res : Nat) (target : Key) (d : Div δ) (i : Nat) : Option (Div δ) := do
  let x ← walk (fun a => d.mem.list a i) (d.mem.before target) d.mem.next d.x
  if keycmp (d.mem.node x).key target = .gt then do
    let x ← d.mem.list header (i - 1)
    some { d with resLevel := d.resLevel - 1, x := x }
  else do
    let y ← d.mem.list x i
    let temp ← d.mem.list header i
    let m ← d.mem.setList header i y
    let m ← m.setList res i temp
    let m ← m.setList x i res
    some { d with mem := m, inLevel := if y = header then d.inLevel - 1 else d.inLevel, x := x }

/-- mirrors algorithm/Lsmtree/skiplist.c:984-991: one list that `target` is in. -/
def Div.lower (header res target : Nat) (d : Div δ) (i : Nat) : Option (Div δ) := do
  let first ← d.mem.list header i
  let m ← d.mem.setList res i first
  let y ← m.list target i
  let m ← m.setList header i y
  let m ← m.setList target i res
  some { d with mem := m, inLevel := if y = header then d.inLevel - 1 else d.inLevel }

/-- The loop over the lists `n+k` to `n+1`, the top one first. -/
def Div.loop (step : Div δ → Nat → Option (Div δ)) (n : Nat) : Nat → Div δ → Option (Div δ)
  | 0, d => some d
  | k + 1, d => do
    let d ← step d (n + (k + 1))
    Div.loop step n k d

/-- mirrors algorithm/Lsmtree/skiplist.c:994-1000: the test in front of the `abort()`. -/
def Div.broken (d : Div δ) (origin header res : Nat) : Bool :=
  (origin ≠ d.inLevel && origin ≠ d.resLevel) ||
    (d.inLevel ≠ 0 && (d.mem.list header d.inLevel = some header || d.mem.list res d.resLevel = some res))

/-- mirrors algorithm/Lsmtree/skiplist.c:948-1004: the memory, what is left of `list` and the
list of the nodes up to `target`. -/
def skiplistDivide (m : Mem δ) (list : Skiplist) (target : Nat) :
    Option (Mem δ × Skiplist × Skiplist) := do
  let (m, res) := skiplistInit m
  if target = list.header then some (m, res, list)
  else do
    let x ← m.list list.header list.level
    let level := (m.node target).level
    let d ← Div.loop (Div.upper list.header res.header (m.node target).key) level (list.level - level)
      ⟨m, list.level, list.level, x⟩
    let d ← Div.loop (Div.lower list.header res.header target) 0 level d
    if d.broken list.level list.header res.header then none
    else some (d.mem, { list with level := if d.inLevel = 0 then 1 else d.inLevel },
      { res with level := d.resLevel })

/-! ## Writing a row -/

section
variable {m m' : Mem δ} {list : Skiplist} {ns pre post : List Nat} {key : Key} {res : Nat}

theorem put_comm {x x' : Nat} (h : x ≠ x') (i y y' : Nat) :
    (m.put x i y).put x' i y' = (m.put x' i y').put x i y := by
  simp only [Mem.put]
  congr 1
  funext a j
  by_cases ha : a = x
  · subst ha
    simp [h]
  · simp [ha]

theorem put_parted {header res x i y first : Nat} (hy : m.list x i = some y)
    (hfirst : m.list header i = some first) (hhr : header ≠ res) (hhx : header ≠ x) (hrx : res ≠ x) :
    Relinked m (((m.put header i y).put res i first).put x i res) i ∧
    Parted (m.nx i) ((((m.put header i y).put res i first).put x i res).nx i) header res x := by
  refine ⟨⟨rfl, rfl, fun j hj => ?_⟩, ?_, ?_, ?_, fun a h1 h2 h3 => ?_⟩
  · funext a
    simp [Mem.nx, put_list, hj]
  · simp [Mem.nx, put_list, hhr, hhx, hy]
  · simp [Mem.nx, put_list, hrx, hfirst]
  · simp [Mem.nx, put_list]
  · simp [Mem.nx, put_list, h1, h2, h3]

/-- The rows above `i` of the list at `header` are cut behind `target`, those up to `i` not. -/
structure Div.At (m : Mem δ) (header res : Nat) (pre post : List Nat) (i : Nat) (d : Div δ) : Prop where
  node : d.mem.node = m.node
  next : d.mem.next = m.next
  done : ∀ j, i < j → j < maxL → CutRow (m.nx j) (d.mem.nx j) header res (row m.height j pre)
  todo : ∀ j, j ≤ i ∨ maxL ≤ j → d.mem.nx j = m.nx j
  inLevel : d.inLevel = max i (tallest m.height post)
  resLevel : d.resLevel = max i (tallest m.height pre)

theorem Div.At.step {header i inLevel resLevel x : Nat} {d : Div δ}
    (A : Div.At m header res pre post (i + 1) d) (hi : i + 1 < maxL) (R : Relinked d.mem m' (i + 1))
    (hcut : CutRow (m.nx (i + 1)) (m'.nx (i + 1)) header res (row m.height (i + 1) pre))
    (hin : inLevel = max i (tallest m.height post)) (hres : resLevel = max i (tallest m.height pre)) :
    Div.At m header res pre post i ⟨m', inLevel, resLevel, x⟩ where
  node := R.node.trans A.node
  next := R.next.trans A.next
  done j hj hlt := by
    by_cases hji : j = i + 1
    · rw [hji]
      exact hcut
    · rw [R.list j hji]
      exact A.done j (by omega) hlt
  todo j hj := by
    rw [R.list j (by omega)]
    exact A.todo j (by omega)
  inLevel := hin
  resLevel := hres

/-- A new header beside a list. -/
structure Hung (m : Mem δ) (list : Skiplist) (ns : List Nat) (res : Nat) : Prop where
  wf : Wf m list ns
  fresh : res ∉ list.header :: ns
  self : ∀ i, i < maxL → m.list res i = some res
  cells : (m.node res).cells = maxL + 1

theorem Hung.ne (H : Hung m list ns res) {n : Nat} (hn : n ∈ ns) : res ≠ n ∧ list.header ≠ n := by
  refine ⟨?_, ?_⟩
  · rintro rfl
    exact H.fresh (.tail _ hn)
  · rintro rfl
    exact (nodup_cons.mp H.wf.tower.nodup).1 hn

theorem Hung.header_ne (H : Hung m list ns res) : list.header ≠ res := by
  rintro h
  exact H.fresh (by rw [h]; exact mem_cons_self)

theorem Wf.headD_eq (W : Wf m list ns) {i : Nat} (h1 : 1 ≤ i) (hsub : ∀ n ∈ post, n ∈ ns) :
    (row m.height i post).headD list.header = list.header ↔ tallest m.height post < i := by
  rw [← row_eq_nil_iff h1]
  cases hrow : row m.height i post with
  | nil => simp
  | cons n ms =>
    have hn : n ∈ row m.height i post := by
      rw [hrow]
      exact mem_cons_self
    refine ⟨fun h => ?_, fun h => (by cases h)⟩
    have hn := hsub n (mem_row.mp hn).1
    rw [headD_cons] at h
    rw [h] at hn
    exact absurd hn (nodup_cons.mp W.tower.nodup).1

theorem Wf.inLevel_step (W : Wf m list ns) {i : Nat} (hsub : ∀ n ∈ post, n ∈ ns) :
    (if (row m.height (i + 1) post).headD list.header = list.header
      then max (i + 1) (tallest m.height post) - 1 else max (i + 1) (tallest m.height post)) =
      max i (tallest m.height post) := by
  have h := W.headD_eq (i := i + 1) (by omega) hsub
  split
  · rename_i hh
    have := h.mp hh
    omega
  · rename_i hh
    have := mt h.mpr hh
    omega

theorem Div.At.cut {ms : List Nat} {res u i : Nat} {d : Div δ} (H : Hung m list (ms ++ post) res)
    (A : Div.At m list.header res ms post (i + 1) d) (hlt : i + 1 < maxL)
    (hne : row m.height (i + 1) ms ≠ []) (hu : (row m.height (i + 1) ms).getLastD list.header = u) :
    ∃ y first, d.mem.list u (i + 1) = some y ∧ d.mem.list list.header (i + 1) = some first ∧ res ≠ u ∧
      (∀ m1 : Mem δ, m1.node = d.mem.node → ∀ n ∈ [list.header, res, u], ∀ v,
        m1.setList n (i + 1) v = some (m1.put n (i + 1) v)) ∧
      ∀ x, Div.At m list.header res ms post i
        ⟨((d.mem.put list.header (i + 1) y).put res (i + 1) first).put u (i + 1) res,
          if y = list.header then d.inLevel - 1 else d.inLevel, d.resLevel, x⟩ := by
  have hnext := H.wf.row_next (i := i + 1) (by omega) hlt
  have hcu := H.wf.cell (i := i + 1) hlt
  have hfirst := (H.wf.tower.chain (i + 1) (by omega) (by omega)).head
  have hmem : (row m.height (i + 1) ms).getLastD list.header ∈ ms := getLastD_row_mem_of_ne hne
  rw [hu] at hnext hcu hmem
  have htodo := A.todo (i + 1) (.inl (le_rfl))
  obtain ⟨hru, hhu⟩ := H.ne (mem_append_left _ hmem)
  generalize hy : (row m.height (i + 1) post).headD list.header = y at hnext
  generalize (row m.height (i + 1) (ms ++ post)).headD list.header = first at hfirst
  have hnext' : d.mem.list u (i + 1) = some y := (congrFun htodo u).trans hnext
  have hfirst' : d.mem.list list.header (i + 1) = some first := (congrFun htodo _).trans hfirst
  obtain ⟨R, P⟩ := put_parted hnext' hfirst' H.header_ne hhu hru
  refine ⟨y, first, hnext', hfirst', hru, fun m1 h1 n hn v => setList_eq v ?_, fun x => ?_⟩
  · have hheader := H.wf.headCells
    have hres := H.cells
    rw [h1, A.node]
    simp only [mem_cons, not_mem_nil, or_false] at hn
    obtain rfl | rfl | rfl := hn
    · omega
    · omega
    · exact hcu
  · rw [htodo] at P
    refine A.step hlt R ⟨fun _ => by rwa [hu], fun h => absurd h hne⟩ ?_ ?_
    · rw [A.inLevel, ← hy]
      exact H.wf.inLevel_step fun n hn => mem_append_right _ hn
    · have htall := mt (row_eq_nil_iff (by omega)).mpr hne
      rw [A.resLevel]
      omega

theorem Div.At.lower {res target i : Nat} {d : Div δ} (H : Hung m list (pre ++ target :: post) res)
    (A : Div.At m list.header res (pre ++ [target]) post (i + 1) d) (hi : i + 1 ≤ m.height target) :
    ∃ d', Div.lower list.header res target d (i + 1) = some d' ∧
      Div.At m list.header res (pre ++ [target]) post i d' := by
  have htarget : target ∈ pre ++ target :: post := mem_append_right _ mem_cons_self
  have hlt : i + 1 < maxL := lt_of_le_of_lt hi (H.wf.heights target htarget).2
  have hrow : row m.height (i + 1) (pre ++ [target]) = row m.height (i + 1) pre ++ [target] := by
    rw [row_append, row_cons, if_pos hi]
    rfl
  have hhr := H.header_ne
  rw [append_cons] at H
  obtain ⟨y, first, hnext, hfirst, hrt, hset, hA⟩ := A.cut H hlt (by simp [hrow])
    (by rw [hrow, getLastD_concat])
  refine ⟨_, ?_, hA d.x⟩
  have hread : (d.mem.put res (i + 1) first).list target (i + 1) = some y := by
    simp [put_list, hrt.symm, hnext]
  rw [Div.lower, hfirst]
  simp only [bind_eq_bind, bind_some, hset d.mem rfl res (by simp), hread]
  rw [hset (d.mem.put res (i + 1) first) rfl list.header (by simp), bind_some,
    put_comm hhr.symm, hset ((d.mem.put list.header (i + 1) y).put res (i + 1) first) rfl target (by simp)]
  rfl

/-- Where the upper loop is in row `i`: at the last node below `target` of the row above, or,
where that row has none, at the first node of row `i`. -/
def Div.Starts (m : Mem δ) (header : Nat) (pre : List Nat) (i x : Nat) : Prop :=
  if row m.height (i + 1) pre = [] then m.list header i = some x
  else x = (row m.height (i + 1) pre).getLastD header

theorem Wf.walk_found (W : Wf m list (pre ++ post)) {i x : Nat} (h1 : 1 ≤ i) (hi : i < maxL)
    (hpre : ∀ n ∈ pre, m.before key n = true) (hpost : ∀ n ∈ post, m.before key n = false)
    (hhead : m.before key list.header = false) (hx : Div.Starts m list.header pre i x)
    (hne : row m.height i pre ≠ []) :
    walk (m.nx i) (m.before key) m.next x = some ((row m.height i pre).getLastD list.header) := by
  have hfuel := W.fuel
  rw [length_append] at hfuel
  unfold Div.Starts at hx
  split at hx
  · -- the walk starts at the first node of the row
    have hc := W.tower.chain i h1 (by omega)
    rw [row_append] at hc
    cases hrow : row m.height i pre with
    | nil => exact absurd hrow hne
    | cons p ps =>
      have hmem : ∀ n ∈ p :: ps, n ∈ pre := fun n hn => (mem_row.mp (by rw [hrow]; exact hn)).1
      have hlen : (p :: ps).length ≤ pre.length := by
        rw [← hrow]
        exact row_length_le
      rw [hrow] at hc
      have hp : some x = some p := hx.symm.trans hc.1
      cases hp
      rw [getLastD_cons]
      refine walk_eq hc.2 (fun n hn => hpre n (hmem n (.tail _ hn)))
        (fun n hn => hpost n (mem_row.mp hn).1) hhead ?_
      rw [length_cons] at hlen
      omega
  · rw [hx]
    exact W.tower.walk h1 (by omega) hpre hpost hhead (by omega)

theorem Wf.walk_none (W : Wf m list (pre ++ post)) {i x : Nat} (h1 : 1 ≤ i) (hi : i < maxL)
    (hpost : ∀ n ∈ post, m.before key n = false) (hhead : m.before key list.header = false)
    (hx : m.list list.header i = some x) (hnil : row m.height i pre = []) :
    walk (m.nx i) (m.before key) m.next x = some x ∧ x ∈ list.header :: row m.height i post := by
  have hfuel := W.fuel
  have hc := W.tower.chain i h1 (by omega)
  rw [row_append, hnil, nil_append] at hc
  have hpost' : ∀ n ∈ row m.height i post, m.before key n = false :=
    fun n hn => hpost n (mem_row.mp hn).1
  cases hrow : row m.height i post with
  | nil =>
    rw [hrow] at hc
    have hp : some x = some list.header := hx.symm.trans hc
    cases hp
    exact ⟨walk_stop hc hhead (by omega), (.head _)⟩
  | cons q qs =>
    rw [hrow] at hc hpost'
    have hp : some x = some q := hx.symm.trans hc.1
    cases hp
    refine ⟨walk_stop hc.2.head ?_ (by omega), .tail _ mem_cons_self⟩
    cases qs with
    | nil => exact hhead
    | cons r qs => exact hpost' r (.tail _ mem_cons_self)

section
variable {target : Nat}

theorem Wf.before_target (W : Wf m list (pre ++ target :: post)) :
    ∀ n ∈ pre, m.before (m.key target) n = true := fun n hn =>
  decide_eq_true ((pairwise_append.mp W.sorted).2.2 n hn target mem_cons_self)

theorem Wf.after_target (W : Wf m list (pre ++ target :: post)) :
    ∀ n ∈ list.header :: post, keycmp (m.key n) (m.key target) = .gt := by
  intro n hn
  rw [keycmp_gt_iff]
  rcases mem_cons.mp hn with rfl | hn
  · rw [W.headKey]
    exact W.below target (mem_append_right _ mem_cons_self)
  · exact (pairwise_cons.mp (pairwise_append.mp W.sorted).2.1).1 n hn

theorem Wf.upto_target (W : Wf m list (pre ++ target :: post)) :
    ∀ n ∈ pre ++ [target], keycmp (m.key n) (m.key target) ≠ .gt := by
  intro n hn
  rcases mem_append.mp hn with hn | hn
  · rw [of_decide_eq_true (W.before_target n hn)]
    decide
  · rw [mem_singleton.mp hn, keycmp_eq_iff.mpr rfl]
    decide

theorem Wf.not_before_target (W : Wf m list (pre ++ target :: post)) :
    (∀ n ∈ target :: post, m.before (m.key target) n = false) ∧
      m.before (m.key target) list.header = false := by
  have hgt : ∀ n ∈ list.header :: post, m.before (m.key target) n = false := by
    intro n hn
    have := W.after_target n hn
    simp only [Mem.before, decide_eq_false_iff_not]
    simp only [Mem.key] at this
    rw [this]
    decide
  refine ⟨fun n hn => ?_, hgt _ mem_cons_self⟩
  rcases mem_cons.mp hn with rfl | hn
  · exact decide_eq_false (keycmp_irrefl _)
  · exact hgt n (.tail _ hn)

theorem Div.At.walked {header i : Nat} {d : Div δ} {ms : List Nat} (A : Div.At m header res ms post i d)
    (key : Key) : walk (fun a => d.mem.list a i) (d.mem.before key) d.mem.next d.x =
      walk (m.nx i) (m.before key) m.next d.x := by
  have hb : d.mem.before key = m.before key := by
    funext n
    rw [Mem.before, Mem.before, A.node]
  rw [hb, A.next]
  exact congrArg (fun nx => walk nx (m.before key) m.next d.x) (A.todo i (.inl (le_rfl)))

theorem Div.At.upper_none {i : Nat} {d : Div δ} (H : Hung m list (pre ++ target :: post) res)
    (A : Div.At m list.header res (pre ++ [target]) post (i + 1) d)
    (hx : Div.Starts m list.header pre (i + 1) d.x) (ht : m.height target ≤ i)
    (hi : i + 1 ≤ list.level) (hnil : row m.height (i + 1) pre = []) :
    ∃ d', Div.upper list.header res (m.key target) d (i + 1) = some d' ∧
      Div.At m list.header res (pre ++ [target]) post i d' ∧ Div.Starts m list.header pre i d'.x := by
  have W := H.wf
  have hlt : i + 1 < maxL := lt_of_le_of_lt hi W.level_lt
  have h1 := (W.heights target (mem_append_right _ mem_cons_self)).1
  have htall := (row_eq_nil_iff (by omega)).mp hnil
  have hmax := W.level
  rw [tallest_append, tallest_cons] at hmax
  have hx' : m.list list.header (i + 1) = some d.x := by
    rwa [Div.Starts, if_pos ((row_eq_nil_iff (by omega)).mpr (by omega))] at hx
  obtain ⟨hwalk, hmem⟩ := W.walk_none (by omega) hlt W.not_before_target.1 W.not_before_target.2 hx' hnil
  rw [row_cons, if_neg (by omega)] at hmem
  have hgt : keycmp (d.mem.node d.x).key (m.key target) = .gt := by
    rw [A.node]
    apply W.after_target
    rcases mem_cons.mp hmem with h | h
    · rw [h]
      exact mem_cons_self
    · exact .tail _ (mem_row.mp h).1
  have hhead := (W.tower.chain i (by omega) (by omega)).head
  generalize (row m.height i (pre ++ target :: post)).headD list.header = first at hhead
  have hhead' : d.mem.list list.header i = some first :=
    (congrFun (A.todo i (.inl (Nat.le_succ i))) _).trans hhead
  refine ⟨{ d with resLevel := d.resLevel - 1, x := first }, ?_, ?_, ?_⟩
  · rw [Div.upper, A.walked, hwalk]
    simp only [bind_eq_bind, bind_some]
    rw [if_pos hgt, Nat.add_sub_cancel, hhead']
    rfl
  · have hsnoc : tallest m.height (pre ++ [target]) = max (tallest m.height pre) (m.height target) :=
      tallest_concat
    refine A.step hlt ⟨rfl, rfl, fun _ _ => rfl⟩ ⟨fun h => ?_, fun _ => ?_⟩ ?_ ?_
    · exact absurd ((row_eq_nil_iff (by omega)).mpr (by omega)) h
    · rw [A.todo (i + 1) (.inl (le_rfl))]
      exact ⟨H.self _ hlt, fun _ _ => rfl⟩
    · rw [A.inLevel]
      omega
    · rw [A.resLevel]
      omega
  · rw [Div.Starts, if_pos hnil]
    exact hhead

theorem Div.At.upper_found {i : Nat} {d : Div δ} (H : Hung m list (pre ++ target :: post) res)
    (A : Div.At m list.header res (pre ++ [target]) post (i + 1) d)
    (hx : Div.Starts m list.header pre (i + 1) d.x) (ht : m.height target ≤ i)
    (hi : i + 1 ≤ list.level) (hne : row m.height (i + 1) pre ≠ []) :
    ∃ d', Div.upper list.header res (m.key target) d (i + 1) = some d' ∧
      Div.At m list.header res (pre ++ [target]) post i d' ∧ Div.Starts m list.header pre i d'.x := by
  have W := H.wf
  have hlt : i + 1 < maxL := lt_of_le_of_lt hi W.level_lt
  have hwalk := W.walk_found (by omega) hlt W.before_target W.not_before_target.1
    W.not_before_target.2 hx hne
  have hrow : row m.height (i + 1) (pre ++ [target]) = row m.height (i + 1) pre := by
    rw [row_append, row_cons, if_neg (by omega)]
    exact append_nil _
  have hmem : (row m.height (i + 1) pre).getLastD list.header ∈ pre := getLastD_row_mem_of_ne hne
  have hlow : ¬ keycmp (m.node ((row m.height (i + 1) pre).getLastD list.header)).key (m.key target) =
      .gt := by
    rw [of_decide_eq_true (W.before_target _ hmem)]
    decide
  rw [append_cons] at H
  obtain ⟨y, first, hnext, hfirst, -, hset, hA⟩ := A.cut H hlt (by rwa [hrow]) (by rw [hrow])
  refine ⟨_, ?_, hA _, by rw [Div.Starts, if_neg hne]⟩
  rw [Div.upper, A.walked, hwalk]
  simp only [bind_eq_bind, bind_some]
  rw [A.node, if_neg hlow]
  simp only [hnext, hfirst, bind_some, hset d.mem rfl list.header (by simp)]
  rw [hset (d.mem.put list.header (i + 1) y) rfl res (by simp), bind_some,
    hset ((d.mem.put list.header (i + 1) y).put res (i + 1) first) rfl _ (by simp)]
  rfl

theorem Div.loop_spec (step : Div δ → Nat → Option (Div δ)) {I : Nat → Div δ → Prop} {n k : Nat}
    (hstep : ∀ i d, n ≤ i → i < n + k → I (i + 1) d → ∃ d', step d (i + 1) = some d' ∧ I i d')
    {d : Div δ} (h : I (n + k) d) : ∃ d', Div.loop step n k d = some d' ∧ I n d' := by
  induction k generalizing d with
  | zero => exact ⟨d, rfl, h⟩
  | succ k ih =>
    obtain ⟨d1, hd1, h1⟩ := hstep (n + k) d (by omega) (by omega) h
    obtain ⟨d2, hd2, h2⟩ := ih (fun i d hn hi => hstep i d hn (by omega)) h1
    exact ⟨d2, by rw [Div.loop, ← add_assoc, hd1]; exact hd2, h2⟩

theorem Wf.part {part : Skiplist} {ms : List Nat} (W : Wf m list ns) (hsub : ms.Sublist ns)
    (hnode : m'.node = m.node) (hnext : m'.next = m.next)
    (T : Tower m'.nx m.height (maxL - 1) part.header ms)
    (hlevel : part.level = max 1 (tallest m.height ms)) (hkey : m.key part.header = keyMax)
    (hcells : (m.node part.header).cells = maxL + 1) (halloc : part.header < m.next) :
    Wf m' part ms := by
  have hheight : m'.height = m.height := by
    funext n
    rw [Mem.height, Mem.height, hnode]
  have hkeys : m'.key = m.key := by
    funext n
    rw [Mem.key, Mem.key, hnode]
  refine ⟨by rwa [hheight], by rwa [hheight], ?_, ?_, ?_, by rwa [hkeys], by rwa [hnode], ?_, ?_⟩
  · rw [hheight]
    exact fun n hn => W.heights n (hsub.subset hn)
  · rw [hkeys]
    exact W.sorted.sublist hsub
  · rw [hkeys]
    exact fun n hn => W.below n (hsub.subset hn)
  · rw [hnode, hheight]
    exact fun n hn => W.cells n (hsub.subset hn)
  · intro n hn
    rw [hnext]
    rcases mem_cons.mp hn with rfl | hn
    · exact halloc
    · exact W.alloc n (.tail _ (hsub.subset hn))

/-- What `skiplist_divide` leaves: `rest` has the nodes `post`, the new list the nodes `pre`. -/
structure Divided (m : Mem δ) (list : Skiplist) (pre post : List Nat) (m' : Mem δ)
    (rest res : Skiplist) : Prop where
  upper : Wf m' rest post
  lower : Wf m' res pre
  header : rest.header = list.header
  size : rest.size = list.size
  allLength : rest.allLength = list.allLength
  fresh : res.header = m.next
  node : ∀ n, n < m.next → m'.node n = m.node n
  beside : Beside m m' (list.header :: (pre ++ post))
  next : m'.next = m.next + 1

theorem hung_init (W : Wf m list ns) : Hung (skiplistInit m).1 list ns m.next where
  wf := W.beside (beside_alloc _ _ []) fun _ _ => by simp
  fresh := W.fresh
  self i hi := by
    simp [skiplistInit, Mem.alloc, hi]
  cells := by
    simp [skiplistInit, Mem.alloc]

theorem divide_loops {x : Nat} (H : Hung m list (pre ++ target :: post) res)
    (hx : m.list list.header list.level = some x) :
    ∃ d, (Div.loop (Div.upper list.header res (m.key target)) (m.height target)
        (list.level - m.height target) ⟨m, list.level, list.level, x⟩).bind
        (Div.loop (Div.lower list.header res target) 0 (m.height target)) = some d ∧
      Div.At m list.header res (pre ++ [target]) post 0 d := by
  have W := H.wf
  have htarget : target ∈ pre ++ target :: post := mem_append_right _ mem_cons_self
  have hmax := W.level
  rw [tallest_append, tallest_cons] at hmax
  have hsnoc : tallest m.height (pre ++ [target]) = max (tallest m.height pre) (m.height target) :=
    tallest_concat
  have h1 := (W.heights target htarget).1
  have hA : Div.At m list.header res (pre ++ [target]) post list.level
      ⟨m, list.level, list.level, x⟩ := by
    refine ⟨rfl, rfl, fun j hj hlt => ⟨fun h => ?_, fun _ => ⟨H.self j hlt, fun _ _ => rfl⟩⟩,
      fun _ _ => rfl, by simp only; omega, by simp only; omega⟩
    exact absurd ((row_eq_nil_iff (by omega)).mpr (by omega)) h
  have hS : Div.Starts m list.header pre list.level x := by
    rwa [Div.Starts, if_pos ((row_eq_nil_iff (by omega)).mpr (by omega))]
  have hsum : m.height target + (list.level - m.height target) = list.level := by omega
  obtain ⟨d1, hd1, A1, -⟩ := Div.loop_spec (Div.upper list.header res (m.key target))
    (I := fun i d => Div.At m list.header res (pre ++ [target]) post i d ∧
      Div.Starts m list.header pre i d.x)
    (n := m.height target) (k := list.level - m.height target) (d := ⟨m, list.level, list.level, x⟩)
    (fun i d hn hi hI => by
      by_cases hnil : row m.height (i + 1) pre = []
      · exact hI.1.upper_none H hI.2 hn (by omega) hnil
      · exact hI.1.upper_found H hI.2 hn (by omega) hnil)
    (by rw [hsum]; exact ⟨hA, hS⟩)
  obtain ⟨d2, hd2, A2⟩ := Div.loop_spec (Div.lower list.header res target)
    (I := fun i d => Div.At m list.header res (pre ++ [target]) post i d)
    (n := 0) (k := m.height target) (d := d1)
    (fun i d _ hi hI => hI.lower H (by omega)) (by rwa [zero_add])
  exact ⟨d2, by rw [hd1]; exact hd2, A2⟩

theorem Div.At.towers {d : Div δ} (H : Hung m list (pre ++ target :: post) res)
    (A : Div.At m list.header res (pre ++ [target]) post 0 d) :
    Tower d.mem.nx m.height (maxL - 1) res (pre ++ [target]) ∧
      Tower d.mem.nx m.height (maxL - 1) list.header post := by
  have T := H.wf.tower
  have hfresh := H.fresh
  rw [append_cons] at T hfresh
  have hcut : ∀ i, 1 ≤ i → i ≤ maxL - 1 →
      CutRow (m.nx i) (d.mem.nx i) list.header res (row m.height i (pre ++ [target])) :=
    fun i h1 hi => A.done i h1 (lt_of_le_of_lt hi (by decide))
  exact ⟨T.cut_lower hfresh hcut, T.cut_upper hfresh hcut⟩

theorem tower_top {nx : Nat → Nat → Option Nat} {height : Nat → Nat} {h : Nat} {ms : List Nat}
    (T : Tower nx height (maxL - 1) h ms) (h1 : 1 ≤ tallest height ms)
    (hlt : tallest height ms < maxL) : nx (tallest height ms) h ≠ some h := by
  have hc := (T.chain _ h1 (by omega)).head
  rw [hc]
  intro heq
  cases hrow : row height (tallest height ms) ms with
  | nil => exact absurd ((row_eq_nil_iff h1).mp hrow) (lt_irrefl _)
  | cons n ns =>
    have hn : n ∈ row height (tallest height ms) ms := by
      rw [hrow]
      exact mem_cons_self
    rw [hrow, headD_cons] at heq
    cases heq
    exact (nodup_cons.mp T.nodup).1 (mem_row.mp hn).1

theorem Div.At.not_broken {d : Div δ} (H : Hung m list (pre ++ target :: post) res)
    (A : Div.At m list.header res (pre ++ [target]) post 0 d) :
    d.broken list.level list.header res = false := by
  have W := H.wf
  obtain ⟨Tl, Tu⟩ := A.towers H
  have hmax := W.level
  have hlt := W.level_lt
  have hin := A.inLevel
  have hres := A.resLevel
  have h1 := (W.heights target (mem_append_right _ mem_cons_self)).1
  have hle : m.height target ≤ tallest m.height (pre ++ [target]) :=
    le_tallest (mem_append_right _ mem_cons_self)
  rw [append_cons, tallest_append] at hmax
  rw [Nat.zero_max] at hin hres
  have hl := tower_top Tl (by omega) (by omega)
  rw [← hres] at hl
  have hu : d.inLevel ≠ 0 → d.mem.nx d.inLevel list.header ≠ some list.header := by
    intro h0
    have := tower_top Tu (by omega) (by omega)
    rwa [← hin] at this
  rw [Bool.eq_false_iff]
  simp only [Div.broken, ne_eq, Bool.or_eq_true, Bool.and_eq_true, decide_eq_true_eq, Mem.nx] at hl hu ⊢
  rintro (⟨h2, h3⟩ | ⟨h0, h | h⟩)
  · omega
  · exact hu h0 h
  · exact hl h

theorem Div.At.beside {d : Div δ}
    (A : Div.At (skiplistInit m).1 list.header m.next (pre ++ [target]) post 0 d) :
    Beside m d.mem (list.header :: (pre ++ target :: post)) := by
  have hinit : Beside m (skiplistInit m).1 (list.header :: (pre ++ target :: post)) := beside_alloc ..
  refine ⟨fun n hn hown => ?_, fun n hn hown => ?_, by rw [A.next]; exact hinit.next⟩
  · rw [A.node]
    exact hinit.node n hn hown
  · rw [← hinit.list n hn hown]
    funext i
    by_cases hi : 0 < i ∧ i < maxL
    · have C := A.done i hi.1 hi.2
      have hnr : n ≠ m.next := ne_of_lt hn
      by_cases hnil : row (skiplistInit m).1.height i (pre ++ [target]) = []
      · exact (C.stay hnil).2 n hnr
      · apply (C.part hnil).other n _ hnr
        · rintro rfl
          apply hown
          rw [append_cons]
          exact getLastD_row_mem fun a => mem_append_left _
        · rintro rfl
          exact hown mem_cons_self
    · exact congrFun (A.todo i (by omega)) n

theorem divide_spec (W : Wf m list (pre ++ target :: post)) :
    ∃ m' rest res, skiplistDivide m list target = some (m', rest, res) ∧
      Divided m list (pre ++ [target]) post m' rest res := by
  have H := hung_init W
  have htarget : target ∈ pre ++ target :: post := mem_append_right _ mem_cons_self
  have hne : target ≠ list.header := (H.ne htarget).2.symm
  have hlevel : 1 ≤ list.level := by
    have := W.level
    omega
  have hx := (H.wf.tower.chain list.level hlevel (by have := W.level_lt; omega)).head
  obtain ⟨d, hd, A⟩ := divide_loops H hx
  obtain ⟨Tl, Tu⟩ := A.towers H
  have hbroken := A.not_broken H
  have h1 := (H.wf.heights target htarget).1
  have hle : (skiplistInit m).1.height target ≤ tallest (skiplistInit m).1.height (pre ++ [target]) :=
    le_tallest (mem_append_right _ mem_cons_self)
  have hin := A.inLevel
  have hres := A.resLevel
  have hheader : (skiplistInit m).1.node m.next = ⟨0, keyMax, 0, none, false, maxL + 1⟩ :=
    update_self ..
  refine ⟨d.mem, { list with level := if d.inLevel = 0 then 1 else d.inLevel },
    ⟨d.resLevel, 0, 0, m.next⟩, ?_, ?_⟩
  · have hbind := congrArg (fun o : Option (Div δ) => o.bind fun d =>
      if d.broken list.level list.header m.next then none
      else some (d.mem, { list with level := if d.inLevel = 0 then 1 else d.inLevel },
        (⟨d.resLevel, 0, 0, m.next⟩ : Skiplist))) hd
    simp only [bind_assoc, bind_some, hbroken, Bool.false_eq_true, if_false] at hbind
    rw [skiplistDivide]
    simp only [bind_eq_bind]
    rw [if_neg hne, show (skiplistInit m).1.list list.header list.level = _ from hx, bind_some]
    exact hbind
  · refine ⟨?_, ?_, rfl, rfl, rfl, rfl, fun n hn => ?_, ?_, A.next⟩
    · refine H.wf.part (by simp) A.node A.next Tu ?_ H.wf.headKey H.wf.headCells
        (H.wf.alloc _ mem_cons_self)
      simp only
      split <;> omega
    · refine H.wf.part ?_ A.node A.next Tl ?_ ?_ ?_ ?_
      · rw [append_cons pre target post]
        exact sublist_append_left ..
      · simp only
        omega
      · simp only [Mem.key, hheader]
      · simp only [hheader]
      · exact Nat.lt_succ_self _
    · rw [A.node]
      exact update_of_ne (ne_of_lt hn) ..
    · rw [← append_cons]
      exact A.beside

end

end

end FlashDriver.Lsmtree.Skip
