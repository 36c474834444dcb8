import FlashDriver.Lsmtree.PipeMerger

/-!
# The device's merge (`lower/posix_memory/posix.c`, `pipe_lower.c`)

`posix_hw_do_merge` merges the header pages at two lists of physical pages
into target pages, and copies each result page into a buffer that the host
reads. It is the host's merge over the device's page table.

* `closed_same`: pages filled with the same entries have the same contents,
  whatever was in them before.
* `hw_merge_agrees`: when the device produces the host's pages and the host's
  list of invalidated addresses.
-/
namespace FlashDriver.Lsmtree

open List Option Function
open Core.Bytes

/-! ## The model -/

/-- `PPA_LIST_SIZE`, lower/posix_memory/posix.c:30. `result_addr` has room for as many pages,
`invalidate_ppa_ptr` for 20 times as many addresses (posix.c:168-169). -/
def ppaListSize : Nat := 240 * 1024

/-- The writing `pl_body`, the storage of `seg_table` and the pages in `result_addr`. -/
structure PlBody where
  w : Writer
  table : Nat → Option Page
  result : List Page

/-- mirrors lower/posix_memory/pipe_lower.c:14-23 (`iswrite` true): an existing storage is
written over. -/
def PlBody.fresh (malloc : Nat → Page) (tp : List Nat) (s : PlBody) (i : Nat) : Option Page :=
  tp[i]?.map fun ppa => (s.table ppa).getD (malloc i)

/-- The page being filled is visible in the table if its storage is there. -/
def shareNow (tp : List Nat) (table : Nat → Option Page) (w : Writer) : Nat → Option Page :=
  match w.now, tp[w.pidx - 1]? with
  | some body, some ppa => if (table ppa).isSome then update table ppa (some body) else table
  | _, _ => table

/-- The closed page becomes the storage of its target. -/
def storeClosed (tp : List Nat) (table : Nat → Option Page) (pidx : Nat) (res : Option Page) :
    Nat → Option Page :=
  match res, tp[pidx - 1]? with
  | some body, some ppa => update table ppa (some body)
  | _, _ => table

/-- mirrors lower/posix_memory/pipe_lower.c:43-64 -/
def plbodyInsertNewKey (malloc : Nat → Page) (tp : List Nat) (s : PlBody) (e : Ent) (flush : Bool) :
    Option (Option Page × PlBody) := do
  let (res, w) ← s.w.insertNewKey (s.fresh malloc tp) e flush
  some (res, { s with w := w, table := shareNow tp (storeClosed tp s.table s.w.pidx res) w })

/-- `memcpy(&result_addr[result_cnt*PAGESIZE],res_data,PAGESIZE); result_cnt++` -/
def copyResult (s : PlBody) (res : Option Page) : Option PlBody :=
  match res with
  | none => some s
  | some body =>
    if s.result.length < ppaListSize then some { s with result := s.result ++ [body] } else none

/-- mirrors lower/posix_memory/posix.c:404-411; the message about too many results changes
nothing. -/
def hwInsert (malloc : Nat → Page) (tp : List Nat) (s : PlBody) (e : Ent) : Option PlBody := do
  let (res, s) ← plbodyInsertNewKey malloc tp s e false
  copyResult s res

def hwMerger (malloc : Nat → Page) (lp hp tp : List Nat) : Merger PlBody where
  lower s i := lp[i]?.bind s.table
  lowerNum := lp.length
  upper s i := hp[i]?.bind s.table
  upperNum := hp.length
  insert := hwInsert malloc tp
  room n := decide (n < ppaListSize * 20)

/-- A bound of the rounds of the loop. -/
def tableRounds (table : Nat → Option Page) (ppas : List Nat) : Nat :=
  (ppas.map fun ppa => ((table ppa).map fun p => slotAt p 0).getD 0).sum

/-- What the device leaves: its table, `result_addr` and `invalidate_ppa_ptr`. -/
structure HwOut where
  table : Nat → Option Page
  result : List Page
  invalid : List UInt32
  ktableNum : Nat
  invalidateNum : Nat

/-- mirrors lower/posix_memory/posix.c:421-434: the flush behind the loop. Its guard allows
twice the room of `result_addr`. -/
def hwFinish (malloc : Nat → Page) (tp : List Nat) (s : PlBody) (dead : List UInt32) :
    Option HwOut := do
  let (res, s) ← plbodyInsertNewKey malloc tp s ⟨0, []⟩ true
  if res.isSome && decide (s.result.length > ppaListSize * 2) then none
  else do
    let s ← copyResult s res
    some ⟨s.table, s.result, dead, s.result.length, dead.length⟩

/-- mirrors lower/posix_memory/posix.c:349-436 -/
def posixHwDoMerge (malloc : Nat → Page) (table : Nat → Option Page) (lp hp tp : List Nat) :
    Option HwOut :=
  if lp.length = 0 ∨ hp.length = 0 then none
  else do
    let c ← (hwMerger malloc lp hp tp).start ⟨.init, table, []⟩
    let c ← (hwMerger malloc lp hp tp).mergeLoop (tableRounds table lp + tableRounds table hp) c
    hwFinish malloc tp c.rp c.dead

/-! ## Contents -/

/-- The same number of keys, offset table and records. -/
structure SameContent (p q : Page) : Prop where
  table : ∀ b, b < 2 * (slotAt q 0 + 2) → p b = q b
  records : ∀ b, keyBitmap ≤ b → b < slotAt q (slotAt q 0 + 1) → p b = q b

theorem write_congr {p q : Page} {o : Nat} {bs : List UInt8} {b : Nat}
    (h : (o ≤ b ∧ b < o + bs.length) ∨ p b = q b) : write p o bs b = write q o bs b := by
  unfold write
  split
  · rfl
  · rename_i hn
    exact h.resolve_left hn

theorem opened_same {p q : Page} {es : List Ent} (hp : Opened p es) (hq : Opened q es)
    (hs : Small es) {b : Nat}
    (hb : (2 ≤ b ∧ b < 2 * (es.length + 1)) ∨ (keyBitmap ≤ b ∧ b < keyBitmap + dataSize es)) :
    p b = q b := by
  induction hp generalizing q with
  | nil p =>
    simp only [length_nil, dataSize_nil] at hb
    omega
  | @snoc p p' es e hp hput ih =>
    generalize hes : es ++ [e] = fs at hq
    cases hq with
    | nil => simp at hes
    | @snoc q q' fs f hq hput' =>
      obtain ⟨rfl, he⟩ := append_inj' hes rfl
      cases he
      have hsl := hs.slots
      have hby := hs.bytes
      simp only [length_append, length_singleton, dataSize_append, dataSize_cons,
        dataSize_nil, pageSize, keyBitmap] at hsl hby
      have hs' : Small es := by
        refine ⟨?_, ?_⟩
        · simp only [pageSize]
          omega
        · simp only [keyBitmap, pageSize]
          omega
      rw [putEntry_eq (by simp only [pageSize]; omega) (by simp only [keyBitmap, pageSize]; omega)]
        at hput hput'
      cases hput
      cases hput'
      have hk : keylen e.key = e.key.length + 4 := rfl
      simp only [length_append, length_singleton, dataSize_append, dataSize_cons,
        dataSize_nil] at hb
      -- the new slot, the new key, the new address, or what was there
      refine write_congr ?_
      rw [length_toLe]
      by_cases h1 : 2 * (es.length + 1) ≤ b ∧ b < 2 * (es.length + 1) + 2
      · exact .inl h1
      refine .inr (write_congr ?_)
      by_cases h2 : keyBitmap + dataSize es + 4 ≤ b ∧ b < keyBitmap + dataSize es + 4 + e.key.length
      · exact .inl h2
      refine .inr (write_congr ?_)
      rw [length_toLe]
      by_cases h3 : keyBitmap + dataSize es ≤ b ∧ b < keyBitmap + dataSize es + 4
      · exact .inl h3
      exact .inr (ih hq hs' (by omega))

theorem closePage_some {p q : Page} {n off : Nat} (h : closePage p n off = some q) :
    q = write (write p (2 * 0) (toLe 2 n)) (2 * (n + 1)) (toLe 2 off) := by
  rw [closePage, bind_eq_bind] at h
  obtain ⟨p0, hp0, h⟩ := bind_eq_some_iff.mp h
  rw [setSlot, store] at hp0 h
  split at hp0
  · cases hp0
    split at h
    · cases h
      rfl
    · cases h
  · cases hp0

theorem closed_same {p q : Page} {es : List Ent} (hp : Closed p es) (hq : Closed q es) :
    SameContent p q := by
  have hcount := hq.count
  obtain ⟨p0, hp0, hs, hp⟩ := hp
  obtain ⟨q0, hq0, -, hq⟩ := hq
  have hsl := hs.slots
  have hby := hs.bytes
  simp only [pageSize, keyBitmap] at hsl hby
  have hlast : slotAt q (es.length + 1) = keyBitmap + dataSize es := by
    rw [closePage, bind_eq_bind] at hq
    obtain ⟨q1, -, hq⟩ := bind_eq_some_iff.mp hq
    exact slotAt_setSlot (by simp only [keyBitmap]; omega) hq
  have hpq : ∀ b, b < 2 * (es.length + 2) ∨ (keyBitmap ≤ b ∧ b < keyBitmap + dataSize es) →
      p b = q b := by
    intro b hb
    rw [closePage_some hp, closePage_some hq]
    refine write_congr ?_
    rw [length_toLe]
    by_cases h1 : 2 * (es.length + 1) ≤ b ∧ b < 2 * (es.length + 1) + 2
    · exact .inl h1
    refine .inr (write_congr ?_)
    rw [length_toLe]
    by_cases h2 : 2 * 0 ≤ b ∧ b < 2 * 0 + 2
    · exact .inl h2
    exact .inr (opened_same hp0 hq0 hs (by omega))
  refine ⟨fun b hb => ?_, fun b hb hb' => ?_⟩
  · rw [hcount] at hb
    exact hpq b (.inl hb)
  · rw [hcount, hlast] at hb'
    exact hpq b (.inr ⟨hb, hb'⟩)

/-! ## Filling the targets -/

section
variable {malloc : Nat → Page} {tp : List Nat} {t : Nat → Option Page}

theorem shareNow_other {w : Writer} {ppa : Nat} (h : tp[w.pidx - 1]? ≠ some ppa) :
    shareNow tp t w ppa = t ppa := by
  cases hn : w.now with
  | none => simp only [shareNow, hn]
  | some body =>
    cases hp : tp[w.pidx - 1]? with
    | none => simp only [shareNow, hn, hp]
    | some ppa' =>
      have hne : ppa ≠ ppa' := fun he => h (by rw [hp, he])
      simp only [shareNow, hn, hp]
      split
      · exact update_of_ne hne _ _
      · rfl

theorem storeClosed_other {pidx : Nat} {res : Option Page} {ppa : Nat}
    (h : tp[pidx - 1]? ≠ some ppa) : storeClosed tp t pidx res ppa = t ppa := by
  cases res with
  | none => rfl
  | some body =>
    cases hp : tp[pidx - 1]? with
    | none => simp only [storeClosed, hp]
    | some ppa' =>
      have hne : ppa ≠ ppa' := fun he => h (by rw [hp, he])
      simp only [storeClosed, hp]
      exact update_of_ne hne _ _

theorem shareNow_self {w : Writer} {ppa : Nat} {body : Page} (hn : w.now = some body)
    (hp : tp[w.pidx - 1]? = some ppa) (ht : t ppa = some body) : shareNow tp t w = t := by
  simp only [shareNow, hn, hp, ht, isSome_some, if_true]
  rw [← ht, update_eq_self]

theorem storeClosed_self {pidx : Nat} {body : Page} {ppa : Nat} (h : tp[pidx - 1]? = some ppa) :
    storeClosed tp t pidx (some body) ppa = some body := by
  simp [storeClosed, h]

/-- The first targets hold the pages `ps`. -/
def Stored (tp : List Nat) (t : Nat → Option Page) (ps : List (List Ent)) : Prop :=
  ∀ i (hi : i < ps.length), ∃ ppa p, tp[i]? = some ppa ∧ t ppa = some p ∧ Closed p ps[i]

theorem getElem?_ne_of_nodup (hnd : tp.Nodup) {i j ppa : Nat} (hij : i ≠ j) (hi : tp[i]? = some ppa) :
    tp[j]? ≠ some ppa := by
  intro hj
  obtain ⟨hi', hie⟩ := List.getElem?_eq_some_iff.mp hi
  obtain ⟨hj', hje⟩ := List.getElem?_eq_some_iff.mp hj
  exact hij (hnd.getElem_inj_iff.mp (hie.trans hje.symm))

theorem Stored.frame (hnd : tp.Nodup) {ps : List (List Ent)} {t' : Nat → Option Page}
    (h : Stored tp t ps) (hf : ∀ ppa, (∀ k, ps.length ≤ k → tp[k]? ≠ some ppa) → t' ppa = t ppa) :
    Stored tp t' ps := by
  intro i hi
  obtain ⟨ppa, p, hppa, hp, C⟩ := h i hi
  refine ⟨ppa, p, hppa, ?_, C⟩
  rw [hf ppa fun k hk => getElem?_ne_of_nodup hnd (by omega) hppa, hp]

theorem Stored.snoc {ps : List (List Ent)} {now : List Ent} (h : Stored tp t ps) {ppa : Nat}
    {p : Page} (hppa : tp[ps.length]? = some ppa) (hp : t ppa = some p) (C : Closed p now) :
    Stored tp t (ps ++ [now]) := by
  intro i hi
  rw [length_append, length_singleton] at hi
  by_cases hlt : i < ps.length
  · rw [getElem_append_left hlt]
    exact h i hlt
  · have hie : i = ps.length := by omega
    subst hie
    refine ⟨ppa, p, hppa, hp, ?_⟩
    rw [getElem_append_right (le_rfl)]
    simpa using C

/-- The pages `ps` were closed and stored in their targets, the next one holds `now`. -/
structure PlBody.Holds (tp : List Nat) (s : PlBody) (ps : List (List Ent)) (now : List Ent) :
    Prop where
  at_ : s.w.At ps.length now
  result : List.Forall₂ Closed s.result ps
  stored : Stored tp s.table ps
  room : ps.length < tp.length
  ne : now ≠ []

theorem PlBody.Holds.target {s : PlBody} {ps : List (List Ent)} {now : List Ent}
    (H : PlBody.Holds tp s ps now) :
    ∃ ppa, tp[ps.length]? = some ppa ∧ tp[s.w.pidx - 1]? = some ppa := by
  rw [H.at_.pidx_eq, Nat.add_sub_cancel, getElem?_eq_getElem H.room]
  exact ⟨_, rfl, rfl⟩

theorem PlBody.Holds.storeClosed (hnd : tp.Nodup) {s : PlBody} {ps : List (List Ent)} {now : List Ent}
    (H : PlBody.Holds tp s ps now) {q : Page} (C : Closed q now) :
    Stored tp (Lsmtree.storeClosed tp s.table s.w.pidx (some q)) (ps ++ [now]) := by
  have hfr : Stored tp (Lsmtree.storeClosed tp s.table s.w.pidx (some q)) ps :=
    H.stored.frame hnd fun ppa h => storeClosed_other (by
      rw [H.at_.pidx_eq]
      exact h _ (le_rfl))
  obtain ⟨ppa, hppa, htarget⟩ := H.target
  exact hfr.snoc hppa (storeClosed_self htarget) C

theorem hw_fills (malloc : Nat → Page) (hnd : tp.Nodup) :
    Fills (hwInsert malloc tp) (min tp.length (ppaListSize + 1)) (PlBody.Holds tp) where
  put := by
    intro s ps now e H hc
    obtain ⟨w, hw, A⟩ := insertNewKey_at (s.fresh malloc tp) H.at_ hc
    refine ⟨{ s with w := w, table := shareNow tp s.table w }, ?_, ⟨A, H.result, ?_, H.room, by simp⟩⟩
    · simp only [hwInsert, plbodyInsertNewKey, hw, bind_eq_bind, bind_some,
        Lsmtree.storeClosed, copyResult]
    · refine H.stored.frame hnd fun ppa h => shareNow_other ?_
      rw [A.pidx_eq]
      exact h _ (le_rfl)
  close := by
    intro s ps now e H hc he hroom
    have hroom' : ps.length + 1 < tp.length := by omega
    obtain ⟨q, w, hw, C, A⟩ := (insertNewKey_close (s.fresh malloc tp) H.at_ hc he).2 _
      (by rw [PlBody.fresh, getElem?_eq_getElem hroom']; rfl)
    have hlen : s.result.length < ppaListSize := by
      rw [H.result.length_eq]
      omega
    have hlen' : (ps ++ [now]).length = ps.length + 1 := by simp
    refine ⟨⟨w, shareNow tp (Lsmtree.storeClosed tp s.table s.w.pidx (some q)) w, s.result ++ [q]⟩,
      ?_, ⟨by rw [hlen']; exact A, rel_append H.result (.cons C .nil), ?_,
        by rw [hlen']; exact hroom', by simp⟩⟩
    · simp only [hwInsert, plbodyInsertNewKey, hw, bind_eq_bind, bind_some, copyResult, if_pos hlen]
    · refine (H.storeClosed hnd C).frame hnd fun ppa h => shareNow_other ?_
      rw [A.pidx_eq]
      exact h _ (by simp)
  overrun := by
    intro s ps now e H hc he hroom
    obtain ⟨hnone, hsome⟩ := insertNewKey_close (s.fresh malloc tp) H.at_ hc he
    cases hf : s.fresh malloc tp (ps.length + 1) with
    | none => simp only [hwInsert, plbodyInsertNewKey, hnone hf, bind_eq_bind, bind_none]
    | some j =>
      obtain ⟨q, w, hw, -, -⟩ := hsome j hf
      have hlt : ps.length + 1 < tp.length := by
        by_contra hge
        rw [PlBody.fresh, getElem?_eq_none (by omega)] at hf
        cases hf
      have hlen : ¬ s.result.length < ppaListSize := by
        rw [H.result.length_eq]
        omega
      simp only [hwInsert, plbodyInsertNewKey, hw, bind_eq_bind, bind_some, copyResult, if_neg hlen]

theorem hw_first (malloc : Nat → Page) (t : Nat → Option Page) (htp : 0 < tp.length) (e : Ent)
    (he : e.key.length < 256) :
    ∃ s', hwInsert malloc tp ⟨.init, t, []⟩ e = some s' ∧ s'.Holds tp [] [e] := by
  obtain ⟨w, hw, A⟩ := insertNewKey_init (PlBody.fresh malloc tp ⟨.init, t, []⟩)
    (by rw [PlBody.fresh, getElem?_eq_getElem htp]; rfl) he
  refine ⟨⟨w, shareNow tp t w, []⟩, ?_, A, .nil, fun i hi => by simp at hi, htp, by simp⟩
  simp only [hwInsert, plbodyInsertNewKey, hw, bind_eq_bind, bind_some,
    Lsmtree.storeClosed, copyResult]

theorem PlBody.Holds.flush (malloc : Nat → Page) (hnd : tp.Nodup) {s : PlBody}
    {ps : List (List Ent)} {now : List Ent} {e : Ent} (H : PlBody.Holds tp s ps now) :
    ∃ q s', plbodyInsertNewKey malloc tp s e true = some (some q, s') ∧ s'.result = s.result ∧
      Closed q now ∧ Stored tp s'.table (ps ++ [now]) := by
  obtain ⟨q, w, hw, C, hpidx, hnow⟩ := insertNewKey_flush (s.fresh malloc tp) (e := e) H.at_ H.ne
  obtain ⟨ppa, hppa, htarget⟩ := H.target
  have hshare : shareNow tp (Lsmtree.storeClosed tp s.table s.w.pidx (some q)) w =
      Lsmtree.storeClosed tp s.table s.w.pidx (some q) :=
    shareNow_self hnow (by rw [hpidx]; exact hppa) (storeClosed_self htarget)
  refine ⟨q, ⟨w, Lsmtree.storeClosed tp s.table s.w.pidx (some q), s.result⟩, ?_, rfl, C,
    H.storeClosed hnd C⟩
  simp only [plbodyInsertNewKey, hw, bind_eq_bind, bind_some, hshare]

theorem PlBody.Holds.finish (malloc : Nat → Page) (hnd : tp.Nodup) {s : PlBody}
    {ps : List (List Ent)} {now : List Ent} (H : PlBody.Holds tp s ps now) (dead : List UInt32) :
    (ps.length < ppaListSize → ∃ out, hwFinish malloc tp s dead = some out ∧
      List.Forall₂ Closed out.result (ps ++ [now]) ∧ Stored tp out.table (ps ++ [now]) ∧
      out.ktableNum = out.result.length ∧ out.invalid = dead ∧ out.invalidateNum = dead.length) ∧
    (ps.length = ppaListSize → hwFinish malloc tp s dead = none) := by
  obtain ⟨q, s', hs', hres, C, S⟩ := H.flush malloc hnd (e := ⟨0, []⟩)
  have hlen : s'.result.length = ps.length := by rw [hres, H.result.length_eq]
  have hguard : ps.length ≤ ppaListSize →
      (isSome (some q) && decide (s'.result.length > ppaListSize * 2)) = false := by
    intro h
    simp only [isSome_some, Bool.true_and, decide_eq_false_iff_not]
    omega
  refine ⟨fun h => ?_, fun h => ?_⟩
  · refine ⟨⟨s'.table, s'.result ++ [q], dead, (s'.result ++ [q]).length, dead.length⟩, ?_, ?_, S, rfl,
      rfl, rfl⟩
    · simp only [hwFinish, hs', bind_eq_bind, bind_some, hguard (by omega), copyResult,
        if_pos (show s'.result.length < ppaListSize by omega), Bool.false_eq_true, if_false]
    · rw [hres]
      exact rel_append H.result (.cons C .nil)
  · simp only [hwFinish, hs', bind_eq_bind, bind_some, hguard (by omega), copyResult,
      if_neg (show ¬ s'.result.length < ppaListSize by omega), Bool.false_eq_true, if_false,
      bind_none]

theorem hwInsert_frame {s s' : PlBody} {e : Ent} (h : hwInsert malloc tp s e = some s') {ppa : Nat}
    (hppa : ppa ∉ tp) : s'.table ppa = s.table ppa := by
  have hne : ∀ k : Nat, tp[k]? ≠ some ppa := fun k hk => hppa (mem_of_getElem? hk)
  simp only [hwInsert, plbodyInsertNewKey, bind_eq_bind] at h
  obtain ⟨x, h1, h⟩ := bind_eq_some_iff.mp h
  obtain ⟨⟨res, w⟩, -, h1⟩ := bind_eq_some_iff.mp h1
  cases h1
  have ht : shareNow tp (Lsmtree.storeClosed tp s.table s.w.pidx res) w ppa = s.table ppa := by
    rw [shareNow_other (hne _), storeClosed_other (hne _)]
  cases res with
  | none =>
    cases h
    exact ht
  | some body =>
    simp only [copyResult] at h
    split at h
    · cases h
      exact ht
    · cases h

end

/-! ## Agreement -/

/-- The pages at `lp` and `hp` hold the inputs, and the targets are other pages. -/
structure HwInputs (t : Nat → Option Page) (lp hp tp : List Nat) (lower upper : List Header) :
    Prop where
  lower : List.Forall₂ (fun ppa h => t ppa = some h.page) lp lower
  upper : List.Forall₂ (fun ppa h => t ppa = some h.page) hp upper
  targets : tp.length = lp.length + hp.length
  nodup : tp.Nodup
  disjoint : ∀ ppa ∈ tp, ppa ∉ lp ∧ ppa ∉ hp

/-- What the device left is what the host's merge made. -/
structure HwAgrees (rp : PBody) (dead : List UInt32) (tp : List Nat) (out : HwOut) : Prop where
  result : List.Forall₂ SameContent out.result rp.data
  targets : ∀ i (hi : i < rp.data.length), ∃ ppa p, tp[i]? = some ppa ∧ out.table ppa = some p ∧
    SameContent p rp.data[i]
  ktableNum : out.ktableNum = rp.data.length
  invalid : out.invalid = dead
  invalidateNum : out.invalidateNum = dead.length

theorem readable_table {t s : Nat → Option Page} {ppas : List Nat} {hs : List Header}
    (h : List.Forall₂ (fun ppa h => t ppa = some h.page) ppas hs)
    (hst : ∀ ppa ∈ ppas, s ppa = t ppa) :
    Readable (fun i => ppas[i]?.bind s) (hs.map (·.ents)) := by
  have heq : ∀ i : Nat, ppas[i]?.bind s = (hs.map (·.page))[i]? := by
    intro i
    rw [getElem?_map]
    induction h generalizing i with
    | nil => rfl
    | cons hp _ ih =>
      cases i with
      | zero => simp [hst _ mem_cons_self, hp]
      | succ i => exact ih (fun ppa hm => hst ppa (.tail _ hm)) i
  simpa only [heq] using (tabled_headers hs).readable

theorem tableRounds_eq {t : Nat → Option Page} {ppas : List Nat} {hs : List Header}
    (h : List.Forall₂ (fun ppa h => t ppa = some h.page) ppas hs) :
    tableRounds t ppas = (hs.map (·.ents)).flatten.length := by
  rw [← (tabled_headers hs).rounds]
  induction h with
  | nil => rfl
  | cons hp _ ih =>
    simp only [tableRounds, rounds, map_cons, sum_cons] at ih ⊢
    rw [ih, hp]
    rfl

theorem foldlM_push_cap {ω : Type} {M : Merger ω} {cap : Nat}
    (hroom : ∀ n, M.room n = decide (n < cap)) (ds dead : List UInt32) :
    (dead.length + ds.length ≤ cap → ds.foldlM M.push dead = some (dead ++ ds)) ∧
      (cap < dead.length + ds.length → dead.length ≤ cap → ds.foldlM M.push dead = none) := by
  induction ds generalizing dead with
  | nil =>
    refine ⟨fun _ => by simp, fun h1 h2 => ?_⟩
    simp only [length_nil] at h1
    omega
  | cons d ds ih =>
    have ih' := ih (dead ++ [d])
    simp only [length_append, length_singleton, append_assoc, singleton_append] at ih'
    simp only [length_cons]
    rw [foldlM_cons, Merger.push, hroom]
    by_cases hlt : dead.length < cap
    · simp only [hlt, decide_true, if_true, bind_eq_bind, bind_some]
      exact ⟨fun h => ih'.1 (by omega), fun h _ => ih'.2 (by omega) (by omega)⟩
    · simp only [hlt, decide_false, Bool.false_eq_true, if_false, bind_eq_bind, bind_none]
      exact ⟨fun h => by omega, fun _ _ => trivial⟩

section
variable (malloc : Nat → Page) {t : Nat → Option Page} {lp hp tp : List Nat}
  {lower upper : List Header}

theorem posixHwDoMerge_eq (I : HwInputs t lp hp tp lower upper) (hL : lower ≠ []) (hU : upper ≠ [])
    {r : Merged UInt32}
    (hm : merge (lower.map (·.ents)).flatten (upper.map (·.ents)).flatten = some r) :
    posixHwDoMerge malloc t lp hp tp =
      (r.1.foldlM (hwInsert malloc tp) ⟨.init, t, []⟩).bind fun s =>
        (r.2.foldlM (hwMerger malloc lp hp tp).push []).bind fun dead =>
          hwFinish malloc tp s dead := by
  have hll := I.lower.length_eq
  have hul := I.upper.length_eq
  have hlpos := length_pos_of_ne_nil hL
  have hupos := length_pos_of_ne_nil hU
  have O : (hwMerger malloc lp hp tp).Over (lower.map (·.ents)) (upper.map (·.ents))
      fun s => ∀ ppa, ppa ∉ tp → s.table ppa = t ppa := by
    refine ⟨fun s hs => readable_table I.lower fun ppa hm => hs ppa fun ht => (I.disjoint ppa ht).1 hm,
      by rw [length_map]; exact hll, by simpa using hL,
      fun s hs => readable_table I.upper fun ppa hm => hs ppa fun ht => (I.disjoint ppa ht).2 hm,
      by rw [length_map]; exact hul, by simpa using hU, fun s e s' hs h ppa hp => ?_⟩
    rw [hwInsert_frame h hp, hs ppa hp]
  obtain ⟨c, hc, A, hrp, hdead⟩ := O.start (w := ⟨.init, t, []⟩) fun _ _ => rfl
  have hfuel : (lower.map (·.ents)).flatten.length + (upper.map (·.ents)).flatten.length ≤
      tableRounds t lp + tableRounds t hp := by
    rw [tableRounds_eq I.lower, tableRounds_eq I.upper]
  have h := O.mergeLoop_eq hm A (by rw [hrp]; exact fun _ _ => rfl) hfuel
  rw [Merger.outcome, hrp, hdead] at h
  rw [posixHwDoMerge, if_neg (by omega), hc]
  simp only [bind_eq_bind, bind_some]
  have hbind : ∀ x : Option (Cursor PlBody), (x.bind fun c => hwFinish malloc tp c.rp c.dead) =
      (x.map Cursor.result).bind fun y => hwFinish malloc tp y.1 y.2 := by
    intro x
    cases x <;> rfl
  rw [hbind, h]
  simp only [bind_assoc, bind_map]
  rfl

theorem hw_merge_some (I : HwInputs t lp hp tp lower upper) (hL : lower ≠ []) (hU : upper ≠ [])
    {r : Merged UInt32}
    (hm : merge (lower.map (·.ents)).flatten (upper.map (·.ents)).flatten = some r)
    (hneed : (pack r.1).length ≤ tp.length) :
    ((pack r.1).length ≤ ppaListSize → r.2.length ≤ ppaListSize * 20 →
      ∃ out, posixHwDoMerge malloc t lp hp tp = some out ∧
        List.Forall₂ Closed out.result (pack r.1) ∧ Stored tp out.table (pack r.1) ∧
        out.ktableNum = out.result.length ∧ out.invalid = r.2 ∧ out.invalidateNum = r.2.length) ∧
    (ppaListSize < (pack r.1).length ∨ ppaListSize * 20 < r.2.length →
      posixHwDoMerge malloc t lp hp tp = none) := by
  have hlpos := length_pos_of_ne_nil hL
  have htp : 0 < tp.length := by
    rw [I.targets, I.lower.length_eq]
    omega
  have hlen : ∀ e ∈ r.1, e.key.length < 256 := by
    intro e he
    have := (KeysOk.merge lower (.runs upper) hm e he).2
    omega
  have hne : r.1 ≠ [] := merge_ne_nil hm (flatten_headers_ne hL)
  obtain ⟨hfit, hover⟩ := (hw_fills malloc I.nodup).foldlM_init (hw_first malloc t htp) hlen hne
    (by omega)
  obtain ⟨hpush, hpush'⟩ := foldlM_push_cap (M := hwMerger malloc lp hp tp) (fun _ => rfl) r.2 []
  simp only [length_nil, zero_add, nil_append] at hpush hpush'
  rw [posixHwDoMerge_eq malloc I hL hU hm]
  refine ⟨fun hp hd => ?_, fun h => ?_⟩
  · obtain ⟨s, ps, now, hs, H, hps⟩ := hfit (by omega)
    have hpl : ps.length + 1 = (pack r.1).length := by rw [← hps]; simp
    simp only [hs, hpush hd, bind_some]
    rw [← hps]
    exact (H.finish malloc I.nodup r.2).1 (by omega)
  · by_cases hd : ppaListSize * 20 < r.2.length
    · rw [hpush' hd (Nat.zero_le _)]
      cases r.1.foldlM (hwInsert malloc tp) ⟨.init, t, []⟩ <;> rfl
    · have hp := h.resolve_right hd
      by_cases hcap : (pack r.1).length ≤ min tp.length (ppaListSize + 1)
      · obtain ⟨s, ps, now, hs, H, hps⟩ := hfit hcap
        have hpl : ps.length + 1 = (pack r.1).length := by rw [← hps]; simp
        simp only [hs, hpush (by omega), bind_some]
        exact (H.finish malloc I.nodup r.2).2 (by omega)
      · rw [hover (by omega)]
        rfl

end

theorem closed_same_all {ps qs : List Page} {ess : List (List Ent)} (hp : List.Forall₂ Closed ps ess)
    (hq : List.Forall₂ Closed qs ess) : List.Forall₂ SameContent ps qs := by
  induction hp generalizing qs with
  | nil =>
    cases hq
    exact .nil
  | cons h _ ih =>
    cases hq with
    | cons h' hq => exact .cons (closed_same h h') (ih hq)

/-- For every two non-empty sorted sequences of header pages whose merge needs no more pages
than there are inputs: the host's merge succeeds, and the device leaves the same contents in
the same order, in `result_addr` and in the targets, and the same invalidated addresses, iff
both fit the device's buffers. The device checks neither. -/
theorem hw_merge_agrees (malloc mallocHw : Nat → Page) (filter : Option BF) (t : Nat → Option Page)
    (lp hp tp : List Nat) (lower upper : List Header) (I : HwInputs t lp hp tp lower upper)
    (hLne : lower ≠ []) (hUne : upper ≠ []) (hL : Sorted (lower.map (·.ents)).flatten)
    (hU : Sorted (upper.map (·.ents)).flatten)
    (hneed : ∀ es, IsUnion (lower.map (·.ents)).flatten (upper.map (·.ents)).flatten es →
      (cut es).length ≤ lp.length + hp.length) :
    ∃ rp dead, arrayPipeMerger malloc none (upper.map (·.page)) (lower.map (·.page)) filter =
        some (rp, dead) ∧
      ((∃ out, posixHwDoMerge mallocHw t lp hp tp = some out ∧ HwAgrees rp dead tp out) ↔
        (∀ es, IsUnion (lower.map (·.ents)).flatten (upper.map (·.ents)).flatten es →
          (cut es).length ≤ ppaListSize) ∧
        ((lower.map (·.ents)).flatten.filter fun e =>
          decide (e.key ∈ keys (upper.map (·.ents)).flatten)).length ≤ ppaListSize * 20) := by
  obtain ⟨r, hr⟩ := merge_headers lower (.runs upper)
  have hunion : IsUnion (lower.map (·.ents)).flatten (upper.map (·.ents)).flatten r.1 :=
    ⟨merge_sorted hL hU hr, fun k => lookup_merge hL hU hr k⟩
  have hcut : ∀ es, IsUnion (lower.map (·.ents)).flatten (upper.map (·.ents)).flatten es →
      cut es = pack r.1 :=
    fun es hes => by rw [hes.unique hunion, pack_eq_cut (KeysOk.merge lower (.runs upper) hr)]
  have hneed' := hneed r.1 hunion
  rw [hcut r.1 hunion] at hneed'
  have hll := I.lower.length_eq
  have hul := I.upper.length_eq
  -- the host
  have hpm := pipeMerge_eq (by simpa using hLne) (by simpa [UpperPages.ents] using hUne) hr
  rw [if_neg (by simp only [UpperPages.ents, length_map]; omega)] at hpm
  obtain ⟨rp, hrp, hdata, -⟩ := (arrayPipeMerger_spec malloc (.runs upper) lower filter hLne).2 _ _ hpm
  refine ⟨rp, r.2, hrp, ?_⟩
  -- the device
  obtain ⟨hfit, hover⟩ := hw_merge_some mallocHw I hLne hUne hr (by rw [I.targets]; exact hneed')
  have hdead : ((lower.map (·.ents)).flatten.filter fun e =>
      decide (e.key ∈ keys (upper.map (·.ents)).flatten)).length = r.2.length := by
    rw [merge_invalid hL hU hr, length_map]
    refine congrArg _ (filter_congr fun e _ => ?_)
    rw [Bool.eq_iff_iff, lookup_isSome, decide_eq_true_eq]
  rw [hdead]
  refine ⟨fun h => ?_, fun h => ?_⟩
  · obtain ⟨out, hout, -⟩ := h
    by_contra hn
    rw [hover] at hout
    · cases hout
    · by_contra hle
      refine hn ⟨fun es hes => ?_, by omega⟩
      rw [hcut es hes]
      omega
  · have hp := h.1 r.1 hunion
    rw [hcut r.1 hunion] at hp
    obtain ⟨out, hout, hres, S, hk, hi, hin⟩ := hfit hp h.2
    refine ⟨out, hout, closed_same_all hres hdata, fun i hi => ?_, ?_, hi, hin⟩
    · have hi' : i < (pack r.1).length := by rwa [← hdata.length_eq]
      obtain ⟨ppa, p, hppa, hp, C⟩ := S i hi'
      exact ⟨ppa, p, hppa, hp, closed_same C (hdata.get hi hi')⟩
    · rw [hk, hres.length_eq, hdata.length_eq]

/-! ## Inputs -/

/-- The inputs one after the other from page 0 on, the targets behind them. -/
def layOut (lower upper : List Header) : Nat → Option Page :=
  fun ppa => ((lower ++ upper).map (·.page))[ppa]?

theorem forall₂_range' {α : Type} {R : Nat → α → Prop} (s : Nat) (xs : List α)
    (h : ∀ i (hi : i < xs.length), R (s + i) xs[i]) : List.Forall₂ R (range' s xs.length) xs := by
  rw [forall₂_iff_get]
  refine ⟨by simp, fun i hi hi' => ?_⟩
  simpa using h i hi'

theorem hwInputs_layOut (lower upper : List Header) :
    HwInputs (layOut lower upper) (range' 0 lower.length) (range' lower.length upper.length)
      (range' (lower.length + upper.length) (lower.length + upper.length)) lower upper where
  lower := forall₂_range' 0 lower fun i hi => by
    rw [layOut, zero_add, getElem?_map, getElem?_append_left hi, getElem?_eq_getElem hi]
    rfl
  upper := forall₂_range' lower.length upper fun i hi => by
    simp [layOut, getElem?_append_right, getElem?_eq_getElem hi]
  targets := by simp
  nodup := nodup_range'
  disjoint := by
    intro ppa hp
    simp only [mem_range'_1] at hp ⊢
    omega

theorem cutFrom_length {k : Nat} (hk : k ≤ pageSize - keyBitmap) (now : List Ent) {es : List Ent}
    (h : ∀ e ∈ es, keylen e.key ≤ k) :
    (cutFrom now es).length * (pageSize - keyBitmap - k + 1) ≤
      dataSize now + dataSize es + (pageSize - keyBitmap - k + 1) := by
  induction es generalizing now with
  | nil => simp [cutFrom]
  | cons e es ih =>
    have he := h e mem_cons_self
    have hes : ∀ e ∈ es, keylen e.key ≤ k := fun x hx => h x (.tail _ hx)
    rw [cutFrom, dataSize_cons]
    split
    · have ih := ih [e] hes
      simp only [dataSize_cons, dataSize_nil, add_zero] at ih
      rw [length_cons, add_mul, one_mul]
      omega
    · have ih := ih (now ++ [e]) hes
      simp only [dataSize_append, dataSize_cons, dataSize_nil] at ih
      omega

theorem cut_counted_length (n : Nat) : (cut (counted 0 n)).length * 7162 ≤ 7 * n + 7162 := by
  have hk : ∀ e ∈ counted 0 n, keylen e.key ≤ 7 := by
    intro e he
    obtain ⟨j, -, rfl⟩ := mem_map.mp he
    exact le_rfl
  have hsize := dataSize_counted 0 n
  cases hc : counted 0 n with
  | nil => simp [cut]
  | cons e es =>
    rw [hc] at hk hsize
    have h := cutFrom_length (k := 7) (by decide) [e] (fun x hx => hk x (.tail _ hx))
    simp only [dataSize_cons, dataSize_nil, add_zero, pageSize, keyBitmap] at h hsize
    rw [hsize] at h
    exact h

/-- `n` full pages of counted entries. -/
def countedPages : (n : Nat) → n ≤ 16000 → List Header
  | 0, _ => []
  | n + 1, h => countedPages n (by omega) ++
    [(countedChunk (510 * n) 510 (by decide) (by omega)).header (by simp [countedChunk, counted])]

theorem countedPages_flatten (n : Nat) (h : n ≤ 16000) :
    ((countedPages n h).map (·.ents)).flatten = counted 0 (510 * n) := by
  induction n with
  | zero => rfl
  | succ n ih =>
    have happ := counted_append 0 (510 * n) 510
    rw [zero_add] at happ
    rw [countedPages, map_append, flatten_append, ih (by omega), Nat.mul_succ, ← happ]
    exact congrArg _ (append_nil _)

theorem countedPages_length (n : Nat) (h : n ≤ 16000) : (countedPages n h).length = n := by
  induction n with
  | zero => rfl
  | succ n ih => rw [countedPages, length_append, ih (by omega), length_singleton]

theorem hw_merge_agrees_two :
    HwInputs (layOut lowerPages upperPages) [0, 1] [2, 3] [4, 5, 6, 7] lowerPages upperPages ∧
    ∃ rp dead out, arrayPipeMerger (fun _ _ => 0) none (upperPages.map (·.page))
        (lowerPages.map (·.page)) none = some (rp, dead) ∧
      posixHwDoMerge (fun _ _ => 0) (layOut lowerPages upperPages) [0, 1] [2, 3] [4, 5, 6, 7] = some out ∧
      HwAgrees rp dead [4, 5, 6, 7] out := by
  have I := hwInputs_layOut lowerPages upperPages
  obtain ⟨rp, dead, hhost, h⟩ := hw_merge_agrees (fun _ _ => 0) (fun _ _ => 0) none _ _ _ _ _ _ I
    (by simp [lowerPages]) (by simp [upperPages]) (by decide) (by decide)
    fun es hes => (by rw [pages_union hes]; decide)
  obtain ⟨out, hout, ok⟩ := h.mpr ⟨fun es hes => (by rw [pages_union hes]; decide), by decide⟩
  exact ⟨I, rp, dead, out, hhost, hout, ok⟩

/-- Two levels with the same 4915380 keys, 510 in each page: the host's merge is fine, the
device writes 180 addresses behind `invalidate_ppa_ptr`. -/
theorem hw_merge_overflow : ∃ (t : Nat → Option Page) (lp hp tp : List Nat) (pages : List Header),
    HwInputs t lp hp tp pages pages ∧ pages ≠ [] ∧ Sorted (pages.map (·.ents)).flatten ∧
      (∀ es, IsUnion (pages.map (·.ents)).flatten (pages.map (·.ents)).flatten es →
        (cut es).length ≤ lp.length + hp.length) ∧
      posixHwDoMerge (fun _ _ => 0) t lp hp tp = none := by
  have hlen := countedPages_length 9638 (by decide)
  have hfl := countedPages_flatten 9638 (by decide)
  generalize countedPages 9638 (by decide) = pages at hlen hfl
  have hs : Sorted (pages.map (·.ents)).flatten := by
    rw [hfl]
    exact counted_sorted (by decide)
  have hself : IsUnion (pages.map (·.ents)).flatten (pages.map (·.ents)).flatten
      (pages.map (·.ents)).flatten := by
    refine ⟨hs, fun k => ?_⟩
    cases lookup (pages.map (·.ents)).flatten k <;> rfl
  have hcut := cut_counted_length (510 * 9638)
  rw [← hfl] at hcut
  have hne : pages ≠ [] := by
    intro h
    rw [h] at hlen
    cases hlen
  have I := hwInputs_layOut pages pages
  obtain ⟨r, hr⟩ := merge_headers pages (.runs pages)
  have hunion : IsUnion (pages.map (·.ents)).flatten (pages.map (·.ents)).flatten r.1 :=
    ⟨merge_sorted hs hs hr, fun k => lookup_merge hs hs hr k⟩
  have hpack : pack r.1 = cut (pages.map (·.ents)).flatten := by
    rw [hself.unique hunion, pack_eq_cut (KeysOk.merge pages (.runs pages) hr)]
  have hdead : r.2.length = 510 * 9638 := by
    have hr2 := merge_invalid hs hs hr
    rw [hr2, length_map, filter_eq_self.mpr, hfl]
    · simp [counted]
    · intro e he
      exact lookup_isSome.mpr (mem_map_of_mem he)
  refine ⟨_, _, _, _, pages, I, hne, hs, fun es hes => ?_, ?_⟩
  · rw [hes.unique hself]
    simp only [length_range', hlen]
    omega
  · refine (hw_merge_some _ I hne hne hr ?_).2 (.inr ?_)
    · rw [hpack]
      simp only [length_range', hlen]
      omega
    · rw [hdead]
      decide

end FlashDriver.Lsmtree
