import FlashDriver.Lsmtree.Table

/-!
# Page bodies (`level_target/array/pipe.c`, `lower/posix_memory/pipe_lower.c`)

The cursor that reads the entries of a sequence of header pages, the cursor
that writes entries into new pages, and the merge loop between them. The
host (`pipe.c`, `pipe_merger.c`) and the device (`pipe_lower.c`, `posix.c`)
have the same code over different page tables; the tables are parameters
here, and `none` is an access outside of one or an `abort()`.

* `getNextKey_spec`: the reader returns the entries of its pages in order and
  then the end marker.
* `insertNewKey_at`: the writer closes a page exactly where `pack` does.
* `mergeLoop_eq`: the loop inserts the entries of `merge` one by one.
-/
namespace FlashDriver.Lsmtree

open List Option
open Core.Bytes

/-! ## Reading -/

/-- The fields of a `p_body` that is read; `now` is the index of `now_page`. -/
structure Reader where
  now : Option Nat
  pidx : Nat
  kidx : Nat
  maxKey : Nat
  deriving DecidableEq, Repr

/-- `calloc` -/
def Reader.init : Reader := ⟨none, 0, 0, 0⟩

/-- mirrors pipe.c:25-49 (`iswrite` false) and
lower/posix_memory/pipe_lower.c:14-23: `page i` is the page at index `i` of the table. -/
def newPageSet (page : Nat → Option Page) (p : Reader) : Option Reader := do
  let body ← page p.pidx
  let n ← slot body 0
  some ⟨some p.pidx, p.pidx + 1, 1, n⟩

/-- A key of length 255 is taken for the end marker. -/
def ofKeyt (e : Ent) : Option Ent := if e.key.length = 255 then none else some e

/-- mirrors pipe.c:51-67 and
lower/posix_memory/pipe_lower.c:25-41; the inner `none` is the end marker. -/
def getNextKey (page : Nat → Option Page) (maxPage : Nat) (p : Reader) :
    Option (Option Ent × Reader) := do
  let p ← if p.now.isNone || (decide (p.pidx < maxPage) && decide (p.kidx > p.maxKey)) then
      newPageSet page p
    else some p
  if p.pidx ≥ maxPage ∧ p.kidx > p.maxKey then some (none, p)
  else do
    let body ← p.now.bind page
    let e ← readEntry body p.kidx
    some (ofKeyt e, { p with kidx := p.kidx + 1 })

/-! ## Writing -/

/-- The fields of a `p_body` that is written. -/
structure Writer where
  now : Option Page
  pidx : Nat
  kidx : Nat
  length : Nat

def Writer.init : Writer := ⟨none, 0, 0, 0⟩

/-- The condition at algorithm/Lsmtree/level_target/array/pipe.c:75. The slots are counted as
if the table filled the data area. -/
def Writer.closes (p : Writer) (key : Key) (flush : Bool) : Bool :=
  (flush && decide (p.kidx > 1)) || p.now.isNone ||
    decide (p.kidx ≥ (pageSize - 1024) / 2 - 2) || decide (p.length + keylen key > pageSize)

/-- mirrors pipe.c:88-98 -/
def Writer.put (p : Writer) (e : Ent) : Option Writer := do
  let body ← p.now
  let body ← putEntry body p.kidx p.length e
  some { p with now := some body, kidx := p.kidx + 1, length := p.length + keylen e.key }

/-- mirrors pipe.c:70-100 and
lower/posix_memory/pipe_lower.c:43-64: `fresh i` is what `new_page_set` finds or allocates
as page `i`; the page that was closed is returned. -/
def Writer.insertNewKey (fresh : Nat → Option Page) (p : Writer) (e : Ent) (flush : Bool) :
    Option (Option Page × Writer) :=
  if p.closes e.key flush then do
    let res ← match p.now with
      | none => some none
      | some body => (closePage body (p.kidx - 1) p.length).map some
    if flush then some (res, { p with now := res })
    else do
      let body ← fresh p.pidx
      let p ← Writer.put ⟨some body, p.pidx + 1, 1, 1024⟩ e
      some (res, p)
  else do
    let p ← p.put e
    some (none, p)

/-! ## The merge loop -/

/-- What the two merges differ in: the page tables that are read (they may change with the
output `ω`), what an insertion does, and the room for invalidated addresses. -/
structure Merger (ω : Type) where
  lower : ω → Nat → Option Page
  lowerNum : Nat
  upper : ω → Nat → Option Page
  upperNum : Nat
  insert : ω → Ent → Option ω
  room : Nat → Bool

/-- The loop's variables. -/
structure Cursor (ω : Type) where
  lpKey : Option Ent
  hpKey : Option Ent
  lp : Reader
  hp : Reader
  rp : ω
  dead : List UInt32

section
variable {ω : Type} (M : Merger ω)

def Merger.nextLower (c : Cursor ω) : Option (Cursor ω) := do
  let (k, lp) ← getNextKey (M.lower c.rp) M.lowerNum c.lp
  some { c with lpKey := k, lp := lp }

def Merger.nextUpper (c : Cursor ω) : Option (Cursor ω) := do
  let (k, hp) ← getNextKey (M.upper c.rp) M.upperNum c.hp
  some { c with hpKey := k, hp := hp }

def Merger.take (c : Cursor ω) (e : Ent) : Option (Cursor ω) := do
  let rp ← M.insert c.rp e
  some { c with rp := rp }

/-- The next invalidated address. -/
def Merger.push (dead : List UInt32) (ppa : UInt32) : Option (List UInt32) :=
  if M.room dead.length then some (dead ++ [ppa]) else none

def Merger.invalidate (c : Cursor ω) (ppa : UInt32) : Option (Cursor ω) := do
  let dead ← M.push c.dead ppa
  some { c with dead := dead }

/-- One round of the loop for two keys that are not both the end marker. -/
def Merger.round (c : Cursor ω) : Option Ent → Option Ent → Option (Cursor ω)
  | none, none => some c
  | none, some h => do
    let c ← M.take c h
    M.nextUpper c
  | some l, none => do
    let c ← M.take c l
    M.nextLower c
  | some l, some h =>
    if !keyvalcheck l.key then none
    else if !keyvalcheck h.key then none
    else
      match keycmp l.key h.key with
      | .lt => do
        let c ← M.take c l
        M.nextLower c
      | .gt => do
        let c ← M.take c h
        M.nextUpper c
      | .eq => do
        let c ← M.invalidate c l.ppa
        let c ← M.take c h
        let c ← M.nextLower c
        M.nextUpper c

/-- mirrors pipe_merger.c:98-147 and
lower/posix_memory/posix.c:370-418, for at most `fuel` rounds. -/
def Merger.mergeLoop : Nat → Cursor ω → Option (Cursor ω)
  | 0, c => if c.lpKey.isNone && c.hpKey.isNone then some c else none
  | fuel + 1, c =>
    if c.lpKey.isNone && c.hpKey.isNone then some c
    else do
      let c ← M.round c c.lpKey c.hpKey
      mergeLoop fuel c

/-- The first keys are fetched before the loop. -/
def Merger.start (rp : ω) : Option (Cursor ω) := do
  let c ← M.nextLower ⟨none, none, .init, .init, rp, []⟩
  M.nextUpper c

end

/-! ## The reader's entries -/

/-- A table of pages that hold the entries `ess`. An empty page is read correctly only if it
is the only one. -/
def Readable (page : Nat → Option Page) (ess : List (List Ent)) : Prop :=
  ∀ i (h : i < ess.length), ∃ p, page i = some p ∧ Encodes p ess[i] ∧ FitsPage ess[i] ∧
    (∀ e ∈ ess[i], e.key.length ≠ 255) ∧ (ess[i] ≠ [] ∨ ess.length = 1)

/-- The reader has still to return `rest`. -/
inductive Reads (ess : List (List Ent)) : Reader → List Ent → Prop
  | init : Reads ess Reader.init ess.flatten
  | page (i j : Nat) (hi : i < ess.length) (hj : j ≤ (ess[i]).length) :
      Reads ess ⟨some i, i + 1, j + 1, (ess[i]).length⟩
        ((ess[i]).drop j ++ (ess.drop (i + 1)).flatten)

section
variable {page : Nat → Option Page} {ess : List (List Ent)}

theorem newPageSet_eq (hr : Readable page ess) {r : Reader} (hi : r.pidx < ess.length) :
    newPageSet page r = some ⟨some r.pidx, r.pidx + 1, 1, (ess[r.pidx]).length⟩ := by
  obtain ⟨p, hp, E, -⟩ := hr r.pidx hi
  rw [newPageSet, hp, bind_eq_bind, bind_some, slot_eq (by simp [pageSize]), E.count]
  rfl

theorem getNextKey_page (hr : Readable page ess) {i j : Nat} (hi : i < ess.length)
    (hj : j ≤ (ess[i]).length) (hlast : j < (ess[i]).length ∨ i + 1 = ess.length) :
    ∃ r', getNextKey page ess.length ⟨some i, i + 1, j + 1, (ess[i]).length⟩ =
        some (((ess[i]).drop j ++ (ess.drop (i + 1)).flatten).head?, r') ∧
      Reads ess r' ((ess[i]).drop j ++ (ess.drop (i + 1)).flatten).tail := by
  have hcond : (decide (i + 1 < ess.length) && decide (j + 1 > (ess[i]).length)) = false := by
    rw [← Bool.decide_and, decide_eq_false_iff_not]
    omega
  unfold getNextKey
  simp only [isNone_some, hcond, Bool.or_self, Bool.false_eq_true, if_false,
    bind_eq_bind, bind_some]
  by_cases hjl : j < (ess[i]).length
  · obtain ⟨p, hp, E, F, hlen, -⟩ := hr i hi
    refine ⟨⟨some i, i + 1, j + 1 + 1, (ess[i]).length⟩, ?_, ?_⟩
    · rw [if_neg (by omega), hp, bind_some, readEntry_eq E F hjl, bind_some, ofKeyt,
        if_neg (hlen _ (getElem_mem hjl)), drop_eq_getElem_cons hjl]
      rfl
    · rw [drop_eq_getElem_cons hjl]
      exact .page i (j + 1) hi (by omega)
  · have hje : j = (ess[i]).length := by omega
    have hie : i + 1 = ess.length := by omega
    have hnil : (ess[i]).drop j ++ (ess.drop (i + 1)).flatten = [] := by
      rw [drop_of_length_le (by omega), drop_of_length_le (by omega)]
      rfl
    refine ⟨⟨some i, i + 1, j + 1, (ess[i]).length⟩, by rw [if_pos (by omega), hnil]; rfl, ?_⟩
    have h := Reads.page i j hi hj
    rw [hnil] at h ⊢
    exact h

theorem getNextKey_spec (hr : Readable page ess) (hne : ess ≠ []) {r : Reader} {rest : List Ent}
    (R : Reads ess r rest) :
    ∃ r', getNextKey page ess.length r = some (rest.head?, r') ∧ Reads ess r' rest.tail := by
  have hpos : 0 < ess.length := length_pos_of_ne_nil hne
  -- a page that is fetched is not empty, unless it is the only one
  have hfirst : ∀ i (hi : i < ess.length), 0 < (ess[i]).length ∨ i + 1 = ess.length := by
    intro i hi
    obtain ⟨p, -, -, -, -, h⟩ := hr i hi
    rcases h with h | h
    · exact .inl (length_pos_of_ne_nil h)
    · exact .inr (by omega)
  have hfetch : ∀ r : Reader, (hi : r.pidx < ess.length) →
      (r.now.isNone || (decide (r.pidx < ess.length) && decide (r.kidx > r.maxKey))) = true →
      getNextKey page ess.length r =
        getNextKey page ess.length ⟨some r.pidx, r.pidx + 1, 1, (ess[r.pidx]).length⟩ := by
    intro r hi hc
    have hc' : (decide (r.pidx + 1 < ess.length) && decide (1 > (ess[r.pidx]).length)) = false := by
      have := hfirst r.pidx hi
      rw [← Bool.decide_and, decide_eq_false_iff_not]
      omega
    unfold getNextKey
    simp only [hc, if_true, newPageSet_eq hr hi, isNone_some, hc', Bool.or_self,
      Bool.false_eq_true, if_false]
  cases R with
  | init =>
    have h := getNextKey_page hr hpos (Nat.zero_le _) (hfirst 0 hpos)
    have hfl : ess.flatten = (ess[0]).drop 0 ++ (ess.drop (0 + 1)).flatten := by
      rw [drop_zero, ← flatten_cons, ← drop_eq_getElem_cons hpos, drop_zero]
    rw [hfl, hfetch Reader.init hpos rfl]
    exact h
  | page i j hi hj =>
    by_cases hstay : j < (ess[i]).length ∨ i + 1 = ess.length
    · exact getNextKey_page hr hi hj hstay
    · have hi' : i + 1 < ess.length := by omega
      have h := getNextKey_page hr hi' (Nat.zero_le _) (hfirst (i + 1) hi')
      have hfl : (ess[i]).drop j ++ (ess.drop (i + 1)).flatten =
          (ess[i + 1]).drop 0 ++ (ess.drop (i + 1 + 1)).flatten := by
        rw [drop_of_length_le (by omega), nil_append, drop_zero,
          drop_eq_getElem_cons hi', flatten_cons]
      rw [hfl, hfetch ⟨some i, i + 1, j + 1, (ess[i]).length⟩ hi' (by simp; omega)]
      exact h

end

/-! ## The writer's pages -/

/-- The page was filled with `es`, starting from any contents. -/
inductive Opened : Page → List Ent → Prop
  | nil (p : Page) : Opened p []
  | snoc {p p' : Page} {es : List Ent} {e : Ent} (h : Opened p es)
      (hp : putEntry p (es.length + 1) (keyBitmap + dataSize es) e = some p') :
      Opened p' (es ++ [e])

/-- What the writer's own limits leave of a page. -/
structure Small (es : List Ent) : Prop where
  slots : es.length + 1 ≤ (pageSize - 1024) / 2 - 2
  bytes : keyBitmap + dataSize es ≤ pageSize

/-- The page was filled with `es` and closed. -/
def Closed (p : Page) (es : List Ent) : Prop :=
  ∃ q, Opened q es ∧ Small es ∧ closePage q es.length (keyBitmap + dataSize es) = some p

theorem Opened.filled {p : Page} {es : List Ent} (h : Opened p es) (hf : FitsPage es) :
    Filled p es := by
  induction h with
  | nil p => exact .nil p
  | snoc h hp ih =>
    obtain ⟨q, hq, F, -⟩ := (ih hf.left).putEntry hf
    rw [hp] at hq
    cases hq
    exact F

theorem Closed.encodes {p : Page} {es : List Ent} (h : Closed p es) (hf : FitsPage es) :
    Encodes p es := by
  obtain ⟨q, hq, -, hp⟩ := h
  obtain ⟨p', hp', E⟩ := (hq.filled hf).closePage hf
  rw [hp] at hp'
  cases hp'
  exact E

theorem Closed.count {p : Page} {es : List Ent} (h : Closed p es) : slotAt p 0 = es.length := by
  obtain ⟨q, -, hs, hp⟩ := h
  have hsl := hs.slots
  simp only [pageSize] at hsl
  rw [closePage, bind_eq_bind] at hp
  obtain ⟨p0, hp0, hp⟩ := bind_eq_some_iff.mp hp
  have h0 := slotAt_setSlot (by omega) hp0
  rw [setSlot, store] at hp
  split at hp
  · cases hp
    rw [slotAt_write (by omega), h0]
  · cases hp

/-- The writer fills its page `i`, which holds `es`. -/
def Writer.At (w : Writer) (i : Nat) (es : List Ent) : Prop :=
  ∃ p, w = ⟨some p, i + 1, es.length + 1, keyBitmap + dataSize es⟩ ∧ Opened p es ∧ Small es

theorem Writer.At.pidx_eq {w : Writer} {i : Nat} {es : List Ent} (h : w.At i es) : w.pidx = i + 1 := by
  obtain ⟨p, rfl, -⟩ := h
  rfl

theorem put_at {p : Page} {i : Nat} {es : List Ent} {e : Ent} (h : Opened p es)
    (hs : Small (es ++ [e])) :
    ∃ w, Writer.put ⟨some p, i + 1, es.length + 1, keyBitmap + dataSize es⟩ e = some w ∧
      w.At i (es ++ [e]) := by
  have hsl := hs.slots
  have hb := hs.bytes
  simp only [length_append, length_cons, length_nil, dataSize_append, dataSize_cons,
    dataSize_nil, keyBitmap, pageSize] at hsl hb
  have hput := putEntry_eq (p := p) (i := es.length + 1) (e := e) (by simp only [pageSize]; omega)
    (show keyBitmap + dataSize es + keylen e.key ≤ pageSize by
      simp only [keyBitmap, pageSize]; omega)
  refine ⟨_, by rw [Writer.put, bind_eq_bind, bind_some, hput]; rfl, _, ?_, h.snoc hput, hs⟩
  simp [add_assoc]

theorem closePage_closed {p : Page} {es : List Ent} (h : Opened p es) (hs : Small es) :
    ∃ q, closePage p es.length (keyBitmap + dataSize es) = some q ∧ Closed q es := by
  have hsl := hs.slots
  simp only [pageSize] at hsl
  have hc : closePage p es.length (keyBitmap + dataSize es) =
      some (write (write p (2 * 0) (toLe 2 es.length)) (2 * (es.length + 1))
        (toLe 2 (keyBitmap + dataSize es))) := by
    rw [closePage, setSlot_eq (by simp [pageSize]), bind_eq_bind, bind_some,
      setSlot_eq (by simp only [pageSize]; omega)]
  exact ⟨_, hc, _, h, hs, hc⟩

theorem closes_eq {p : Page} {i : Nat} {es : List Ent} {e : Ent} :
    Writer.closes ⟨some p, i + 1, es.length + 1, keyBitmap + dataSize es⟩ e.key false =
      closes es e := by
  simp [Writer.closes, closes, keyBitmap]

theorem Small.snoc {es : List Ent} {e : Ent} (h : closes es e = false) : Small (es ++ [e]) := by
  simp only [closes, ge_iff_le, gt_iff_lt, Bool.or_eq_false_iff, decide_eq_false_iff_not,
    keyBitmap, pageSize] at h
  obtain ⟨hs, hb⟩ := h
  refine ⟨?_, ?_⟩
  · simp only [length_append, length_singleton, pageSize]
    omega
  · simp only [dataSize_append, dataSize_cons, dataSize_nil, keyBitmap, pageSize]
    omega

theorem Small.single {e : Ent} (h : e.key.length < 256) : Small [e] := by
  refine ⟨by simp [pageSize], ?_⟩
  simp only [dataSize_cons, dataSize_nil, keylen, keyBitmap, pageSize]
  omega

section
variable (fresh : Nat → Option Page) {w : Writer} {i : Nat} {es : List Ent} {e : Ent}

theorem insertNewKey_at (A : w.At i es) (hc : closes es e = false) :
    ∃ w', w.insertNewKey fresh e false = some (none, w') ∧ w'.At i (es ++ [e]) := by
  obtain ⟨p, rfl, O, -⟩ := A
  obtain ⟨w', hw, A'⟩ := put_at (i := i) O (Small.snoc hc)
  exact ⟨w', by rw [Writer.insertNewKey, closes_eq, hc, hw]; rfl, A'⟩

theorem insertNewKey_close (A : w.At i es) (hc : closes es e = true) (he : e.key.length < 256) :
    (fresh (i + 1) = none → w.insertNewKey fresh e false = none) ∧
      ∀ j, fresh (i + 1) = some j → ∃ p w', w.insertNewKey fresh e false = some (some p, w') ∧
        Closed p es ∧ w'.At (i + 1) [e] := by
  obtain ⟨p, rfl, O, hs⟩ := A
  obtain ⟨q, hq, C⟩ := closePage_closed O hs
  refine ⟨fun hf => ?_, fun j hf => ?_⟩
  · rw [Writer.insertNewKey, closes_eq, hc]
    simp [hf]
  · obtain ⟨w', hw, A'⟩ := put_at (i := i + 1) (Opened.nil j) (Small.single he)
    refine ⟨q, w', ?_, C, A'⟩
    have hw' : Writer.put ⟨some j, i + 1 + 1, 1, 1024⟩ e = some w' := hw
    rw [Writer.insertNewKey, closes_eq, hc]
    simp [hq, hf, hw']

theorem insertNewKey_init {j : Page} (hf : fresh 0 = some j) (he : e.key.length < 256) :
    ∃ w', Writer.init.insertNewKey fresh e false = some (none, w') ∧ w'.At 0 [e] := by
  obtain ⟨w', hw, A'⟩ := put_at (i := 0) (Opened.nil j) (Small.single he)
  have hw' : Writer.put ⟨some j, 0 + 1, 1, 1024⟩ e = some w' := hw
  exact ⟨w', by simp [Writer.insertNewKey, Writer.closes, Writer.init, hf, hw'], A'⟩

theorem insertNewKey_flush (A : w.At i es) (hne : es ≠ []) :
    ∃ p w', w.insertNewKey fresh e true = some (some p, w') ∧ Closed p es ∧ w'.pidx = i + 1 ∧
      w'.now = some p := by
  obtain ⟨p, rfl, O, hs⟩ := A
  obtain ⟨q, hq, C⟩ := closePage_closed O hs
  have hpos : 0 < es.length := length_pos_of_ne_nil hne
  refine ⟨q, ⟨some q, i + 1, es.length + 1, keyBitmap + dataSize es⟩, ?_, C, rfl, rfl⟩
  have hc : Writer.closes ⟨some p, i + 1, es.length + 1, keyBitmap + dataSize es⟩ e.key true = true := by
    simp [Writer.closes, hpos]
  rw [Writer.insertNewKey, hc]
  simp [hq]

end

/-! ## A sequence of insertions -/

/-- `insert` fills pages as the writer does: `Holds s ps now` says that the pages `ps` were
closed and that one with `now` is being filled, and there is room for `cap` pages. -/
structure Fills {σ : Type} (insert : σ → Ent → Option σ) (cap : Nat)
    (Holds : σ → List (List Ent) → List Ent → Prop) : Prop where
  put : ∀ {s ps now e}, Holds s ps now → closes now e = false →
    ∃ s', insert s e = some s' ∧ Holds s' ps (now ++ [e])
  close : ∀ {s ps now e}, Holds s ps now → closes now e = true → e.key.length < 256 →
    ps.length + 1 < cap → ∃ s', insert s e = some s' ∧ Holds s' (ps ++ [now]) [e]
  overrun : ∀ {s ps now e}, Holds s ps now → closes now e = true → e.key.length < 256 →
    cap ≤ ps.length + 1 → insert s e = none

theorem Fills.foldlM {σ : Type} {insert : σ → Ent → Option σ} {cap : Nat}
    {Holds : σ → List (List Ent) → List Ent → Prop} (F : Fills insert cap Holds) {s : σ}
    {ps : List (List Ent)} {now es : List Ent} (H : Holds s ps now)
    (hk : ∀ e ∈ es, e.key.length < 256) :
    (ps.length + (packFrom now es).length ≤ cap → ∃ s' ps' now',
      es.foldlM insert s = some s' ∧ Holds s' ps' now' ∧ ps' ++ [now'] = ps ++ packFrom now es) ∧
    (cap < ps.length + (packFrom now es).length → ps.length < cap → es.foldlM insert s = none) := by
  induction es generalizing s ps now with
  | nil =>
    refine ⟨fun _ => ⟨s, ps, now, rfl, H, rfl⟩, fun h1 h2 => ?_⟩
    simp only [packFrom, length_singleton] at h1
    omega
  | cons e es ih =>
    have he := hk e mem_cons_self
    have hk' : ∀ e ∈ es, e.key.length < 256 := fun x hx => hk x (.tail _ hx)
    rw [packFrom, foldlM_cons]
    cases hc : closes now e with
    | false =>
      obtain ⟨s1, hs1, H1⟩ := F.put H hc
      simp only [hs1, bind_eq_bind, bind_some, Bool.false_eq_true, if_false]
      exact ih H1 hk'
    | true =>
      simp only [if_true, length_cons]
      by_cases hroom : ps.length + 1 < cap
      · obtain ⟨s1, hs1, H1⟩ := F.close H hc he hroom
        obtain ⟨hfit, hover⟩ := ih H1 hk'
        simp only [hs1, bind_eq_bind, bind_some]
        rw [length_append, length_singleton] at hfit hover
        refine ⟨fun h => ?_, fun h _ => hover (by omega) hroom⟩
        obtain ⟨s', ps', now', hs', H', hps⟩ := hfit (by omega)
        exact ⟨s', ps', now', hs', H', by rw [hps]; simp⟩
      · have hpos := packFrom_length_pos [e] es
        refine ⟨fun h => by omega, fun _ _ => ?_⟩
        rw [F.overrun H hc he (by omega)]
        rfl

theorem Fills.foldlM_init {σ : Type} {insert : σ → Ent → Option σ} {cap : Nat}
    {Holds : σ → List (List Ent) → List Ent → Prop} (F : Fills insert cap Holds) {s : σ}
    {es : List Ent} (hfirst : ∀ e, e.key.length < 256 → ∃ s', insert s e = some s' ∧ Holds s' [] [e])
    (hk : ∀ e ∈ es, e.key.length < 256) (hne : es ≠ []) (hcap : 0 < cap) :
    ((pack es).length ≤ cap → ∃ s' ps' now',
      es.foldlM insert s = some s' ∧ Holds s' ps' now' ∧ ps' ++ [now'] = pack es) ∧
    (cap < (pack es).length → es.foldlM insert s = none) := by
  cases es with
  | nil => exact absurd rfl hne
  | cons e es =>
    obtain ⟨s1, hs1, H⟩ := hfirst e (hk e mem_cons_self)
    have h := F.foldlM H (fun x hx => hk x (.tail _ hx))
    rw [foldlM_cons, hs1]
    simp only [length_nil, zero_add, nil_append] at h
    exact ⟨h.1, fun h' => h.2 h' hcap⟩

/-! ## The loop's entries -/

section
variable {ω : Type} (M : Merger ω) {L U : List (List Ent)}

/-- The loop has still to merge `l` and `h`. -/
structure Cursor.At (L U : List (List Ent)) (c : Cursor ω) (l h : List Ent) : Prop where
  lpKey : c.lpKey = l.head?
  hpKey : c.hpKey = h.head?
  lp : Reads L c.lp l.tail
  hp : Reads U c.hp h.tail

/-- The merger reads the pages of `L` and `U`, whatever is inserted. -/
structure Merger.Over (L U : List (List Ent)) (Inv : ω → Prop) : Prop where
  lower : ∀ w, Inv w → Readable (M.lower w) L
  lowerNum : M.lowerNum = L.length
  lowerNe : L ≠ []
  upper : ∀ w, Inv w → Readable (M.upper w) U
  upperNum : M.upperNum = U.length
  upperNe : U ≠ []
  insert : ∀ w e w', Inv w → M.insert w e = some w' → Inv w'

variable {M} {Inv : ω → Prop}

theorem Merger.Over.nextLower (O : M.Over L U Inv) {c : Cursor ω} {l h : List Ent} (hi : Inv c.rp)
    (hl : Reads L c.lp l) (hhk : c.hpKey = h.head?) (hh : Reads U c.hp h.tail) :
    ∃ c', M.nextLower c = some c' ∧ c'.At L U l h ∧ c'.rp = c.rp ∧ c'.dead = c.dead := by
  obtain ⟨r, hr, R⟩ := getNextKey_spec (O.lower _ hi) O.lowerNe hl
  rw [← O.lowerNum] at hr
  exact ⟨{ c with lpKey := l.head?, lp := r }, by rw [Merger.nextLower, hr]; rfl,
    ⟨rfl, hhk, R, hh⟩, rfl, rfl⟩

theorem Merger.Over.nextUpper (O : M.Over L U Inv) {c : Cursor ω} {l h : List Ent} (hi : Inv c.rp)
    (hlk : c.lpKey = l.head?) (hl : Reads L c.lp l.tail) (hh : Reads U c.hp h) :
    ∃ c', M.nextUpper c = some c' ∧ c'.At L U l h ∧ c'.rp = c.rp ∧ c'.dead = c.dead := by
  obtain ⟨r, hr, R⟩ := getNextKey_spec (O.upper _ hi) O.upperNe hh
  rw [← O.upperNum] at hr
  exact ⟨{ c with hpKey := h.head?, hp := r }, by rw [Merger.nextUpper, hr]; rfl,
    ⟨hlk, rfl, hl, R⟩, rfl, rfl⟩

theorem Merger.Over.start (O : M.Over L U Inv) {w : ω} (hi : Inv w) :
    ∃ c, M.start w = some c ∧ c.At L U L.flatten U.flatten ∧ c.rp = w ∧ c.dead = [] := by
  obtain ⟨r1, hr1, R1⟩ := getNextKey_spec (O.lower _ hi) O.lowerNe .init
  obtain ⟨r2, hr2, R2⟩ := getNextKey_spec (O.upper _ hi) O.upperNe .init
  rw [← O.lowerNum] at hr1
  rw [← O.upperNum] at hr2
  refine ⟨⟨L.flatten.head?, U.flatten.head?, r1, r2, w, []⟩, ?_, ⟨rfl, rfl, R1, R2⟩, rfl, rfl⟩
  simp [Merger.start, Merger.nextLower, Merger.nextUpper, hr1, hr2]

/-- What the loop leaves: the merged entries inserted in order, the dropped addresses noted. -/
def Merger.outcome (M : Merger ω) (c : Cursor ω) (r : Merged UInt32) : Option (ω × List UInt32) :=
  (r.1.foldlM M.insert c.rp).bind fun rp => (r.2.foldlM M.push c.dead).map fun dead => (rp, dead)

def Cursor.result (c : Cursor ω) : ω × List UInt32 := (c.rp, c.dead)

theorem Merger.Over.take_step (O : M.Over L U Inv) {c : Cursor ω} (hi : Inv c.rp) {e : Ent}
    {r : Merged UInt32} {k : Cursor ω → Option (Cursor ω)} {n : Nat}
    (hk : ∀ w, Inv w → ∃ c', k { c with rp := w } = some c' ∧ c'.rp = w ∧ c'.dead = c.dead ∧
      (M.mergeLoop n c').map Cursor.result = M.outcome c' r) :
    (((M.take c e).bind k).bind (M.mergeLoop n)).map Cursor.result =
      M.outcome c (e :: r.1, r.2) := by
  rw [Merger.take, Merger.outcome, foldlM_cons]
  cases hins : M.insert c.rp e with
  | none => rfl
  | some w =>
    obtain ⟨c', hc', hrp, hdead, hrest⟩ := hk w (O.insert _ _ _ hi hins)
    simp only [bind_eq_bind, bind_some, hc', hrest, Merger.outcome, hrp, hdead]

theorem Merger.invalidate_outcome (M : Merger ω) (c : Cursor ω) (d : UInt32) (r : Merged UInt32) :
    ((M.invalidate c d).bind fun c => M.outcome c r) = M.outcome c (r.1, d :: r.2) := by
  simp only [Merger.invalidate, Merger.outcome, foldlM_cons, bind_eq_bind]
  cases M.push c.dead d with
  | some dead => rfl
  | none => cases r.1.foldlM M.insert c.rp <;> rfl

theorem Merger.mergeLoop_succ {n : Nat} {c : Cursor ω} {l h : List Ent} (A : c.At L U l h)
    (hne : l ≠ [] ∨ h ≠ []) :
    M.mergeLoop (n + 1) c = (M.round c l.head? h.head?).bind (M.mergeLoop n) := by
  rw [Merger.mergeLoop, A.lpKey, A.hpKey, if_neg]
  · rfl
  · simpa [or_iff_not_imp_left] using hne

theorem Merger.mergeLoop_nil {n : Nat} {c : Cursor ω} (A : c.At L U [] []) :
    M.mergeLoop n c = some c := by
  cases n <;> simp [Merger.mergeLoop, A.lpKey, A.hpKey]

theorem Merger.Over.mergeLoop_eq (O : M.Over L U Inv) {l h : List Ent} {r : Merged UInt32}
    (hm : merge l h = some r) {fuel : Nat} {c : Cursor ω} (A : c.At L U l h) (hi : Inv c.rp)
    (hf : l.length + h.length ≤ fuel) :
    (M.mergeLoop fuel c).map Cursor.result = M.outcome c r := by
  fun_induction merge l h generalizing r fuel c with
  | case1 =>
    cases hm
    rw [Merger.mergeLoop_nil A]
    rfl
  | case2 h hs ih =>
    obtain ⟨q, hq, rfl⟩ := map_eq_some_iff.mp hm
    obtain ⟨n, rfl⟩ : ∃ n, fuel = n + 1 := ⟨fuel - 1, by simp at hf; omega⟩
    rw [Merger.mergeLoop_succ A (.inr (by simp))]
    refine O.take_step hi fun w hw => ?_
    obtain ⟨c', hc', A', hrp, hdead⟩ := O.nextUpper (c := { c with rp := w }) (l := []) (h := hs) hw
      A.lpKey A.lp A.hp
    exact ⟨c', hc', hrp, hdead, ih hq A' (by rw [hrp]; exact hw) (by simp at hf ⊢; omega)⟩
  | case3 l ls ih =>
    obtain ⟨q, hq, rfl⟩ := map_eq_some_iff.mp hm
    obtain ⟨n, rfl⟩ : ∃ n, fuel = n + 1 := ⟨fuel - 1, by simp at hf; omega⟩
    rw [Merger.mergeLoop_succ A (.inl (by simp))]
    refine O.take_step hi fun w hw => ?_
    obtain ⟨c', hc', A', hrp, hdead⟩ := O.nextLower (c := { c with rp := w }) (l := ls) (h := []) hw
      A.lp A.hpKey A.hp
    exact ⟨c', hc', hrp, hdead, ih hq A' (by rw [hrp]; exact hw) (by simp at hf ⊢; omega)⟩
  | case4 => cases hm
  | case5 => cases hm
  | case6 l ls h hs hl hh hlt ih =>
    obtain ⟨q, hq, rfl⟩ := map_eq_some_iff.mp hm
    obtain ⟨n, rfl⟩ : ∃ n, fuel = n + 1 := ⟨fuel - 1, by simp at hf; omega⟩
    rw [Merger.mergeLoop_succ A (.inl (by simp))]
    simp only [head?_cons, Merger.round, hl, hh, hlt]
    refine O.take_step hi fun w hw => ?_
    obtain ⟨c', hc', A', hrp, hdead⟩ := O.nextLower (c := { c with rp := w }) (l := ls)
      (h := h :: hs) hw A.lp A.hpKey A.hp
    exact ⟨c', hc', hrp, hdead, ih hq A' (by rw [hrp]; exact hw) (by simp at hf ⊢; omega)⟩
  | case7 l ls h hs hl hh hgt ih =>
    obtain ⟨q, hq, rfl⟩ := map_eq_some_iff.mp hm
    obtain ⟨n, rfl⟩ : ∃ n, fuel = n + 1 := ⟨fuel - 1, by simp at hf; omega⟩
    rw [Merger.mergeLoop_succ A (.inl (by simp))]
    simp only [head?_cons, Merger.round, hl, hh, hgt]
    refine O.take_step hi fun w hw => ?_
    obtain ⟨c', hc', A', hrp, hdead⟩ := O.nextUpper (c := { c with rp := w }) (l := l :: ls)
      (h := hs) hw A.lpKey A.lp A.hp
    exact ⟨c', hc', hrp, hdead, ih hq A' (by rw [hrp]; exact hw) (by simp at hf ⊢; omega)⟩
  | case8 l ls h hs hl hh heq ih =>
    obtain ⟨q, hq, rfl⟩ := map_eq_some_iff.mp hm
    obtain ⟨n, rfl⟩ : ∃ n, fuel = n + 1 := ⟨fuel - 1, by simp at hf; omega⟩
    have hinv := M.invalidate_outcome c l.ppa (h :: q.1, q.2)
    rw [Merger.mergeLoop_succ A (.inl (by simp)), ← hinv]
    simp only [head?_cons, Merger.round, hl, hh, heq, bind_eq_bind, Merger.invalidate]
    cases M.push c.dead l.ppa with
    | none => rfl
    | some dead =>
      refine O.take_step (c := { c with dead := dead }) hi fun w hw => ?_
      obtain ⟨c1, hc1, A1, hrp1, hdead1⟩ := O.nextLower (c := { c with rp := w, dead := dead })
        (l := ls) (h := h :: hs) hw A.lp A.hpKey A.hp
      obtain ⟨c', hc', A', hrp, hdead⟩ := O.nextUpper (c := c1) (l := ls) (h := hs)
        (by rw [hrp1]; exact hw) A1.lpKey A1.lp A1.hp
      refine ⟨c', by simp only [hc1, bind_some, hc'], hrp.trans hrp1, hdead.trans hdead1, ?_⟩
      exact ih hq A' (by rw [hrp, hrp1]; exact hw) (by simp at hf ⊢; omega)

end

end FlashDriver.Lsmtree
