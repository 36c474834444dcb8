import FlashDriver.Core.Bytes
import FlashDriver.Lsmtree.Merge

/-!
# Header pages

A header page starts with a table of 16-bit slots: slot 0 is the number of
entries `n`, slots 1 to `n` are the offsets of the entries and slot `n+1` is
the end of the last one. The entries, each a 32-bit address and the key's
bytes, follow each other from byte `KEYBITMAP` on.

* `Encodes`: what a page that holds given entries looks like; `putEntry` and
  `closePage`, which the writers of pages share, produce it
  (`Filled.putEntry`, `Filled.closePage`) as long as the table stays below
  the data.
* `readEntry_eq`, `headerEntries_eq`: such a page reads back as its entries.
-/
namespace FlashDriver.Lsmtree

open List Option
open Core.Bytes

abbrev Page := Buffer

/-- An entry as a page stores it. -/
abbrev Ent := Keyset UInt32

/-! ## Reading -/

def slotAt (p : Page) (i : Nat) : Nat := leNat (slice p (2 * i) 2)

/-- `bitmap[i]` -/
def slot (p : Page) (i : Nat) : Option Nat := (load pageSize p (2 * i) 2).map leNat

/-- `bitmap[i+1]-bitmap[i]-sizeof(ppa_t)`, stored into the `uint8_t` length of a key. -/
def keyLen (o o' : Nat) : Nat := (((o' : Int) - o - 4) % 256).toNat

/-- The body of `for_each_header_start` (level_target/array/array.h:10-14). -/
def readEntry (p : Page) (i : Nat) : Option Ent := do
  let o ← slot p i
  let o' ← slot p (i + 1)
  let ppa ← load pageSize p o 4
  let key ← load pageSize p (o + 4) (keyLen o o')
  some ⟨UInt32.ofNat (leNat ppa), key⟩

/-- mirrors array.h:10-14: the loop from index `i` on, of
a page whose slot 0 is `n`; at most `n` rounds are made. -/
def headerFrom (p : Page) (n : Nat) : Nat → Nat → Option (List Ent)
  | 0, _ => some []
  | k + 1, i => do
    let o ← slot p i
    if o = 0xffff ∨ i > n then some []
    else do
      let e ← readEntry p i
      let es ← headerFrom p n k (i + 1)
      some (e :: es)

def headerEntries (p : Page) : Option (List Ent) := do
  let n ← slot p 0
  headerFrom p n n 1

/-! ## Writing -/

/-- `bitmap[i]=v` -/
def setSlot (p : Page) (i v : Nat) : Option Page := store pageSize p (2 * i) (toLe 2 v)

/-- An entry written at `off` and its offset at slot `i`. -/
def putEntry (p : Page) (i off : Nat) (e : Ent) : Option Page := do
  let p ← store pageSize p off (toLe 4 e.ppa.toNat)
  let p ← store pageSize p (off + 4) e.key
  setSlot p i off

/-- The number of entries and the end of the last one. -/
def closePage (p : Page) (n off : Nat) : Option Page := do
  let p ← setSlot p 0 n
  setSlot p (n + 1) off

/-! ## Pages that hold entries -/

def entBytes (e : Ent) : List UInt8 := toLe 4 e.ppa.toNat ++ e.key

/-- The offset of entry `i`, and of the end for `i` the number of entries. -/
def offsetOf (es : List Ent) (i : Nat) : Nat := keyBitmap + dataSize (es.take i)

/-- The limits within which a page is readable: the table ends below `KEYBITMAP`, the data
below `PAGESIZE`, and a key length fits its byte. -/
structure FitsPage (es : List Ent) : Prop where
  slots : 2 * (es.length + 2) ≤ keyBitmap
  bytes : keyBitmap + dataSize es ≤ pageSize
  len : ∀ e ∈ es, e.key.length < 256

/-- The entries `es` were written and the page is still open. -/
structure Filled (p : Page) (es : List Ent) : Prop where
  offs : ∀ i, i < es.length → slotAt p (i + 1) = offsetOf es i
  data : slice p keyBitmap (dataSize es) = es.flatMap entBytes

structure Encodes (p : Page) (es : List Ent) : Prop where
  count : slotAt p 0 = es.length
  offs : ∀ i, i ≤ es.length → slotAt p (i + 1) = offsetOf es i
  data : slice p keyBitmap (dataSize es) = es.flatMap entBytes

/-! ## Sizes -/

@[simp] theorem length_entBytes (e : Ent) : (entBytes e).length = keylen e.key := by
  simp [entBytes, keylen, add_comm]

@[simp] theorem dataSize_nil : dataSize ([] : List Ent) = 0 := rfl

@[simp] theorem dataSize_cons (e : Ent) (es : List Ent) :
    dataSize (e :: es) = keylen e.key + dataSize es := by
  simp [dataSize]

@[simp] theorem dataSize_append (es fs : List Ent) :
    dataSize (es ++ fs) = dataSize es + dataSize fs := by
  simp [dataSize]

theorem length_flatMap_entBytes (es : List Ent) : (es.flatMap entBytes).length = dataSize es := by
  induction es with
  | nil => rfl
  | cons e es ih => simp [ih]

theorem offsetOf_length (es : List Ent) : offsetOf es es.length = keyBitmap + dataSize es := by
  simp [offsetOf]

theorem offsetOf_le (es : List Ent) (i : Nat) : offsetOf es i ≤ keyBitmap + dataSize es := by
  have h := dataSize_append (es.take i) (es.drop i)
  rw [take_append_drop] at h
  unfold offsetOf
  omega

theorem offsetOf_succ {es : List Ent} {i : Nat} (h : i < es.length) :
    offsetOf es (i + 1) = offsetOf es i + keylen (es[i]).key := by
  unfold offsetOf
  rw [take_succ_eq_append_getElem h, dataSize_append]
  simp [add_assoc]

theorem offsetOf_append {es fs : List Ent} {i : Nat} (h : i ≤ es.length) :
    offsetOf (es ++ fs) i = offsetOf es i := by
  unfold offsetOf
  rw [take_append_of_le_length h]

/-! ## Slots -/

theorem slot_eq {p : Page} {i : Nat} (h : 2 * i + 2 ≤ pageSize) : slot p i = some (slotAt p i) := by
  rw [slot, load_eq h]
  rfl

theorem slotAt_setSlot {p p' : Page} {i v : Nat} (hv : v < 2 ^ 16) (h : setSlot p i v = some p') :
    slotAt p' i = v := by
  rw [setSlot, store] at h
  split at h
  · cases h
    have : slice (write p (2 * i) (toLe 2 v)) (2 * i) 2 = toLe 2 v := by
      have hs := slice_write_self p (2 * i) (toLe 2 v)
      rwa [length_toLe] at hs
    rw [slotAt, this, leNat_toLe]
    omega
  · cases h

theorem setSlot_eq {p : Page} {i v : Nat} (h : 2 * i + 2 ≤ pageSize) :
    setSlot p i v = some (write p (2 * i) (toLe 2 v)) := by
  rw [setSlot, store_eq]
  simpa using h

theorem slotAt_write {p : Page} {i o : Nat} {bs : List UInt8}
    (h : 2 * i + 2 ≤ o ∨ o + bs.length ≤ 2 * i) : slotAt (write p o bs) i = slotAt p i := by
  rw [slotAt, slice_write_disjoint h]
  rfl

/-! ## Writers -/

theorem Filled.nil (p : Page) : Filled p [] := ⟨fun i hi => by simp at hi, by simp [slice]⟩

theorem putEntry_eq {p : Page} {i off : Nat} {e : Ent} (hi : 2 * i + 2 ≤ pageSize)
    (ho : off + keylen e.key ≤ pageSize) :
    putEntry p i off e = some (write (write (write p off (toLe 4 e.ppa.toNat)) (off + 4) e.key)
      (2 * i) (toLe 2 off)) := by
  unfold keylen at ho
  rw [putEntry, store_eq (by rw [length_toLe]; omega), bind_eq_bind, bind_some,
    store_eq (by omega), bind_some, setSlot_eq hi]

theorem Filled.putEntry {p : Page} {es : List Ent} (F : Filled p es) {e : Ent}
    (h : FitsPage (es ++ [e])) :
    ∃ p', Lsmtree.putEntry p (es.length + 1) (keyBitmap + dataSize es) e = some p' ∧
      Filled p' (es ++ [e]) ∧ slotAt p' 0 = slotAt p 0 := by
  have hs := h.slots
  have hb := h.bytes
  simp only [length_append, length_cons, length_nil, dataSize_append, dataSize_cons,
    dataSize_nil, keyBitmap, pageSize] at hs hb
  refine ⟨_, putEntry_eq (by simp only [pageSize]; omega)
    (by simp only [keyBitmap, pageSize]; omega), ⟨fun i hi => ?_, ?_⟩, ?_⟩
  · simp only [length_append, length_cons, length_nil] at hi
    by_cases hie : i = es.length
    · subst hie
      have hlt : keyBitmap + dataSize es < 2 ^ 16 := by simp only [keyBitmap]; omega
      rw [slotAt_setSlot hlt (setSlot_eq (by simp only [pageSize]; omega)),
        offsetOf_append (le_rfl), offsetOf_length]
    · have hlt : i < es.length := by omega
      rw [slotAt_write (by rw [length_toLe]; omega), slotAt_write (by simp only [keyBitmap]; omega),
        slotAt_write (by simp only [keyBitmap]; omega), F.offs i hlt, offsetOf_append (by omega)]
  · rw [slice_write_disjoint (by rw [length_toLe]; simp only [keyBitmap]; omega), dataSize_append,
      slice_add, flatMap_append]
    congr 1
    · rw [slice_write_disjoint (by omega), slice_write_disjoint (by omega), F.data]
    · have hk : dataSize [e] = 4 + e.key.length := by simp [keylen, add_comm]
      rw [hk, slice_add, slice_write_self, slice_write_disjoint (by omega)]
      have h4 := slice_write_self p (keyBitmap + dataSize es) (toLe 4 e.ppa.toNat)
      rw [length_toLe] at h4
      rw [h4]
      simp [entBytes]
  · rw [slotAt_write (by omega), slotAt_write (by simp only [keyBitmap]; omega),
      slotAt_write (by simp only [keyBitmap]; omega)]

theorem Filled.setCount {p p' : Page} {es : List Ent} (F : Filled p es) {n : Nat}
    (h : setSlot p 0 n = some p') : Filled p' es := by
  rw [setSlot_eq (by simp [pageSize])] at h
  cases h
  refine ⟨fun i hi => ?_, ?_⟩
  · rw [slotAt_write (by rw [length_toLe]; omega), F.offs i hi]
  · rw [slice_write_disjoint (by rw [length_toLe]; simp only [keyBitmap]; omega), F.data]

theorem Filled.terminate {p : Page} {es : List Ent} (F : Filled p es) (h : FitsPage es)
    (h0 : slotAt p 0 = es.length) :
    ∃ p', setSlot p (es.length + 1) (keyBitmap + dataSize es) = some p' ∧ Encodes p' es := by
  have hs := h.slots
  have hb := h.bytes
  simp only [keyBitmap, pageSize] at hs hb
  have hset := setSlot_eq (p := p) (i := es.length + 1) (v := keyBitmap + dataSize es)
    (by simp only [pageSize]; omega)
  refine ⟨_, hset, ⟨?_, fun i hi => ?_, ?_⟩⟩
  · rw [slotAt_write (by omega), h0]
  · by_cases hie : i = es.length
    · subst hie
      rw [slotAt_setSlot (by simp only [keyBitmap]; omega) hset, offsetOf_length]
    · rw [slotAt_write (by rw [length_toLe]; omega)]
      exact F.offs i (by omega)
  · rw [slice_write_disjoint (by rw [length_toLe]; simp only [keyBitmap]; omega)]
    exact F.data

theorem Filled.closePage {p : Page} {es : List Ent} (F : Filled p es) (h : FitsPage es) :
    ∃ p', Lsmtree.closePage p es.length (keyBitmap + dataSize es) = some p' ∧ Encodes p' es := by
  have hs := h.slots
  simp only [keyBitmap] at hs
  have h0 := setSlot_eq (p := p) (i := 0) (v := es.length) (by simp [pageSize])
  obtain ⟨p', hp, E⟩ := (F.setCount h0).terminate h (slotAt_setSlot (by omega) h0)
  exact ⟨p', by rw [Lsmtree.closePage, h0]; exact hp, E⟩

/-! ## Readers -/

theorem Encodes.entry {p : Page} {es : List Ent} (E : Encodes p es) {i : Nat} (hi : i < es.length) :
    slice p (offsetOf es i) (keylen (es[i]).key) = entBytes es[i] := by
  have hsplit : es.flatMap entBytes =
      (es.take i).flatMap entBytes ++ (entBytes es[i] ++ (es.drop (i + 1)).flatMap entBytes) := by
    rw [← flatMap_cons, ← drop_eq_getElem_cons hi, ← flatMap_append, take_append_drop]
  have h := slice_mid (E.data.trans hsplit)
  rwa [length_flatMap_entBytes, length_entBytes] at h

theorem keyLen_eq {o o' n : Nat} (h : o' = o + (n + 4)) (hn : n < 256) : keyLen o o' = n := by
  unfold keyLen
  omega

theorem readEntry_eq {p : Page} {es : List Ent} (E : Encodes p es) (h : FitsPage es) {i : Nat}
    (hi : i < es.length) : readEntry p (i + 1) = some es[i] := by
  have hs := h.slots
  have hb := h.bytes
  have hl := h.len es[i] (getElem_mem hi)
  have hoff := offsetOf_succ hi
  have hle := offsetOf_le es (i + 1)
  simp only [keyBitmap, pageSize] at hs hb hle
  have hk : keylen (es[i]).key = 4 + (es[i]).key.length := by simp [keylen, add_comm]
  have hent := E.entry hi
  rw [hk, slice_add, entBytes] at hent
  obtain ⟨hppa, hkey⟩ := append_inj hent (by simp)
  rw [readEntry, slot_eq (by simp only [pageSize]; omega), slot_eq (by simp only [pageSize]; omega),
    E.offs i (by omega), E.offs (i + 1) (by omega), hoff]
  simp only [bind_eq_bind, bind_some]
  rw [keyLen_eq (n := (es[i]).key.length) (by omega) (by omega), load_eq (by simp only [pageSize]; omega),
    load_eq (by simp only [pageSize]; omega), hppa, hkey]
  simp only [bind_some, leNat_toLe]
  have : UInt32.ofNat ((es[i]).ppa.toNat % 256 ^ 4) = (es[i]).ppa := by
    have hlt := (es[i]).ppa.toNat_lt
    rw [Nat.mod_eq_of_lt (by omega)]
    exact UInt32.ofNat_toNat
  rw [this]

theorem headerFrom_eq {p : Page} {es : List Ent} (E : Encodes p es) (h : FitsPage es) {k i : Nat}
    (hk : i + k = es.length) : headerFrom p es.length k (i + 1) = some (es.drop i) := by
  have hs := h.slots
  have hb := h.bytes
  simp only [keyBitmap, pageSize] at hs hb
  induction k generalizing i with
  | zero => rw [headerFrom, drop_of_length_le (by omega)]
  | succ k ih =>
    have hi : i < es.length := by omega
    have hle := offsetOf_le es i
    simp only [keyBitmap] at hle
    rw [headerFrom, slot_eq (by simp only [pageSize]; omega), E.offs i (by omega)]
    simp only [bind_eq_bind, bind_some]
    rw [if_neg (by omega), readEntry_eq E h hi, bind_some, ih (by omega), drop_eq_getElem_cons hi]
    rfl

theorem headerEntries_eq {p : Page} {es : List Ent} (E : Encodes p es) (h : FitsPage es) :
    headerEntries p = some es := by
  rw [headerEntries, slot_eq (by simp [pageSize]), E.count]
  exact headerFrom_eq E h (by omega)

end FlashDriver.Lsmtree
