import FlashDriver.Lsmtree.Key

/-!
# The hash table of keys (`include/data_struct/hash_kv.c`)

A table of `5 * m_size` nodes for at most `m_size` keys. A key is looked for
at ten places, each the hash of the one before. A node is free when it has no
data; a search goes on behind a free node, but an insertion takes the first
free node it meets, without looking for the key behind it. An insertion that
meets ten nodes of other keys counts a key that it does not store.

The hash of a key is a parameter. The contents are kept as a list of entries,
each with the index that the insertion of its key returned and those that the
updates since have returned. The first is the node; the others are off the
table, since an update adds `table_size`.

Left out: the memory of the keys, and sizes that do not fit an `int`.

* `Rep`: the nodes with data are those of the entries, one for each key, each
  among the ten places of its key.
* `findNode_spec`: then a search finds exactly the entries.
* `insert_rep_iff`: an insertion keeps this exactly when `Open` holds before.
* `hash_table`: the table is a finite map along every run whose insertions
  meet `Open` and that deletes by no index of an update.
* `hole_before_key`, `updated_index`: what goes wrong otherwise.
-/
namespace FlashDriver.DataStruct.HashKv

open List Option Function
open Lsmtree (Key keycmp keycmp_eq_iff)

variable {δ ι : Type}

/-! ## The functions -/

/-- mirrors include/data_struct/hash_kv.h:4 -/
def multifactor : Nat := 5

/-- mirrors include/data_struct/hash_kv.h:7-13 (`t_idx` is the index of the node) -/
structure Node (δ ι : Type) where
  interPtr : Option ι
  data : Option δ
  key : UInt32
  kvKey : Key

/-- mirrors include/data_struct/hash_kv.h:15-20 -/
structure Hash (δ ι : Type) where
  table : Nat → Node δ ι
  nSize : Int
  mSize : Nat

def Hash.tableSize (h : Hash δ ι) : Nat := h.mSize * multifactor

/-- mirrors include/data_struct/hash_kv.c:6-14 -/
def function (a : UInt32) : UInt32 :=
  let a := (a + 0x7ed55d16) + (a <<< (12 : UInt32))
  let a := (a ^^^ 0xc761c23c) ^^^ (a >>> (19 : UInt32))
  let a := (a + 0x165667b1) + (a <<< (5 : UInt32))
  let a := (a + 0xd3a2646c) ^^^ (a <<< (9 : UInt32))
  let a := (a + 0xfd7046c5) + (a <<< (3 : UInt32))
  (a ^^^ 0xb55a4f09) ^^^ (a >>> (16 : UInt32))

/-- mirrors include/data_struct/hash_kv.c:16-31 -/
def hashInit (size : Nat) : Hash δ ι := ⟨fun _ => ⟨none, none, 0, []⟩, 0, size⟩

/-- `node->key==org_key && KEYCMP(node->kv_key,kv_key)==0` -/
def Node.isFor (n : Node δ ι) (org : UInt32) (kvKey : Key) : Bool :=
  n.key = org ∧ keycmp n.kvKey kvKey = .eq

/-- `h_key%(h->m_size*MULTIFACTOR)` -/
def Hash.place (h : Hash δ ι) (hKey : UInt32) : Nat := hKey.toNat % h.tableSize

def Hash.setNode (h : Hash δ ι) (i : Nat) (n : Node δ ι) : Hash δ ι :=
  { h with table := update h.table i n }

/-- What `__hash_insert` leaves, returns and stores in `*updated`. -/
structure Inserted (δ ι : Type) where
  hash : Hash δ ι
  ret : Nat
  updated : Option δ

section
variable (hashing : Key → UInt32)

/-- mirrors include/data_struct/hash_kv.c:65-94, with the rounds that are left -/
def insertLoop (h : Hash δ ι) (kvKey : Key) (org : UInt32) (data : Option δ)
    (interPtr : Option ι) : Nat → UInt32 → Nat → Inserted δ ι
  | 0, _, res => ⟨{ h with nSize := h.nSize + 1 }, res, none⟩
  | rounds + 1, key, _ =>
    let hKey := function key
    let res := h.place hKey
    let node := h.table res
    match node.data with
    | some old =>
      if node.isFor org kvKey then
        ⟨h.setNode res { node with data, key := org, interPtr }, h.tableSize + res, some old⟩
      else insertLoop h kvKey org data interPtr rounds hKey res
    | none =>
      ⟨{ h.setNode res ⟨interPtr, data, org, kvKey⟩ with nSize := h.nSize + 1 }, res, none⟩

/-- mirrors include/data_struct/hash_kv.c:59-95 -/
def hashInsert (h : Hash δ ι) (kvKey : Key) (data : Option δ) (interPtr : Option ι) :
    Inserted δ ι :=
  if h.nSize = h.mSize then ⟨h, 0, none⟩
  else insertLoop h kvKey (hashing kvKey) data interPtr (2 * multifactor) (hashing kvKey) 0

/-- mirrors include/data_struct/hash_kv.c:128-141, with the rounds that are left -/
def findLoop (h : Hash δ ι) (kvKey : Key) (org : UInt32) : Nat → UInt32 → Option Nat
  | 0, _ => none
  | rounds + 1, key =>
    let hKey := function key
    let node := h.table (h.place hKey)
    if node.data.isNone then findLoop h kvKey org rounds hKey
    else if node.isFor org kvKey then some (h.place hKey)
    else findLoop h kvKey org rounds hKey

/-- mirrors include/data_struct/hash_kv.c:123-142; a table without nodes has no remainder -/
def hashFindNode (h : Hash δ ι) (kvKey : Key) : Option (Option Nat) :=
  if h.mSize = 0 then none
  else some (findLoop h kvKey (hashing kvKey) (2 * multifactor) (hashing kvKey))

/-- mirrors include/data_struct/hash_kv.c:116-121 -/
def hashFindData (h : Hash δ ι) (kvKey : Key) : Option (Option δ) := do
  let node ← hashFindNode hashing h kvKey
  some (node.bind fun i => (h.table i).data)

/-- mirrors include/data_struct/hash_kv.c:99-103 and 108-113 -/
def Hash.clear (h : Hash δ ι) (i : Nat) : Hash δ ι × Option ι :=
  ({ h.setNode i { h.table i with interPtr := none, data := none, key := 0 } with
      nSize := h.nSize - 1 }, (h.table i).interPtr)

/-- mirrors include/data_struct/hash_kv.c:97-104; a key that is not found is a null pointer -/
def hashDeleteByKey (h : Hash δ ι) (key : Key) : Option (Hash δ ι × Option ι) := do
  let node ← hashFindNode hashing h key
  let i ← node
  some (h.clear i)

end

/-- mirrors include/data_struct/hash_kv.c:106-114 -/
def hashDeleteByIdx (h : Hash δ ι) (idx : Nat) : Option (Hash δ ι × Option ι) :=
  if idx < h.tableSize then some (h.clear idx) else none

/-! ## The contents -/

/-- A key with its data, the index that its insertion returned, and those that updates have
returned since. -/
structure Entry (δ : Type) where
  key : Key
  data : δ
  idx : Nat
  later : List Nat

/-- The place that round `i` looks at. -/
def Hash.slot (h : Hash δ ι) (org : UInt32) (i : Nat) : Nat := h.place (function^[i + 1] org)

/-- The node holds the key. -/
def Hash.HasAt (h : Hash δ ι) (k : Key) (i : Nat) : Prop :=
  (h.table i).data ≠ none ∧ (h.table i).kvKey = k

/-- The node holds another key. -/
def Hash.OtherAt (h : Hash δ ι) (k : Key) (i : Nat) : Prop :=
  (h.table i).data ≠ none ∧ (h.table i).kvKey ≠ k

structure Rep (hashing : Key → UInt32) (h : Hash δ ι) (m : List (Entry δ)) : Prop where
  pos : 0 < h.mSize
  entry : ∀ e ∈ m, e.idx < h.tableSize ∧ (h.table e.idx).data = some e.data ∧
    (h.table e.idx).kvKey = e.key ∧ (h.table e.idx).key = hashing e.key ∧
    ∃ j, j < 2 * multifactor ∧ h.slot (hashing e.key) j = e.idx
  later : ∀ e ∈ m, ∀ r ∈ e.later, r = h.tableSize + e.idx
  node : ∀ i, i < h.tableSize → (h.table i).data ≠ none → ∃ e ∈ m, e.idx = i
  keys : (m.map Entry.key).Nodup
  count : h.nSize = m.length
  capacity : m.length ≤ h.mSize

/-- The first of the key's ten places that is free or holds the key: it holds it, or no node
does. -/
def Open (hashing : Key → UInt32) (h : Hash δ ι) (k : Key) : Prop :=
  ∃ j, j < 2 * multifactor ∧ (∀ i, i < j → h.OtherAt k (h.slot (hashing k) i)) ∧
    (h.HasAt k (h.slot (hashing k) j) ∨
      (h.table (h.slot (hashing k) j)).data = none ∧ ∀ i, i < h.tableSize → ¬ h.HasAt k i)

/-- The entries of other keys. -/
def without (k : Key) (m : List (Entry δ)) : List (Entry δ) := m.filter fun e => e.key ≠ k

section
variable {hashing : Key → UInt32} {h : Hash δ ι} {m : List (Entry δ)} {k : Key} {d : δ} {i j : Nat}

theorem mem_without {e : Entry δ} : e ∈ without k m ↔ e ∈ m ∧ e.key ≠ k := by
  simp [without]

theorem without_keys (hm : (m.map Entry.key).Nodup) : ((without k m).map Entry.key).Nodup :=
  hm.sublist (filter_sublist.map _)

theorem without_absent (hk : ∀ e ∈ m, e.key ≠ k) : without k m = m :=
  filter_eq_self.mpr (by simpa using hk)

theorem length_without (hm : (m.map Entry.key).Nodup) {e : Entry δ} (he : e ∈ m) :
    (without e.key m).length + 1 = m.length := by
  obtain ⟨us, vs, rfl⟩ := append_of_mem he
  rw [map_append, map_cons, nodup_middle, nodup_cons, ← map_append] at hm
  have hne : ∀ e' ∈ us ++ vs, e'.key ≠ e.key := fun e' h' heq =>
    hm.1 (mem_map.mpr ⟨e', h', heq⟩)
  have hu : without e.key us = us := without_absent fun e' h' => hne e' (mem_append_left _ h')
  have hv : without e.key vs = vs := without_absent fun e' h' => hne e' (mem_append_right _ h')
  have : without e.key (us ++ e :: vs) = us ++ vs := by
    rw [without, filter_append, filter_cons_of_neg (by simp)]
    exact congrArg₂ _ hu hv
  rw [this]
  simp
  omega

/-! ## Searching -/

theorem place_lt (hp : 0 < h.mSize) (hKey : UInt32) : h.place hKey < h.tableSize :=
  Nat.mod_lt _ (Nat.mul_pos hp (by decide))

theorem slot_eq (org : UInt32) (i : Nat) :
    h.slot org i = h.place (function (function^[i] org)) := by
  rw [Hash.slot, iterate_succ_apply']

theorem Rep.entry_at (R : Rep hashing h m) (hi : i < h.tableSize) (hd : (h.table i).data ≠ none) :
    ∃ e ∈ m, e.idx = i ∧ (h.table i).data = some e.data ∧ (h.table i).kvKey = e.key ∧
      (h.table i).key = hashing e.key := by
  obtain ⟨e, he, rfl⟩ := R.node i hi hd
  obtain ⟨-, h1, h2, h3, -⟩ := R.entry e he
  exact ⟨e, he, rfl, h1, h2, h3⟩

theorem Rep.entry_inj (R : Rep hashing h m) {e e' : Entry δ} (he : e ∈ m) (he' : e' ∈ m)
    (hk : e.key = e'.key) : e = e' :=
  inj_on_of_nodup_map R.keys he he' hk

theorem Rep.once (R : Rep hashing h m) (hi : i < h.tableSize) (hj : j < h.tableSize)
    (hd : (h.table i).data ≠ none) (hd' : (h.table j).data ≠ none)
    (hk : (h.table i).kvKey = (h.table j).kvKey) : i = j := by
  obtain ⟨e, he, rfl, -, h1, -⟩ := R.entry_at hi hd
  obtain ⟨e', he', rfl, -, h2, -⟩ := R.entry_at hj hd'
  rw [R.entry_inj he he' (by rw [← h1, ← h2, hk])]

theorem Rep.hasAt_iff (R : Rep hashing h m) (hi : i < h.tableSize) :
    h.HasAt k i ↔ ∃ e ∈ m, e.key = k ∧ e.idx = i := by
  constructor
  · intro hk
    obtain ⟨e, he, hei, -, h2, -⟩ := R.entry_at hi hk.1
    exact ⟨e, he, by rw [← h2, hk.2], hei⟩
  · intro hk
    obtain ⟨e, he, rfl, rfl⟩ := hk
    obtain ⟨-, h1, h2, -, -⟩ := R.entry e he
    exact ⟨by rw [h1]; simp, h2⟩

theorem Rep.isFor_iff (R : Rep hashing h m) (hi : i < h.tableSize) (hd : (h.table i).data ≠ none) :
    (h.table i).isFor (hashing k) k = true ↔ (h.table i).kvKey = k := by
  obtain ⟨e, -, -, -, h2, h3⟩ := R.entry_at hi hd
  rw [Node.isFor, decide_eq_true_eq, keycmp_eq_iff]
  constructor
  · exact fun hk => hk.2
  · intro hk
    refine ⟨?_, hk⟩
    rw [h3, ← h2, hk]

/-- What the rounds `i`, ..., `i + n - 1` of a search come to. -/
def Sought (hashing : Key → UInt32) (h : Hash δ ι) (k : Key) (i n : Nat) (r : Option Nat) : Prop :=
  (∃ p, r = some p ∧ p < h.tableSize ∧ h.HasAt k p) ∨
  (r = none ∧ ∀ j, i ≤ j → j < i + n → ¬ h.HasAt k (h.slot (hashing k) j))

theorem Sought.pass {n : Nat} {r : Option Nat} (hs : Sought hashing h k (i + 1) n r)
    (hno : ¬ h.HasAt k (h.slot (hashing k) i)) : Sought hashing h k i (n + 1) r := by
  refine hs.imp id fun hr => ⟨hr.1, fun j h1 h2 => ?_⟩
  rcases Nat.eq_or_lt_of_le h1 with rfl | h1
  · exact hno
  · exact hr.2 j h1 (by omega)

theorem findLoop_spec (R : Rep hashing h m) (n i : Nat) :
    Sought hashing h k i n (findLoop h k (hashing k) n (function^[i] (hashing k))) := by
  induction n generalizing i with
  | zero => exact .inr ⟨rfl, fun j h1 h2 => by omega⟩
  | succ n ih =>
    have hlt := place_lt R.pos (function (function^[i] (hashing k)))
    have ih := ih (i + 1)
    rw [iterate_succ_apply'] at ih
    rw [findLoop]
    have hslot := slot_eq (h := h) (hashing k) i
    rw [← hslot] at hlt ⊢
    by_cases hd : (h.table (h.slot (hashing k) i)).data = none
    · rw [hd]
      exact ih.pass fun hk => hk.1 hd
    · have hsome : (h.table (h.slot (hashing k) i)).data.isNone = false := by
        rwa [isNone_eq_false_iff, isSome_iff_ne_none]
      have hfor := R.isFor_iff (k := k) hlt hd
      by_cases hk : (h.table (h.slot (hashing k) i)).kvKey = k
      · simp only [hsome, hfor.mpr hk, Bool.false_eq_true, if_false, if_true]
        exact .inl ⟨_, rfl, hlt, hd, hk⟩
      · simp only [hsome, Bool.eq_false_iff.mpr (mt hfor.mp hk), Bool.false_eq_true, if_false]
        exact ih.pass fun h' => hk h'.2

theorem findNode_spec (R : Rep hashing h m) (k : Key) :
    ∃ r, hashFindNode hashing h k = some r ∧ ∀ i, r = some i ↔ i < h.tableSize ∧ h.HasAt k i := by
  have hpos : h.mSize ≠ 0 := R.pos.ne'
  refine ⟨_, if_neg hpos, fun i => ?_⟩
  rcases findLoop_spec (k := k) R (2 * multifactor) 0 with ⟨p, hp, hlt, hk⟩ | ⟨hn, hall⟩
  · rw [show findLoop h k (hashing k) (2 * multifactor) (hashing k) = some p from hp, some.injEq]
    constructor
    · rintro rfl
      exact ⟨hlt, hk⟩
    · exact fun hi => R.once hlt hi.1 hk.1 hi.2.1 (hk.2.trans hi.2.2.symm)
  · rw [show findLoop h k (hashing k) (2 * multifactor) (hashing k) = none from hn]
    refine ⟨fun h' => (by cases h'), fun hi => ?_⟩
    -- a node that holds the key is one of its ten places
    obtain ⟨e, he, rfl, rfl⟩ := (R.hasAt_iff hi.1).mp hi.2
    obtain ⟨-, -, -, -, j, hj, hs⟩ := R.entry e he
    exact absurd (hs ▸ hi.2) (hall j (Nat.zero_le j) (by omega))

theorem findData_spec (R : Rep hashing h m) (k : Key) :
    ∃ r, hashFindData hashing h k = some r ∧ ∀ d, r = some d ↔ ∃ e ∈ m, e.key = k ∧ e.data = d := by
  obtain ⟨r, hr, hi⟩ := findNode_spec R k
  refine ⟨_, by rw [hashFindData, hr]; rfl, fun d => ?_⟩
  cases r with
  | none =>
    refine ⟨fun h' => (by cases h'), fun he => ?_⟩
    obtain ⟨e, he, hk, -⟩ := he
    have hlt := (R.entry e he).1
    have := (hi e.idx).mpr ⟨hlt, (R.hasAt_iff hlt).mpr ⟨e, he, hk, rfl⟩⟩
    cases this
  | some i =>
    obtain ⟨hlt, hk⟩ := (hi i).mp rfl
    obtain ⟨e, he, hek, rfl⟩ := (R.hasAt_iff hlt).mp hk
    have hdata := (R.entry e he).2.1
    simp only [bind_some, hdata, some.injEq]
    constructor
    · exact fun hd => ⟨e, he, hek, hd⟩
    · intro hd
      obtain ⟨e', he', hk', rfl⟩ := hd
      rw [R.entry_inj he he' (hek.trans hk'.symm)]

/-! ## Inserting -/

variable (data : Option δ) (ip : Option ι)

theorem insertLoop_pass (R : Rep hashing h m) {n : Nat} (hj : j ≤ n)
    (ho : ∀ i, i < j → h.OtherAt k (h.slot (hashing k) i)) :
    ∃ res, insertLoop h k (hashing k) data ip n (hashing k) 0 =
      insertLoop h k (hashing k) data ip (n - j) (function^[j] (hashing k)) res := by
  induction j with
  | zero => exact ⟨0, rfl⟩
  | succ j ih =>
    obtain ⟨res, hres⟩ := ih (by omega) fun i hi => ho i (by omega)
    have hother := ho j (Nat.lt_succ_self j)
    have hlt := place_lt R.pos (function (function^[j] (hashing k)))
    rw [slot_eq] at hother
    refine ⟨h.place (function (function^[j] (hashing k))), ?_⟩
    obtain ⟨old, hold⟩ := ne_none_iff_exists'.mp hother.1
    have hfor : (h.table (h.place (function (function^[j] (hashing k))))).isFor (hashing k) k =
        false := by
      rw [Bool.eq_false_iff, Ne, R.isFor_iff hlt hother.1]
      exact hother.2
    rw [hres, show n - j = (n - (j + 1)) + 1 by omega, insertLoop, iterate_succ_apply']
    simp only [hold, hfor, Bool.false_eq_true, if_false]

theorem insertLoop_hit (R : Rep hashing h m) (hj : j < 2 * multifactor)
    (ho : ∀ i, i < j → h.OtherAt k (h.slot (hashing k) i))
    (hk : h.HasAt k (h.slot (hashing k) j)) :
    ∃ old, insertLoop h k (hashing k) data ip (2 * multifactor) (hashing k) 0 =
      ⟨h.setNode (h.slot (hashing k) j)
          { h.table (h.slot (hashing k) j) with data, key := hashing k, interPtr := ip },
        h.tableSize + h.slot (hashing k) j, some old⟩ := by
  obtain ⟨res, hres⟩ := insertLoop_pass data ip R hj.le ho
  have hlt := place_lt R.pos (function (function^[j] (hashing k)))
  rw [slot_eq] at hk ⊢
  obtain ⟨old, hold⟩ := ne_none_iff_exists'.mp hk.1
  have hfor := (R.isFor_iff hlt hk.1).mpr hk.2
  refine ⟨old, ?_⟩
  rw [hres, show 2 * multifactor - j = (2 * multifactor - (j + 1)) + 1 by omega, insertLoop]
  simp only [hold, hfor, if_true]

theorem insertLoop_free (R : Rep hashing h m) (hj : j < 2 * multifactor)
    (ho : ∀ i, i < j → h.OtherAt k (h.slot (hashing k) i))
    (hf : (h.table (h.slot (hashing k) j)).data = none) :
    insertLoop h k (hashing k) data ip (2 * multifactor) (hashing k) 0 =
      ⟨{ h.setNode (h.slot (hashing k) j) ⟨ip, data, hashing k, k⟩ with nSize := h.nSize + 1 },
        h.slot (hashing k) j, none⟩ := by
  obtain ⟨res, hres⟩ := insertLoop_pass data ip R hj.le ho
  rw [slot_eq] at hf ⊢
  rw [hres, show 2 * multifactor - j = (2 * multifactor - (j + 1)) + 1 by omega, insertLoop]
  simp only [hf]

theorem insertLoop_end (R : Rep hashing h m)
    (ho : ∀ i, i < 2 * multifactor → h.OtherAt k (h.slot (hashing k) i)) :
    ∃ res, insertLoop h k (hashing k) data ip (2 * multifactor) (hashing k) 0 =
      ⟨{ h with nSize := h.nSize + 1 }, res, none⟩ := by
  obtain ⟨res, hres⟩ := insertLoop_pass data ip R (le_rfl) ho
  refine ⟨res, ?_⟩
  rw [hres, tsub_self, insertLoop]

theorem Rep.write {h' : Hash δ ι} {p : Nat} {n : Node δ ι} {later : List Nat} (R : Rep hashing h m)
    (ht : h'.table = update h.table p n) (hm : h'.mSize = h.mSize)
    (hp : p < h.tableSize) (hj : ∃ j, j < 2 * multifactor ∧ h.slot (hashing k) j = p)
    (hn : n.data = some d ∧ n.kvKey = k ∧ n.key = hashing k)
    (hfree : (h.table p).data = none ∨ (h.table p).kvKey = k)
    (hall : ∀ i, i < h.tableSize → h.HasAt k i → i = p)
    (hc : h'.nSize = (without k m).length + 1) (hcap : (without k m).length + 1 ≤ h.mSize)
    (hl : ∀ r ∈ later, r = h.tableSize + p) :
    Rep hashing h' (⟨k, d, p, later⟩ :: without k m) := by
  have hts : h'.tableSize = h.tableSize := by rw [Hash.tableSize, Hash.tableSize, hm]
  have hslot : ∀ org i, h'.slot org i = h.slot org i := fun org i => by
    rw [Hash.slot, Hash.slot, Hash.place, Hash.place, hts]
  have hother : ∀ e ∈ without k m, e.idx ≠ p := by
    intro e he hep
    obtain ⟨he, hne⟩ := mem_without.mp he
    obtain ⟨-, h1, h2, -, -⟩ := R.entry e he
    rw [hep] at h1 h2
    rcases hfree with hf | hf
    · rw [hf] at h1
      cases h1
    · exact hne (h2.symm.trans hf)
  refine ⟨hm ▸ R.pos, fun e he => ?_, fun e he => ?_, fun i hi hd => ?_, ?_, ?_, ?_⟩
  · rw [hts]
    rcases mem_cons.mp he with rfl | he
    · obtain ⟨j, hj, hs⟩ := hj
      simp only [ht, update_self]
      exact ⟨hp, hn.1, hn.2.1, hn.2.2, j, hj, (hslot _ _).trans hs⟩
    · obtain ⟨h1, h2, h3, h4, j, hj, hs⟩ := R.entry e (mem_without.mp he).1
      rw [ht, update_of_ne (hother e he)]
      exact ⟨h1, h2, h3, h4, j, hj, (hslot _ _).trans hs⟩
  · rw [hts]
    rcases mem_cons.mp he with rfl | he
    · exact hl
    · exact R.later e (mem_without.mp he).1
  · rw [hts] at hi
    by_cases hip : i = p
    · exact ⟨_, (.head _), hip.symm⟩
    · rw [ht, update_of_ne hip] at hd
      obtain ⟨e, he, hei⟩ := R.node i hi hd
      refine ⟨e, .tail _ (mem_without.mpr ⟨he, fun hek => hip ?_⟩), hei⟩
      exact hall i hi ((R.hasAt_iff hi).mpr ⟨e, he, hek, hei⟩)
  · rw [map_cons, nodup_cons]
    refine ⟨fun hk => ?_, without_keys R.keys⟩
    obtain ⟨e, he, hek⟩ := mem_map.mp hk
    exact (mem_without.mp he).2 hek
  · rw [hc, length_cons]
    rfl
  · rw [hm, length_cons]
    exact hcap

/-- An insertion that is not refused, with the index it returned. -/
def grown (hashing : Key → UInt32) (h : Hash δ ι) (m : List (Entry δ)) (k : Key) (d : δ)
    (ip : Option ι) : List (Entry δ) :=
  let ret := (hashInsert hashing h k (some d) ip).ret
  match m.find? fun e => e.key = k with
  | some e => ⟨k, d, e.idx, ret :: e.later⟩ :: without k m
  | none => ⟨k, d, ret, []⟩ :: without k m

theorem grown_head (hashing : Key → UInt32) (h : Hash δ ι) (m : List (Entry δ)) (k : Key) (d : δ)
    (ip : Option ι) : ∃ e ∈ grown hashing h m k d ip, e.key = k := by
  unfold grown
  dsimp only
  split
  · exact ⟨_, (.head _), rfl⟩
  · exact ⟨_, (.head _), rfl⟩

theorem Rep.find_eq (R : Rep hashing h m) {e : Entry δ} (he : e ∈ m) :
    (m.find? fun e' => e'.key = e.key) = some e := by
  obtain ⟨e', hf⟩ := isSome_iff_exists.mp
    (find?_isSome (p := fun e' => e'.key = e.key).mpr ⟨e, he, decide_eq_true rfl⟩)
  have hk : e'.key = e.key := by simpa using find?_some hf
  rw [hf, R.entry_inj (mem_of_find?_eq_some hf) he hk]

theorem insert_rep (R : Rep hashing h m) (hn : h.nSize ≠ h.mSize) (ho : Open hashing h k)
    (d : δ) (ip : Option ι) :
    Rep hashing (hashInsert hashing h k (some d) ip).hash (grown hashing h m k d ip) := by
  obtain ⟨j, hj, hpass, hat⟩ := ho
  have hp : h.slot (hashing k) j < h.tableSize := place_lt R.pos _
  have hlt : m.length < h.mSize := by
    refine lt_of_le_of_ne R.capacity fun he => hn ?_
    rw [R.count, he]
  rw [grown, hashInsert, if_neg hn]
  rcases hat with hk | ⟨hf, habs⟩
  · obtain ⟨old, heq⟩ := insertLoop_hit (some d) ip R hj hpass hk
    obtain ⟨e, he, rfl, hidx⟩ := (R.hasAt_iff hp).mp hk
    have hlen := length_without R.keys he
    rw [heq, R.find_eq he]
    dsimp only
    rw [hidx]
    refine R.write rfl rfl hp ⟨j, hj, rfl⟩ ⟨rfl, hk.2, rfl⟩ (.inr hk.2) (fun i hi hi' => ?_) ?_ ?_
      fun r hr => ?_
    · exact R.once hi hp hi'.1 hk.1 (hi'.2.trans hk.2.symm)
    · change h.nSize = _
      rw [R.count, ← hlen]
      rfl
    · omega
    · rcases mem_cons.mp hr with rfl | hr
      · rfl
      · rw [R.later e he r hr, hidx]
  · have heq := insertLoop_free (some d) ip R hj hpass hf
    have hne : ∀ e ∈ m, e.key ≠ k := by
      intro e he hek
      have hlt := (R.entry e he).1
      exact habs e.idx hlt ((R.hasAt_iff hlt).mpr ⟨e, he, hek, rfl⟩)
    have hw : without k m = m := without_absent hne
    rw [heq, find?_eq_none.mpr fun e he => by simpa using hne e he]
    refine R.write rfl rfl hp ⟨j, hj, rfl⟩ ⟨rfl, rfl, rfl⟩ (.inl hf)
      (fun i hi hi' => absurd hi' (habs i hi)) ?_ ?_ fun r hr => ?_
    · rw [hw]
      change h.nSize + 1 = _
      rw [R.count]
    · rw [hw]
      exact hlt
    · cases hr

theorem open_of_insert_rep (R : Rep hashing h m) (hn : h.nSize ≠ h.mSize) {d : δ} {ip : Option ι}
    (R' : Rep hashing (hashInsert hashing h k (some d) ip).hash (grown hashing h m k d ip)) :
    Open hashing h k := by
  by_cases hall : ∀ i, i < 2 * multifactor → h.OtherAt k (h.slot (hashing k) i)
  · -- the table is as before, so the new entry is no node's
    obtain ⟨res, heq⟩ := insertLoop_end (some d) ip R hall
    obtain ⟨e, he, rfl⟩ := grown_head hashing h m k d ip
    obtain ⟨h1, h2, h3, h4, j, hj, hs⟩ := R'.entry e he
    rw [hashInsert, if_neg hn, heq] at h2 h3 hs
    have hoth := hall j hj
    have hs : h.slot (hashing e.key) j = _ := hs
    rw [hs] at hoth
    exact absurd h3 hoth.2
  · have hall : ∃ i, i < 2 * multifactor ∧ ¬ h.OtherAt k (h.slot (hashing k) i) := by
      simpa using hall
    obtain ⟨j, ⟨hj, hno⟩, hmin⟩ := WellFounded.has_min (wellFounded_lt (α := Nat))
      {i | i < 2 * multifactor ∧ ¬ h.OtherAt k (h.slot (hashing k) i)} hall
    have hpass : ∀ i, i < j → h.OtherAt k (h.slot (hashing k) i) := by
      intro i hi
      by_contra hc
      exact hmin i ⟨by omega, hc⟩ hi
    have hp : h.slot (hashing k) j < h.tableSize := place_lt R.pos _
    by_cases hd : (h.table (h.slot (hashing k) j)).data = none
    · refine ⟨j, hj, hpass, .inr ⟨hd, fun i hi hk => ?_⟩⟩
      have heq := insertLoop_free (some d) ip R hj hpass hd
      have hne : i ≠ h.slot (hashing k) j := by
        rintro rfl
        exact hk.1 hd
      rw [hashInsert, if_neg hn, heq] at R'
      have htable : ∀ i', i' ≠ h.slot (hashing k) j →
          update h.table (h.slot (hashing k) j) ⟨ip, some d, hashing k, k⟩ i' =
            h.table i' := fun i' hi' => update_of_ne hi' ..
      -- the node that held the key and the one that was taken
      refine hne (R'.once hi hp ?_ ?_ ?_)
      · change (update h.table _ _ i).data ≠ none
        rw [htable i hne]
        exact hk.1
      · change (update h.table _ _ _).data ≠ none
        rw [update_self]
        simp
      · change (update h.table _ _ i).kvKey = (update h.table _ _ _).kvKey
        rw [htable i hne, update_self]
        exact hk.2
    · refine ⟨j, hj, hpass, .inl ⟨hd, ?_⟩⟩
      by_contra hne
      exact hno ⟨hd, hne⟩

theorem insert_rep_iff (R : Rep hashing h m) (hn : h.nSize ≠ h.mSize) (d : δ) (ip : Option ι) :
    Rep hashing (hashInsert hashing h k (some d) ip).hash (grown hashing h m k d ip) ↔
      Open hashing h k :=
  ⟨open_of_insert_rep R hn, fun ho => insert_rep R hn ho d ip⟩

/-! ## Deleting -/

theorem clear_rep (R : Rep hashing h m) {e : Entry δ} (he : e ∈ m) :
    Rep hashing (h.clear e.idx).1 (without e.key m) := by
  have hlen := length_without R.keys he
  have hcap := R.capacity
  have hidx : ∀ e' ∈ without e.key m, e'.idx ≠ e.idx := by
    intro e' he' hi
    obtain ⟨he', hne⟩ := mem_without.mp he'
    have h1 := (R.entry e he).2.2.1
    have h2 := (R.entry e' he').2.2.1
    rw [hi] at h2
    exact hne (h2.symm.trans h1)
  refine ⟨R.pos, fun e' he' => ?_, fun e' he' => R.later e' (mem_without.mp he').1,
    fun i hi hd => ?_, without_keys R.keys, ?_, ?_⟩
  · obtain ⟨h1, h2, h3, h4, j, hj, hs⟩ := R.entry e' (mem_without.mp he').1
    have ht : (h.clear e.idx).1.table e'.idx = h.table e'.idx := update_of_ne (hidx e' he') ..
    rw [ht]
    exact ⟨h1, h2, h3, h4, j, hj, hs⟩
  · have hne : i ≠ e.idx := by
      rintro rfl
      apply hd
      change (update h.table e.idx _ e.idx).data = none
      rw [update_self]
    have ht : (h.clear e.idx).1.table i = h.table i := update_of_ne hne ..
    rw [ht] at hd
    obtain ⟨e', he', hei⟩ := R.node i hi hd
    refine ⟨e', mem_without.mpr ⟨he', fun hk => hne ?_⟩, hei⟩
    rw [← hei, R.entry_inj he' he hk]
  · change h.nSize - 1 = _
    rw [R.count, ← hlen]
    push_cast
    omega
  · exact le_trans (by omega) hcap

end

/-! ## Runs -/

inductive Op (δ ι : Type)
  | insert (kvKey : Key) (data : Option δ) (interPtr : Option ι)
  | find (kvKey : Key)
  | deleteByKey (key : Key)
  | deleteByIdx (idx : Nat)

section
variable (hashing : Key → UInt32)

/-- The table after a call. -/
def step (h : Hash δ ι) : Op δ ι → Option (Hash δ ι)
  | .insert k data ip => some (hashInsert hashing h k data ip).hash
  | .find k => (hashFindData hashing h k).map fun _ => h
  | .deleteByKey k => (hashDeleteByKey hashing h k).map Prod.fst
  | .deleteByIdx i => (hashDeleteByIdx h i).map Prod.fst

/-- What a finite map that holds at most `m_size` keys has after the call. -/
def track (h : Hash δ ι) (m : List (Entry δ)) : Op δ ι → List (Entry δ)
  | .insert k (some d) ip => if m.length = h.mSize then m else grown hashing h m k d ip
  | .insert _ none _ => m
  | .find _ => m
  | .deleteByKey k => without k m
  | .deleteByIdx i => m.filter fun e => e.idx ≠ i ∧ i ∉ e.later

def run (h : Hash δ ι) (m : List (Entry δ)) : List (Op δ ι) → Option (Hash δ ι × List (Entry δ))
  | [] => some (h, m)
  | op :: ops => do
    let h' ← step hashing h op
    run h' (track hashing h m op) ops

/-- A call of the run: an insertion is refused, or stores data where `Open` lets it; what is
deleted is there, and an index is not one that an update returned. -/
def Allowed (h : Hash δ ι) (m : List (Entry δ)) : Op δ ι → Prop
  | .insert k data _ => m.length = h.mSize ∨ data ≠ none ∧ Open hashing h k
  | .find _ => True
  | .deleteByKey k => ∃ e ∈ m, e.key = k
  | .deleteByIdx i => ∃ e ∈ m, e.idx = i

/-- Every call is allowed in the state in which it is made. -/
def AllowedRun (h : Hash δ ι) (m : List (Entry δ)) : List (Op δ ι) → Prop
  | [] => True
  | op :: ops => Allowed hashing h m op ∧
    ∀ h' ∈ step hashing h op, AllowedRun h' (track hashing h m op) ops

instance (h : Hash δ ι) (k : Key) : Decidable (Open hashing h k) := by
  unfold Open Hash.OtherAt Hash.HasAt
  infer_instance

instance (h : Hash δ ι) (m : List (Entry δ)) : (op : Op δ ι) → Decidable (Allowed hashing h m op)
  | .insert _ _ _ => inferInstanceAs (Decidable (_ ∨ _))
  | .find _ => inferInstanceAs (Decidable True)
  | .deleteByKey _ | .deleteByIdx _ => inferInstanceAs (Decidable (∃ e ∈ m, _))

instance AllowedRun.decidable :
    (h : Hash δ ι) → (m : List (Entry δ)) → (ops : List (Op δ ι)) → Decidable (AllowedRun hashing h m ops)
  | _, _, [] => inferInstanceAs (Decidable True)
  | h, m, op :: ops =>
    have (h' : Hash δ ι) := AllowedRun.decidable h' (track hashing h m op) ops
    inferInstanceAs (Decidable (_ ∧ _))

end

section
variable {hashing : Key → UInt32} {h : Hash δ ι} {m : List (Entry δ)} {op : Op δ ι}

theorem init_rep {size : Nat} (hs : 0 < size) :
    Rep hashing (hashInit size : Hash δ ι) ([] : List (Entry δ)) where
  pos := hs
  entry := by simp
  later := by simp
  node := by simp [hashInit]
  keys := nodup_nil
  count := rfl
  capacity := Nat.zero_le _

theorem Rep.full_iff (R : Rep hashing h m) : h.nSize = h.mSize ↔ m.length = h.mSize := by
  rw [R.count, Int.ofNat_inj]

theorem filter_idx (R : Rep hashing h m) {e : Entry δ} (he : e ∈ m) :
    m.filter (fun e' => e'.idx ≠ e.idx ∧ e.idx ∉ e'.later) = without e.key m := by
  rw [without]
  refine filter_congr fun e' he' => ?_
  rw [decide_eq_decide]
  constructor
  · intro hi hk
    exact hi.1 (by rw [R.entry_inj he' he hk])
  · refine fun hk => ⟨fun hi => hk ?_, fun hl => ?_⟩
    · rw [← (R.entry e he).2.2.1, ← (R.entry e' he').2.2.1, hi]
    · have := R.later e' he' _ hl
      have := (R.entry e he).1
      omega

theorem step_rep (R : Rep hashing h m) (ha : Allowed hashing h m op) :
    ∃ h', step hashing h op = some h' ∧ Rep hashing h' (track hashing h m op) := by
  cases op with
  | insert k data ip =>
    refine ⟨_, rfl, ?_⟩
    rcases ha with hfull | ⟨hd, ho⟩
    · rw [hashInsert, if_pos (R.full_iff.mpr hfull)]
      cases data with
      | none => exact R
      | some d => rwa [track, if_pos hfull]
    · obtain ⟨d, rfl⟩ := ne_none_iff_exists'.mp hd
      by_cases hfull : m.length = h.mSize
      · rw [hashInsert, if_pos (R.full_iff.mpr hfull), track, if_pos hfull]
        exact R
      · rw [track, if_neg hfull]
        exact insert_rep R (mt R.full_iff.mp hfull) ho d ip
  | find k =>
    obtain ⟨r, hr, -⟩ := findData_spec R k
    exact ⟨h, by rw [step, hr]; rfl, R⟩
  | deleteByKey k =>
    obtain ⟨e, he, rfl⟩ := ha
    obtain ⟨r, hr, hi⟩ := findNode_spec R e.key
    have hlt := (R.entry e he).1
    have hre := (hi e.idx).mpr ⟨hlt, (R.hasAt_iff hlt).mpr ⟨e, he, rfl, rfl⟩⟩
    refine ⟨(h.clear e.idx).1, ?_, clear_rep R he⟩
    rw [step, hashDeleteByKey, hr, hre]
    rfl
  | deleteByIdx i =>
    obtain ⟨e, he, rfl⟩ := ha
    refine ⟨(h.clear e.idx).1, ?_, ?_⟩
    · rw [step, hashDeleteByIdx, if_pos (R.entry e he).1]
      rfl
    · rw [track, filter_idx R he]
      exact clear_rep R he

theorem run_rep (R : Rep hashing h m) {ops : List (Op δ ι)} (ha : AllowedRun hashing h m ops) :
    ∃ h' m', run hashing h m ops = some (h', m') ∧ Rep hashing h' m' := by
  induction ops generalizing h m with
  | nil => exact ⟨h, m, rfl, R⟩
  | cons op ops ih =>
    obtain ⟨h₁, h1, R1⟩ := step_rep R ha.1
    obtain ⟨h', m', hr, R'⟩ := ih R1 (ha.2 h₁ h1)
    refine ⟨h', m', ?_, R'⟩
    rw [run, h1]
    exact hr

end

/-- Along every run whose insertions meet `Open` and that deletes by no index of an update the
table is a finite map of at most `m_size` keys; an insertion that is made next, and is not refused,
keeps it one exactly when it meets `Open`; and an index that an update returned is off the table. -/
theorem hash_table (hashing : Key → UInt32) (size : Nat) (hs : 0 < size) (ops : List (Op δ ι))
    (ha : AllowedRun hashing (hashInit size) [] ops) :
    ∃ h m, run hashing (hashInit size) [] ops = some (h, m) ∧
      (m.map Entry.key).Nodup ∧ h.nSize = m.length ∧ m.length ≤ h.mSize ∧
      (∀ k, ∃ r, hashFindData hashing h k = some r ∧
        ∀ d, r = some d ↔ ∃ e ∈ m, e.key = k ∧ e.data = d) ∧
      (∀ i j, i < h.tableSize → j < h.tableSize → (h.table i).data ≠ none →
        (h.table j).data ≠ none → (h.table i).kvKey = (h.table j).kvKey → i = j) ∧
      (∀ k data ip, m.length = h.mSize → hashInsert hashing h k data ip = ⟨h, 0, none⟩) ∧
      (∀ k d ip, m.length ≠ h.mSize →
        (Rep hashing (hashInsert hashing h k (some d) ip).hash (grown hashing h m k d ip) ↔
          Open hashing h k)) ∧
      ∀ e ∈ m, ∀ i ∈ e.later, hashDeleteByIdx h i = none := by
  obtain ⟨h, m, hr, R⟩ := run_rep (init_rep hs) ha
  refine ⟨h, m, hr, R.keys, R.count, R.capacity, findData_spec R,
    fun i j hi hj hd hd' hk => R.once hi hj hd hd' hk, fun k data ip hfull => ?_,
    fun k d ip hfull => insert_rep_iff R (mt R.full_iff.mp hfull) d ip, fun e he i hi => ?_⟩
  · rw [hashInsert, if_pos (R.full_iff.mpr hfull)]
  · rw [R.later e he i hi, hashDeleteByIdx, if_neg (by omega)]

/-- Three keys of one hash: the second goes to the next place and is updated, the first is
deleted by its index, and the third takes the hole. -/
theorem hash_table_three :
    ∃ (h : Hash Nat Unit) (m : List (Entry Nat)), run (fun _ => 0) (hashInit 3) []
        [.insert [97] (some 1) none, .insert [98] (some 2) none, .insert [98] (some 3) none,
          .deleteByIdx 6, .insert [99] (some 4) none] = some (h, m) ∧
      h.nSize = 2 ∧ hashFindData (fun _ => 0) h [98] = some (some 3) ∧ m.length = 2 ∧
      (m.map Entry.key).Nodup ∧ h.nSize = m.length ∧
      ∀ e ∈ m, ∀ i ∈ e.later, hashDeleteByIdx h i = none := by
  obtain ⟨h, m, hr, hk, hc, -, -, -, -, -, hl⟩ := hash_table (δ := Nat) (ι := Unit) (fun _ => 0) 3
    (by decide) [.insert [97] (some 1) none, .insert [98] (some 2) none,
      .insert [98] (some 3) none, .deleteByIdx 6, .insert [99] (some 4) none] (by decide +kernel)
  have hrun := hr
  cases hr
  exact ⟨_, _, hrun, by decide, by decide, by decide, hk, hc, hl⟩

/-- A key that is inserted again after the key before it was deleted is stored twice. -/
theorem hole_before_key : ∃ (h : Hash Nat Unit) (m : List (Entry Nat)),
    run (fun _ => 0) (hashInit 2) [] [.insert [97] (some 1) none, .insert [98] (some 2) none,
        .deleteByKey [97], .insert [98] (some 3) none] = some (h, m) ∧
      ((h.table 1).kvKey = [98] ∧ (h.table 1).data = some 3) ∧
      ((h.table 5).kvKey = [98] ∧ (h.table 5).data = some 2) ∧
      h.nSize = 2 ∧ m.length = 1 :=
  ⟨_, _, rfl, by decide, by decide, by decide, by decide⟩

theorem updated_index : (hashInsert (fun _ => 0) (hashInsert (fun _ => 0)
      (hashInit 2 : Hash Nat Unit) [97] (some 1) none).hash [97] (some 2) none).ret = 11 ∧
    run (fun _ => 0) (hashInit 2 : Hash Nat Unit) [] [.insert [97] (some 1) none,
      .insert [97] (some 2) none, .deleteByIdx 11] = none :=
  ⟨by decide, rfl⟩

end FlashDriver.DataStruct.HashKv
