import FlashDriver.Lsmtree.Key

/-!
# The keys of an application's requests (`interface/interface.c`)

`inf_make_req_apps` rounds the length of the key up to a multiple of 16 and
takes the four bytes of a `uint32_t` off it; `inf_make_range_query_apps`
leaves the length as it is. `inf_get_req_instance` then copies that many bytes
from the application's memory, whether they belong to the key or not.

* `appLen_lt_iff`: keys whose length is 13, 14, 15 or 0 modulo 16 are cut.
* `copied_take`, `copied_prefix`: what the copy has of the key.
* `app_keys_preserved`: the two functions give the same key exactly for
  lengths that are 12 modulo 16; a range query from a stored key can meet that
  key exactly if it was not cut; and which lengths keep different keys apart.
-/
namespace FlashDriver.Interface

open List
open Lsmtree (Key keycmp keycmp_eq_compare keycmp_gt_iff)

/-! ## Model -/

/-- A `KEYT`: the memory its pointer leads to, and the length. -/
structure KeyRef where
  key : Nat → UInt8
  len : Nat

/-- The bytes `memcpy` takes from it. -/
def KeyRef.copied (t : KeyRef) : Key := (range t.len).map t.key

/-- What an application passes: the bytes of its key and, behind them, the rest
of its memory. `key_len` is a `uint8_t`. -/
structure UserKey where
  bytes : Key
  behind : Nat → UInt8
  pos : 0 < bytes.length
  lt : bytes.length < 256

def UserKey.memory (u : UserKey) (i : Nat) : UInt8 :=
  u.bytes[i]?.getD (u.behind (i - u.bytes.length))

/-- The types `inf_get_req_instance` tells apart here, mirrors include/types.h:4-19 -/
inductive FsType where
  | set | get | delete | rangeGet | other
  deriving DecidableEq, Repr

/-- `value` is what a SET writes, `pages` the number of page buffers for what is
read. -/
structure AppReq where
  type : FsType
  key : Key
  num : Nat
  value : List UInt8
  pages : Nat

/-- mirrors interface/interface.c:420-477 (`inf_get_req_instance`) -/
def infGetReqInstance (type : FsType) (key : KeyRef) (value : List UInt8) (len : Nat) : AppReq where
  type := type
  key := key.copied
  num := len
  value :=
    match type with
    | .set => UInt8.ofNat key.len :: key.copied ++ value.take len
    | _ => []
  pages :=
    match type with
    | .get => 1
    | .rangeGet => len
    | _ => 0

/-- mirrors interface/interface.c:744; `sizeof` makes the difference a `size_t`,
the field is a `uint8_t` -/
def appLen (keyLen : Nat) : Nat :=
  (keyLen / 16 * 16 + (if keyLen % 16 ≠ 0 then 16 else 0) + (2 ^ 64 - 4)) % 2 ^ 64 % 2 ^ 8

/-- mirrors interface/interface.c:741-758 (`inf_make_req_apps`) -/
def infMakeReqApps (type : FsType) (u : UserKey) (value : List UInt8) (len : Nat) : AppReq :=
  infGetReqInstance type ⟨u.memory, appLen u.bytes.length⟩ value len

/-- mirrors interface/interface.c:759-777 (`inf_make_range_query_apps`) -/
def infMakeRangeQueryApps (type : FsType) (u : UserKey) (length : Nat) : AppReq :=
  infGetReqInstance type ⟨u.memory, u.bytes.length⟩ [] length

/-! ## Lengths -/

variable {u : UserKey} {m n len : Nat}

theorem appLen_eq (hm : 0 < m) (hlt : m < 256) : appLen m = (m + 15) / 16 * 16 - 4 := by
  unfold appLen
  split <;> omega

theorem appLen_lt_iff (hm : 0 < m) (hlt : m < 256) : appLen m < m ↔ m % 16 = 0 ∨ 12 < m % 16 := by
  rw [appLen_eq hm hlt]
  omega

theorem appLen_eq_self_iff (hm : 0 < m) (hlt : m < 256) : appLen m = m ↔ m % 16 = 12 := by
  rw [appLen_eq hm hlt]
  omega

theorem appLen_eq_iff (hm : 0 < m) (hlt : m < 256) (hn : 0 < n) (hnlt : n < 256) :
    appLen m = appLen n ↔ (m + 15) / 16 = (n + 15) / 16 := by
  rw [appLen_eq hm hlt, appLen_eq hn hnlt]
  omega

/-! ## Copies -/

@[simp] theorem copied_length (t : KeyRef) : t.copied.length = t.len := by
  simp [KeyRef.copied]

theorem copied_take (h : len ≤ u.bytes.length) :
    (KeyRef.mk u.memory len).copied = u.bytes.take len := by
  apply ext_getElem
  · simp [h]
  · intro i hi _
    have hlt : i < u.bytes.length := lt_of_lt_of_le (by simpa using hi) h
    simp [KeyRef.copied, UserKey.memory, hlt]

theorem copied_prefix (h : u.bytes.length ≤ len) :
    (KeyRef.mk u.memory len).copied.take u.bytes.length = u.bytes := by
  apply ext_getElem
  · simp [h]
  · intro i _ hi
    simp [KeyRef.copied, UserKey.memory, hi]

theorem copied_self : (KeyRef.mk u.memory u.bytes.length).copied = u.bytes := by
  rw [copied_take (le_rfl), take_length]

@[simp] theorem infMakeRangeQueryApps_key {type : FsType} :
    (infMakeRangeQueryApps type u len).key = u.bytes := copied_self

/-! ## Keys -/

/-- The key of a request, whatever its type and value. -/
def UserKey.stored (u : UserKey) : Key := (KeyRef.mk u.memory (appLen u.bytes.length)).copied

@[simp] theorem infMakeReqApps_key {type : FsType} {value : List UInt8} :
    (infMakeReqApps type u value len).key = u.stored := by
  simp only [infMakeReqApps, infGetReqInstance, UserKey.stored]

@[simp] theorem stored_length : u.stored.length = appLen u.bytes.length := copied_length _

theorem stored_eq_iff : u.stored = u.bytes ↔ u.bytes.length % 16 = 12 := by
  rw [← appLen_eq_self_iff u.pos u.lt]
  constructor
  · intro h
    rw [← stored_length, h]
  · intro h
    unfold UserKey.stored
    rw [h, copied_self]

theorem compare_take (l : Key) (k : Nat) : compare (l.take k) l ≠ .gt := by
  induction l generalizing k with
  | nil => simp
  | cons x xs ih =>
    cases k with
    | zero => simp
    | succ k =>
      rw [List.take_succ_cons, List.compare_cons_cons]
      simpa using ih k

theorem bytes_le_stored_iff :
    keycmp u.bytes u.stored ≠ .gt ↔ 0 < u.bytes.length % 16 ∧ u.bytes.length % 16 ≤ 12 := by
  have hcut := appLen_lt_iff u.pos u.lt
  rw [keycmp_eq_compare]
  by_cases h : appLen u.bytes.length < u.bytes.length
  · -- a cut key is a proper prefix
    have hs : u.stored = u.bytes.take (appLen u.bytes.length) := copied_take (le_of_lt h)
    have hne : compare u.stored u.bytes ≠ .eq := by
      intro he
      have := congrArg length (Std.LawfulEqCmp.compare_eq_iff_eq.mp he)
      rw [stored_length] at this
      omega
    have hle : compare u.stored u.bytes ≠ .gt := by
      rw [hs]
      exact compare_take _ _
    have hlt : compare u.stored u.bytes = .lt := by
      cases hc : compare u.stored u.bytes with
      | lt => rfl
      | eq => exact absurd hc hne
      | gt => exact absurd hc hle
    have hgt : compare u.bytes u.stored = .gt := by
      rw [← keycmp_eq_compare, keycmp_gt_iff, keycmp_eq_compare]
      exact hlt
    simp only [hgt, ne_eq, not_true_eq_false, false_iff]
    omega
  · have hle := compare_take u.stored u.bytes.length
    rw [UserKey.stored, copied_prefix (le_of_not_gt h)] at hle
    constructor
    · intro _
      omega
    · intro _
      exact hle

/-! ## Collisions -/

/-- A key of `k + 1` bytes, all `0` but the last, in memory that is `0`. -/
def UserKey.zeros (k : Fin 255) (last : UInt8) : UserKey where
  bytes := replicate k 0 ++ [last]
  behind := fun _ => 0
  pos := by simp
  lt := by
    simp only [length_append, length_replicate, length_singleton]
    exact Nat.succ_lt_succ k.isLt

@[simp] theorem zeros_length {k : Fin 255} {last : UInt8} :
    (UserKey.zeros k last).bytes.length = k + 1 := by
  simp [UserKey.zeros]

theorem zeros_memory {k : Fin 255} {last : UInt8} {i : Nat} (h : i < k ∨ last = 0) :
    (UserKey.zeros k last).memory i = 0 := by
  simp only [UserKey.memory, UserKey.zeros, getElem?_append, length_replicate]
  split
  · rw [getElem?_replicate_of_lt ‹_›]
    rfl
  · have hlast : last = 0 := h.resolve_left ‹_›
    subst hlast
    cases hi : i - k.val with
    | zero => rfl
    | succ j => rfl

theorem zeros_copied {k : Fin 255} {last : UInt8} (h : len ≤ k ∨ last = 0) :
    (KeyRef.mk (UserKey.zeros k last).memory len).copied = replicate len 0 := by
  apply ext_getElem
  · simp
  · intro i hi _
    have hik : i < len := by simpa using hi
    simp only [KeyRef.copied, getElem_map, getElem_range, getElem_replicate]
    apply zeros_memory
    rcases h with h | h
    · exact .inl (lt_of_lt_of_le hik h)
    · exact .inr h

theorem zeros_stored {k : Fin 255} {last : UInt8} (h : appLen (k + 1) ≤ k ∨ last = 0) :
    (UserKey.zeros k last).stored = replicate (appLen (k + 1)) 0 := by
  unfold UserKey.stored
  rw [zeros_length, zeros_copied h]

theorem stored_injective_iff (hm : 0 < m) (hmlt : m < 256) (hn : 0 < n) (hnlt : n < 256) :
    (∀ a b : UserKey, a.bytes.length = m → b.bytes.length = n → a.stored = b.stored →
      a.bytes = b.bytes) ↔
    (m + 15) / 16 ≠ (n + 15) / 16 ∨ (m = n ∧ 0 < m % 16 ∧ m % 16 ≤ 12) := by
  have hcut := appLen_lt_iff hm hmlt
  constructor
  · intro hinj
    by_contra hcon
    obtain ⟨hclass, hsame⟩ := not_or.mp hcon
    have hlen := (appLen_eq_iff hm hmlt hn hnlt).mpr (Decidable.not_not.mp hclass)
    obtain ⟨k, rfl⟩ : ∃ k : Fin 255, k.val + 1 = m := ⟨⟨m - 1, by omega⟩, by simp; omega⟩
    obtain ⟨l, rfl⟩ : ∃ l : Fin 255, l.val + 1 = n := ⟨⟨n - 1, by omega⟩, by simp; omega⟩
    by_cases hkl : k = l
    · -- both are cut before their last byte
      subst hkl
      have hle : appLen (k + 1) ≤ k := Nat.le_of_lt_succ (hcut.mpr (by omega))
      have hb := hinj (.zeros k 0) (.zeros k 1) zeros_length zeros_length (by
        rw [zeros_stored (.inl hle), zeros_stored (.inl hle)])
      simp [UserKey.zeros] at hb
    · -- the shorter one is continued by the memory behind it
      have hb := hinj (.zeros k 0) (.zeros l 0) zeros_length zeros_length (by
        rw [zeros_stored (.inr rfl), zeros_stored (.inr rfl), hlen])
      have := congrArg length hb
      rw [zeros_length, zeros_length] at this
      exact hkl (Fin.ext (Nat.succ_injective this))
  · intro hor a b ha hb he
    have hlen := congrArg length he
    rw [stored_length, stored_length, ha, hb, appLen_eq_iff hm hmlt hn hnlt] at hlen
    rcases hor with hne | ⟨rfl, hpos, hle⟩
    · exact absurd hlen hne
    · have hall : m ≤ appLen m := le_of_not_gt (by rw [hcut]; omega)
      calc a.bytes = a.stored.take m := by
            rw [← ha, UserKey.stored, copied_prefix (by rw [ha]; exact hall)]
        _ = b.stored.take m := by rw [he]
        _ = b.bytes := by rw [← hb, UserKey.stored, copied_prefix (by rw [hb]; exact hall)]

/-- For two keys, what their requests (`infMakeReqApps`) and range queries
carry. -/
theorem app_keys_preserved (a b : UserKey) (ta tb tr : FsType) (va vb : List UInt8)
    (la lb lr : Nat) :
    ((((infMakeReqApps ta a va la).key = (infMakeReqApps tb b vb lb).key → a.bytes = b.bytes) ∧
        (infMakeReqApps ta a va la).key = (infMakeRangeQueryApps tr a lr).key ∧
        (infMakeReqApps tb b vb lb).key = (infMakeRangeQueryApps tr b lr).key) ↔
      a.bytes.length % 16 = 12 ∧ b.bytes.length % 16 = 12) ∧
    (keycmp (infMakeRangeQueryApps tr a lr).key (infMakeReqApps ta a va la).key ≠ .gt ↔
      0 < a.bytes.length % 16 ∧ a.bytes.length % 16 ≤ 12) ∧
    ((∀ a' b' : UserKey, a'.bytes.length = a.bytes.length → b'.bytes.length = b.bytes.length →
        (infMakeReqApps ta a' va la).key = (infMakeReqApps tb b' vb lb).key →
        a'.bytes = b'.bytes) ↔
      (a.bytes.length + 15) / 16 ≠ (b.bytes.length + 15) / 16 ∨
        (a.bytes.length = b.bytes.length ∧ 0 < a.bytes.length % 16 ∧
          a.bytes.length % 16 ≤ 12)) := by
  simp only [infMakeReqApps_key, infMakeRangeQueryApps_key]
  refine ⟨?_, bytes_le_stored_iff, stored_injective_iff a.pos a.lt b.pos b.lt⟩
  rw [stored_eq_iff, stored_eq_iff]
  constructor
  · rintro ⟨-, h⟩
    exact h
  · rintro ⟨ha, hb⟩
    refine ⟨fun he => ?_, ha, hb⟩
    rw [← stored_eq_iff.mpr ha, he, stored_eq_iff.mpr hb]

/-- Two keys of 13 bytes that differ in the last one are stored under the same key,
which is before both of them. -/
theorem last_byte_cut :
    (infMakeReqApps .set (.zeros 12 1) [] 0).key = (infMakeReqApps .set (.zeros 12 2) [] 0).key ∧
    (UserKey.zeros 12 1).bytes ≠ (UserKey.zeros 12 2).bytes ∧
    keycmp (infMakeRangeQueryApps .rangeGet (.zeros 12 1) 1).key
      (infMakeReqApps .set (.zeros 12 1) [] 0).key = .gt := by
  decide +kernel

end FlashDriver.Interface
