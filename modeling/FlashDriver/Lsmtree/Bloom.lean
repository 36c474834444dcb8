import FlashDriver.Lsmtree.Key

/-!
# The Bloom filter (`algorithm/Lsmtree/bloomfilter.c`)

`bf_set` and `bf_check` hash a key once with MurmurHash3 and derive `k` bit
positions below `m` from the hash; the bits are those of a `char` array,
written by `BITSET` and read by `BITGET`.

* `bits_set`: `bf_set` adds exactly the probes of its key to the set of bits.
* `check_iff`: `bf_check` says whether all probes of the key are set bits.
* `check_set`, `check_set_mono`: so a key that was set is found, and no
  later `bf_set` hides it.
-/
namespace FlashDriver.Lsmtree

open List Function

/-! ## Hashing -/

/-- mirrors algorithm/Lsmtree/bloomfilter.c:24-27 -/
def rotl32 (x r : UInt32) : UInt32 := (x <<< r) ||| (x >>> (32 - r))

/-- mirrors algorithm/Lsmtree/bloomfilter.c:46-55 -/
def fmix32 (h : UInt32) : UInt32 :=
  let h := h ^^^ (h >>> 16)
  let h := h * 0x85ebca6b
  let h := h ^^^ (h >>> 13)
  let h := h * 0xc2b2ae35
  h ^^^ (h >>> 16)

/-- `k1 *= c1; k1 = ROTL32(k1,15); k1 *= c2` -/
def mixBlock (k : UInt32) : UInt32 := rotl32 (k * 0xcc9e2d51) 15 * 0x1b873593

/-- mirrors algorithm/Lsmtree/bloomfilter.c:67-106: the four-byte blocks, little
endian, and then the tail; `n` is the length of the whole key. -/
def murmurFrom (n : Nat) : Key → UInt32 → UInt32
  | b0 :: b1 :: b2 :: b3 :: rest, h =>
    let k := b0.toUInt32 ||| (b1.toUInt32 <<< 8) ||| (b2.toUInt32 <<< 16) ||| (b3.toUInt32 <<< 24)
    murmurFrom n rest (rotl32 (h ^^^ mixBlock k) 13 * 5 + 0xe6546b64)
  | [b0, b1, b2], h =>
    last (h ^^^ mixBlock ((b2.toUInt32 <<< 16) ^^^ (b1.toUInt32 <<< 8) ^^^ b0.toUInt32))
  | [b0, b1], h => last (h ^^^ mixBlock ((b1.toUInt32 <<< 8) ^^^ b0.toUInt32))
  | [b0], h => last (h ^^^ mixBlock b0.toUInt32)
  | [], h => last h
where
  last (h : UInt32) : UInt32 := fmix32 (h ^^^ UInt32.ofNat n)

def murmurHash3 (key : Key) (seed : UInt32) : UInt32 := murmurFrom key.length key seed

/-- mirrors algorithm/Lsmtree/bloomfilter.c:107-121 -/
def hashfunction (key : UInt32) : UInt32 :=
  let key := key ^^^ (key >>> 15)
  let key := key * 0x2c1b3c6d
  let key := key ^^^ (key >>> 12)
  let key := key * 0x297a2d39
  key ^^^ (key >>> 15)

/-! ## Bits of a `char` -/

/-- mirrors algorithm/Lsmtree/bloomfilter.c:14-18 -/
def bitset (input : Int8) (offset : Nat) : Int8 := input ||| ((1 : Int8) <<< Int8.ofNat offset)

/-- mirrors algorithm/Lsmtree/bloomfilter.c:19-23 -/
def bitget (input : Int8) (offset : Nat) : Bool := input &&& ((1 : Int8) <<< Int8.ofNat offset) != 0

theorem shift_toBitVec {o : Nat} (ho : o < 8) :
    ((1 : Int8) <<< Int8.ofNat o).toBitVec = BitVec.twoPow 8 o :=
  (by decide : ∀ o : Fin 8, ((1 : Int8) <<< Int8.ofNat o).toBitVec = BitVec.twoPow 8 o) ⟨o, ho⟩

theorem bitget_eq (b : Int8) {o : Nat} (ho : o < 8) : bitget b o = b.toBitVec.getLsbD o := by
  have hz : BitVec.twoPow 8 o ≠ 0#8 := (by decide : ∀ o : Fin 8, BitVec.twoPow 8 o ≠ 0#8) ⟨o, ho⟩
  have h : bitget b o = ((b &&& ((1 : Int8) <<< Int8.ofNat o)).toBitVec != 0#8) := by
    rw [Bool.eq_iff_iff]
    simp only [bitget, bne_iff_ne, ne_eq, ← Int8.toBitVec_inj]
    rfl
  rw [h, Int8.toBitVec_and, shift_toBitVec ho, BitVec.and_twoPow]
  cases b.toBitVec.getLsbD o <;> simp [hz]

theorem bitget_bitset (b : Int8) {o p : Nat} (ho : o < 8) (hp : p < 8) :
    bitget (bitset b o) p = (decide (p = o) || bitget b p) := by
  rw [bitget_eq _ hp, bitget_eq _ hp, bitset, Int8.toBitVec_or, shift_toBitVec ho,
    BitVec.getLsbD_or, BitVec.getLsbD_twoPow, Bool.or_comm]
  by_cases h : p = o
  · simp [h, ho]
  · simp [h, Ne.symm h]

/-! ## The filter -/

/-- What `bf_init` computes in floating point from the number of entries and the
false positive rate; `k` is `log(2)*m/n` rounded, so no bits means no probes. -/
structure BFSize where
  k : Nat
  m : Nat
  pos : 0 < k → 0 < m
  deriving DecidableEq

/-- mirrors algorithm/Lsmtree/bloomfilter.h:7-14 (`n` and `p` are only read by
reports) -/
structure BF extends BFSize where
  body : Nat → Int8

namespace BF

/-- mirrors algorithm/Lsmtree/bloomfilter.c:123-138 -/
def init (z : BFSize) : BF := ⟨z, fun _ => 0⟩

/-- The bit of probe `i`: `hashfunction(th | (i<<7)) % m`. -/
def probe (f : BF) (th : UInt32) (i : Nat) : Nat :=
  (hashfunction (th ||| (UInt32.ofNat i <<< 7))).toNat % f.m

/-- The probes that `bf_set` and `bf_check` visit, in order. -/
def probes (f : BF) (key : Key) : List Nat := (range f.k).map (f.probe (murmurHash3 key 2))

/-- `BITSET(&body[h/8], h%8)` -/
def setBit (body : Nat → Int8) (h : Nat) : Nat → Int8 :=
  update body (h / 8) (bitset (body (h / 8)) (h % 8))

/-- mirrors algorithm/Lsmtree/bloomfilter.c:167-192 (`bf_set`) -/
def set (f : BF) (key : Key) : BF := { f with body := (f.probes key).foldl setBit f.body }

/-- mirrors algorithm/Lsmtree/bloomfilter.c:194-218 (`bf_check`, not NULL) -/
def check (f : BF) (key : Key) : Bool := (f.probes key).all fun h => bitget (f.body (h / 8)) (h % 8)

/-- The set of bits that are one. -/
def bits (f : BF) : Set Nat := {h | bitget (f.body (h / 8)) (h % 8) = true}

theorem bitget_setBit (body : Nat → Int8) (h j : Nat) :
    bitget (setBit body h (j / 8)) (j % 8) = (decide (j = h) || bitget (body (j / 8)) (j % 8)) := by
  by_cases hb : j / 8 = h / 8
  · rw [setBit, hb, update_self, bitget_bitset _ (by omega) (by omega)]
    congr 1
    rw [decide_eq_decide]
    omega
  · rw [setBit, update_of_ne hb]
    have : j ≠ h := fun e => hb (by rw [e])
    simp [this]

theorem bitget_foldl (hs : List Nat) (body : Nat → Int8) (j : Nat) :
    bitget (hs.foldl setBit body (j / 8)) (j % 8) =
      (decide (j ∈ hs) || bitget (body (j / 8)) (j % 8)) := by
  induction hs generalizing body with
  | nil => simp
  | cons h hs ih =>
    rw [foldl_cons, ih, bitget_setBit, ← Bool.or_assoc]
    by_cases hj : j = h
    · simp [hj]
    · simp [hj]

theorem bits_set (f : BF) (key : Key) : (f.set key).bits = f.bits ∪ {h | h ∈ f.probes key} := by
  ext j
  simp only [bits, set, Set.mem_ofPred_eq, bitget_foldl, Bool.or_eq_true, decide_eq_true_eq,
    Set.mem_union]
  exact or_comm

theorem check_iff (f : BF) (key : Key) : f.check key = true ↔ {h | h ∈ f.probes key} ⊆ f.bits := by
  simp only [check, all_eq_true]
  rfl

@[simp] theorem probes_set (f : BF) (key k : Key) : (f.set key).probes k = f.probes k := rfl

theorem check_set (f : BF) (key : Key) : (f.set key).check key = true := by
  rw [check_iff, bits_set, probes_set]
  exact Set.subset_union_right

theorem check_set_mono (f : BF) (key : Key) {k : Key} (h : f.check k = true) :
    (f.set key).check k = true := by
  rw [check_iff] at h ⊢
  rw [bits_set, probes_set]
  exact h.trans Set.subset_union_left

end BF

/-! ## A filter pointer

A level's filter is NULL when its false positive rate is above one. -/

/-- mirrors algorithm/Lsmtree/bloomfilter.c:194-218 -/
def bfCheck (f : Option BF) (key : Key) : Bool :=
  match f with
  | none => true
  | some f => f.check key

/-- `if(filter) bf_set(filter,key)`, as every caller has it. -/
def bfSetIf (f : Option BF) (key : Key) : Option BF := f.map (·.set key)

theorem bfCheck_setIf (f : Option BF) (key : Key) : bfCheck (bfSetIf f key) key = true := by
  cases f with
  | none => rfl
  | some f => exact f.check_set key

theorem bfCheck_setIf_mono (f : Option BF) (key : Key) {k : Key} (h : bfCheck f k = true) :
    bfCheck (bfSetIf f key) k = true := by
  cases f with
  | none => rfl
  | some f => exact f.check_set_mono key h

theorem bfCheck_foldl (f : Option BF) (keys : List Key) {k : Key}
    (h : k ∈ keys ∨ bfCheck f k = true) : bfCheck (keys.foldl bfSetIf f) k = true := by
  induction keys generalizing f with
  | nil => exact h.resolve_left (by simp)
  | cons key keys ih =>
    apply ih
    rcases h with h | h
    · rcases mem_cons.mp h with rfl | h
      · exact Or.inr (bfCheck_setIf f k)
      · exact Or.inl h
    · exact Or.inr (bfCheck_setIf_mono f key h)

end FlashDriver.Lsmtree
