import FlashDriver.Core.Mixing
import FlashDriver.Lsmtree.Bloom

/-!
# The bytes of a Bloom filter (`algorithm/Lsmtree/bloomfilter.c`)

`Bloom` has the filter as a set of bits in a body without end. Here the body
is the `targetsize` bytes that `bf_init` allocated, an access outside of it
has no result, and `BITSET` and `BITGET` compute as C does, in `int`, with
the result stored back into a `char`. `bf_init` computes `targetsize` in an
`int` from the 64-bit number `m` of bits, so it is only the number of bytes
for `m` bits as long as that fits.

* `bitSet_eq`, `bitGet_eq`: the `int` operations are those on the byte.
* `murmur_surjective`, `hashfunction_surjective`: every 32-bit word is the
  hash of some key, so every bit below `m` and below `2^32` is used.
* `set_spec`, `check_spec`: on a body that is large enough the calls are
  those of `Bloom`.
* `bloom_filter`: when the filter is safe and has no false negatives.
-/
namespace FlashDriver.Lsmtree.BloomBytes

open List Option Function
open Core.Mixing

/-! ## Bits in `int` -/

/-- mirrors algorithm/Lsmtree/bloomfilter.c:14-18 -/
def bitSet (input offset : Int8) : Int8 :=
  let test : Int8 := ((1 : Int8).toInt32 <<< offset.toInt32).toInt8
  (input.toInt32 ||| test.toInt32).toInt8

/-- mirrors algorithm/Lsmtree/bloomfilter.c:19-23 -/
def bitGet (input offset : Int8) : Bool :=
  let test : Int8 := ((1 : Int8).toInt32 <<< offset.toInt32).toInt8
  input.toInt32 &&& test.toInt32 != 0

theorem test_eq {o : Nat} (ho : o < 8) :
    ((1 : Int8).toInt32 <<< (Int8.ofNat o).toInt32).toInt8 = (1 : Int8) <<< Int8.ofNat o :=
  (by decide : ∀ o : Fin 8, ((1 : Int8).toInt32 <<< (Int8.ofNat o).toInt32).toInt8 =
    (1 : Int8) <<< Int8.ofNat o) ⟨o, ho⟩

theorem bitSet_eq (b : Int8) {o : Nat} (ho : o < 8) : bitSet b (Int8.ofNat o) = bitset b o := by
  simp only [bitSet, test_eq ho, bitset]
  rw [← Int8.toInt32_or, Int8.toInt8_toInt32]

theorem bitGet_eq (b : Int8) {o : Nat} (ho : o < 8) : bitGet b (Int8.ofNat o) = bitget b o := by
  simp only [bitGet, test_eq ho, bitget]
  rw [← Int8.toInt32_and, Bool.eq_iff_iff, bne_iff_ne, bne_iff_ne]
  refine not_congr ⟨fun h => ?_, fun h => by rw [h]; rfl⟩
  rw [← Int8.toInt8_toInt32 (b &&& _), h]
  rfl

/-! ## Which hashes there are -/

theorem hashfunction_surjective : Function.Surjective hashfunction :=
  (xorShift_surjective (s := 15) rfl (by decide)).comp <|
    (mul_surjective (d := 0x0cf0b109) (by decide)).comp <|
      (xorShift_surjective (s := 12) rfl (by decide)).comp <|
        (mul_surjective (d := 0x64ea2d65) (by decide)).comp <|
          xorShift_surjective (s := 15) rfl (by decide)

theorem fmix32_surjective : Function.Surjective fmix32 :=
  (xorShift_surjective (s := 16) rfl (by decide)).comp <|
    (mul_surjective (d := 0x7ed1b41d) (by decide)).comp <|
      (xorShift_surjective (s := 13) rfl (by decide)).comp <|
        (mul_surjective (d := 0xa5cb9243) (by decide)).comp <|
          xorShift_surjective (s := 16) rfl (by decide)

theorem mixBlock_surjective : Function.Surjective mixBlock :=
  (mul_surjective (d := 0x56ed309b) (by decide)).comp <|
    (rotate_surjective (r := 15) rfl (by decide) (by decide)).comp <|
      mul_surjective (d := 0xdee13bb1) (by decide)

theorem block_surjective (h : UInt32) :
    Function.Surjective fun k => rotl32 (h ^^^ mixBlock k) 13 * 5 + 0xe6546b64 := by
  have hx : Function.Surjective fun x : UInt32 => h ^^^ x := by
    simp only [UInt32.xor_comm h]
    exact xor_surjective h
  exact (add_surjective 0xe6546b64).comp <|
    (mul_surjective (d := 0xcccccccd) (by decide)).comp <|
      (rotate_surjective (r := 13) rfl (by decide) (by decide)).comp <|
        hx.comp mixBlock_surjective

theorem exists_bytes (k : UInt32) : ∃ b0 b1 b2 b3 : UInt8,
    b0.toUInt32 ||| (b1.toUInt32 <<< 8) ||| (b2.toUInt32 <<< 16) ||| (b3.toUInt32 <<< 24) = k := by
  refine ⟨k.toUInt8, (k >>> 8).toUInt8, (k >>> 16).toUInt8, (k >>> 24).toUInt8, ?_⟩
  apply UInt32.toBitVec_inj.mp
  ext i hi
  have h8 : (8 : UInt32).toNat % 32 = 8 := rfl
  have h16 : (16 : UInt32).toNat % 32 = 16 := rfl
  have h24 : (24 : UInt32).toNat % 32 = 24 := rfl
  simp only [UInt32.toBitVec_or, UInt8.toBitVec_toUInt32, UInt32.toBitVec_toUInt8,
    toBitVec_shiftLeft_mod, toBitVec_shiftRight_mod, h8, h16, h24, BitVec.getElem_eq_testBit_toNat,
    BitVec.testBit_toNat, BitVec.getLsbD_or, BitVec.getLsbD_shiftLeft, BitVec.getLsbD_setWidth,
    BitVec.getLsbD_ushiftRight]
  -- the byte that bit `i` lies in
  by_cases h1 : i < 8
  · have h2 : i < 16 := by omega
    have h3 : i < 24 := by omega
    simp [hi, h1, h2, h3]
  have e1 : 8 + (i - 8) = i := by omega
  by_cases h2 : i < 16
  · have h3 : i < 24 := by omega
    have hin : i - 8 < 8 ∧ i - 8 < 32 := by omega
    simp [hi, h1, h2, h3, e1, hin]
  have out : ¬ i - 8 < 8 := by omega
  by_cases h3 : i < 24
  · have e2 : 16 + (i - 16) = i := by omega
    have hin : i - 16 < 8 ∧ i - 16 < 32 := by omega
    simp [hi, h1, h2, h3, e2, hin, out]
  · have e3 : 24 + (i - 24) = i := by omega
    have hin : i - 24 < 8 ∧ i - 24 < 32 := by omega
    have out' : ¬ i - 16 < 8 := by omega
    simp [hi, h1, h2, h3, e3, hin, out, out']

theorem murmur_surjective (v : UInt32) : ∃ key : Key, murmurHash3 key 2 = v := by
  have hlast : Function.Surjective fun h : UInt32 => fmix32 (h ^^^ UInt32.ofNat 4) :=
    fmix32_surjective.comp (xor_surjective _)
  obtain ⟨k, hk⟩ := (hlast.comp (block_surjective 2)) v
  obtain ⟨b0, b1, b2, b3, hb⟩ := exists_bytes k
  refine ⟨[b0, b1, b2, b3], ?_⟩
  rw [← hk, ← hb]
  rfl

/-! ## The filter -/

/-- mirrors algorithm/Lsmtree/bloomfilter.h:7-14; `body` has the allocated bytes -/
structure Filter where
  k : Int32
  m : UInt64
  targetsize : UInt32
  body : List Int8
  deriving DecidableEq

/-- mirrors algorithm/Lsmtree/bloomfilter.c:130-136: `m/8` goes through an `int` -/
def targetBytes (m : UInt64) : UInt32 := (m / 8).toUInt32 + if m % 8 = 0 then 0 else 1

namespace Filter

/-- A filter as `bf_init` makes it and `bf_set` leaves it. -/
structure Wf (f : Filter) : Prop where
  size : f.targetsize = targetBytes f.m
  body : f.body.length = f.targetsize.toNat

/-- The bound of `for(uint32_t i=0; i<input->k; i++)`. -/
def rounds (f : Filter) : Nat := f.k.toUInt32.toNat

/-- `hashfunction(th | (i<<7)) % m`; there is no remainder by zero -/
def position (f : Filter) (th : UInt32) (i : Nat) : Option Nat :=
  if f.m = 0 then none
  else some ((hashfunction (th ||| (UInt32.ofNat i <<< 7))).toNat % f.m.toNat)

def setRound (f : Filter) (th : UInt32) (body : List Int8) (i : Nat) : Option (List Int8) := do
  let h ← f.position th i
  let b ← body[h / 8]?
  some (body.set (h / 8) (bitSet b (Int8.ofNat (h % 8))))

/-- mirrors algorithm/Lsmtree/bloomfilter.c:167-192 -/
def bfSet (f : Filter) (key : Key) : Option Filter := do
  let body ← (range f.rounds).foldlM (f.setRound (murmurHash3 key 2)) f.body
  some { f with body }

def checkRounds (f : Filter) (th : UInt32) : List Nat → Option Bool
  | [] => some true
  | i :: is => do
    let h ← f.position th i
    let b ← f.body[h / 8]?
    if bitGet b (Int8.ofNat (h % 8)) then f.checkRounds th is else some false

/-- mirrors algorithm/Lsmtree/bloomfilter.c:194-218 -/
def bfCheck (f : Filter) (key : Key) : Option Bool :=
  f.checkRounds (murmurHash3 key 2) (range f.rounds)

/-- Every byte that `bf_set` and `bf_check` use lies in the body, a key that was set is found,
and no call of `bf_set` hides a key that was found before. -/
def Sound (f : Filter) : Prop :=
  (∀ key i, i < f.rounds →
    ∃ h, f.position (murmurHash3 key 2) i = some h ∧ h / 8 < f.targetsize.toNat) ∧
  ∀ keys : List Key, ∃ f', keys.foldlM bfSet f = some f' ∧ (∀ key, (f'.bfCheck key).isSome) ∧
    (∀ key ∈ keys, f'.bfCheck key = some true) ∧
    ∀ key, f.bfCheck key = some true → f'.bfCheck key = some true

/-- The bytes hold every bit that a 32-bit hash can reach. -/
def Room (f : Filter) : Prop := f.k = 0 ∨ min f.m.toNat (2 ^ 32) ≤ 8 * (targetBytes f.m).toNat

instance (f : Filter) : Decidable f.Room := inferInstanceAs (Decidable (_ ∨ _))

/-! ## As a set of bits -/

theorem rounds_eq_zero {f : Filter} : f.rounds = 0 ↔ f.k = 0 := by
  constructor
  · intro h
    have h0 : f.k.toUInt32 = (0 : Int32).toUInt32 := UInt32.toNat_inj.mp h
    exact congrArg Int32.ofUInt32 h0
  · intro h
    rw [rounds, h]
    rfl

section
variable {f : Filter}

theorem m_pos (hm : f.m ≠ 0 ∨ f.k = 0) (hr : 0 < f.rounds) : 0 < f.m.toNat := by
  have hk : f.k ≠ 0 := fun h => by rw [rounds_eq_zero.mpr h] at hr; cases hr
  refine Nat.pos_of_ne_zero fun h => ?_
  exact (hm.resolve_right hk) (UInt64.toNat_inj.mp h)

/-- The filter that `Bloom` speaks about. -/
def bits (f : Filter) (hm : f.m ≠ 0 ∨ f.k = 0) : BF where
  k := f.rounds
  m := f.m.toNat
  pos := m_pos hm
  body := fun i => f.body.getD i 0

theorem position_eq (hm : f.m ≠ 0 ∨ f.k = 0) (th : UInt32) {i : Nat} (hi : i < f.rounds) :
    f.position th i = some ((f.bits hm).probe th i) := by
  rw [position, if_neg]
  · rfl
  · intro h
    have := m_pos hm (Nat.zero_lt_of_lt hi)
    rw [h] at this
    cases this

theorem probe_byte (hw : f.Wf) (hm : f.m ≠ 0 ∨ f.k = 0) (hr : f.Room) (th : UInt32) {i : Nat}
    (hi : i < f.rounds) : (f.bits hm).probe th i / 8 < f.body.length := by
  have hpos := m_pos hm (Nat.zero_lt_of_lt hi)
  have hk : f.k ≠ 0 := fun h => by rw [rounds_eq_zero.mpr h] at hi; cases hi
  have hroom := hr.resolve_left hk
  rw [hw.body, hw.size, BF.probe]
  generalize hv : hashfunction (th ||| (UInt32.ofNat i <<< 7)) = v
  have h1 : v.toNat % (f.bits hm).m < f.m.toNat := Nat.mod_lt _ hpos
  have h2 : v.toNat % (f.bits hm).m ≤ v.toNat := Nat.mod_le ..
  have h3 := v.toNat_lt
  omega

theorem setRound_eq (hw : f.Wf) (hm : f.m ≠ 0 ∨ f.k = 0) (hr : f.Room) (th : UInt32) {i : Nat}
    (hi : i < f.rounds) {body : List Int8} (hl : body.length = f.body.length) :
    ∃ body', f.setRound th body i = some body' ∧ body'.length = f.body.length ∧
      (fun j => body'.getD j 0) = BF.setBit (fun j => body.getD j 0) ((f.bits hm).probe th i) := by
  have hb := probe_byte hw hm hr th hi
  rw [← hl] at hb
  rw [setRound, position_eq hm th hi]
  generalize (f.bits hm).probe th i = h at hb
  refine ⟨body.set (h / 8) (bitset body[h / 8] (h % 8)), ?_, by rw [length_set, hl], ?_⟩
  · simp only [bind_eq_bind, bind_some, getElem?_eq_getElem hb]
    rw [bitSet_eq _ (by omega)]
  · funext j
    by_cases hj : j = h / 8
    · subst hj
      simp [BF.setBit, getD_eq_getElem?_getD, hb]
    · rw [BF.setBit, update_of_ne hj]
      simp [getD_eq_getElem?_getD, Ne.symm hj]

theorem foldlM_setRound (hw : f.Wf) (hm : f.m ≠ 0 ∨ f.k = 0) (hr : f.Room) (th : UInt32)
    {is : List Nat} (his : ∀ i ∈ is, i < f.rounds) {body : List Int8}
    (hl : body.length = f.body.length) :
    ∃ body', is.foldlM (f.setRound th) body = some body' ∧ body'.length = f.body.length ∧
      (fun j => body'.getD j 0) =
        (is.map ((f.bits hm).probe th)).foldl BF.setBit (fun j => body.getD j 0) := by
  induction is generalizing body with
  | nil => exact ⟨body, rfl, hl, rfl⟩
  | cons i is ih =>
    obtain ⟨b, hb, hbl, hbe⟩ := setRound_eq hw hm hr th (his i mem_cons_self) hl
    obtain ⟨b', hb', hbl', hbe'⟩ := ih (fun j hj => his j (.tail _ hj)) hbl
    refine ⟨b', ?_, hbl', ?_⟩
    · rw [foldlM_cons, hb]
      exact hb'
    · rw [hbe', hbe]
      rfl

theorem set_spec (hw : f.Wf) (hm : f.m ≠ 0 ∨ f.k = 0) (hr : f.Room) (key : Key) :
    ∃ f', f.bfSet key = some f' ∧ f'.Wf ∧ f'.k = f.k ∧ f'.m = f.m ∧
      ∀ hm', f'.bits hm' = (f.bits hm).set key := by
  obtain ⟨b, hb, hl, he⟩ := foldlM_setRound hw hm hr (murmurHash3 key 2)
    (fun i hi => mem_range.mp hi) rfl
  refine ⟨{ f with body := b }, ?_, ⟨hw.size, hl.trans hw.body⟩, rfl, rfl, fun hm' => ?_⟩
  · rw [bfSet, hb]
    rfl
  · rw [bits, BF.set]
    congr 1

theorem checkRounds_eq (hw : f.Wf) (hm : f.m ≠ 0 ∨ f.k = 0) (hr : f.Room) (th : UInt32)
    {is : List Nat} (his : ∀ i ∈ is, i < f.rounds) :
    f.checkRounds th is = some ((is.map ((f.bits hm).probe th)).all fun h =>
      bitget ((f.bits hm).body (h / 8)) (h % 8)) := by
  induction is with
  | nil => rfl
  | cons i is ih =>
    have hi := his i mem_cons_self
    have hb := probe_byte hw hm hr th hi
    rw [checkRounds, position_eq hm th hi, ih fun j hj => his j (.tail _ hj), map_cons, all_cons]
    generalize (f.bits hm).probe th i = h at hb
    have hbyte : (f.bits hm).body (h / 8) = f.body[h / 8] := by
      simp [bits, getD_eq_getElem?_getD, getElem?_eq_getElem hb]
    simp only [bind_eq_bind, bind_some, getElem?_eq_getElem hb, hbyte]
    rw [bitGet_eq _ (by omega)]
    cases bitget f.body[h / 8] (h % 8) <;> rfl

theorem check_spec (hw : f.Wf) (hm : f.m ≠ 0 ∨ f.k = 0) (hr : f.Room) (key : Key) :
    f.bfCheck key = some ((f.bits hm).check key) :=
  checkRounds_eq hw hm hr _ fun _ hi => mem_range.mp hi

end

theorem sets_spec {f : Filter} (hw : f.Wf) (hm : f.m ≠ 0 ∨ f.k = 0) (hr : f.Room)
    (keys : List Key) :
    ∃ f', keys.foldlM bfSet f = some f' ∧ f'.Wf ∧ f'.Room ∧ (f'.m ≠ 0 ∨ f'.k = 0) ∧
      ∀ hm' key, key ∈ keys ∨ (f.bits hm).check key = true → (f'.bits hm').check key = true := by
  induction keys generalizing f with
  | nil => exact ⟨f, rfl, hw, hr, hm, fun _ key h => h.resolve_left (by simp)⟩
  | cons k keys ih =>
    obtain ⟨f1, h1, hw1, hk1, hm1, he⟩ := set_spec hw hm hr k
    have hm₁ : f1.m ≠ 0 ∨ f1.k = 0 := by rwa [hk1, hm1]
    have hr1 : f1.Room := by rwa [Room, hk1, hm1]
    obtain ⟨f', h', hw', hr', hm', hc⟩ := ih hw1 hm₁ hr1
    refine ⟨f', ?_, hw', hr', hm', fun hm' key h => hc hm' key ?_⟩
    · rw [foldlM_cons, h1]
      exact h'
    · rw [he hm₁]
      rcases h with h | h
      · rcases mem_cons.mp h with rfl | h
        · exact .inr ((f.bits hm).check_set key)
        · exact .inl h
      · exact .inr ((f.bits hm).check_set_mono k h)

/-! ## When the filter is sound -/

theorem sound_of_room {f : Filter} (hw : f.Wf) (hm : f.m ≠ 0 ∨ f.k = 0) (hr : f.Room) :
    f.Sound := by
  constructor
  · intro key i hi
    refine ⟨_, position_eq hm _ hi, ?_⟩
    rw [← hw.body]
    exact probe_byte hw hm hr _ hi
  · intro keys
    obtain ⟨f', h', hw', hr', hm', hc⟩ := sets_spec hw hm hr keys
    refine ⟨f', h', fun key => ?_, fun key hk => ?_, fun key hk => ?_⟩
    · rw [check_spec hw' hm' hr']
      rfl
    · rw [check_spec hw' hm' hr', hc hm' key (.inl hk)]
    · rw [check_spec hw hm hr, some.injEq] at hk
      rw [check_spec hw' hm' hr', hc hm' key (.inr hk)]

theorem exists_last_position {f : Filter} (hm : 0 < f.m.toNat) :
    ∃ key, f.position (murmurHash3 key 2) 0 = some (min f.m.toNat (2 ^ 32) - 1) := by
  obtain ⟨th, hth⟩ := hashfunction_surjective (UInt32.ofNat (min f.m.toNat (2 ^ 32) - 1))
  obtain ⟨key, hkey⟩ := murmur_surjective th
  refine ⟨key, ?_⟩
  have h0 : th ||| (UInt32.ofNat 0 <<< 7) = th := by simp
  have hlt : min f.m.toNat (2 ^ 32) - 1 < 2 ^ 32 := by omega
  rw [position, if_neg, hkey, h0, hth, UInt32.toNat_ofNat_of_lt' hlt]
  · rw [Nat.mod_eq_of_lt (by omega)]
  · intro h
    rw [h] at hm
    cases hm

/-- The filter is sound exactly when the allocated bytes hold the bits that can be reached. -/
theorem bloom_filter (f : Filter) (hw : f.Wf) (hm : f.m ≠ 0 ∨ f.k = 0) :
    f.Sound ↔ f.k = 0 ∨ min f.m.toNat (2 ^ 32) ≤ 8 * (targetBytes f.m).toNat := by
  refine ⟨fun hs => ?_, sound_of_room hw hm⟩
  by_cases hk : f.k = 0
  · exact .inl hk
  · have hr : 0 < f.rounds := Nat.pos_of_ne_zero fun h => hk (rounds_eq_zero.mp h)
    obtain ⟨key, hkey⟩ := exists_last_position (m_pos hm hr)
    obtain ⟨h, hh, hlt⟩ := hs.1 key 0 hr
    rw [hkey, some.injEq] at hh
    rw [hw.size] at hlt
    have := m_pos hm hr
    right
    omega

theorem bloom_filter_byte : Sound ⟨5, 8, 1, [0]⟩ :=
  (bloom_filter ⟨5, 8, 1, [0]⟩ ⟨rfl, rfl⟩ (.inl (by decide))).mpr (.inr (by decide))

/-- With `2^35` bits the size in bytes is `2^32`, which an `int` has as zero. -/
theorem truncated_targetsize :
    Wf ⟨1, 34359738368, 0, []⟩ ∧ (34359738368 : UInt64) ≠ 0 ∧
      bfSet ⟨1, 34359738368, 0, []⟩ [97] = none :=
  ⟨⟨by decide, rfl⟩, by decide, by decide⟩

end Filter

end FlashDriver.Lsmtree.BloomBytes
