import FlashDriver.Core.Bytes

/-!
# Transfers over a socket (`include/flash_sock/fd_sock.c`)

`fd_sock_write`, `fd_sock_normal_write` and `fd_sock_normal_read` repeat their
system call until `len` bytes have gone, but hand it the start of the buffer
each time. `fd_sock_read` reads through a prefetch buffer, whose loop in
`buf_read` moves the pointer on.

The operating system is a list of what the calls of `write` return, and for
`read` the pieces in which the stream arrives, with errors between them; a
piece that is longer than what is asked for is returned in parts. Errno 11 is
`EAGAIN`.

* `writeLoop_whole`, `writeLoop_parts`: what is written in one piece and in
  several.
* `bufReadLoop_spec`: the prefetch buffer and the socket are read as one stream.
* `socket_transfer`: in which splits the bytes arrive unchanged.
-/
namespace FlashDriver.FlashSock

open List Option
open Core.Bytes

/-- How a call ends: with a value, by `abort()`, or not yet. -/
inductive Call (σ : Type)
  | returned (ret : Int) (s : σ)
  | aborted
  | waiting
  deriving DecidableEq

/-! ## Writing -/

/-- What a `write` returns: a number of bytes, at most those asked for, or -1. -/
inductive WriteRes
  | took (n : Nat)
  | error (errno : Nat)
  deriving DecidableEq

/-- The loop of both functions; `buf` is not moved on. -/
def writeLoop (buf : List UInt8) (len : Nat) :
    Nat → List UInt8 → List WriteRes → Call (List UInt8 × List WriteRes)
  | wrote, stream, [] => if len = wrote then .returned len (stream, []) else .waiting
  | wrote, stream, .error errno :: rs =>
    if len = wrote then .returned len (stream, .error errno :: rs)
    else if errno = 11 then writeLoop buf len wrote stream rs
    else .aborted                                               -- "length write error!"
  | wrote, stream, .took n :: rs =>
    if len = wrote then .returned len (stream, .took n :: rs)
    else
      writeLoop buf len (wrote + min n (len - wrote)) (stream ++ buf.take (min n (len - wrote))) rs

/-- mirrors include/flash_sock/fd_sock.c:130-142; `buf` has `len` bytes. -/
def fdSockWrite (buf stream : List UInt8) (rs : List WriteRes) :
    Call (List UInt8 × List WriteRes) := writeLoop buf buf.length 0 stream rs

/-- mirrors include/flash_sock/fd_sock.c:359-371 -/
def fdSockNormalWrite (buf stream : List UInt8) (rs : List WriteRes) :
    Call (List UInt8 × List WriteRes) := writeLoop buf buf.length 0 stream rs

/-- The bytes that the calls can take in all. -/
def room : List WriteRes → Nat
  | [] => 0
  | .error _ :: rs => room rs
  | .took n :: rs => n + room rs

/-- The size of the first transfer. -/
def firstTook : List WriteRes → Nat
  | [] => 0
  | .error _ :: rs => firstTook rs
  | .took 0 :: rs => firstTook rs
  | .took (n + 1) :: _ => n + 1

/-- The only error is `EAGAIN`. -/
def Retried (rs : List WriteRes) : Prop := ∀ errno, .error errno ∈ rs → errno = 11

section
variable {buf stream : List UInt8} {len wrote : Nat} {rs : List WriteRes}

theorem Retried.tail {r : WriteRes} (h : Retried (r :: rs)) : Retried rs :=
  fun errno he => h errno (.tail _ he)

theorem writeLoop_whole (hr : Retried rs) (hlen : buf.length = len) (h : len ≤ firstTook rs) :
    ∃ rest, writeLoop buf len 0 stream rs = .returned len (stream ++ buf, rest) := by
  induction rs with
  | nil =>
    have hbuf : buf = [] := eq_nil_of_length_eq_zero (by simpa [firstTook, hlen] using h)
    subst hbuf
    exact ⟨[], by simp [writeLoop, ← hlen]⟩
  | cons r rs ih =>
    by_cases h0 : len = 0
    · have hbuf : buf = [] := eq_nil_of_length_eq_zero (by omega)
      subst hbuf
      refine ⟨r :: rs, ?_⟩
      cases r <;> simp [writeLoop, h0]
    · cases r with
      | error errno =>
        obtain rfl := hr errno mem_cons_self
        obtain ⟨rest, hrest⟩ := ih hr.tail h
        exact ⟨rest, by rw [writeLoop, if_neg h0, if_pos rfl, hrest]⟩
      | took n =>
        cases n with
        | zero =>
          obtain ⟨rest, hrest⟩ := ih hr.tail h
          refine ⟨rest, ?_⟩
          rw [writeLoop, if_neg h0]
          simpa using hrest
        | succ n =>
          have hmin : min (n + 1) (len - 0) = len := by
            rw [firstTook] at h
            omega
          refine ⟨rs, ?_⟩
          rw [writeLoop, if_neg h0, hmin, zero_add, ← hlen, take_length]
          cases rs with
          | nil => simp [writeLoop]
          | cons r rs => cases r <;> simp [writeLoop]

theorem writeLoop_extends {out : List UInt8} {ret : Int} {rest : List WriteRes}
    (h : writeLoop buf len wrote stream rs = .returned ret (out, rest)) :
    ∃ t, out = stream ++ t := by
  induction rs generalizing wrote stream with
  | nil =>
    rw [writeLoop] at h
    split at h
    · cases h
      exact ⟨[], (append_nil _).symm⟩
    · cases h
  | cons r rs ih =>
    cases r with
    | error errno =>
      rw [writeLoop] at h
      split at h
      · cases h
        exact ⟨[], (append_nil _).symm⟩
      · split at h
        · exact ih h
        · cases h
    | took n =>
      rw [writeLoop] at h
      split at h
      · cases h
        exact ⟨[], (append_nil _).symm⟩
      · obtain ⟨t, ht⟩ := ih h
        exact ⟨buf.take (min n (len - wrote)) ++ t, by rw [ht, append_assoc]⟩

theorem writeLoop_next {b : UInt8} {bs out : List UInt8} {ret : Int} {rest : List WriteRes}
    (hlt : wrote < len) (h : writeLoop (b :: bs) len wrote stream rs = .returned ret (out, rest)) :
    ∃ t, out = stream ++ b :: t := by
  induction rs generalizing wrote stream with
  | nil => simp [writeLoop, hlt.ne'] at h
  | cons r rs ih =>
    cases r with
    | error errno =>
      rw [writeLoop, if_neg hlt.ne'] at h
      split at h
      · exact ih hlt h
      · cases h
    | took n =>
      rw [writeLoop, if_neg hlt.ne'] at h
      cases n with
      | zero =>
        simp only [Nat.zero_min, add_zero, take_zero, append_nil] at h
        exact ih hlt h
      | succ n =>
        obtain ⟨k, hk⟩ : ∃ k, min (n + 1) (len - wrote) = k + 1 :=
          ⟨min (n + 1) (len - wrote) - 1, by omega⟩
        rw [hk, take_succ_cons] at h
        obtain ⟨t, ht⟩ := writeLoop_extends h
        exact ⟨bs.take k ++ t, by rw [ht]; simp⟩

theorem writeLoop_parts {b : UInt8} {bs out : List UInt8} {ret : Int} {rest : List WriteRes}
    (hpos : 0 < firstTook rs) (hlt : firstTook rs < len)
    (h : writeLoop (b :: bs) len 0 stream rs = .returned ret (out, rest)) :
    ∃ t, out = stream ++ ((b :: bs).take (firstTook rs) ++ b :: t) := by
  have h0 : len ≠ 0 := by omega
  induction rs with
  | nil => simp [firstTook] at hpos
  | cons r rs ih =>
    cases r with
    | error errno =>
      rw [writeLoop, if_neg h0] at h
      split at h
      · exact ih hpos hlt h
      · cases h
    | took n =>
      rw [writeLoop, if_neg h0] at h
      cases n with
      | zero =>
        simp only [Nat.zero_min, add_zero, take_zero, append_nil] at h
        exact ih hpos hlt h
      | succ n =>
        rw [firstTook] at hlt ⊢
        have hmin : min (n + 1) (len - 0) = n + 1 := by omega
        rw [hmin, zero_add] at h
        obtain ⟨t, ht⟩ := writeLoop_next hlt h
        exact ⟨t, by rw [ht, append_assoc]⟩

theorem firstTook_pos (h : 0 < room rs) : 0 < firstTook rs := by
  induction rs with
  | nil => exact h
  | cons r rs ih =>
    cases r with
    | error errno => exact ih h
    | took n =>
      cases n with
      | zero =>
        rw [room, zero_add] at h
        exact ih h
      | succ n => exact Nat.succ_pos n

theorem writeLoop_returns (hr : Retried rs) (hle : wrote ≤ len) :
    (∃ out rest, writeLoop buf len wrote stream rs = .returned len (out, rest)) ↔
      len ≤ wrote + room rs := by
  induction rs generalizing wrote stream with
  | nil =>
    rw [writeLoop, room]
    by_cases h : len = wrote
    · simp [h]
    · simp only [h, if_false, reduceCtorEq, exists_false, false_iff]
      omega
  | cons r rs ih =>
    by_cases h : len = wrote
    · constructor
      · intro _
        omega
      · intro _
        cases r <;> simp [writeLoop, h]
    · cases r with
      | error errno =>
        obtain rfl := hr errno mem_cons_self
        rw [writeLoop, if_neg h, if_pos rfl]
        exact ih hr.tail hle
      | took n =>
        rw [writeLoop, if_neg h, room, ih hr.tail (by omega)]
        omega

theorem write_iff (hr : Retried rs) (hroom : len ≤ room rs) :
    (∀ buf stream, buf.length = len →
      ∃ rest, writeLoop buf buf.length 0 stream rs = .returned len (stream ++ buf, rest)) ↔
    len ≤ firstTook rs := by
  constructor
  · intro h
    by_contra hlt
    have hpos := firstTook_pos (show 0 < room rs by omega)
    have hlen : (1 :: replicate (len - 1) (0 : UInt8)).length = len := by
      simp
      omega
    obtain ⟨rest, hrest⟩ := h (1 :: replicate (len - 1) 0) [] hlen
    rw [hlen] at hrest
    obtain ⟨t, ht⟩ := writeLoop_parts hpos (by omega) hrest
    -- the byte behind the first transfer should be zero
    have hat := congrArg (·[firstTook rs]?) ht
    simp only [nil_append] at hat
    rw [getElem?_append_right (by simp)] at hat
    have hsub : firstTook rs - ((1 :: replicate (len - 1) (0 : UInt8)).take
        (firstTook rs)).length = 0 := by
      rw [length_take]
      omega
    rw [hsub, getElem?_cons_zero] at hat
    obtain ⟨k, hk⟩ : ∃ k, firstTook rs = k + 1 := ⟨firstTook rs - 1, by omega⟩
    rw [hk, getElem?_cons_succ, getElem?_replicate_of_lt (by omega)] at hat
    cases hat
  · intro h buf stream hlen
    rw [hlen]
    exact writeLoop_whole hr hlen h

end

/-! ## The incoming stream -/

/-- What the socket has next: bytes, or an error to report. -/
inductive Arrival
  | bytes (b : UInt8) (bs : List UInt8)
  | error (errno : Nat)
  deriving DecidableEq

structure Conn where
  arrivals : List Arrival
  closed : Bool                 -- by the other side, behind the arrivals
  deriving DecidableEq

inductive ReadRes
  | bytes (bs : List UInt8)     -- none at the end of the stream
  | error (errno : Nat)
  | waiting

/-- What is left of a piece goes before the other arrivals. -/
def unread (bs : List UInt8) (as : List Arrival) : List Arrival :=
  match bs with
  | [] => as
  | b :: bs => .bytes b bs :: as

/-- `read(fd, .., n)` -/
def Conn.read (c : Conn) (n : Nat) : ReadRes × Conn :=
  match c.arrivals with
  | [] => (if c.closed then .bytes [] else .waiting, c)
  | .error errno :: as => (.error errno, { c with arrivals := as })
  | .bytes b bs :: as =>
    (.bytes ((b :: bs).take n), { c with arrivals := unread ((b :: bs).drop n) as })

def streamOf : List Arrival → List UInt8
  | [] => []
  | .bytes b bs :: as => b :: bs ++ streamOf as
  | .error _ :: as => streamOf as

def Conn.stream (c : Conn) : List UInt8 := streamOf c.arrivals

/-- The number of reads that can be made. -/
def Conn.weight (c : Conn) : Nat := c.arrivals.length + c.stream.length

/-- The size of the first piece. -/
def firstPiece : List Arrival → Nat
  | [] => 0
  | .error _ :: as => firstPiece as
  | .bytes _ bs :: _ => bs.length + 1

/-- The only error is `EAGAIN`. -/
def Conn.Retried (c : Conn) : Prop := ∀ errno, .error errno ∈ c.arrivals → errno = 11

section
variable {c : Conn} {n : Nat}

theorem streamOf_unread (bs : List UInt8) (as : List Arrival) :
    streamOf (unread bs as) = bs ++ streamOf as := by
  cases bs <;> rfl

theorem mem_unread {errno : Nat} {bs : List UInt8} {as : List Arrival}
    (h : .error errno ∈ unread bs as) : .error errno ∈ as := by
  cases bs with
  | nil => exact h
  | cons b bs => simpa [unread] using h

/-- What a read of at least one byte does. -/
inductive Read (c : Conn) (n : Nat) : ReadRes → Conn → Prop
  | waiting (h : c.stream = []) (hc : c.closed = false) : Read c n .waiting c
  | ended (h : c.stream = []) (hc : c.closed = true) : Read c n (.bytes []) c
  | error {errno : Nat} {c' : Conn} (h : .error errno ∈ c.arrivals) (hs : c'.stream = c.stream)
      (hc : c'.closed = c.closed) (hw : c'.weight < c.weight) (hr : c.Retried → c'.Retried)
      (hf : firstPiece c'.arrivals = firstPiece c.arrivals) : Read c n (.error errno) c'
  | bytes {bs : List UInt8} {c' : Conn} (h : bs ≠ []) (hs : c.stream = bs ++ c'.stream)
      (hc : c'.closed = c.closed) (hw : c'.weight < c.weight) (hr : c.Retried → c'.Retried)
      (hl : bs.length = min n (firstPiece c.arrivals)) : Read c n (.bytes bs) c'

theorem read_spec (c : Conn) (hn : 0 < n) : Read c n (c.read n).1 (c.read n).2 := by
  obtain ⟨as, closed⟩ := c
  cases as with
  | nil =>
    cases closed with
    | false => exact .waiting rfl rfl
    | true => exact .ended rfl rfl
  | cons a as =>
    cases a with
    | error errno =>
      refine .error mem_cons_self rfl rfl ?_ (fun hr e he => hr e (.tail _ he)) rfl
      simp only [Conn.weight, Conn.read, Conn.stream, streamOf, length_cons]
      omega
    | bytes b bs =>
      have hlen : 0 < ((b :: bs).take n).length := by
        rw [length_take, length_cons]
        omega
      refine .bytes (ne_nil_of_length_pos hlen) ?_ rfl ?_ (fun hr e he => hr e ?_) ?_
      · simp only [Conn.stream, Conn.read, streamOf, streamOf_unread]
        rw [← append_assoc, take_append_drop]
      · have hle : (unread ((b :: bs).drop n) as).length ≤ as.length + 1 := by
          unfold unread
          split <;> simp
        have hd : ((b :: bs).drop n).length < (b :: bs).length := by
          rw [length_drop, length_cons]
          omega
        simp only [Conn.weight, Conn.read, Conn.stream, streamOf, streamOf_unread,
          length_append, length_cons] at hle hd ⊢
        omega
      · exact .tail _ (mem_unread he)
      · simp [firstPiece]

end

/-! ## `fd_sock_normal_read` -/

/-- The loop of `fd_sock_normal_read`; `buf` is not moved on. -/
def normalReadLoop (len : Nat) : Nat → Nat → Buffer → Conn → Call (Buffer × Conn)
  | 0, _, _, _ => .waiting
  | fuel + 1, readed, buf, c =>
    if len = readed then .returned len (buf, c)
    else
      match c.read (len - readed) with
      | (.error errno, c) =>
        if errno = 11 then normalReadLoop len fuel readed buf c else .aborted
      | (.bytes [], c) => .returned (-1) (buf, c)               -- "connection closed"
      | (.bytes (b :: bs), c) =>
        normalReadLoop len fuel (readed + (b :: bs).length) (write buf 0 (b :: bs)) c
      | (.waiting, _) => .waiting

/-- mirrors include/flash_sock/fd_sock.c:373-388 -/
def fdSockNormalRead (len : Nat) (buf : Buffer) (c : Conn) : Call (Buffer × Conn) :=
  normalReadLoop len (c.weight + 1) 0 buf c

/-- The buffer gets the next `len` bytes of the stream, and they are taken from it. -/
def Filled (len : Nat) (stream : List UInt8) (r : Call (Buffer × Conn)) : Prop :=
  ∃ buf c, r = .returned len (buf, c) ∧ slice buf 0 len = stream.take len ∧
    c.stream = stream.drop len

section
variable {len readed fuel : Nat} {buf : Buffer} {c : Conn}

theorem normalReadLoop_last {ret : Int} {buf' : Buffer} {c' : Conn} (hpos : 0 < readed)
    (hle : readed ≤ len)
    (h : normalReadLoop len fuel readed buf c = .returned ret (buf', c')) :
    buf' (len - 1) = buf (len - 1) := by
  induction fuel generalizing readed buf c with
  | zero => cases h
  | succ fuel ih =>
    rw [normalReadLoop] at h
    split at h
    · cases h
      rfl
    · rename_i hne
      have hread := read_spec c (show 0 < len - readed by omega)
      generalize c.read (len - readed) = res at h hread
      obtain ⟨res, c1⟩ := res
      cases hread with
      | waiting => cases h
      | ended =>
        cases h
        rfl
      | error =>
        dsimp only at h
        split at h
        · exact ih hpos hle h
        · cases h
      | @bytes bs _ hbs hs hc hw hr hl =>
        cases bs with
        | nil => exact absurd rfl hbs
        | cons b bs =>
          dsimp only at h hl
          rw [ih (by omega) (by omega) h, write, if_neg (by omega)]

theorem firstPiece_le (as : List Arrival) : firstPiece as ≤ (streamOf as).length := by
  induction as with
  | nil => exact le_rfl
  | cons a as ih =>
    cases a with
    | error errno => exact ih
    | bytes b bs => simp [firstPiece, streamOf]

theorem normalReadLoop_whole (hr : c.Retried) (hf : c.weight < fuel)
    (h : len ≤ firstPiece c.arrivals) : Filled len c.stream (normalReadLoop len fuel 0 buf c) := by
  induction fuel generalizing c with
  | zero => omega
  | succ fuel ih =>
    rw [normalReadLoop]
    by_cases h0 : len = 0
    · rw [if_pos h0]
      exact ⟨buf, c, rfl, by simp [h0, slice], by simp [h0]⟩
    · rw [if_neg h0]
      have hlen := le_trans h (firstPiece_le c.arrivals)
      have hread := read_spec c (show 0 < len - 0 by omega)
      generalize c.read (len - 0) = res at hread
      obtain ⟨res, c1⟩ := res
      cases hread with
      | waiting hs =>
        rw [Conn.stream] at hs
        rw [hs] at hlen
        exact absurd hlen (by simpa using h0)
      | ended hs =>
        rw [Conn.stream] at hs
        rw [hs] at hlen
        exact absurd hlen (by simpa using h0)
      | error hmem hs hc hw hr' hfirst =>
        obtain rfl := hr _ hmem
        dsimp only at hs hw hr' hfirst ⊢
        rw [if_pos rfl, ← hs]
        exact ih (hr' hr) (by omega) (by omega)
      | @bytes bs _ hbs hs hc hw hr' hl =>
        cases bs with
        | nil => exact absurd rfl hbs
        | cons b bs =>
          dsimp only at hs hw hl ⊢
          have hbl : (b :: bs).length = len := by omega
          obtain ⟨fuel, rfl⟩ : ∃ k, fuel = k + 1 := ⟨fuel - 1, by omega⟩
          rw [normalReadLoop, if_pos (by omega)]
          refine ⟨_, _, rfl, ?_, ?_⟩
          · rw [← hbl, slice_write_self, hs, take_left']
            rfl
          · rw [hs, drop_left' hbl]

theorem normalReadLoop_parts {ret : Int} {buf' : Buffer} {c' : Conn}
    (hlt : firstPiece c.arrivals < len)
    (h : normalReadLoop len fuel 0 buf c = .returned ret (buf', c')) :
    buf' (len - 1) = buf (len - 1) := by
  induction fuel generalizing c with
  | zero => cases h
  | succ fuel ih =>
    rw [normalReadLoop, if_neg (by omega)] at h
    have hread := read_spec c (show 0 < len - 0 by omega)
    generalize c.read (len - 0) = res at h hread
    obtain ⟨res, c1⟩ := res
    cases hread with
    | waiting => cases h
    | ended =>
      cases h
      rfl
    | error hmem hs hc hw hr hfirst =>
      dsimp only at h hfirst
      split at h
      · exact ih (by omega) h
      · cases h
    | @bytes bs _ hbs hs hc hw hr hl =>
      cases bs with
      | nil => exact absurd rfl hbs
      | cons b bs =>
        dsimp only at h hl
        have hpos : 0 < (b :: bs).length := Nat.succ_pos _
        rw [normalReadLoop_last (by omega) (by omega) h, write, if_neg (by omega)]

theorem normalRead_iff (hr : c.Retried) (hs : len ≤ c.stream.length) :
    (∀ buf, Filled len c.stream (fdSockNormalRead len buf c)) ↔ len ≤ firstPiece c.arrivals := by
  constructor
  · intro h
    by_contra hlt
    have hlast : len - 1 < c.stream.length := by omega
    -- a buffer whose last byte is not the one to come
    obtain ⟨buf', c', hret, hslice, -⟩ := h fun _ => c.stream[len - 1] + 1
    have hkept := normalReadLoop_parts (by omega) hret
    have hat := congrArg (·[len - 1]?) hslice
    simp only [slice, getElem?_map, getElem?_take_of_lt (show len - 1 < len by omega),
      getElem?_range (show len - 1 < len by omega), map_some, zero_add,
      getElem?_eq_getElem hlast, some.injEq] at hat
    rw [hkept] at hat
    exact absurd hat (by simp)
  · intro h buf
    exact normalReadLoop_whole hr (Nat.lt_succ_self _) h

end

/-! ## `fd_sock_read` -/

/-- The loop of `buf_read`. `packet` is what lies in `packet_buffer` from `buf_ptr` on, `off` how
far `buf` was moved; after a failed read `buf_size` is -1 and the packet empty. -/
def bufReadLoop (len : Nat) :
    Nat → Nat → Nat → Buffer → List UInt8 → Conn → Call (Buffer × List UInt8 × Conn)
  | 0, _, _, _, _, _ => .waiting
  | fuel + 1, off, remain, buf, packet, c =>
    if packet.length ≥ remain then
      .returned len (write buf off (packet.take remain), packet.drop remain, c)
    else
      let buf := write buf off packet
      let off := off + packet.length
      let remain := remain - packet.length
      match c.read 16384 with
      | (.bytes [], c) => .returned (len - remain) (buf, [], c)
      | (.bytes (b :: bs), c) => bufReadLoop len fuel off remain buf (b :: bs) c
      | (.error _, c) => bufReadLoop len fuel off remain buf [] c
      | (.waiting, _) => .waiting

/-- mirrors include/flash_sock/fd_sock.c:193-222 -/
def bufRead (len : Nat) (buf : Buffer) (packet : List UInt8) (c : Conn) :
    Call (Buffer × List UInt8 × Conn) := bufReadLoop len (c.weight + 1) 0 len buf packet c

/-- The loop of `fd_sock_read`. -/
def fdSockReadLoop (len : Nat) :
    Nat → Nat → Buffer → List UInt8 → Conn → Call (Buffer × List UInt8 × Conn)
  | 0, _, _, _, _ => .waiting
  | fuel + 1, readed, buf, packet, c =>
    if len = readed then .returned len (buf, packet, c)
    else
      match bufRead (len - readed) buf packet c with
      | .returned ret (buf, packet, c) =>
        if ret < 0 then .aborted                                -- never returned by `buf_read`
        else if ret = 0 then .returned (-1) (buf, packet, c)    -- "connection closed"
        else fdSockReadLoop len fuel (readed + ret.toNat) buf packet c
      | .aborted => .aborted
      | .waiting => .waiting

/-- mirrors include/flash_sock/fd_sock.c:224-241 -/
def fdSockRead (len : Nat) (buf : Buffer) (packet : List UInt8) (c : Conn) :
    Call (Buffer × List UInt8 × Conn) := fdSockReadLoop len (len + 1) 0 buf packet c

section
variable {len remain off fuel : Nat} {buf : Buffer} {packet : List UInt8} {c : Conn}

theorem write_write (m : Buffer) (off : Nat) (a b : List UInt8) :
    write (write m off a) (off + a.length) b = write m off (a ++ b) := by
  funext i
  simp only [write, length_append]
  by_cases hb : off + a.length ≤ i ∧ i < off + a.length + b.length
  · rw [if_pos hb, if_pos (by omega), getD_append_right _ _ _ _ (by omega)]
    congr 1
    omega
  · rw [if_neg hb]
    by_cases ha : off ≤ i ∧ i < off + a.length
    · rw [if_pos ha, if_pos (by omega), getD_append _ _ _ _ (by omega)]
    · rw [if_neg ha, if_neg (by omega)]

theorem bufReadLoop_spec (hf : c.weight < fuel) :
    (remain ≤ (packet ++ c.stream).length →
      ∃ packet' c', bufReadLoop len fuel off remain buf packet c =
          .returned len (write buf off ((packet ++ c.stream).take remain), packet', c') ∧
        packet' ++ c'.stream = (packet ++ c.stream).drop remain ∧ c'.closed = c.closed) ∧
    ((packet ++ c.stream).length < remain → c.closed = true →
      ∃ buf' c', bufReadLoop len fuel off remain buf packet c =
          .returned (len - ((remain - (packet ++ c.stream).length : Nat) : Int)) (buf', [], c') ∧
        c'.stream = [] ∧ c'.closed = true) ∧
    ((packet ++ c.stream).length < remain → c.closed = false →
      bufReadLoop len fuel off remain buf packet c = .waiting) := by
  induction fuel generalizing off remain buf packet c with
  | zero => omega
  | succ fuel ih =>
    rw [bufReadLoop]
    split
    · rename_i hge
      have hlen : ¬ (packet ++ c.stream).length < remain := by
        rw [length_append]
        omega
      refine ⟨fun _ => ⟨packet.drop remain, c, ?_, ?_, rfl⟩, fun h => absurd h hlen,
        fun h => absurd h hlen⟩
      · rw [take_append_of_le_length hge]
      · rw [drop_append_of_le_length hge]
    · rename_i hlt
      have hlt : packet.length < remain := by omega
      have hread := read_spec c (show 0 < 16384 by decide)
      generalize c.read 16384 = res at hread
      obtain ⟨res, c1⟩ := res
      have htake : ∀ s : List UInt8, (packet ++ s).take remain =
          packet ++ s.take (remain - packet.length) := by
        intro s
        rw [take_append, take_of_length_le hlt.le]
      have hdrop : ∀ s : List UInt8, (packet ++ s).drop remain = s.drop (remain - packet.length) := by
        intro s
        rw [drop_append, drop_of_length_le hlt.le, nil_append]
      cases hread with
      | waiting hs hc =>
        dsimp only
        simp only [hs, append_nil]
        exact ⟨fun h => absurd h (by omega), fun _ h => absurd (hc.symm.trans h) (by simp),
          fun _ _ => trivial⟩
      | ended hs hc =>
        dsimp only
        simp only [hs, append_nil]
        exact ⟨fun h => absurd h (by omega), fun _ _ => ⟨_, _, rfl, hs, hc⟩,
          fun _ h => absurd (hc.symm.trans h) (by simp)⟩
      | error hmem hs hc hw hr hfirst =>
        dsimp only at hs hc hw ⊢
        have hrec := @ih (remain - packet.length) (off + packet.length) (write buf off packet) [] c1
          (by omega)
        simp only [nil_append, hs, hc, write_write] at hrec
        simp only [htake, hdrop, length_append]
        refine ⟨fun h => hrec.1 (by omega), fun h hcl => ?_, fun h hcl => hrec.2.2 (by omega) hcl⟩
        have := hrec.2.1 (by omega) hcl
        rwa [Nat.sub_sub] at this
      | @bytes bs _ hbs hs hc hw hr hl =>
        cases bs with
        | nil => exact absurd rfl hbs
        | cons b bs =>
          dsimp only at hs hc hw ⊢
          have hrec := @ih (remain - packet.length) (off + packet.length) (write buf off packet)
            (b :: bs) c1 (by omega)
          rw [← hs] at hrec
          simp only [hc, write_write] at hrec
          simp only [htake, hdrop, length_append]
          refine ⟨fun h => hrec.1 (by omega), fun h hcl => ?_, fun h hcl => hrec.2.2 (by omega) hcl⟩
          have := hrec.2.1 (by omega) hcl
          rwa [Nat.sub_sub] at this

theorem fdSockReadLoop_returned {readed : Nat} {ret : Int} {buf' : Buffer}
    {packet' : List UInt8} {c' : Conn} (hne : len ≠ readed)
    (h : bufRead (len - readed) buf packet c = .returned ret (buf', packet', c')) :
    fdSockReadLoop len (fuel + 1) readed buf packet c = if ret < 0 then .aborted
      else if ret = 0 then .returned (-1) (buf', packet', c')
      else fdSockReadLoop len fuel (readed + ret.toNat) buf' packet' c' := by
  rw [fdSockReadLoop, if_neg hne, h]

theorem fdSockReadLoop_ended {readed : Nat} (hlt : readed < len) (hs : c.stream = [])
    (hc : c.closed = true) : ∃ s, fdSockReadLoop len (fuel + 1) readed buf [] c = .returned (-1) s := by
  obtain ⟨-, hend, -⟩ := @bufReadLoop_spec (len - readed) (len - readed) 0 (c.weight + 1) buf [] c
    (Nat.lt_succ_self _)
  rw [hs] at hend
  obtain ⟨buf', c', hret, -⟩ := hend (by simpa using hlt) hc
  rw [append_nil, length_nil, Nat.sub_zero, Int.sub_self] at hret
  rw [fdSockReadLoop_returned hlt.ne' hret]
  exact ⟨_, rfl⟩

theorem fdSockRead_spec (len : Nat) (buf : Buffer) (packet : List UInt8) (c : Conn) :
    (len ≤ (packet ++ c.stream).length →
      ∃ buf' packet' c', fdSockRead len buf packet c = .returned len (buf', packet', c') ∧
        slice buf' 0 len = (packet ++ c.stream).take len ∧
        packet' ++ c'.stream = (packet ++ c.stream).drop len) ∧
    ((packet ++ c.stream).length < len → c.closed = true →
      ∃ s, fdSockRead len buf packet c = .returned (-1) s) ∧
    ((packet ++ c.stream).length < len → c.closed = false →
      fdSockRead len buf packet c = .waiting) := by
  by_cases h0 : len = 0
  · subst h0
    refine ⟨fun _ => ⟨buf, packet, c, by simp [fdSockRead, fdSockReadLoop], rfl, rfl⟩, ?_, ?_⟩
    · exact fun h => absurd h (Nat.not_lt_zero _)
    · exact fun h => absurd h (Nat.not_lt_zero _)
  · obtain ⟨hfull, hend, hwait⟩ := @bufReadLoop_spec len len 0 (c.weight + 1) buf packet c
      (Nat.lt_succ_self _)
    obtain ⟨k, rfl⟩ : ∃ k, len = k + 1 := ⟨len - 1, by omega⟩
    refine ⟨fun h => ?_, fun h hc => ?_, fun h hc => ?_⟩
    · obtain ⟨packet', c', hret, hdrop, -⟩ := hfull h
      change bufRead (k + 1 - 0) buf packet c = _ at hret
      refine ⟨write buf 0 ((packet ++ c.stream).take (k + 1)), packet', c', ?_, ?_, hdrop⟩
      · rw [fdSockRead, fdSockReadLoop_returned (by omega) hret, if_neg (by omega),
          if_neg (by omega), fdSockReadLoop, if_pos (by omega)]
      · have hlen : ((packet ++ c.stream).take (k + 1)).length = k + 1 := by
          rw [length_take]
          omega
        have hself := slice_write_self buf 0 ((packet ++ c.stream).take (k + 1))
        rwa [hlen] at hself
    · obtain ⟨buf', c', hret, hs, hcl⟩ := hend h hc
      change bufRead (k + 1 - 0) buf packet c = _ at hret
      rw [fdSockRead, fdSockReadLoop_returned (by omega) hret, if_neg (by omega)]
      split
      · exact ⟨_, rfl⟩
      · exact fdSockReadLoop_ended (by omega) hs hcl
    · have hret : bufRead (k + 1 - 0) buf packet c = .waiting := hwait h hc
      rw [fdSockRead, fdSockReadLoop, if_neg (by omega), hret]

end

/-- A transfer is right in every split for `fd_sock_read`; for the others exactly if the first
transfer that moves anything moves everything. Writing returns once there was room for all. -/
theorem socket_transfer (len : Nat) :
    (∀ rs buf stream, Retried rs → buf.length = len →
      ((∃ out rest, fdSockWrite buf stream rs = .returned len (out, rest)) ↔ len ≤ room rs)) ∧
    (∀ rs, Retried rs → len ≤ room rs → ((∀ buf stream, buf.length = len →
          ∃ rest, fdSockWrite buf stream rs = .returned len (stream ++ buf, rest)) ↔
        len ≤ firstTook rs) ∧
      ((∀ buf stream, buf.length = len →
          ∃ rest, fdSockNormalWrite buf stream rs = .returned len (stream ++ buf, rest)) ↔
        len ≤ firstTook rs)) ∧
    (∀ c : Conn, c.Retried → len ≤ c.stream.length →
      ((∀ buf, Filled len c.stream (fdSockNormalRead len buf c)) ↔ len ≤ firstPiece c.arrivals)) ∧
    (∀ buf packet c, len ≤ (packet ++ Conn.stream c).length →
      ∃ buf' packet' c', fdSockRead len buf packet c = .returned len (buf', packet', c') ∧
        slice buf' 0 len = (packet ++ c.stream).take len ∧
        packet' ++ c'.stream = (packet ++ c.stream).drop len) :=
  ⟨fun rs buf stream hr hlen => by
      rw [fdSockWrite, hlen, writeLoop_returns hr (Nat.zero_le _), Nat.zero_add],
    fun _ hr hroom => ⟨write_iff hr hroom, write_iff hr hroom⟩,
    fun _ hr hs => normalRead_iff hr hs, fun buf packet c => (fdSockRead_spec len buf packet c).1⟩

theorem socket_transfer_retry :
    ∃ rest, fdSockWrite [7, 8] [] [.error 11, .took 2] = .returned 2 ([7, 8], rest) := by
  have hr : Retried [.error 11, .took 2] := by
    intro errno h
    simpa using h
  exact ((socket_transfer 2).2.1 _ hr (by decide)).1.mpr (by decide) [7, 8] [] rfl

/-- Two transfers of three bytes. -/
theorem buffer_starts_again :
    fdSockWrite [1, 2, 3] [] [.took 1, .took 2] = .returned 3 ([1, 1, 2], []) ∧
    ∃ buf c, fdSockNormalRead 3 (fun _ => 0) ⟨[.bytes 1 [], .bytes 2 [3]], false⟩ =
      .returned 3 (buf, c) ∧ slice buf 0 3 = [2, 3, 0] :=
  ⟨by decide, _, _, rfl, by decide⟩

end FlashDriver.FlashSock
