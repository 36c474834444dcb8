import FlashDriver.Core.Bytes
import FlashDriver.Core.LTS

/-!
# Redis requests (`include/flash_sock/fd_sock.c`, `buffer_manager.c`)

`fd_sock_read_redis` parses one command in a buffer of `MAXBUF` bytes. It
reads more only where a helper finds too few bytes left, once, and not if the
last byte it has is a newline. The value of a SET is not skipped.

One connection is modelled. Its socket does not block, so a read with nothing
in the queue returns -1, and `epoll_wait` reports an arrival once
(`EPOLLET`). What arrives while a call runs is given with the call, for each
of its reads. `none` is an access outside an array, a loop that does not end,
or a number that `int` does not hold.

The sliding buffer is followed on a `Tape`, the bytes themselves: each helper
asks for a number of bytes, for which there is at most one read, and uses some
(`Command.pieces`).

Assumed of the environment: what is in the queue at a read is returned as far as
the buffer has room; a read with nothing in the queue fails, and the other side
does not close; only what is passed to `call` arrives while it runs; there are
no other clients.

* `fill_spec`, `getNumber_spec`, `strncmp_spec`, `cpyLen_spec`: the helpers do on
  the port what their pieces say of the tape.
* `readRedis_spec`: a call that finds the pieces of a command returns it.
* `redis_requests`: runs in which every call does so, for any cutting of the stream;
  `Delivered` has cases of it that do not mention the tape.
* `value_not_skipped`: the value of a SET is parsed as the next command.
-/
namespace FlashDriver.FlashSock.Redis

open List Option
open FlashDriver.Core Core.Bytes

/-- mirrors include/flash_sock/buffer_manager.h:3 -/
def maxbuf : Nat := 128

/-- mirrors include/flash_sock/buffer_manager.h:6-13 (`mybuf`), with the socket of `fd` -/
structure Port where
  idx : Int
  remain : Int
  start : Bool
  buf : Buffer
  isfitbuffer : Bool
  queue : List UInt8            -- arrived, not read
  late : List (List UInt8)      -- arrives before each further read of this call
  closed : Bool                 -- by the other side
  pending : Bool                -- `epoll_wait` has something to report

/-! ## The buffer -/

/-- Something arrives. -/
def Port.arrive (p : Port) (bs : List UInt8) : Port :=
  { p with queue := p.queue ++ bs, pending := p.pending || !bs.isEmpty }

def Port.arriveLate (p : Port) : Port :=
  match p.late with
  | [] => p
  | bs :: late => { p.arrive bs with late := late }

/-- `read(b->fd,&b->buf[b->remain],MAXBUF-b->remain)` -/
def Port.read (p : Port) : Option (Int × Port) :=
  let p := p.arriveLate
  if 0 ≤ p.remain ∧ p.remain ≤ maxbuf then
    let n := maxbuf - p.remain.toNat
    if n = 0 then some (0, p)
    else if p.queue = [] then some (if p.closed then 0 else -1, p)      -- -1: `EAGAIN`
    else
      let bs := p.queue.take n
      some (bs.length, { p with buf := write p.buf p.remain.toNat bs, queue := p.queue.drop n })
  else none

/-- mirrors include/flash_sock/buffer_manager.c:14-17 -/
def Port.memmove (p : Port) : Option Port :=
  if 0 < p.remain then
    if 0 ≤ p.idx ∧ p.idx + p.remain ≤ maxbuf then
      some { p with buf := write p.buf 0 (slice p.buf p.idx.toNat p.remain.toNat), idx := 0 }
    else none
  else some p

/-- mirrors include/flash_sock/buffer_manager.c:18-31 -/
def readStart (p : Port) : Option (Int × Port) :=
  p.read.map fun (len, p) =>
    if len = 0 then (-1, p)
    else (1, { p with remain := p.remain + len, start := true, idx := 0, isfitbuffer := false })

/-- mirrors include/flash_sock/buffer_manager.c:32-39 -/
def readMore (p : Port) : Option (Int × Port) :=
  let last := p.remain + p.idx - 1
  if 0 ≤ last ∧ last < maxbuf then
    if p.buf last.toNat = 10 then some (1, { p with isfitbuffer := true })     -- "probable end"
    else p.read.map fun (len, p) => (1, { p with remain := p.remain + len })
  else none

/-- mirrors include/flash_sock/buffer_manager.c:13-41 -/
def memmoveRead (p : Port) : Option (Int × Port) :=
  p.memmove.bind fun p =>
    if p.start = false ∨ p.remain = 0 then readStart p else readMore p

/-- `if(!b->isfitbuffer && b->remain<need) memmove_read(b);` -/
def fill (p : Port) (need : Int) : Option Port :=
  if p.isfitbuffer = false ∧ p.remain < need then (memmoveRead p).map Prod.snd else some p

def Port.skip (p : Port) (n : Int) : Port := { p with idx := p.idx + n, remain := p.remain - n }

/-- mirrors include/flash_sock/buffer_manager.c:52-58 -/
def bufAddIdx (p : Port) (add : Int) : Option Port := (fill p add).map (·.skip add)

/-- mirrors include/flash_sock/buffer_manager.c:60-69 -/
def bufIsCloseWithAdd (p : Port) (add : Int) : Option (Bool × Port) :=
  if p.remain = 0 then
    (memmoveRead p).map fun (r, p) => if r = -1 then (true, p) else (false, p.skip add)
  else some (false, p.skip add)

/-- `strncmp(&b->buf[i],test,strlen(test))==0` -/
def strncmpFrom (buf : Buffer) : Int → List UInt8 → Option Bool
  | _, [] => some true
  | i, c :: cs =>
    if 0 ≤ i ∧ i < maxbuf then
      if buf i.toNat = c then strncmpFrom buf (i + 1) cs else some false
    else none

/-- mirrors include/flash_sock/buffer_manager.c:71-82 -/
def bufStrncmp (p : Port) (test : List UInt8) (bufLen : Int) : Option (Bool × Port) :=
  (fill p (bufLen + 2)).bind fun p =>
    (strncmpFrom p.buf p.idx test).map fun equal =>
      (equal, if equal then p.skip (bufLen + 2) else p)

/-- mirrors include/flash_sock/buffer_manager.c:84-91; `des` has 255 bytes. -/
def bufCpyLen (des : Buffer) (p : Port) (len : Int) : Option (Buffer × Port) :=
  (fill p (len + 2)).bind fun p =>
    if 0 ≤ len ∧ len ≤ 255 ∧ 0 ≤ p.idx ∧ p.idx + len ≤ maxbuf then
      some (write des 0 (slice p.buf p.idx.toNat len.toNat), p.skip (len + 2))
    else none

/-! ## Numbers -/

def isSpace (c : UInt8) : Bool := c = 32 || (9 ≤ c && c ≤ 13)

/-- The digits up to the first other byte. -/
def digitsFrom (acc : Nat) : List UInt8 → Option Nat
  | [] => none
  | c :: cs => if isDigit c then digitsFrom (acc * 10 + (c.toNat - 48)) cs else some acc

def signed : List UInt8 → Option Int
  | [] => none
  | c :: cs =>
    if c = 45 then (digitsFrom 0 cs).map fun (n : Nat) => -Int.ofNat n
    else if c = 43 then (digitsFrom 0 cs).map Int.ofNat
    else (digitsFrom 0 (c :: cs)).map Int.ofNat

/-- `atoi`, on the bytes up to the end of the array -/
def atoi (bs : List UInt8) : Option Int :=
  (signed (bs.dropWhile isSpace)).bind fun n =>
    if -2 ^ 31 ≤ n ∧ n < 2 ^ 31 then some n else none

/-- The loop of `get_digit_len`; an `int` has at most ten digits. -/
def getDigitLenFrom : Nat → Nat → Nat
  | 0, _ => 1
  | fuel + 1, n => if n / 10 = 0 then 1 else getDigitLenFrom fuel (n / 10) + 1

/-- mirrors include/flash_sock/buffer_manager.c:43-50; the sign does not count. -/
def getDigitLen (num : Int) : Nat := getDigitLenFrom 10 num.natAbs

/-- mirrors include/flash_sock/buffer_manager.c:93-102 -/
def bufGetNumber (p : Port) : Option (Int × Port) :=
  (fill p (4 + 2)).bind fun p =>
    if 0 ≤ p.idx ∧ p.idx ≤ maxbuf then
      (atoi (slice p.buf p.idx.toNat (maxbuf - p.idx.toNat))).map fun res =>
        (res, p.skip (getDigitLen res + 2))
    else none

/-! ## The parser -/

/-- mirrors include/flash_sock/fd_sock.h:22-24 -/
inductive NtType
  | non | write | read | range
  deriving DecidableEq

/-- mirrors include/flash_sock/fd_sock.h:26-33, what a Redis request fills in -/
structure Netdata where
  type : NtType
  keylen : UInt8
  key : Buffer
  valuelen : UInt32

structure Parse where
  port : Port
  nd : Netdata
  skipping : Bool

/-- "SET" -/
def setWord : List UInt8 := [83, 69, 84]

/-- "GET" -/
def getWord : List UInt8 := [71, 69, 84]

/-- mirrors include/flash_sock/fd_sock.c:286-294 -/
def parseWord (p : Parse) (size : Int) : Option Parse :=
  (bufStrncmp p.port setWord size).bind fun (equal, port) =>
    if equal then some { p with port := port, nd := { p.nd with type := .write } }
    else (bufStrncmp port getWord size).map fun (equal, port) =>
      if equal then { p with port := port, nd := { p.nd with type := .read } }
      else { p with port := port, skipping := true }

/-- mirrors include/flash_sock/fd_sock.c:285-302 -/
def parseField (p : Parse) (size : Int) : Nat → Option Parse
  | 0 => parseWord p size
  | 1 => (bufCpyLen p.nd.key p.port size).map fun (key, port) =>
    { p with port := port, nd := { p.nd with keylen := UInt8.ofInt size, key := key } }
  | 2 => some { p with nd := { p.nd with valuelen := UInt32.ofInt size } }
  | _ => some p

/-- mirrors include/flash_sock/fd_sock.c:276-304 -/
def parsePhase (p : Parse) (phase : Nat) : Option Parse :=
  (bufAddIdx p.port 1).bind fun port =>
    (bufGetNumber port).bind fun (size, port) =>
      if p.skipping then (bufAddIdx port size).map fun port => { p with port := port }
      else parseField { p with port := port } size phase

/-- mirrors include/flash_sock/fd_sock.c:273-305; a negative `target_phase` is never reached. -/
def parseCommand (port : Port) (nd : Netdata) : Option (Int × Netdata × Port) :=
  (bufGetNumber port).bind fun (target, port) =>
    if 0 ≤ target then
      ((range target.toNat).foldlM parsePhase ⟨port, nd, false⟩).map fun p =>
        (if p.nd.type = .write then 1 else 0, p.nd, p.port)
    else none

/-- mirrors include/flash_sock/fd_sock.c:243-306, from the report of `epoll_wait` for the
connection on; -1 is `CLOSEDSESSION`. -/
def fdSockReadRedis (port : Port) (nd : Netdata) : Option (Int × Netdata × Port) :=
  (bufIsCloseWithAdd { port with isfitbuffer := false } 1).bind fun (close, port) =>
    if close then some (-1, nd, port) else parseCommand port nd

/-! ## Commands -/

/-- The commands of the two types. -/
inductive Command
  | get (key : List UInt8)
  | set (key value : List UInt8)
  deriving DecidableEq

def crlf : List UInt8 := [13, 10]

/-- `$<length>` and the end of the line -/
def bulkHead (n : Nat) : List UInt8 := 36 :: (decimal n ++ crlf)

def bulk (s : List UInt8) : List UInt8 := bulkHead s.length ++ (s ++ crlf)

/-- `*<number>` and the end of the line -/
def arrayHead (n : Nat) : List UInt8 := 42 :: (decimal n ++ crlf)

namespace Command

/-- The command up to its value. -/
def header : Command → List UInt8
  | get key => arrayHead 2 ++ (bulk getWord ++ bulk key)
  | set key value => arrayHead 3 ++ (bulk setWord ++ (bulk key ++ bulkHead value.length))

/-- What follows the header. -/
def body : Command → List UInt8
  | get _ => []
  | set _ value => value ++ crlf

/-- The command on the wire. -/
def encode (c : Command) : List UInt8 := c.header ++ c.body

/-- A key of 1 to 255 bytes, and a value whose length an `int` holds. -/
def Ok : Command → Prop
  | get key => 1 ≤ key.length ∧ key.length ≤ 255
  | set key value => (1 ≤ key.length ∧ key.length ≤ 255) ∧ value.length < 2 ^ 31

/-- What the call should return for the command. -/
def Answers : Command → Int → Netdata → Prop
  | get key, ret, nd => ret = 0 ∧ nd.type = .read ∧ nd.keylen.toNat = key.length ∧
    slice nd.key 0 key.length = key
  | set key value, ret, nd => ret = 1 ∧ nd.type = .write ∧ nd.keylen.toNat = key.length ∧
    slice nd.key 0 key.length = key ∧ nd.valuelen.toNat = value.length

instance (c : Command) (ret : Int) (nd : Netdata) : Decidable (c.Answers ret nd) :=
  match c with
  | get _ => inferInstanceAs (Decidable (_ ∧ _))
  | set _ _ => inferInstanceAs (Decidable (_ ∧ _))

end Command

/-! ## The bytes of a connection -/

/-- A port without its indices: the bytes that were read and not used up, and what comes after
them. -/
structure Tape where
  ready : List UInt8
  fit : Bool
  queue : List UInt8
  late : List (List UInt8)

namespace Tape

/-- A read, after the chunk that arrives before it. It fails where there is nothing to read, and
the -1 is then added to `remain`. -/
def read (t : Tape) : Option Tape :=
  let queue := t.queue ++ t.late.headD []
  let n := maxbuf - t.ready.length
  if queue = [] ∨ n = 0 then none
  else some ⟨t.ready ++ queue.take n, t.fit, queue.drop n, t.late.tail⟩

/-- With fewer than `need` bytes there is one read, but none for the rest of the call once the
bytes have ended with a newline. -/
def fill (t : Tape) (need : Nat) : Option Tape :=
  if t.fit = true ∨ need ≤ t.ready.length then some t
  else if t.ready.getLast? = some 10 then some { t with fit := true }
  else t.read

/-- The bytes come next, and all of them are there. -/
def use (t : Tape) (bs : List UInt8) : Option Tape :=
  if bs <+: t.ready then some { t with ready := t.ready.drop bs.length } else none

/-- A helper asks for a number of bytes and uses some. -/
def piece (t : Tape) (q : Nat × List UInt8) : Option Tape := (t.fill q.1).bind (·.use q.2)

/-- All that was not used up. -/
def stream (t : Tape) : List UInt8 := t.ready ++ (t.queue ++ t.late.flatten)

end Tape

/-- The number of parts. -/
def headPieces (n : Nat) : List (Nat × List UInt8) := [(1, [42]), (6, decimal n ++ crlf)]

/-- The length of a part. -/
def lengthPieces (n : Nat) : List (Nat × List UInt8) := [(1, [36]), (6, decimal n ++ crlf)]

def keyPieces (key : List UInt8) : List (Nat × List UInt8) :=
  lengthPieces key.length ++ [(key.length + 2, key ++ crlf)]

/-- What the helpers ask for and use in turn. A GET is first compared with the other word. -/
def Command.pieces : Command → List (Nat × List UInt8)
  | get key => headPieces 2 ++ ((lengthPieces 3 ++ [(5, []), (5, getWord ++ crlf)]) ++ keyPieces key)
  | set key value => headPieces 3 ++ ((lengthPieces 3 ++ [(5, setWord ++ crlf)]) ++
      (keyPieces key ++ lengthPieces value.length))

/-- The tape after a call that takes the command from it. -/
def Tape.parse (t : Tape) (c : Command) : Option Tape :=
  c.pieces.foldlM Tape.piece { t with fit := false }

section
variable {t t' : Tape} {c : Command}

theorem Tape.read_eq (h : t.read = some t') :
    t.queue ++ t.late.headD [] ≠ [] ∧ t.ready.length < maxbuf ∧
      t' = ⟨t.ready ++ (t.queue ++ t.late.headD []).take (maxbuf - t.ready.length), t.fit,
        (t.queue ++ t.late.headD []).drop (maxbuf - t.ready.length), t.late.tail⟩ := by
  unfold Tape.read at h
  dsimp only at h
  split at h
  · cases h
  · rename_i hc
    cases h
    exact ⟨fun he => hc (.inl he), by omega, rfl⟩

theorem Tape.read_stream (h : t.read = some t') : t'.stream = t.stream := by
  obtain ⟨-, -, rfl⟩ := Tape.read_eq h
  have hlate : t.late.headD [] ++ t.late.tail.flatten = t.late.flatten := by
    cases t.late <;> rfl
  rw [Tape.stream, Tape.stream, append_assoc, ← append_assoc (take _ _),
    take_append_drop, append_assoc, hlate]

theorem Tape.fill_stream {need : Nat} (h : t.fill need = some t') : t'.stream = t.stream := by
  unfold Tape.fill at h
  split at h
  · cases h
    rfl
  · split at h
    · cases h
      rfl
    · exact Tape.read_stream h

theorem Tape.fill_ready {need : Nat} (h : t.fill need = some t') : t.ready <+: t'.ready := by
  unfold Tape.fill at h
  split at h
  · cases h
    exact prefix_rfl
  · split at h
    · cases h
      exact prefix_rfl
    · obtain ⟨-, -, rfl⟩ := Tape.read_eq h
      exact prefix_append _ _

theorem Tape.fill_ne_nil {need : Nat} (hpos : 0 < need) (h : t.fill need = some t') :
    t'.fit = true ∨ t'.ready ≠ [] := by
  unfold Tape.fill at h
  split at h
  · rename_i hc
    cases h
    refine hc.imp_right fun hle he => ?_
    rw [he, length_nil] at hle
    omega
  · split at h
    · cases h
      exact .inl rfl
    · obtain ⟨hq, hlt, rfl⟩ := Tape.read_eq h
      refine .inr fun he => hq (take_eq_nil_iff.mp (append_eq_nil_iff.mp he).2 |>.resolve_left ?_)
      omega

theorem Tape.use_eq {bs : List UInt8} (h : t.use bs = some t') :
    ∃ rest, t.ready = bs ++ rest ∧ t' = { t with ready := rest } := by
  unfold Tape.use at h
  split at h
  · rename_i hb
    obtain ⟨rest, hrest⟩ := hb
    refine ⟨rest, hrest.symm, ?_⟩
    rw [← hrest, drop_left] at h
    exact (some.inj h).symm
  · cases h

theorem Tape.pieces_stream {qs : List (Nat × List UInt8)} (h : qs.foldlM Tape.piece t = some t') :
    t.stream = qs.flatMap Prod.snd ++ t'.stream := by
  induction qs generalizing t with
  | nil =>
    cases h
    rfl
  | cons q qs ih =>
    obtain ⟨t2, h2, h⟩ := bind_eq_some_iff.mp h
    obtain ⟨t1, h1, h2⟩ := bind_eq_some_iff.mp h2
    obtain ⟨rest, hr, rfl⟩ := Tape.use_eq h2
    rw [← Tape.fill_stream h1, flatMap_cons, append_assoc, ← ih h, Tape.stream, hr, append_assoc]
    rfl

theorem Command.pieces_eq : c.pieces.flatMap Prod.snd = c.header := by
  cases c <;> simp [Command.pieces, Command.header, headPieces, keyPieces, lengthPieces, arrayHead,
    bulk, bulkHead, setWord, getWord]

theorem Tape.parse_stream (h : t.parse c = some t') : t.stream = c.header ++ t'.stream := by
  rw [← Command.pieces_eq]
  exact Tape.pieces_stream (t := { t with fit := false }) h

end

/-! ## Numbers of a command -/

section
variable {n i : Nat}

theorem digitsFrom_decimal (n acc : Nat) (ys : List UInt8) :
    digitsFrom acc (decimal n ++ ys) = digitsFrom (acc * 10 ^ (decimal n).length + n) ys := by
  have hdigit : ∀ d, d < 10 → (UInt8.ofNat (48 + d)).toNat - 48 = d := by
    intro d hd
    rw [UInt8.toNat_ofNat']
    omega
  refine decimal_induction (P := fun n ds => ∀ acc ys, digitsFrom acc (ds ++ ys) =
    digitsFrom (acc * 10 ^ ds.length + n) ys) ?_ ?_ n acc ys
  · intro n hn acc ys
    rw [singleton_append, digitsFrom, if_pos (isDigit_ofNat hn), hdigit n hn,
      length_singleton, Nat.pow_one]
  · intro n ds hn ih acc ys
    have hmod : n % 10 < 10 := Nat.mod_lt _ (by decide)
    rw [append_assoc, ih, singleton_append, digitsFrom, if_pos (isDigit_ofNat hmod),
      hdigit _ hmod, length_append, length_singleton, pow_succ]
    congr 1
    have := Nat.div_add_mod n 10
    ring_nf
    omega

theorem getDigitLenFrom_eq {fuel n : Nat} (h : n < 10 ^ (fuel + 1)) :
    getDigitLenFrom fuel n = (decimal n).length := by
  induction fuel generalizing n with
  | zero => rw [decimal_small (by simpa using h)]; rfl
  | succ fuel ih =>
    rw [getDigitLenFrom]
    split
    · rw [decimal_small (by omega)]
      rfl
    · rw [decimal_large (by omega), length_append, length_singleton, ih]
      rw [pow_succ] at h
      omega

theorem isSpace_digit {c : UInt8} (h : isDigit c = true) : isSpace c = false := by
  simp only [isDigit, Bool.and_eq_true, decide_eq_true_eq, UInt8.le_iff_toNat_le] at h
  have h1 : 48 ≤ c.toNat := h.1
  have hne : c ≠ 32 := by
    rintro rfl
    exact absurd h1 (by decide)
  have hgt : ¬ c ≤ 13 := by
    rw [UInt8.le_iff_toNat_le]
    change ¬ c.toNat ≤ 13
    omega
  simp [isSpace, hne, hgt]

theorem atoi_decimal (hn : n < 2 ^ 31) (ys : List UInt8) :
    atoi (decimal n ++ (crlf ++ ys)) = some (n : Int) := by
  have hvalue : digitsFrom 0 (decimal n ++ (crlf ++ ys)) = some n := by
    rw [digitsFrom_decimal]
    simp [crlf, digitsFrom, isDigit]
  cases hd : decimal n with
  | nil =>
    rcases lt_or_ge n 10 with h | h
    · rw [decimal_small h] at hd
      cases hd
    · rw [decimal_large h] at hd
      simp at hd
  | cons c cs =>
    have hc : isDigit c = true := isDigit_decimal (n := n) (hd ▸ (.head _))
    have hminus : c ≠ 45 := by
      rintro rfl
      cases hc
    have hplus : c ≠ 43 := by
      rintro rfl
      cases hc
    rw [hd, cons_append] at hvalue
    rw [cons_append, atoi, dropWhile_cons_of_neg (by simp [isSpace_digit hc]), signed,
      if_neg hminus, if_neg hplus, hvalue, map_some, bind_some,
      if_pos (by simp only [Int.ofNat_eq_natCast]; omega)]
    rfl

theorem strncmpFrom_eq (buf : Buffer) (test : List UInt8) (h : i + test.length ≤ maxbuf) :
    strncmpFrom buf i test = some (decide (slice buf i test.length = test)) := by
  induction test generalizing i with
  | nil => simp [strncmpFrom, slice]
  | cons c cs ih =>
    rw [length_cons] at h
    have hs : slice buf i (cs.length + 1) = buf i :: slice buf (i + 1) cs.length := by
      rw [add_comm, slice_add]
      rfl
    rw [strncmpFrom, if_pos (by omega), Int.toNat_natCast, length_cons, hs]
    by_cases hc : buf i = c
    · have := ih (i := i + 1) (by omega)
      rw [if_pos hc, ← Int.natCast_add_one, this]
      simp [hc]
    · rw [if_neg hc]
      simp [hc]

end

/-! ## A port and its tape -/

/-- What a helper sees of the port. -/
def Port.tape (p : Port) : Tape :=
  ⟨slice p.buf p.idx.toNat p.remain.toNat, p.isfitbuffer, p.queue, p.late⟩

/-- The indices lie in the buffer. -/
structure Sound (p : Port) : Prop where
  idx : 0 ≤ p.idx
  remain : 0 ≤ p.remain
  fits : p.idx + p.remain ≤ maxbuf
  start : p.start = false → p.remain = 0

section
variable {p : Port} {t : Tape}

theorem ready_length (p : Port) : p.tape.ready.length = p.remain.toNat := length_slice ..

theorem arriveLate_eq (p : Port) : p.arriveLate = { p with
    queue := p.queue ++ p.late.headD []
    late := p.late.tail
    pending := p.pending || !(p.late.headD []).isEmpty } := by
  unfold Port.arriveLate
  cases h : p.late with
  | nil =>
    obtain ⟨_, _, _, _, _, _, _, _, _⟩ := p
    cases h
    simp
  | cons bs late => rfl

theorem memmove_spec (S : Sound p) :
    ∃ q, p.memmove = some q ∧ Sound q ∧ q.tape = p.tape ∧ q.remain = p.remain ∧ q.start = p.start ∧
      (q.remain = 0 ∨ q.idx = 0) := by
  have hfits := S.fits
  unfold Port.memmove
  by_cases h0 : 0 < p.remain
  · rw [if_pos h0, if_pos ⟨S.idx, S.fits⟩]
    refine ⟨_, rfl, ⟨le_rfl, S.remain, ?_, S.start⟩, ?_, rfl, rfl, .inr rfl⟩
    · have := S.idx
      change 0 + p.remain ≤ maxbuf
      omega
    · have hself := slice_write_self p.buf 0 (slice p.buf p.idx.toNat p.remain.toNat)
      rw [length_slice] at hself
      exact congrArg (fun bs => Tape.mk bs p.isfitbuffer p.queue p.late) hself
  · have := S.remain
    rw [if_neg h0]
    exact ⟨p, rfl, S, rfl, rfl, rfl, .inl (by omega)⟩

theorem read_spec (S : Sound p) (h0 : p.remain = 0 ∨ p.idx = 0) (ht : p.tape.read = some t) :
    ∃ (len : Nat) (q : Port), p.read = some ((len : Int), q) ∧ 0 < len ∧ q.idx = p.idx ∧
      q.remain = p.remain ∧ q.start = p.start ∧ q.isfitbuffer = p.isfitbuffer ∧
      Sound { q with remain := p.remain + len, idx := 0, start := true } ∧
      Port.tape { q with remain := p.remain + len, idx := 0, start := true } = t := by
  obtain ⟨hq, hlt, rfl⟩ := Tape.read_eq ht
  rw [ready_length] at hlt
  have hr := S.remain
  set r := p.remain.toNat with hr'
  set bs := (p.queue ++ p.late.headD []).take (maxbuf - r) with hbs
  have hlen : bs.length ≤ maxbuf - r ∧ 0 < bs.length := by
    have hpos : 0 < (p.queue ++ p.late.headD []).length := length_pos_iff.mpr hq
    rw [hbs, length_take]
    omega
  refine ⟨bs.length, { p.arriveLate with
    buf := write p.buf r bs, queue := (p.queue ++ p.late.headD []).drop (maxbuf - r) }, ?_, hlen.2,
    ?_, ?_, ?_, ?_, ⟨le_rfl, ?_, ?_, fun h => by cases h⟩, ?_⟩
  · unfold Port.read
    rw [arriveLate_eq]
    dsimp only
    rw [if_pos (by omega), if_neg (by omega)]
    exact if_neg hq
  · rw [arriveLate_eq]
  · rw [arriveLate_eq]
  · rw [arriveLate_eq]
  · rw [arriveLate_eq]
  · change 0 ≤ p.remain + (bs.length : Int)
    omega
  · change 0 + (p.remain + (bs.length : Int)) ≤ maxbuf
    omega
  · have hsum : (p.remain + (bs.length : Int)).toNat = r + bs.length := by omega
    have hold : slice p.buf 0 r = slice p.buf p.idx.toNat r := by
      rcases h0 with h | h
      · rw [show r = 0 from by omega]
        rfl
      · rw [h]
        rfl
    have hslice : slice (write p.buf r bs) 0 (r + bs.length) = slice p.buf p.idx.toNat r ++ bs := by
      rw [slice_add, slice_write_disjoint (.inl (by omega)), hold, zero_add, slice_write_self]
    unfold Port.tape
    rw [arriveLate_eq]
    dsimp only
    rw [hsum, Int.toNat_zero, hslice, length_slice]

theorem memmoveRead_spec (S : Sound p) (hfit : p.isfitbuffer = false)
    (hne : p.tape.ready.getLast? ≠ some 10) (ht : p.tape.read = some t) :
    ∃ p', memmoveRead p = some (1, p') ∧ Sound p' ∧ p'.tape = t := by
  obtain ⟨q, hq, Sq, htape, hrem, hst, h0⟩ := memmove_spec S
  have hqfit : q.isfitbuffer = false := (congrArg Tape.fit htape).trans hfit
  rw [← htape] at hne ht
  obtain ⟨len, u, hu, hlen, hui, hur, hus, huf, Su, htu⟩ := read_spec Sq h0 ht
  unfold memmoveRead
  rw [hq, bind_some]
  by_cases hz : q.start = false ∨ q.remain = 0
  · -- a start also clears a mark, which is not set
    have hlen0 : (len : Int) ≠ 0 := by omega
    have hmark : { u with
        remain := u.remain + len
        start := true
        idx := 0
        isfitbuffer := false } = { u with remain := q.remain + len, idx := 0, start := true } := by
      rw [hur, ← hqfit, ← huf]
    rw [if_pos hz, readStart, hu, map_some]
    dsimp only
    rw [if_neg hlen0, hmark]
    exact ⟨_, rfl, Su, htu⟩
  · rw [not_or, Bool.not_eq_false] at hz
    have hidx : q.idx = 0 := h0.resolve_left hz.2
    have hr := Sq.remain
    have hf := Sq.fits
    have hlast : q.buf (q.remain + q.idx - 1).toNat ≠ 10 := by
      intro h
      refine hne ?_
      change (slice q.buf q.idx.toNat q.remain.toNat).getLast? = some 10
      rw [getLast?_slice _ _ (by omega), ← h, hidx]
      congr 2
      omega
    have hsame : ({ u with remain := u.remain + len } : Port) =
        { u with remain := q.remain + len, idx := 0, start := true } := by
      rw [hur, ← hidx, ← hz.1, ← hui, ← hus]
    rw [if_neg (by simp [hz]), readMore]
    dsimp only
    rw [if_pos (by omega), if_neg hlast, hu, map_some]
    dsimp only
    rw [hsame]
    exact ⟨_, rfl, Su, htu⟩

theorem fill_spec {need : Nat} (S : Sound p) (ht : p.tape.fill need = some t) :
    ∃ p', fill p need = some p' ∧ Sound p' ∧ p'.tape = t := by
  have hr := S.remain
  have hlen := ready_length p
  unfold Tape.fill at ht
  unfold fill
  split at ht
  · rename_i h
    cases ht
    rw [if_neg (by
      rintro ⟨h1, h2⟩
      rcases h with h | h
      · exact absurd (h1.symm.trans h) (by decide)
      · omega)]
    exact ⟨p, rfl, S, rfl⟩
  · rename_i h
    rw [not_or, Bool.not_eq_true] at h
    rw [if_pos ⟨h.1, by omega⟩]
    split at ht
    · -- the bytes end with a newline, so none are read
      rename_i hlast
      cases ht
      obtain ⟨q, hq, Sq, htape, hrem, hst, h0⟩ := memmove_spec S
      have hpos : 0 < p.remain := by
        rcases Int.lt_or_eq_of_le hr with h | h
        · exact h
        · rw [show p.tape.ready = [] from eq_nil_of_length_eq_zero (by omega)] at hlast
          cases hlast
      have hidx : q.idx = 0 := h0.resolve_left (by omega)
      have hstart : q.start = true := by
        by_contra hs
        have := S.start (hst ▸ Bool.not_eq_true _ ▸ hs)
        omega
      have hbyte : q.buf (q.remain + q.idx - 1).toNat = 10 := by
        rw [← htape] at hlast
        change (slice q.buf q.idx.toNat q.remain.toNat).getLast? = some 10 at hlast
        rw [getLast?_slice _ _ (by omega), some.injEq, hidx] at hlast
        rw [← hlast, hidx]
        congr 1
        omega
      have hf := Sq.fits
      refine ⟨{ q with isfitbuffer := true }, ?_, ⟨Sq.idx, Sq.remain, Sq.fits, Sq.start⟩, ?_⟩
      · rw [memmoveRead, hq, bind_some, if_neg (by simp [hstart]; omega), readMore]
        dsimp only
        rw [if_pos (by omega), if_pos hbyte, map_some]
      · rw [← htape]
        rfl
    · rename_i hne
      obtain ⟨p', hp', S', ht'⟩ := memmoveRead_spec S h.1 hne ht
      exact ⟨p', by rw [hp', map_some], S', ht'⟩

theorem use_spec {bs : List UInt8} (S : Sound p) (ht : p.tape.use bs = some t) :
    slice p.buf p.idx.toNat bs.length = bs ∧ p.idx + bs.length ≤ maxbuf ∧
      Sound (p.skip bs.length) ∧ (p.skip bs.length).tape = t := by
  obtain ⟨rest, hr, rfl⟩ := Tape.use_eq ht
  have hlen := congrArg length hr
  rw [ready_length, length_append] at hlen
  have h1 := S.idx
  have h2 := S.remain
  have h3 := S.fits
  change slice p.buf p.idx.toNat p.remain.toNat = bs ++ rest at hr
  rw [hlen, slice_add] at hr
  obtain ⟨hbs, hrest⟩ := append_inj hr (length_slice _ _ _)
  refine ⟨hbs, by omega, ⟨?_, ?_, ?_, fun h => ?_⟩, ?_⟩
  · simp only [Port.skip]
    omega
  · simp only [Port.skip]
    omega
  · simp only [Port.skip]
    omega
  · have := S.start h
    simp only [Port.skip]
    omega
  · have hi : (p.idx + (bs.length : Int)).toNat = p.idx.toNat + bs.length := by omega
    have hm : (p.remain - (bs.length : Int)).toNat = rest.length := by omega
    unfold Port.tape Port.skip
    dsimp only
    rw [hi, hm, hrest]

/-! ## The helpers on their pieces -/

theorem close_spec {c : UInt8} (S : Sound p) (hfit : p.isfitbuffer = false)
    (ht : p.tape.piece (1, [c]) = some t) :
    ∃ p', bufIsCloseWithAdd p 1 = some (false, p') ∧ Sound p' ∧ p'.tape = t := by
  obtain ⟨t1, h1, h2⟩ := bind_eq_some_iff.mp ht
  have hlen := ready_length p
  unfold bufIsCloseWithAdd
  by_cases hz : p.remain = 0
  · have hnil : p.tape.ready = [] := eq_nil_of_length_eq_zero (by omega)
    have hread : p.tape.read = some t1 := by
      unfold Tape.fill at h1
      rw [if_neg (by simp [hnil]; exact hfit), if_neg (by simp [hnil])] at h1
      exact h1
    obtain ⟨p1, hp1, S1, rfl⟩ := memmoveRead_spec S hfit (by simp [hnil]) hread
    obtain ⟨-, -, S2, ht2⟩ := use_spec S1 h2
    rw [if_pos hz, hp1, map_some]
    exact ⟨_, rfl, S2, ht2⟩
  · have := S.remain
    unfold Tape.fill at h1
    rw [if_pos (.inr (by change 1 ≤ _; omega))] at h1
    cases h1
    obtain ⟨-, -, S2, ht2⟩ := use_spec S h2
    rw [if_neg hz]
    exact ⟨_, rfl, S2, ht2⟩

theorem piece_spec {need : Nat} {bs : List UInt8} (S : Sound p)
    (ht : p.tape.piece (need, bs) = some t) :
    ∃ p', fill p need = some p' ∧ Sound p' ∧ slice p'.buf p'.idx.toNat bs.length = bs ∧
      p'.idx + bs.length ≤ maxbuf ∧ Sound (p'.skip bs.length) ∧ (p'.skip bs.length).tape = t := by
  obtain ⟨t1, h1, h2⟩ := bind_eq_some_iff.mp ht
  obtain ⟨p1, hp1, S1, rfl⟩ := fill_spec S h1
  exact ⟨p1, hp1, S1, use_spec S1 h2⟩

theorem addIdx_spec {c : UInt8} (S : Sound p) (ht : p.tape.piece (1, [c]) = some t) :
    ∃ p', bufAddIdx p 1 = some p' ∧ Sound p' ∧ p'.tape = t := by
  obtain ⟨p1, hp1, -, -, -, S2, ht2⟩ := piece_spec S ht
  refine ⟨_, ?_, S2, ht2⟩
  unfold bufAddIdx
  rw [show fill p 1 = some p1 from hp1]
  rfl

theorem getNumber_spec {n : Nat} (S : Sound p) (hn : n < 2 ^ 31)
    (ht : p.tape.piece (6, decimal n ++ crlf) = some t) :
    ∃ p', bufGetNumber p = some ((n : Int), p') ∧ Sound p' ∧ p'.tape = t := by
  obtain ⟨p1, hp1, S1, hline, hfits, S2, ht2⟩ := piece_spec S ht
  have hlen : (decimal n ++ crlf).length = (decimal n).length + 2 := length_append
  have hidx := S1.idx
  rw [hlen] at hline hfits S2 ht2
  -- the array has the number, the end of the line and some bytes behind them
  have hslice : slice p1.buf p1.idx.toNat (maxbuf - p1.idx.toNat) = decimal n ++ (crlf ++
      slice p1.buf (p1.idx.toNat + ((decimal n).length + 2))
        (maxbuf - p1.idx.toNat - ((decimal n).length + 2))) := by
    rw [← append_assoc, ← hline, ← slice_add]
    congr 1
    omega
  have hdigits : getDigitLen (n : Int) = (decimal n).length := by
    rw [getDigitLen, Int.natAbs_natCast]
    exact getDigitLenFrom_eq (by omega)
  refine ⟨_, ?_, S2, ht2⟩
  unfold bufGetNumber
  rw [show fill p (4 + 2) = some p1 from hp1, bind_some, if_pos (by omega), hslice,
    atoi_decimal hn, map_some, hdigits]
  rfl

theorem strncmp_spec {w : List UInt8} (S : Sound p) (hw : w.length = 3)
    (ht : p.tape.piece (5, w ++ crlf) = some t) :
    ∃ p', bufStrncmp p w 3 = some (true, p') ∧ Sound p' ∧ p'.tape = t := by
  obtain ⟨p1, hp1, S1, hline, hfits, S2, ht2⟩ := piece_spec S ht
  have hlen : (w ++ crlf).length = 3 + 2 := by
    rw [length_append, hw]
    rfl
  rw [hlen] at hline hfits S2 ht2
  have hidx := S1.idx
  have hword : slice p1.buf p1.idx.toNat w.length = w := by
    rw [slice_add] at hline
    rw [hw]
    exact (append_inj hline (by rw [length_slice, hw])).1
  have hcmp : strncmpFrom p1.buf p1.idx w = some true := by
    have := strncmpFrom_eq p1.buf w (i := p1.idx.toNat) (by omega)
    rw [Int.toNat_of_nonneg hidx, hword] at this
    simpa using this
  refine ⟨_, ?_, S2, ht2⟩
  unfold bufStrncmp
  rw [show fill p (3 + 2) = some p1 from hp1, bind_some, hcmp]
  rfl

theorem strncmp_other {t1 : Tape} (S : Sound p) (ht1 : p.tape.piece (5, []) = some t1)
    (ht : t1.piece (5, getWord ++ crlf) = some t) :
    ∃ p', bufStrncmp p setWord 3 = some (false, p') ∧ Sound p' ∧ p'.tape = t1 := by
  obtain ⟨t0, h0, h1⟩ := bind_eq_some_iff.mp ht1
  obtain ⟨rest, hr, rfl⟩ := Tape.use_eq h1
  rw [nil_append] at hr
  subst hr
  obtain ⟨p1, hp1, S1, rfl⟩ := fill_spec S h0
  obtain ⟨t2, h2, h3⟩ := bind_eq_some_iff.mp ht
  obtain ⟨rest, hr, -⟩ := Tape.use_eq h3
  obtain ⟨more, hmore⟩ := Tape.fill_ready h2
  rw [hr] at hmore
  cases hready : p1.tape.ready with
  | nil =>
    -- with nothing there, nothing more is read
    have hfit : p1.tape.fit = true := (Tape.fill_ne_nil (by decide) h0).resolve_right (· hready)
    unfold Tape.fill at h2
    rw [if_pos (.inl hfit)] at h2
    cases h2
    rw [hready] at hr
    cases hr
  | cons b bs =>
    have hb : b = 71 := by
      change p1.tape.ready ++ more = _ at hmore
      rw [hready] at hmore
      exact (cons.inj hmore).1
    have hlen := ready_length p1
    rw [hready, length_cons] at hlen
    have hidx := S1.idx
    have hfits := S1.fits
    have hbyte : p1.buf p1.idx.toNat = 71 := by
      have : slice p1.buf p1.idx.toNat p1.remain.toNat = b :: bs := hready
      rw [← hlen, add_comm, slice_add] at this
      exact (cons.inj this).1.trans hb
    refine ⟨p1, ?_, S1, by rw [← hready]⟩
    unfold bufStrncmp
    rw [show fill p (3 + 2) = some p1 from hp1, bind_some, setWord, strncmpFrom,
      if_pos (by omega), hbyte]
    rfl

theorem cpyLen_spec (des : Buffer) {k : List UInt8} (S : Sound p) (hk : k.length ≤ 255)
    (ht : p.tape.piece (k.length + 2, k ++ crlf) = some t) :
    ∃ p', bufCpyLen des p k.length = some (write des 0 k, p') ∧ Sound p' ∧ p'.tape = t := by
  obtain ⟨p1, hp1, S1, hline, hfits, S2, ht2⟩ := piece_spec S ht
  have hlen : (k ++ crlf).length = k.length + 2 := length_append
  rw [hlen] at hline hfits S2 ht2
  have hidx := S1.idx
  have hkey : slice p1.buf p1.idx.toNat k.length = k := by
    rw [slice_add] at hline
    exact (append_inj hline (length_slice _ _ _)).1
  refine ⟨_, ?_, S2, ht2⟩
  unfold bufCpyLen
  rw [show fill p ((k.length : Int) + 2) = some p1 from hp1, bind_some, if_pos (by omega),
    Int.toNat_natCast, hkey]
  rfl

end

/-! ## A call on a command -/

section
variable {p : Port} {t : Tape} {q : Parse}

theorem head_spec {m : Nat} (S : Sound p) (hm : m < 2 ^ 31)
    (ht : (headPieces m).foldlM Tape.piece { p.tape with fit := false } = some t) :
    ∃ p', (∀ nd, fdSockReadRedis p nd = ((range m).foldlM parsePhase ⟨p', nd, false⟩).map
        fun q => (if q.nd.type = .write then 1 else 0, q.nd, q.port)) ∧ Sound p' ∧ p'.tape = t := by
  simp only [headPieces, foldlM_cons, foldlM_nil, bind_eq_bind, bind_eq_some_iff] at ht
  obtain ⟨t1, h1, t2, h2, h⟩ := ht
  cases h
  have S0 : Sound { p with isfitbuffer := false } := ⟨S.idx, S.remain, S.fits, S.start⟩
  obtain ⟨p1, hp1, S1, rfl⟩ := close_spec S0 rfl h1
  obtain ⟨p2, hp2, S2, ht2⟩ := getNumber_spec S1 hm h2
  refine ⟨p2, fun nd => ?_, S2, ht2⟩
  unfold fdSockReadRedis
  rw [hp1, bind_some]
  dsimp only
  rw [if_neg (by decide), parseCommand, hp2, bind_some]
  dsimp only
  rw [if_pos (Int.natCast_nonneg m), Int.toNat_natCast]

theorem length_spec {n : Nat} (phase : Nat) (S : Sound q.port) (hq : q.skipping = false)
    (hn : n < 2 ^ 31) (ht : (lengthPieces n).foldlM Tape.piece q.port.tape = some t) :
    ∃ p', parsePhase q phase = parseField { q with port := p' } n phase ∧ Sound p' ∧
      p'.tape = t := by
  simp only [lengthPieces, foldlM_cons, foldlM_nil, bind_eq_bind, bind_eq_some_iff] at ht
  obtain ⟨t1, h1, t2, h2, h⟩ := ht
  cases h
  obtain ⟨p1, hp1, S1, rfl⟩ := addIdx_spec S h1
  obtain ⟨p2, hp2, S2, ht2⟩ := getNumber_spec S1 hn h2
  refine ⟨p2, ?_, S2, ht2⟩
  unfold parsePhase
  rw [hp1, bind_some, hp2, bind_some, hq]
  rfl

theorem set_spec (S : Sound q.port) (hq : q.skipping = false)
    (ht : (lengthPieces 3 ++ [(5, setWord ++ crlf)]).foldlM Tape.piece q.port.tape = some t) :
    ∃ p', parsePhase q 0 = some { q with port := p', nd := { q.nd with type := .write } } ∧
      Sound p' ∧ p'.tape = t := by
  rw [foldlM_append] at ht
  obtain ⟨t1, h1, h2⟩ := bind_eq_some_iff.mp ht
  obtain ⟨t2, h2, h⟩ := bind_eq_some_iff.mp h2
  cases h
  obtain ⟨p1, hp1, S1, rfl⟩ := length_spec 0 S hq (by decide) h1
  obtain ⟨p2, hp2, S2, ht2⟩ := strncmp_spec S1 rfl h2
  refine ⟨p2, ?_, S2, ht2⟩
  rw [hp1, parseField, parseWord]
  simp only [Nat.cast_ofNat, hp2, bind_some, if_true]

theorem get_spec (S : Sound q.port) (hq : q.skipping = false)
    (ht : (lengthPieces 3 ++ [(5, []), (5, getWord ++ crlf)]).foldlM Tape.piece q.port.tape =
      some t) :
    ∃ p', parsePhase q 0 = some { q with port := p', nd := { q.nd with type := .read } } ∧
      Sound p' ∧ p'.tape = t := by
  rw [foldlM_append] at ht
  obtain ⟨t1, h1, h2⟩ := bind_eq_some_iff.mp ht
  obtain ⟨t2, h2, h3⟩ := bind_eq_some_iff.mp h2
  obtain ⟨t3, h3, h⟩ := bind_eq_some_iff.mp h3
  cases h
  obtain ⟨p1, hp1, S1, rfl⟩ := length_spec 0 S hq (by decide) h1
  obtain ⟨p2, hp2, S2, rfl⟩ := strncmp_other S1 h2 h3
  obtain ⟨p3, hp3, S3, ht3⟩ := strncmp_spec S2 rfl h3
  refine ⟨p3, ?_, S3, ht3⟩
  rw [hp1, parseField, parseWord]
  simp only [Nat.cast_ofNat, hp2, hp3, bind_some, map_some, Bool.false_eq_true, if_false, if_true]

theorem key_spec {k : List UInt8} (S : Sound q.port) (hq : q.skipping = false)
    (hk : k.length ≤ 255) (ht : (keyPieces k).foldlM Tape.piece q.port.tape = some t) :
    ∃ p', parsePhase q 1 = some { q with
        port := p'
        nd := { q.nd with keylen := UInt8.ofInt k.length, key := write q.nd.key 0 k } } ∧
      Sound p' ∧ p'.tape = t := by
  rw [keyPieces, foldlM_append] at ht
  obtain ⟨t1, h1, h2⟩ := bind_eq_some_iff.mp ht
  obtain ⟨t2, h2, h⟩ := bind_eq_some_iff.mp h2
  cases h
  obtain ⟨p1, hp1, S1, rfl⟩ := length_spec 1 S hq (by omega) h1
  obtain ⟨p2, hp2, S2, ht2⟩ := cpyLen_spec q.nd.key S1 hk h2
  refine ⟨p2, ?_, S2, ht2⟩
  rw [hp1, parseField, hp2]
  rfl

theorem keylen_eq {k : List UInt8} (hk : k.length ≤ 255) :
    (UInt8.ofInt (k.length : Int)).toNat = k.length := by
  simp only [UInt8.ofInt, UInt8.toNat_ofNat']
  omega

theorem readRedis_spec {c : Command} (hok : c.Ok) (S : Sound p) (ht : p.tape.parse c = some t)
    (nd : Netdata) :
    ∃ ret nd' p', fdSockReadRedis p nd = some (ret, nd', p') ∧ c.Answers ret nd' ∧ Sound p' ∧
      p'.tape = t := by
  unfold Tape.parse at ht
  cases c with
  | get key =>
    rw [Command.pieces, foldlM_append] at ht
    obtain ⟨t1, h1, ht⟩ := bind_eq_some_iff.mp ht
    rw [foldlM_append] at ht
    obtain ⟨t2, h2, h3⟩ := bind_eq_some_iff.mp ht
    obtain ⟨p1, hp1, S1, rfl⟩ := head_spec S (by decide) h1
    obtain ⟨p2, hp2, S2, rfl⟩ := get_spec (q := ⟨p1, nd, false⟩) S1 rfl h2
    obtain ⟨p3, hp3, S3, ht3⟩ := key_spec (q := ⟨p2, { nd with type := .read }, false⟩) S2 rfl
      hok.2 h3
    refine ⟨0, ⟨.read, UInt8.ofInt key.length, write nd.key 0 key, nd.valuelen⟩, p3, ?_,
      ⟨rfl, rfl, keylen_eq hok.2, slice_write_self nd.key 0 key⟩, S3, ht3⟩
    rw [hp1, show range 2 = [0, 1] from rfl, foldlM_cons, hp2, bind_eq_bind,
      bind_some, foldlM_cons, hp3]
    rfl
  | set key value =>
    rw [Command.pieces, foldlM_append] at ht
    obtain ⟨t1, h1, ht⟩ := bind_eq_some_iff.mp ht
    rw [foldlM_append] at ht
    obtain ⟨t2, h2, ht⟩ := bind_eq_some_iff.mp ht
    rw [foldlM_append] at ht
    obtain ⟨t3, h3, h4⟩ := bind_eq_some_iff.mp ht
    obtain ⟨p1, hp1, S1, rfl⟩ := head_spec S (by decide) h1
    obtain ⟨p2, hp2, S2, rfl⟩ := set_spec (q := ⟨p1, nd, false⟩) S1 rfl h2
    obtain ⟨p3, hp3, S3, rfl⟩ := key_spec (q := ⟨p2, { nd with type := .write }, false⟩) S2 rfl
      hok.1.2 h3
    obtain ⟨p4, hp4, S4, ht4⟩ := length_spec 2
      (q := ⟨p3, ⟨.write, UInt8.ofInt key.length, write nd.key 0 key, nd.valuelen⟩, false⟩)
      S3 rfl hok.2 h4
    refine ⟨1, ⟨.write, UInt8.ofInt key.length, write nd.key 0 key, UInt32.ofInt value.length⟩,
      p4, ?_, ⟨rfl, rfl, keylen_eq hok.1.2, slice_write_self nd.key 0 key, ?_⟩, S4, ht4⟩
    · rw [hp1, show range 3 = [0, 1, 2] from rfl, foldlM_cons, hp2, bind_eq_bind,
        bind_some, foldlM_cons, hp3, bind_eq_bind, bind_some,
        foldlM_cons, hp4]
      rfl
    · simp only [UInt32.ofInt, UInt32.toNat_ofNat']
      have := hok.2
      omega

end

/-! ## Commands that come in time -/

section
variable {t : Tape} {rest : List UInt8}

theorem last_newline {qs : List (Nat × List UInt8)} (hne : qs ≠ [])
    (hlast : ∀ q ∈ qs.getLast?, q.2.getLast? = some 10) (hrest : ∀ b ∈ rest.getLast?, b = 10) :
    (qs.flatMap Prod.snd ++ rest).getLast? = some 10 := by
  rw [getLast?_append]
  cases hr : rest.getLast? with
  | some b => rw [hrest b hr, some_or]
  | none =>
    obtain ⟨init, q, rfl⟩ := eq_nil_or_concat qs |>.resolve_left hne
    have hq := hlast q (by simp)
    rw [concat_eq_append, flatMap_append, none_or, getLast?_append, flatMap_singleton, hq, some_or]

theorem piece_in {q : Nat × List UInt8} (hlate : t.late = []) (hneed : q.1 ≤ maxbuf)
    (hready : t.ready = q.2 ++ rest) (hend : (t.ready ++ t.queue).getLast? = some 10) :
    ∃ t' more, t.piece q = some t' ∧ t'.late = [] ∧ t'.ready = rest ++ more ∧
      more ++ t'.queue = t.queue := by
  have huse : ∀ (t' : Tape) (more : List UInt8), t'.ready = t.ready ++ more →
      t'.use q.2 = some { t' with ready := rest ++ more } := by
    intro t' more h
    unfold Tape.use
    rw [h, hready, append_assoc, if_pos (prefix_append _ _), drop_left]
  unfold Tape.piece Tape.fill
  split
  · exact ⟨_, [], huse t [] (append_nil _).symm, hlate, rfl, rfl⟩
  · rename_i hc
    split
    · exact ⟨_, [], huse { t with fit := true } [] (append_nil _).symm, hlate, rfl, rfl⟩
    · rename_i hne
      rw [not_or] at hc
      -- the last byte of all is still in the queue
      have hq : t.queue ≠ [] := by
        intro he
        rw [he, append_nil] at hend
        exact hne hend
      unfold Tape.read
      dsimp only
      rw [hlate, headD_nil, append_nil, if_neg (by rw [not_or]; exact ⟨hq, by omega⟩)]
      exact ⟨_, _, huse _ _ rfl, rfl, rfl, take_append_drop _ _⟩

theorem pieces_in (rest : List UInt8) {qs : List (Nat × List UInt8)} (hlate : t.late = [])
    (hneed : ∀ q ∈ qs, q.1 ≤ maxbuf) (hready : t.ready = qs.flatMap Prod.snd ++ rest)
    (hlast : ∀ q ∈ qs.getLast?, q.2.getLast? = some 10)
    (hrest : ∀ b ∈ (rest ++ t.queue).getLast?, b = 10) :
    ∃ t', qs.foldlM Tape.piece t = some t' ∧ t'.late = [] := by
  induction qs generalizing t rest with
  | nil => exact ⟨t, rfl, hlate⟩
  | cons q qs ih =>
    have hend : (t.ready ++ t.queue).getLast? = some 10 := by
      rw [hready, append_assoc]
      exact last_newline (cons_ne_nil q qs) hlast hrest
    rw [flatMap_cons, append_assoc] at hready
    obtain ⟨t', more, h', hlate', hready', hqueue⟩ := piece_in hlate (hneed q (.head _)) hready hend
    rw [append_assoc] at hready'
    obtain ⟨t2, h2, hlate2⟩ := ih _ hlate' (fun q hq => hneed q (.tail _ hq)) hready'
      (fun q hq => hlast q (mem_getLast?_cons hq)) (by rwa [append_assoc, hqueue])
    exact ⟨t2, by rw [foldlM_cons, h']; exact h2, hlate2⟩

theorem pieces_split {qs : List (Nat × List UInt8)} {b : List UInt8} (hfit : t.fit = false)
    (hqueue : t.queue = []) (hlate : t.late = [b]) (hne : t.ready.getLast? ≠ some 10)
    (hshort : t.ready.length < (qs.flatMap Prod.snd).length)
    (hfits : (qs.flatMap Prod.snd).length ≤ maxbuf)
    (hneed : ∀ q ∈ qs, q.2.length ≤ q.1 ∧ q.1 ≤ maxbuf)
    (hbytes : t.ready ++ b = qs.flatMap Prod.snd ++ rest)
    (hlast : ∀ q ∈ qs.getLast?, q.2.getLast? = some 10) (hrest : ∀ b ∈ rest.getLast?, b = 10) :
    ∃ t', qs.foldlM Tape.piece t = some t' ∧ t'.late = [] := by
  induction qs generalizing t with
  | nil => exact absurd hshort (Nat.not_lt_zero _)
  | cons q qs ih =>
    have hq := hneed q (.head _)
    have hlast' : ∀ q ∈ qs.getLast?, q.2.getLast? = some 10 :=
      fun q hq => hlast q (mem_getLast?_cons hq)
    rw [flatMap_cons, length_append] at hshort hfits
    rw [flatMap_cons, append_assoc] at hbytes
    rw [foldlM_cons]
    by_cases hle : q.1 ≤ t.ready.length
    · obtain ⟨r, hr⟩ := prefix_of_prefix_length_le (prefix_append q.2 _) ⟨b, hbytes⟩ (by omega)
      have hlen := congrArg length hr
      rw [length_append] at hlen
      have hpiece : t.piece q = some { t with ready := r } := by
        unfold Tape.piece Tape.fill Tape.use
        rw [if_pos (.inr hle), bind_some, ← hr, if_pos (prefix_append _ _), drop_left]
      rw [← hr, append_assoc] at hbytes
      rw [hpiece]
      refine ih hfit hqueue hlate (fun h => hne ?_) (by change r.length < _; omega) (by omega)
        (fun q hq => hneed q (.tail _ hq)) (append_cancel_left hbytes) hlast'
      rw [← hr, getLast?_append, show r.getLast? = some 10 from h]
      rfl
    · have hb : b ≠ [] := by
        intro he
        have := congrArg length hbytes
        rw [he] at this
        simp only [length_append, length_nil] at this
        omega
      have hlt : t.ready.length < maxbuf := by omega
      set n := maxbuf - t.ready.length with hn
      have hfill : t.fill q.1 = some ⟨t.ready ++ b.take n, t.fit, b.drop n, []⟩ := by
        unfold Tape.fill Tape.read
        rw [if_neg (by rw [not_or, hfit]; exact ⟨by decide, hle⟩), if_neg hne]
        dsimp only
        rw [hqueue, hlate, ← hn, if_neg (by rw [not_or]; exact ⟨hb, by omega⟩)]
        rfl
      -- all the pieces are there after the read
      have hwhole : t.ready ++ b.take n <+: q.2 ++ (qs.flatMap Prod.snd ++ rest) :=
        ⟨b.drop n, by rw [append_assoc, take_append_drop, hbytes]⟩
      have hlen : q.2.length + (qs.flatMap Prod.snd).length ≤ (t.ready ++ b.take n).length := by
        have := congrArg length hbytes
        simp only [length_append, length_take] at this ⊢
        omega
      rw [← append_assoc] at hwhole
      obtain ⟨r, hr⟩ := prefix_of_prefix_length_le (prefix_append _ rest) hwhole
        (by rw [length_append]; exact hlen)
      have hpiece : t.piece q = some ⟨qs.flatMap Prod.snd ++ r, t.fit, b.drop n, []⟩ := by
        unfold Tape.piece Tape.use
        rw [hfill, bind_some, ← hr, append_assoc, if_pos (prefix_append _ _), drop_left]
      have hcut : r ++ b.drop n = rest := by
        have h : q.2 ++ qs.flatMap Prod.snd ++ (r ++ b.drop n) =
            q.2 ++ qs.flatMap Prod.snd ++ rest := by
          rw [← append_assoc, hr, append_assoc, take_append_drop, hbytes, append_assoc]
        exact append_cancel_left h
      rw [hpiece]
      exact pieces_in r rfl (fun q hq => (hneed q (.tail _ hq)).2) rfl hlast' (by rwa [hcut])

theorem piece_of_fill {t' : Tape} {q : Nat × List UInt8} (h : t.fill q.1 = some t')
    (hle : q.1 ≤ t'.ready.length) : t.piece q = t'.piece q := by
  unfold Tape.piece
  rw [h, Tape.fill, if_pos (.inr hle)]

end

section
variable {c : Command}

theorem Command.pieces_last : ∀ q ∈ c.pieces.getLast?, q.2.getLast? = some 10 := by
  cases c <;> simp [Command.pieces, keyPieces, lengthPieces, crlf, getLast?_append]

theorem decimal_length_le {n : Nat} (h : n < 10 ^ 4) : (decimal n).length ≤ 4 := by
  have hle : ∀ fuel n, getDigitLenFrom fuel n ≤ fuel + 1 := by
    intro fuel
    induction fuel with
    | zero => exact fun _ => le_rfl
    | succ fuel ih =>
      intro n
      rw [getDigitLenFrom]
      split
      · omega
      · have := ih (n / 10)
        omega
  rw [← show getDigitLenFrom 3 n = _ from getDigitLenFrom_eq h]
  exact hle 3 n

/-- The value's length has at most four digits, the number of bytes that `buf_get_number` asks for. -/
def Command.Short : Command → Prop
  | get _ => True
  | set _ value => value.length < 10 ^ 4

theorem lengthPieces_need {n : Nat} {q : Nat × List UInt8} (hq : q ∈ lengthPieces n) :
    q.1 ≤ 6 ∧ (n < 10 ^ 4 → q.2.length ≤ q.1) := by
  simp only [lengthPieces, mem_cons, not_mem_nil, or_false] at hq
  rcases hq with rfl | rfl
  · exact ⟨by decide, fun _ => le_rfl⟩
  · refine ⟨le_rfl, fun hn => ?_⟩
    have := decimal_length_le hn
    rw [length_append]
    change _ + 2 ≤ 6
    omega

theorem keyPieces_need {k : List UInt8} (hk : k.length ≤ 255) {q : Nat × List UInt8}
    (hq : q ∈ keyPieces k) : (q.1 ≤ 6 ∨ q.1 = q.2.length) ∧ q.2.length ≤ q.1 := by
  rw [keyPieces, mem_append, mem_singleton] at hq
  rcases hq with hq | rfl
  · have := lengthPieces_need hq
    exact ⟨.inl this.1, this.2 (by omega)⟩
  · have hlen : (k ++ crlf).length = k.length + 2 := length_append
    exact ⟨.inr hlen.symm, hlen.le⟩

theorem Command.pieces_need (hok : c.Ok) {q : Nat × List UInt8} (hq : q ∈ c.pieces) :
    (q.1 ≤ 6 ∨ q.1 = q.2.length) ∧ (c.Short → q.2.length ≤ q.1) := by
  have hhead : ∀ n, n < 10 → q ∈ headPieces n → q.1 ≤ 6 ∧ q.2.length ≤ q.1 := by
    intro n hn hq
    simp only [headPieces, decimal_small hn, mem_cons, not_mem_nil, or_false] at hq
    rcases hq with rfl | rfl
    · exact ⟨by decide, le_rfl⟩
    · exact ⟨le_rfl, by simp [crlf]⟩
  have hthree : q ∈ lengthPieces 3 → q.1 ≤ 6 ∧ q.2.length ≤ q.1 := fun h =>
    (lengthPieces_need h).imp_right fun h => h (by decide)
  cases c with
  | get key =>
    simp only [Command.pieces, mem_append, mem_cons, not_mem_nil, or_false] at hq
    rcases hq with hq | (hq | rfl | rfl) | hq
    · exact (hhead 2 (by decide) hq).imp .inl fun h _ => h
    · exact (hthree hq).imp .inl fun h _ => h
    · exact ⟨.inl (by decide), fun _ => by decide⟩
    · exact ⟨.inl (by decide), fun _ => by decide⟩
    · exact (keyPieces_need hok.2 hq).imp_right fun h _ => h
  | set key value =>
    simp only [Command.pieces, mem_append, mem_cons, not_mem_nil, or_false] at hq
    rcases hq with hq | (hq | rfl) | hq | hq
    · exact (hhead 3 (by decide) hq).imp .inl fun h _ => h
    · exact (hthree hq).imp .inl fun h _ => h
    · exact ⟨.inl (by decide), fun _ => by decide⟩
    · exact (keyPieces_need hok.1.2 hq).imp_right fun h _ => h
    · exact (lengthPieces_need hq).imp .inl id

theorem Command.pieces_fit (hok : c.Ok) (hfit : c.header.length ≤ maxbuf)
    {q : Nat × List UInt8} (hq : q ∈ c.pieces) : q.1 ≤ maxbuf := by
  have hlen : q.2.length ≤ c.header.length := by
    rw [← Command.pieces_eq, length_flatMap]
    exact le_sum_of_mem (mem_map_of_mem hq)
  rcases (Command.pieces_need hok hq).1 with h | h
  · exact h.trans (by decide)
  · omega

/-- How a command may come when the buffer is empty: before the call, in any pieces and perhaps
with other lines behind it, or with a second part that comes before the second read and does not
begin a line. -/
inductive Delivered (c : Command) : List UInt8 → List (List UInt8) → Prop
  | whole {rest : List UInt8} (hfit : c.header.length ≤ maxbuf)
      (hrest : ∀ b ∈ rest.getLast?, b = 10) : Delivered c (c.header ++ rest) []
  | split {a b rest : List UInt8} (hfit : c.header.length ≤ maxbuf) (hvalue : c.Short)
      (hrest : ∀ b ∈ rest.getLast?, b = 10) (hbytes : a ++ b = c.header ++ rest) (ha : a ≠ [])
      (hshort : a.length < c.header.length) (hne : a.getLast? ≠ some 10) : Delivered c a [[], b]

theorem Delivered.parse {queue : List UInt8} {late : List (List UInt8)}
    (h : Delivered c queue late) (hok : c.Ok) (fit : Bool) :
    ∃ t, (Tape.mk [] fit queue late).parse c = some t ∧ t.late = [] := by
  -- the first read takes what has arrived
  have hfirst : ∀ t : Tape, t.ready ≠ [] → (Tape.mk [] false queue late).read = some t →
      (Tape.mk [] fit queue late).parse c = c.pieces.foldlM Tape.piece t := by
    intro t hne ht
    obtain ⟨q, qs, hqs, hq⟩ : ∃ q qs, c.pieces = q :: qs ∧ q.1 = 1 := by
      cases c <;> exact ⟨_, _, rfl, rfl⟩
    have hfill : (Tape.mk [] false queue late).fill q.1 = some t := by
      rw [hq, Tape.fill, if_neg (by simp), if_neg (by simp), ht]
    have hpos := length_pos_iff.mpr hne
    unfold Tape.parse
    rw [hqs, foldlM_cons, foldlM_cons]
    exact congrArg (bind · _) (piece_of_fill hfill (by omega))
  have hpos : c.header ≠ [] := by cases c <;> exact cons_ne_nil _ _
  cases h with
  | @whole rest hfit hrest =>
    have hread : (Tape.mk [] false (c.header ++ rest) []).read =
        some ⟨(c.header ++ rest).take maxbuf, false, (c.header ++ rest).drop maxbuf, []⟩ := by
      unfold Tape.read
      simp [hpos, maxbuf]
    rw [hfirst _ ?_ hread]
    · refine pieces_in (rest.take (maxbuf - c.header.length)) rfl
        (fun q => Command.pieces_fit hok hfit) ?_ Command.pieces_last ?_
      · rw [Command.pieces_eq, take_append, take_of_length_le hfit]
      · dsimp only
        rw [drop_append, drop_of_length_le hfit, nil_append, take_append_drop]
        exact hrest
    · dsimp only
      rw [take_append, take_of_length_le hfit]
      exact append_ne_nil_of_left_ne_nil hpos _
  | @split _ b rest hfit hvalue hrest hbytes ha hshort hne =>
    have hle : queue.length ≤ maxbuf := by omega
    have hread : (Tape.mk [] false queue [[], b]).read = some ⟨queue, false, [], [b]⟩ := by
      unfold Tape.read
      simpa [ha, maxbuf] using hle
    rw [hfirst ⟨queue, false, [], [b]⟩ ha hread]
    refine pieces_split rfl rfl rfl hne ?_ ?_ (fun q hq => ⟨(Command.pieces_need hok hq).2 hvalue,
      Command.pieces_fit hok hfit hq⟩) ?_ Command.pieces_last hrest
    · rw [Command.pieces_eq]
      exact hshort
    · rw [Command.pieces_eq]
      exact hfit
    · rw [Command.pieces_eq]
      exact hbytes

end

/-! ## Runs -/

/-- The connection, and what the calls have returned. -/
structure Session where
  port : Port
  log : List (Int × Netdata)

inductive Event
  | arrive (bs : List UInt8)
  | call (nd : Netdata) (late : List (List UInt8))

def Session.record (s : Session) (res : Int × Netdata × Port) : Option Session :=
  if res.2.2.late = [] then some ⟨res.2.2, s.log ++ [(res.1, res.2.1)]⟩ else none

/-- A call starts once something is reported; `late` is what arrives before its reads. -/
def Session.call (s : Session) (nd : Netdata) (late : List (List UInt8)) : Option Session :=
  if s.port.pending then
    (fdSockReadRedis { s.port with pending := false, late := late } nd).bind s.record
  else none

def Session.step (s : Session) : Event → Option Session
  | .arrive bs => some { s with port := s.port.arrive bs }
  | .call nd late => s.call nd late

/-- mirrors include/flash_sock/fd_sock.c:74 -/
def newPort : Port := ⟨0, 0, false, fun _ => 0, false, [], [], false, false⟩

def session : LTS Session Event where
  init s := s = ⟨newPort, []⟩
  step s e s' := s.step e = some s'

/-- The bytes that an event brings. -/
def Event.bytes : Event → List UInt8
  | .arrive bs => bs
  | .call _ late => late.flatten

/-- Each call finds the pieces of the next command in time. -/
def Fed (cs : List Command) (s : Session) : Event → Prop
  | .arrive _ => True
  | .call _ late => ((cs[s.log.length]?).bind fun c =>
      (Port.tape { s.port with late := late }).parse c).map Tape.late = some []

instance (cs : List Command) (s : Session) (e : Event) : Decidable (Fed cs s e) :=
  match e with
  | .arrive _ => inferInstanceAs (Decidable True)
  | .call _ _ => inferInstanceAs (Decidable (_ = _))

/-- What the calls have returned, and what is left. -/
structure Followed (cs : List Command) (tr : List Event) (s : Session) : Prop where
  sound : Sound s.port
  late : s.port.late = []
  stream : tr.flatMap Event.bytes = (cs.take s.log.length).flatMap Command.header ++ s.port.tape.stream
  answers : List.Forall₂ (fun c (a : Int × Netdata) => c.Answers a.1 a.2) (cs.take s.log.length) s.log

section
variable {cs : List Command} {tr : List Event} {s s' : Session} {nd : Netdata}
  {late : List (List UInt8)}

theorem Followed.call (h : Followed cs tr s) (hok : ∀ c ∈ cs, c.Ok) (hp : s.port.pending = true)
    (hfed : Fed cs s (.call nd late)) :
    ∃ c ret nd' s', cs[s.log.length]? = some c ∧ s.call nd late = some s' ∧
      s'.log = s.log ++ [(ret, nd')] ∧ c.Answers ret nd' ∧
      Followed cs (tr ++ [.call nd late]) s' := by
  obtain ⟨t, ht, hlate⟩ := map_eq_some_iff.mp hfed
  obtain ⟨c, hc, ht⟩ := bind_eq_some_iff.mp ht
  obtain ⟨hlt, hget⟩ := List.getElem?_eq_some_iff.mp hc
  have S : Sound { s.port with pending := false, late := late } :=
    ⟨h.sound.idx, h.sound.remain, h.sound.fits, h.sound.start⟩
  obtain ⟨ret, nd', p', hcall, hans, S', rfl⟩ :=
    readRedis_spec (hok c (hget ▸ getElem_mem hlt)) S ht nd
  have htake : cs.take (s.log.length + 1) = cs.take s.log.length ++ [c] := by
    rw [take_add_one, hc]
    rfl
  have hlen : (s.log ++ [(ret, nd')]).length = s.log.length + 1 := length_append
  refine ⟨c, ret, nd', ⟨p', s.log ++ [(ret, nd')]⟩, hc, ?_, rfl, hans, S', hlate, ?_, ?_⟩
  · unfold Session.call
    rw [if_pos hp, hcall, bind_some]
    exact if_pos hlate
  · have hold : s.port.tape.stream ++ late.flatten =
        (Port.tape { s.port with late := late }).stream := by
      simp only [Tape.stream, Port.tape, h.late, flatten_nil, append_nil, append_assoc]
    rw [flatMap_append, h.stream, hlen, htake, flatMap_append, append_assoc,
      append_assoc, flatMap_singleton, flatMap_singleton]
    congr 1
    exact hold.trans (Tape.parse_stream ht)
  · rw [hlen, htake]
    exact rel_append h.answers (.cons hans .nil)

theorem followed_inductive (hok : ∀ c ∈ cs, c.Ok) :
    (session.restrict (Fed cs)).HistInductive (Followed cs) where
  init := by
    rintro s rfl
    exact ⟨⟨le_rfl, le_rfl, Int.natCast_nonneg maxbuf, fun _ => rfl⟩, rfl, rfl, .nil⟩
  step := by
    rintro tr s e s' h ⟨hs, hfed⟩
    cases e with
    | arrive bs =>
      cases hs
      refine ⟨⟨h.sound.idx, h.sound.remain, h.sound.fits, h.sound.start⟩, h.late, ?_, h.answers⟩
      rw [flatMap_append, h.stream, append_assoc, flatMap_singleton]
      congr 1
      simp only [Tape.stream, Port.arrive, Port.tape, h.late, flatten_nil, append_nil,
        append_assoc, Event.bytes]
    | call nd late =>
      have hp : s.port.pending = true := by
        by_contra hp
        exact absurd hs (by simp [session, Session.step, Session.call, hp])
      obtain ⟨c, ret, nd', s2, -, hcall, -, -, h'⟩ := h.call hok hp hfed
      cases hcall.symm.trans hs
      exact h'

end

/-- As long as each call finds the pieces of the next command in time: the calls return the
commands in order, what was sent is what they have used and what is left, the indices stay in
the buffer, and so it goes on with the next call; it is in time if the command is delivered. -/
theorem redis_requests {cs : List Command} (hok : ∀ c ∈ cs, c.Ok) {tr : List Event} {s : Session}
    (h : (session.restrict (Fed cs)).Exec tr s) :
    List.Forall₂ (fun c (a : Int × Netdata) => c.Answers a.1 a.2) (cs.take s.log.length) s.log ∧
      tr.flatMap Event.bytes = (cs.take s.log.length).flatMap Command.header ++ s.port.tape.stream ∧
      (0 ≤ s.port.idx ∧ 0 ≤ s.port.remain ∧ s.port.idx + s.port.remain ≤ maxbuf) ∧
      (∀ nd late, s.port.pending = true → Fed cs s (.call nd late) →
        ∃ c ret nd' s', cs[s.log.length]? = some c ∧ s.call nd late = some s' ∧
          s'.log = s.log ++ [(ret, nd')] ∧ c.Answers ret nd') ∧
      ∀ nd late c, cs[s.log.length]? = some c → s.port.remain = 0 →
        Delivered c s.port.queue late → Fed cs s (.call nd late) := by
  have F := h.history_inv (followed_inductive hok)
  refine ⟨F.answers, F.stream, ⟨F.sound.idx, F.sound.remain, F.sound.fits⟩,
    fun nd late hp hfed => ?_, fun nd late c hc hr hd => ?_⟩
  · obtain ⟨c, ret, nd', s', hc, hcall, hlog, hans, -⟩ := F.call hok hp hfed
    exact ⟨c, ret, nd', s', hc, hcall, hlog, hans⟩
  · obtain ⟨t, ht, hlate⟩ := hd.parse (hok c (mem_of_getElem? hc)) s.port.isfitbuffer
    have htape : Port.tape { s.port with late := late } =
        ⟨[], s.port.isfitbuffer, s.port.queue, late⟩ := by
      unfold Port.tape
      rw [hr]
      rfl
    change Option.map Tape.late _ = _
    rw [hc, bind_some, htape, ht, map_some, hlate]

/-- `GET a` -/
def getA : Command := .get [97]

/-- `SET a b` -/
def setA : Command := .set [97] [98]

def noData : Netdata := ⟨.non, 0, fun _ => 0, 0⟩

/-- A GET whose key the buffer holds only after it has slid on. -/
def longGet : Command := .get (replicate 126 98)

def threeCommands : List Command := [longGet, getA, setA]

/-- The first command has arrived in three pieces, the second is cut in its word and the rest
comes during the call, the third has arrived whole. -/
def cutStream : List Event :=
  [.arrive (longGet.encode.take 5), .arrive ((longGet.encode.drop 5).take 125),
    .arrive (longGet.encode.drop 130), .call noData [],
    .arrive (getA.encode.take 10), .call noData [[], getA.encode.drop 10], .arrive setA.encode]

theorem redis_requests_cut : ∃ s, (session.restrict (Fed threeCommands)).Exec cutStream s ∧
    s.log.length = 2 ∧ s.port.remain = 0 ∧ s.port.queue = setA.encode ∧
    List.Forall₂ (fun c (a : Int × Netdata) => c.Answers a.1 a.2) [longGet, getA] s.log ∧
    ∃ ret nd s', s.call noData [] = some s' ∧ s'.log = s.log ++ [(ret, nd)] ∧
      setA.Answers ret nd := by
  have hok : ∀ c ∈ threeCommands, c.Ok := by
    intro c hc
    simp only [threeCommands, mem_cons, not_mem_nil, or_false] at hc
    rcases hc with rfl | rfl | rfl
    · exact ⟨by simp, by simp⟩
    · exact ⟨le_rfl, by decide⟩
    · exact ⟨⟨le_rfl, by decide⟩, by decide⟩
  obtain ⟨s, hs, hst⟩ := map_eq_some_iff.mp (show
    ((LTS.run Session.step (fun s e => decide (Fed threeCommands s e)) cutStream
      ⟨newPort, []⟩).map fun s => (s.log.length, s.port.remain, s.port.queue, s.port.pending)) =
      some (2, 0, setA.encode, true) by decide +kernel)
  simp only [Prod.mk.injEq] at hst
  obtain ⟨hlog, hrem, hqueue, hp⟩ := hst
  have hx : (session.restrict (Fed threeCommands)).Exec ([] ++ cutStream) s :=
    LTS.Exec.run (T := session.restrict (Fed threeCommands))
      (fun s e s' hok hs => ⟨hs, of_decide_eq_true hok⟩) (.init rfl) hs
  obtain ⟨hans, -, -, hnext, hfed⟩ := redis_requests hok hx
  have hthird : threeCommands[s.log.length]? = some setA := by
    rw [hlog]
    rfl
  have hd : Delivered setA s.port.queue [] := by
    rw [hqueue]
    change Delivered setA (setA.header ++ setA.body) []
    exact .whole (by decide +kernel) (by simp [setA, Command.body, crlf])
  obtain ⟨c, ret, nd, s', hc, hcall, hlog', ha⟩ := hnext noData [] hp (hfed _ _ _ hthird hrem hd)
  cases hthird.symm.trans hc
  rw [hlog] at hans
  exact ⟨s, hx, hlog, hrem, hqueue, hans, ret, nd, s', hcall, hlog', ha⟩

/-- The value of a SET is taken for the command that follows. -/
theorem value_not_skipped : setA.Ok ∧ getA.Ok ∧ ∃ s a b,
    session.Exec [.arrive setA.encode, .call noData [], .arrive getA.encode, .call noData []] s ∧
    s.log = [a, b] ∧ setA.Answers a.1 a.2 ∧ ¬ getA.Answers b.1 b.2 := by
  obtain ⟨s, hs, hlog⟩ := map_eq_some_iff.mp (show ((LTS.run Session.step (fun _ _ => true)
    [.arrive setA.encode, .call noData [], .arrive getA.encode, .call noData []]
    ⟨newPort, []⟩).map fun s => s.log.map fun a =>
      (decide (setA.Answers a.1 a.2), decide (getA.Answers a.1 a.2))) =
    some [(true, false), (false, false)] by decide +kernel)
  have hx := LTS.Exec.run (T := session) (fun s e s' _ hs => hs) (.init rfl) hs
  obtain ⟨a, t, hl, ha, ht⟩ := map_eq_cons_iff.mp hlog
  obtain ⟨b, t', rfl, hb, ht'⟩ := map_eq_cons_iff.mp ht
  obtain rfl := map_eq_nil_iff.mp ht'
  simp only [Prod.mk.injEq, decide_eq_true_eq, decide_eq_false_iff_not] at ha hb
  exact ⟨⟨⟨le_rfl, by decide⟩, by decide⟩, ⟨le_rfl, by decide⟩, s, a, b, hx, hl, ha.1, hb.2⟩

end FlashDriver.FlashSock.Redis
