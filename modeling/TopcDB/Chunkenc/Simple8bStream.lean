import Mathlib.Data.List.Induction
import TopcDB.Chunkenc.Simple8b
import TopcDB.Lib.Codec

/-! # Streams of Simple8b words (`Simple8bEncoder`, `Simple8bDecoder`)

The encoder keeps the values it has not packed yet in a buffer of 240 elements, and the words it
has packed as bytes. `Encodes e ws p` says that it has written the words `ws` and holds the values
`p`: every operation takes values from `p` to `ws` and loses none (`Encodes.write`,
`Encodes.getBytes`) as long as no value has more than 60 bits. Such a value blocks the encoder for
good: once it is held, `Bytes` fails. The decoder gives the values of the words back one by one
(`next_cons`, `next_nil`). -/

namespace TopcDB.Chunkenc.Simple8bStream

open List Lib.Bits Go.Basic Simple8b

/-! ### The encoder -/

/-- The encoder. Its scratch array of eight bytes is written before every use and left out. -/
structure Simple8bEncoder where
  buf : List U64
  h : ℕ
  t : ℕ
  bp : ℕ
  bytes : List Byte
  deriving DecidableEq

def newSimple8bEncoder : Simple8bEncoder where
  buf := replicate 240 0#64
  h := 0
  t := 0
  bp := 0
  bytes := replicate 128 0#8

namespace Simple8bEncoder

variable (e : Simple8bEncoder)

/-- The middle of `flush`: one word is written at `bp`. -/
def putWord (b : List Byte) : Simple8bEncoder :=
  if e.bytes.length < e.bp + 8 then
    { e with bytes := e.bytes ++ b, bp := (e.bytes ++ b).length }
  else
    { e with bytes := e.bytes.take e.bp ++ b ++ e.bytes.drop (e.bp + 8), bp := e.bp + 8 }

/-- The end of `flush`: the head moves, and an empty buffer starts again at the beginning. -/
def moveHead (n : ℕ) : Simple8bEncoder :=
  if e.h + n = e.t then { e with h := 0, t := 0 } else { e with h := e.h + n }

def flush : Except Err Simple8bEncoder :=
  if e.t = 0 then .ok e
  else
    match encode ((e.buf.take e.t).drop e.h) with
    | .error err => .error err
    | .ok (encoded, n) => .ok ((e.putWord (beBytes 8 encoded.toNat)).moveHead n)

/-- The middle of `Write`: a full buffer is moved down over its free front. -/
def shift : Simple8bEncoder :=
  if e.buf.length ≤ e.t then
    { e with
      buf := e.buf.drop e.h ++ e.buf.drop (e.buf.length - e.h), t := e.t - e.h, h := 0 }
  else e

/-- The end of `Write`. -/
def push (v : U64) : Simple8bEncoder :=
  { e with buf := e.buf.set e.t v, t := e.t + 1 }

/-- `Write`: the encoder afterwards and the error. A failed `Write` drops its value. -/
def write (v : U64) : Simple8bEncoder × Option Err :=
  match if e.buf.length ≤ e.t then e.flush else .ok e with
  | .error err => (e, some err)
  | .ok e => (e.shift.push v, none)

/-- The loop of `Bytes`, of at most `k` turns. -/
def flushAll : ℕ → Simple8bEncoder → Simple8bEncoder × Option Err
  | 0, e => (e, none)
  | k + 1, e =>
    if 0 < e.t then
      match e.flush with
      | .error err => (e, some err)
      | .ok e => flushAll k e
    else (e, none)

/-- `Bytes`: the encoder afterwards, and the bytes or the error. Every turn takes a value out of the
buffer, so that `t` turns are enough. -/
def getBytes : Simple8bEncoder × Except Err (List Byte) :=
  match flushAll e.t e with
  | (e, some err) => (e, .error err)
  | (e, none) => (e, .ok (e.bytes.take e.bp))

/-- A run of `Write` calls whose errors are ignored. -/
def writeAll (vs : List U64) : Simple8bEncoder :=
  vs.foldl (fun e v => (e.write v).1) e

end Simple8bEncoder

/-- The encoder has written the words `ws` and holds the values `p`. -/
structure Encodes (e : Simple8bEncoder) (ws p : List U64) : Prop where
  buf_length : e.buf.length = 240
  head : e.h = 0 ∧ e.t = 0 ∨ e.h < e.t
  t_le : e.t ≤ 240
  held : (e.buf.take e.t).drop e.h = p
  bp_le : e.bp ≤ e.bytes.length
  bytes_dvd : 8 ∣ e.bytes.length
  written : e.bytes.take e.bp = wordsBytes ws

theorem encodes_new : Encodes newSimple8bEncoder [] [] where
  buf_length := length_replicate
  head := .inl ⟨rfl, rfl⟩
  t_le := Nat.zero_le _
  held := rfl
  bp_le := Nat.zero_le _
  bytes_dvd := ⟨16, length_replicate⟩
  written := rfl

/-- Some value has more than 60 bits, which is out of range. -/
def Large (p : List U64) : Prop := ∃ x ∈ p, 2 ^ 60 ≤ x.toNat

theorem Large.of_append {ws p : List U64} (h : Large (wordsValues ws ++ p)) : Large p := by
  obtain ⟨x, hx, hl⟩ := h
  rcases mem_append.1 hx with hx | hx
  · exact absurd (wordsValues_lt hx) (not_lt.2 hl)
  · exact ⟨x, hx, hl⟩

namespace Encodes

variable {e : Simple8bEncoder} {ws p : List U64}

theorem length_held (h : Encodes e ws p) : p.length = e.t - e.h := by
  have := h.buf_length
  have := h.t_le
  rw [← h.held, length_drop, length_take]; omega

theorem bp_eq (h : Encodes e ws p) : e.bp = 8 * ws.length := by
  have h1 := congrArg length h.written
  have := h.bp_le
  rw [length_take, length_wordsBytes] at h1; omega

theorem t_eq_zero (h : Encodes e ws []) : e.t = 0 := by
  have := h.length_held
  rcases h.head with hh | hh
  · exact hh.2
  · simp at this; omega

/-! ### Flushing -/

theorem putWord (h : Encodes e ws p) (w : U64) :
    Encodes (e.putWord (beBytes 8 w.toNat)) (ws ++ [w]) p := by
  obtain ⟨m, hm⟩ := h.bytes_dvd
  have hbp := h.bp_eq
  have hle := h.bp_le
  have hw : wordsBytes (ws ++ [w]) = e.bytes.take e.bp ++ beBytes 8 w.toNat := by
    rw [wordsBytes_append, h.written]; simp [wordsBytes]
  unfold Simple8bEncoder.putWord
  split_ifs with hlt
  · have hfull : e.bp = e.bytes.length := by omega
    refine ⟨h.buf_length, h.head, h.t_le, h.held, le_rfl, ⟨m + 1, by simp [hm]; ring⟩, ?_⟩
    rw [take_length, hw, hfull, take_length]
  · have hlen : (e.bytes.take e.bp ++ beBytes 8 w.toNat).length = e.bp + 8 := by
      simp [Nat.min_eq_left hle]
    refine ⟨h.buf_length, h.head, h.t_le, h.held, ?_, ⟨m, ?_⟩, ?_⟩
    · simp only [length_append, hlen]; omega
    · rw [length_append, hlen, length_drop]; omega
    · rw [take_left' hlen, hw]

theorem moveHead (h : Encodes e ws p) {n : ℕ} (hn : n ≤ p.length) :
    Encodes (e.moveHead n) ws (p.drop n) := by
  have hlen := h.length_held
  have hhead := h.head
  unfold Simple8bEncoder.moveHead
  split_ifs with heq
  · refine ⟨h.buf_length, .inl ⟨rfl, rfl⟩, Nat.zero_le _, ?_, h.bp_le, h.bytes_dvd, h.written⟩
    exact (drop_of_length_le (by omega)).symm
  · refine { h with head := .inr (by simp only; omega), held := ?_ }
    rw [← h.held, drop_drop]

variable {x w v : U64}

/-- **One flush** packs a prefix of the held values into one word, unless the first one is out of
range. -/
theorem flush (h : Encodes e ws (x :: p)) : 2 ^ 60 ≤ x.toNat ∧ (∃ err, e.flush = .error err) ∨
    ∃ e' w n, e.flush = .ok e' ∧ Packs (x :: p) w n ∧ Encodes e' (ws ++ [w]) ((x :: p).drop n) := by
  have hlen := h.length_held
  rw [Simple8bEncoder.flush, if_neg (by simp at hlen; omega), h.held]
  rcases Nat.lt_or_ge x.toNat (2 ^ 60) with hx | hx
  · obtain ⟨w, n, he, hp⟩ := encode_spec p hx
    exact .inr ⟨_, w, n, by rw [he], hp, (h.putWord w).moveHead hp.n_le⟩
  · exact .inl ⟨hx, _, by rw [encode_error hx]⟩

/-! ### Writing one value -/

theorem shift (h : Encodes e ws p) (hp : p.length < 240) :
    Encodes e.shift ws p ∧ e.shift.t < 240 := by
  have hb := h.buf_length
  have hlen := h.length_held
  have ht := h.t_le
  unfold Simple8bEncoder.shift
  split_ifs with hfull
  · have hheld : e.buf.drop e.h = p := by rw [← h.held, take_of_length_le hfull]
    refine ⟨⟨?_, ?_, ?_, ?_, h.bp_le, h.bytes_dvd, h.written⟩, by simp only; omega⟩
    · simp only [length_append, length_drop]; omega
    · have := h.head
      simp only; omega
    · exact (Nat.sub_le _ _).trans ht
    · rw [drop_zero, hheld, take_left' hlen]
  · exact ⟨h, by omega⟩

theorem push (h : Encodes e ws p) (ht : e.t < 240) (v : U64) :
    Encodes (e.push v) ws (p ++ [v]) := by
  have hb := h.buf_length
  have hhead := h.head
  refine ⟨by simpa [Simple8bEncoder.push] using hb, Or.inr ?_, ht, ?_, h.bp_le, h.bytes_dvd,
    h.written⟩
  · simp only [Simple8bEncoder.push]; omega
  · have ht' : e.t < (e.buf.set e.t v).length := by simp; omega
    simp only [Simple8bEncoder.push]
    rw [take_succ_eq_append_getElem ht', getElem_set_self, take_set_of_le le_rfl,
      drop_append_of_le_length (by simp; omega), h.held]

/-- **One write** keeps every value, unless one held before it is out of range: then it may do
nothing. The new value is held last. -/
theorem write (h : Encodes e ws p) (v : U64) : Large p ∧ (e.write v).1 = e ∨
    ∃ e' ws' p', e.write v = (e', none) ∧ Encodes e' (ws ++ ws') (p' ++ [v]) ∧
      wordsValues ws' ++ p' = p := by
  have hb := h.buf_length
  have hlen := h.length_held
  unfold Simple8bEncoder.write
  split_ifs with hfull
  · cases p with
    | nil => rw [h.t_eq_zero] at hfull; omega
    | cons x p =>
      rcases h.flush with ⟨hx, err, hf⟩ | ⟨e', w, n, hf, hpk, h'⟩
      · exact .inl ⟨⟨x, mem_cons_self, hx⟩, by rw [hf]⟩
      · have hn := hpk.n_pos
        have ht := h.t_le
        rw [length_cons] at hlen
        have hlt : ((x :: p).drop n).length < 240 := by
          rw [length_drop, length_cons]; omega
        obtain ⟨h1, h2⟩ := h'.shift hlt
        refine .inr ⟨_, [w], _, by rw [hf], h1.push h2 v, ?_⟩
        simp [wordsValues, hpk.values]
  · obtain ⟨h1, h2⟩ := h.shift (by omega)
    exact .inr ⟨_, [], _, rfl, by simpa using h1.push h2 v, rfl⟩

/-! ### Finishing -/

/-- **The loop of `Bytes`** packs the held values, up to one that is out of range. -/
theorem flushAll : ∀ (k : ℕ) {e : Simple8bEncoder} {ws p : List U64}, Encodes e ws p →
    p.length ≤ k → ∃ e' ws' p', Encodes e' (ws ++ ws') p' ∧ wordsValues ws' ++ p' = p ∧
      (p' = [] ∧ Simple8bEncoder.flushAll k e = (e', none) ∨ Large p' ∧ ∃ err,
        e'.flush = .error err ∧ Simple8bEncoder.flushAll k e = (e', some err))
  | 0, e, ws, p, h, hk =>
    ⟨e, [], p, by simpa using h, rfl, .inl ⟨length_eq_zero_iff.1 (Nat.le_zero.1 hk), rfl⟩⟩
  | k + 1, e, ws, [], h, _ => by
    refine ⟨e, [], [], by simpa using h, rfl, .inl ⟨rfl, ?_⟩⟩
    rw [Simple8bEncoder.flushAll, if_neg (by rw [h.t_eq_zero]; omega)]
  | k + 1, e, ws, x :: p, h, hk => by
    have hlen := h.length_held
    rw [Simple8bEncoder.flushAll, if_pos (by simp at hlen; omega)]
    rcases h.flush with ⟨hx, err, hf⟩ | ⟨e1, w, n, hf, hpk, h1⟩
    · exact ⟨e, [], x :: p, by simpa using h, rfl,
        .inr ⟨⟨x, mem_cons_self, hx⟩, err, hf, by rw [hf]⟩⟩
    · have hn := hpk.n_pos
      obtain ⟨e2, ws', p', h2, hv, hor⟩ := flushAll k h1 (by rw [length_drop]; omega)
      refine ⟨e2, w :: ws', p', by simpa using h2, ?_, by rw [hf]; exact hor⟩
      rw [wordsValues_cons, hpk.values, append_assoc, hv, take_append_drop]

/-- **`Bytes`** packs all held values, or is blocked by one that is out of range. A second `Bytes`
changes nothing and gives the same. -/
theorem getBytes (h : Encodes e ws p) : ∃ ws' p', Encodes e.getBytes.1 (ws ++ ws') p' ∧
    wordsValues ws' ++ p' = p ∧ e.getBytes.1.getBytes = e.getBytes ∧
      (p' = [] ∧ e.getBytes.2 = .ok (wordsBytes (ws ++ ws')) ∨
        Large p' ∧ ∃ err, e.getBytes.2 = .error err) := by
  have hlen := h.length_held
  obtain ⟨e', ws', p', h', hv, ⟨rfl, hf⟩ | ⟨hl, err, hflush, hf⟩⟩ := flushAll e.t h (by omega)
  · have hg : e.getBytes = (e', .ok (wordsBytes (ws ++ ws'))) := by
      rw [Simple8bEncoder.getBytes, hf]
      simp only [h'.written]
    rw [hg]
    refine ⟨ws', [], h', hv, ?_, .inl ⟨rfl, rfl⟩⟩
    rw [Simple8bEncoder.getBytes, h'.t_eq_zero, Simple8bEncoder.flushAll]
    simp only [h'.written]
  · have hg : e.getBytes = (e', .error err) := by rw [Simple8bEncoder.getBytes, hf]
    rw [hg]
    refine ⟨ws', p', h', hv, ?_, .inr ⟨hl, err, rfl⟩⟩
    obtain ⟨x, hx, -⟩ := hl
    have ht : 0 < e'.t := by
      have hheld := h'.length_held
      have := length_pos_of_mem hx
      omega
    obtain ⟨m, hm⟩ := Nat.exists_eq_succ_of_ne_zero ht.ne'
    rw [Simple8bEncoder.getBytes, hm, Simple8bEncoder.flushAll, if_pos ht, hflush]

end Encodes

variable {src vs : List U64} {e : Simple8bEncoder}

/-- Every `Write` keeps the buffer in shape, whether or not its value is kept. -/
theorem exists_encodes_write (h : ∃ ws p, Encodes e ws p) (v : U64) :
    ∃ ws p, Encodes (e.write v).1 ws p := by
  obtain ⟨ws, p, he⟩ := h
  rcases he.write v with ⟨-, hw⟩ | ⟨e', ws', p', hw, he', -⟩
  · exact ⟨ws, p, by rwa [hw]⟩
  · exact ⟨_, _, by rw [hw]; exact he'⟩

/-! ### Whole streams -/

/-- The encoder has packed or holds all values it was given, or holds one that is out of range. -/
theorem encodes_writeAll (vs : List U64) : ∃ ws p, Encodes (newSimple8bEncoder.writeAll vs) ws p ∧
    (∀ x ∈ p, x ∈ vs) ∧ (wordsValues ws ++ p = vs ∨ Large p) := by
  induction vs using List.reverseRecOn with
  | nil => exact ⟨[], [], encodes_new, by simp, .inl rfl⟩
  | append_singleton vs v ih =>
    obtain ⟨ws, p, h, hp, hor⟩ := ih
    have hlast : newSimple8bEncoder.writeAll (vs ++ [v]) =
        ((newSimple8bEncoder.writeAll vs).write v).1 := foldl_append ..
    rw [hlast]
    rcases h.write v with ⟨hl, hw⟩ | ⟨e', ws', p', hw, h', rfl⟩ <;> rw [hw]
    · exact ⟨ws, p, h, fun x hx => mem_append_left _ (hp x hx), .inr hl⟩
    · refine ⟨ws ++ ws', p' ++ [v], h', fun x hx => ?_, hor.imp (fun hv => ?_) fun hl => ?_⟩
      · rcases mem_append.1 hx with hx | hx
        · exact mem_append_left _ (hp x (mem_append_right _ hx))
        · exact mem_append_right _ hx
      · rw [← hv, wordsValues_append]
        simp
      · obtain ⟨x, hx, hl⟩ := hl.of_append
        exact ⟨x, mem_append_left _ hx, hl⟩

/-- **A whole stream** of values in range is packed. -/
theorem getBytes_writeAll (hs : ∀ x ∈ vs, x.toNat < 2 ^ 60) :
    ∃ ws, (newSimple8bEncoder.writeAll vs).getBytes.2 = .ok (wordsBytes ws) ∧
      wordsValues ws = vs := by
  obtain ⟨ws, p, h, hp, hor⟩ := encodes_writeAll vs
  have hsmall : ¬ Large p := fun ⟨x, hx, hl⟩ => absurd (hs x (hp x hx)) (not_lt.2 hl)
  obtain ⟨ws', p', -, rfl, -, ⟨rfl, hb⟩ | ⟨⟨x, hx, hl⟩, -⟩⟩ := h.getBytes
  · exact ⟨ws ++ ws', hb, by simpa using hor.resolve_right hsmall⟩
  · exact absurd ⟨x, mem_append_right _ hx, hl⟩ hsmall

/-- **A stream** with a value out of range is not. -/
theorem getBytes_writeAll_error (hx : x ∈ vs) (hl : 2 ^ 60 ≤ x.toNat) :
    ∃ err, (newSimple8bEncoder.writeAll vs).getBytes.2 = .error err := by
  obtain ⟨ws, p, h, -, hor⟩ := encodes_writeAll vs
  have hlarge : Large p := by
    rcases hor with rfl | hlarge
    · exact Large.of_append ⟨x, hx, hl⟩
    · exact hlarge
  obtain ⟨ws', p', -, rfl, -, ⟨rfl, -⟩ | ⟨-, herr⟩⟩ := h.getBytes
  · obtain ⟨y, hy, -⟩ := hlarge.of_append
    cases hy
  · exact herr

/-! ### All values at once -/

theorem encodeAllLoop_spec : ∀ (k : ℕ) (src : List U64) (dst : List Byte), src.length ≤ k →
    (∃ ws, encodeAllLoop k src dst = .ok (dst ++ wordsBytes ws) ∧ wordsValues ws = src) ∨
      Large src ∧ ∃ err, encodeAllLoop k src dst = .error err
  | 0, src, dst, hk => by
    rw [length_eq_zero_iff.1 (Nat.le_zero.1 hk)]
    exact .inl ⟨[], by simp [encodeAllLoop, wordsBytes], rfl⟩
  | k + 1, [], dst, _ => .inl ⟨[], by simp [encodeAllLoop, wordsBytes], rfl⟩
  | k + 1, x :: src, dst, hk => by
    rw [encodeAllLoop, if_neg (by simp)]
    rcases Nat.lt_or_ge x.toNat (2 ^ 60) with hx | hx
    · obtain ⟨w, n, he, hp⟩ := encode_spec src hx
      have hn := hp.n_pos
      rw [he]
      rcases encodeAllLoop_spec k ((x :: src).drop n) (dst ++ beBytes 8 w.toNat)
        (by rw [length_drop]; omega) with ⟨ws, h1, h2⟩ | ⟨⟨y, hy, hl⟩, herr⟩
      · refine .inl ⟨w :: ws, by simpa [wordsBytes] using h1, ?_⟩
        rw [wordsValues_cons, hp.values, h2, take_append_drop]
      · exact .inr ⟨⟨y, mem_of_mem_drop hy, hl⟩, herr⟩
    · exact .inr ⟨⟨x, mem_cons_self, hx⟩, _, by rw [encode_error hx]⟩

/-- **`EncodeAll`** packs all values, when they are in range. -/
theorem encodeAll_spec (hs : ∀ x ∈ src, x.toNat < 2 ^ 60) :
    ∃ ws, encodeAll src = .ok (wordsBytes ws) ∧ wordsValues ws = src :=
  (encodeAllLoop_spec src.length src [] le_rfl).resolve_right fun ⟨⟨x, hx, hl⟩, _⟩ =>
    absurd (hs x hx) (not_lt.2 hl)

/-! ### The decoder -/

structure Simple8bDecoder where
  bytes : List Byte
  buf : List U64
  i : ℕ
  n : ℕ
  deriving DecidableEq

def newSimple8bDecoder (b : List Byte) : Simple8bDecoder where
  bytes := b
  buf := replicate 240 0#64
  i := 0
  n := 0

namespace Simple8bDecoder

variable (d : Simple8bDecoder)

/-- The unexported `read`: one word is unpacked into the buffer. -/
def readWord : Simple8bDecoder :=
  if d.bytes.length < 8 then d
  else
    let v := BitVec.ofNat 64 (beNat (d.bytes.take 8))
    { bytes := d.bytes.drop 8, buf := (decode d.buf v).2, n := (decode d.buf v).1, i := 0 }

def next : Bool × Simple8bDecoder :=
  let d := { d with i := d.i + 1 }
  let d := if d.n ≤ d.i then d.readWord else d
  (8 ≤ d.bytes.length || d.i < d.n, d)

def read : U64 := d.buf.getD d.i 0#64

end Simple8bDecoder

/-- The decoder still has the values `vs` to give. -/
structure Decodes (d : Simple8bDecoder) (vs : List U64) : Prop where
  buf_length : d.buf.length = 240
  n_le : d.n ≤ 240
  values : ∃ ws, d.bytes = wordsBytes ws ∧ (d.buf.take d.n).drop (d.i + 1) ++ wordsValues ws = vs

theorem decodes_new (ws : List U64) :
    Decodes (newSimple8bDecoder (wordsBytes ws)) (wordsValues ws) where
  buf_length := length_replicate
  n_le := Nat.zero_le _
  values := ⟨ws, rfl, rfl⟩

variable {d : Simple8bDecoder}

theorem readWord_cons (hb : d.bytes = wordsBytes (w :: ws)) :
    d.readWord =
      { bytes := wordsBytes ws, buf := (decode d.buf w).2, n := (decode d.buf w).1, i := 0 } := by
  have hsplit : d.bytes = beBytes 8 w.toNat ++ wordsBytes ws := by rw [hb]; simp [wordsBytes]
  have hlen : ¬ d.bytes.length < 8 := by rw [hsplit]; simp
  have hv : BitVec.ofNat 64 (beNat (d.bytes.take 8)) = w := by
    rw [hsplit, take_left' (length_beBytes _ _), beNat_beBytes]
    apply BitVec.eq_of_toNat_eq
    rw [BitVec.toNat_ofNat]; omega
  rw [Simple8bDecoder.readWord, if_neg hlen, hv, hsplit, drop_left' (length_beBytes _ _)]

/-- **The next value** is given, when there is one. -/
theorem next_cons (h : Decodes d (v :: vs)) :
    ∃ d', d.next = (true, d') ∧ d'.read = v ∧ Decodes d' vs := by
  obtain ⟨hb, hn, ws, hws, hvs⟩ := h
  rcases Nat.lt_or_ge (d.i + 1) d.n with hi | hi
  -- the buffer still holds a value
  · have hlt : d.i + 1 < (d.buf.take d.n).length := by rw [length_take]; omega
    rw [drop_eq_getElem_cons hlt, cons_append, cons.injEq] at hvs
    refine ⟨{ d with i := d.i + 1 }, ?_, ?_, hb, hn, ws, hws, hvs.2⟩
    · simp [Simple8bDecoder.next, hi, Nat.not_le.2 hi]
    · rw [← hvs.1, Simple8bDecoder.read, getElem_take, getD_eq_getElem]
  -- the buffer is used up, and the next word has at least one value
  · rw [drop_of_length_le (by rw [length_take]; omega), nil_append] at hvs
    cases ws with
    | nil => simp at hvs
    | cons w ws =>
      obtain ⟨h1, h2, h3, h4⟩ := decode_spec hb w
      have hr := readWord_cons (d := { d with i := d.i + 1 }) hws
      have hlt : 0 < ((decode d.buf w).2.take (decode d.buf w).1).length := by
        rw [length_take]; omega
      rw [wordsValues_cons, ← h4, ← drop_zero (l := take _ _),
        drop_eq_getElem_cons hlt, cons_append, cons.injEq] at hvs
      refine ⟨{ bytes := wordsBytes ws, buf := (decode d.buf w).2,
                n := (decode d.buf w).1, i := 0 }, ?_, ?_, h1, h3, ws, rfl, hvs.2⟩
      · simp only [Simple8bDecoder.next, if_pos hi, hr]
        simp [h2]
      · rw [← hvs.1, Simple8bDecoder.read, getElem_take, getD_eq_getElem]

/-- **The end** is reported, when there is no value left. -/
theorem next_nil (h : Decodes d []) : ∃ d', d.next = (false, d') := by
  obtain ⟨hb, hn, ws, hws, hvs⟩ := h
  obtain ⟨hbuf, hrest⟩ := append_eq_nil_iff.1 hvs
  have hi : d.n ≤ d.i + 1 := by
    have := drop_eq_nil_iff.1 hbuf
    rw [length_take] at this; omega
  have hnil : ws = [] := by
    cases ws with
    | nil => rfl
    | cons w ws =>
      rw [wordsValues_cons] at hrest
      exact absurd (append_eq_nil_iff.1 hrest).1 (wordValues_ne_nil w)
  refine ⟨{ d with i := d.i + 1 }, ?_⟩
  have hbytes : d.bytes = [] := by rw [hws, hnil]; rfl
  simp [Simple8bDecoder.next, Simple8bDecoder.readWord, hi, hbytes]

/-! ### The batch round trip -/

/-- **`EncodeAll` succeeds exactly on values of at most 60 bits**, and the decoder returns them. -/
theorem encodeAll_decodes (src : List U64) :
    ((∃ b, encodeAll src = .ok b) ↔ ∀ x ∈ src, x.toNat < 2 ^ 60) ∧
      ∀ b, encodeAll src = .ok b →
        Lib.Codec.Gives Simple8bDecoder.next (fun d => (d.read, d)) src (newSimple8bDecoder b) := by
  have hsmall : ∀ b, encodeAll src = .ok b → ∀ x ∈ src, x.toNat < 2 ^ 60 := fun b h x hx => by
    rcases encodeAllLoop_spec src.length src [] le_rfl with ⟨ws, -, hv⟩ | ⟨-, err, he⟩
    · exact wordsValues_lt (hv.symm ▸ hx)
    · rw [encodeAll, he] at h
      cases h
  refine ⟨⟨fun ⟨b, h⟩ => hsmall b h, fun hs => ?_⟩, fun b h => ?_⟩
  · obtain ⟨ws, he, -⟩ := encodeAll_spec hs
    exact ⟨_, he⟩
  · obtain ⟨ws, he, rfl⟩ := encodeAll_spec (hsmall b h)
    rw [he] at h
    cases h
    refine Lib.Codec.gives_of_step (P := Decodes) (fun h => ?_) (fun h => ?_) _ (decodes_new ws)
    · obtain ⟨d', hd⟩ := next_nil h
      rw [hd]
    · obtain ⟨d', hd, hr, h'⟩ := next_cons h
      exact ⟨d', d', hd, by rw [hr], h'⟩

end TopcDB.Chunkenc.Simple8bStream
