import TopcDB.Go.Basic

/-! # The bytes of the write-ahead log (`tsdb/wlog`)

A segment is a sequence of pages. A record is cut into fragments, one for each page it reaches into,
each behind a header with its type, its length and its checksum; a page with no room for a header is
filled up with zeros. `Laid` says which bytes hold which records from a position on. -/

namespace TopcDB.Wlog.Layout

open List Lib.Bits Go.Basic

def pageSize : ℕ := 32 * 1024

def recordHeaderSize : ℕ := 7

/-! ### The checksum -/

/-- One bit of `crc32.simpleMakeTable`. -/
def crcBit (c : U32) : U32 := if c.getLsbD 0 then (c >>> 1) ^^^ 0x82f63b78#32 else c >>> 1

def castagnoliTable (i : Byte) : U32 := crcBit^[8] (i.setWidth 32)

/-- `crc32.Checksum` with `castagnoliTable`. -/
def checksum (data : List Byte) : U32 :=
  ~~~ data.foldl (fun crc v => castagnoliTable (crc.setWidth 8 ^^^ v) ^^^ (crc >>> 8)) (~~~ 0)

/-! ### Headers -/

inductive RecType
  | pageTerm
  | full
  | first
  | middle
  | last
  deriving DecidableEq

def RecType.code : RecType → Byte
  | .pageTerm => 0
  | .full => 1
  | .first => 2
  | .middle => 3
  | .last => 4

/-- `recTypeFromHeader`; `none` is a type with no meaning. -/
def recTypeFromHeader (header : Byte) : Option RecType :=
  [.pageTerm, .full, .first, .middle, .last].find? fun t : RecType => t.code = header &&& 7

inductive CompressionType
  | none
  | snappy
  | zstd
  deriving DecidableEq

def snappyMask : Byte := 8

def zstdMask : Byte := 16

/-- What the compression adds to the type in a header. -/
def CompressionType.mask : CompressionType → Byte
  | .none => 0
  | .snappy => snappyMask
  | .zstd => zstdMask

/-- The compression a header tells; snappy is looked for first. -/
def compressionOf (header : Byte) : CompressionType :=
  if header &&& snappyMask = snappyMask then .snappy
  else if header &&& zstdMask = zstdMask then .zstd
  else .none

variable (c : CompressionType) (typ : RecType)

def firstByte : Byte := typ.code ||| c.mask

theorem recTypeFromHeader_firstByte : recTypeFromHeader (firstByte c typ) = some typ := by
  cases c <;> cases typ <;> decide

theorem compressionOf_firstByte : compressionOf (firstByte c typ) = c := by
  cases c <;> cases typ <;> decide

variable (part : List Byte)

/-- The header without its first byte. -/
def lengthAndSum : List Byte :=
  beBytes 2 part.length ++ beBytes 4 (checksum part).toNat

/-- A fragment behind its header. -/
def fragment : List Byte :=
  firstByte c typ :: (lengthAndSum part ++ part)

@[simp] theorem length_lengthAndSum : (lengthAndSum part).length = 6 := by
  simp [lengthAndSum]

@[simp] theorem length_fragment :
    (fragment c typ part).length = recordHeaderSize + part.length := by
  simp [fragment, recordHeaderSize]
  omega

/-! ### Pages -/

def zeros (n : ℕ) : List Byte := replicate n 0

@[simp] theorem length_zeros (n : ℕ) : (zeros n).length = n := length_replicate

/-- What is missing to the next page boundary. -/
def gap (n : ℕ) : ℕ := (pageSize - n % pageSize) % pageSize

/-- The zeros before a fragment that starts behind the position `pos` of a page. -/
def lead (pos : ℕ) : List Byte :=
  if pageSize - pos < recordHeaderSize then zeros (pageSize - pos) else []

/-- Where the fragment starts. -/
def start (pos : ℕ) : ℕ := if pageSize - pos < recordHeaderSize then 0 else pos

/-- What the page has left for the fragment's bytes. -/
def room (pos : ℕ) : ℕ := pageSize - start pos - recordHeaderSize

theorem start_le {pos : ℕ} (h : pos < pageSize) : start pos + recordHeaderSize ≤ pageSize := by
  rw [start]
  split_ifs <;> simp only [pageSize, recordHeaderSize] at * <;> omega

theorem mod_lt (n : ℕ) : n % pageSize < pageSize := Nat.mod_lt _ (by decide)

theorem start_add_room {pos : ℕ} (h : pos < pageSize) :
    start pos + (recordHeaderSize + room pos) = pageSize := by
  have := start_le h
  rw [room]
  omega

/-- Where bytes end that follow the zeros. -/
theorem lead_append_mod {n pos : ℕ} (hn : n % pageSize = pos) (l : List Byte) :
    (n + (lead pos ++ l).length) % pageSize = (start pos + l.length) % pageSize := by
  subst hn
  rw [lead, start, length_append]
  split_ifs <;> simp only [length_zeros, length_nil, pageSize, recordHeaderSize] at * <;> omega

/-! ### Records -/

/-- `rec` lies in `b` from the position `pos` of a page on; `fst` says that nothing of it was
written before. -/
inductive Lays (c : CompressionType) : ℕ → Bool → List Byte → List Byte → Prop
  | last {pos : ℕ} {fst : Bool} {rec : List Byte} (h : rec.length ≤ room pos) :
      Lays c pos fst rec (lead pos ++ fragment c (if fst then .full else .last) rec)
  | more {pos : ℕ} {fst : Bool} {rec b : List Byte} (h : room pos < rec.length)
      (hb : Lays c 0 false (rec.drop (room pos)) b) :
      Lays c pos fst rec
        (lead pos ++ (fragment c (if fst then .first else .middle) (rec.take (room pos)) ++ b))

/-- A record as it is written: compressed or not. -/
structure Body where
  compression : CompressionType
  bytes : List Byte

/-- The records lie in `b` one behind the other, from the position `pos` of a page on. -/
inductive Laid : ℕ → List Body → List Byte → Prop
  | nil (pos : ℕ) : Laid pos [] []
  | cons {pos : ℕ} {r : Body} {rs : List Body} {b bs : List Byte}
      (h : Lays r.compression pos true r.bytes b) (hs : Laid ((pos + b.length) % pageSize) rs bs) :
      Laid pos (r :: rs) (b ++ bs)

theorem Laid.snoc {r : Body} {b : List Byte} : ∀ {pos : ℕ} {rs : List Body} {bs : List Byte},
    Laid pos rs bs → Lays r.compression ((pos + bs.length) % pageSize) true r.bytes b →
      pos < pageSize → Laid pos (rs ++ [r]) (bs ++ b)
  | _, _, _, .nil _, hr, hpos => by
    rw [length_nil, Nat.add_zero, Nat.mod_eq_of_lt hpos] at hr
    simpa using Laid.cons hr (.nil _)
  | _, _, _, .cons h hs, hr, _ => by
    rw [append_assoc]
    refine .cons h (Laid.snoc hs ?_ (mod_lt _))
    rwa [Nat.mod_add_mod, Nat.add_assoc, ← length_append]

end TopcDB.Wlog.Layout
