import TopcDB.Chunkenc.BitSelectors
import TopcDB.Chunkenc.Bstream
import TopcDB.Lib.Codec

/-! # BitPacking payloads (`BitPackingAll`, `BitPackingDecoder`)

The payload is a sequence of blocks of 128 values, the last one shorter: a header of six bits with
the width of the widest value, and the values in that width. Both decoders find the end of the last
block by the number of values they are told to expect. The payloads of Varint and PFor, which no
iterator reads, are written by functions of the same kind. -/

namespace TopcDB.Chunkenc.BitPacking

open List Lib.Bits Go.Basic Bstream BitSelectors

def bitPackingBlockSize : ℕ := 128
def bitPackingHeaderBitWidth : ℕ := 6

def blockWidth (block : List U64) : ℕ :=
  block.foldl (fun maxBits v => if maxBits < bitWidth v then bitWidth v else maxBits) 0

def packBlock (b : BStream) (block : List U64) : BStream :=
  block.foldl (fun b v => writeBits b v (blockWidth block))
    (writeBits b (BitVec.ofNat 64 (blockWidth block) - 1) bitPackingHeaderBitWidth)

/-- The loop of `BitPackingAll`, of at most `k` turns. -/
def bitPackingLoop : ℕ → List U64 → BStream → BStream
  | 0, _, b => b
  | k + 1, src, b =>
    if src.length = 0 then b
    else bitPackingLoop k (src.drop bitPackingBlockSize)
      (packBlock b (src.take bitPackingBlockSize))

def bitPackingAll (src : List U64) : BStream := bitPackingLoop src.length src ⟨[], 0⟩

/-- The inner loop of `UnBitPackingAll`: `k` values are left of the block. The flag is false when an
error ends the loop. -/
def readBlock (maxBits : ℕ) : ℕ → BReader → List U64 → Bool × BReader × List U64
  | 0, br, dst => (true, br, dst)
  | k + 1, br, dst =>
    match readBits br maxBits with
    | (.error _, br) => (false, br, dst)
    | (.ok v, br) => readBlock maxBits k br (dst ++ [v])

/-- The loop of `UnBitPackingAll`, of at most `k` turns: `remaining` values are left. -/
def unBitPackingLoop : ℕ → ℕ → BReader → List U64 → List U64
  | 0, _, _, dst => dst
  | k + 1, remaining, br, dst =>
    if remaining = 0 then dst
    else
      match readBits br bitPackingHeaderBitWidth with
      | (.error _, _) => dst
      | (.ok maxBits, br) =>
        let numInBlock := min bitPackingBlockSize remaining
        match readBlock (maxBits + 1).toNat numInBlock br dst with
        | (false, _, dst) => dst
        | (true, br, dst) => unBitPackingLoop k (remaining - numInBlock) br dst

def unBitPackingAll (br : BReader) (num : ℕ) : List U64 := unBitPackingLoop num num br []

structure BitPackingDecoder where
  br : BReader
  numTotal : ℕ
  numRead : ℕ
  maxBits : ℕ
  numInBlock : ℕ
  idxInBlock : ℕ
  deriving DecidableEq

def newBitPackingDecoder (data : List Byte) (numTotal : ℕ) : BitPackingDecoder :=
  ⟨newBReader data, numTotal, 0, 0, 0, 0⟩

namespace BitPackingDecoder

variable (d : BitPackingDecoder)

/-- One more value is taken from the current block. -/
def advance : BitPackingDecoder :=
  { d with idxInBlock := d.idxInBlock + 1, numRead := d.numRead + 1 }

def next : Bool × BitPackingDecoder :=
  if d.numTotal ≤ d.numRead then (false, d)
  else if d.numInBlock ≤ d.idxInBlock then
    match readBits d.br bitPackingHeaderBitWidth with
    | (.error _, br) => (false, { d with br := br })
    | (.ok maxBits, br) =>
      (true, advance { d with
        br := br
        maxBits := (maxBits + 1).toNat
        numInBlock := min bitPackingBlockSize (d.numTotal - d.numRead)
        idxInBlock := 0 })
  else (true, d.advance)

def read : U64 × BitPackingDecoder :=
  match readBits d.br d.maxBits with
  | (.error _, br) => (0, { d with br := br })
  | (.ok v, br) => (v, { d with br := br })

end BitPackingDecoder

/-! ### Packings without a reader -/

def writeVarintLoop : ℕ → BStream → U64 → BStream
  | 0, b, v => writeBits b v 8
  | k + 1, b, v =>
    if 0x80#64 ≤ v then writeVarintLoop k (writeBits b ((v &&& 0x7F) ||| 0x80) 8) (v >>> 7)
    else writeBits b v 8

/-- `writeVarint`: seven bits at a time, which ends after at most nine turns. -/
def writeVarint (b : BStream) (v : U64) : BStream := writeVarintLoop 9 b v

def varintPackingAll (src : List U64) : BStream := src.foldl writeVarint ⟨[], 0⟩

def pForBlockSize : ℕ := 128

def minValue (block : List I64) : I64 :=
  block.foldl (fun m v => if v.slt m then v else m) (block.headD 0)

/-- The width that costs least for the regular values, when wider ones are exceptions. -/
def bestWidth (deltas : List U64) (maxBits : ℕ) : ℕ :=
  let cost (bits : ℕ) : ℕ :=
    let exceptions := deltas.countP fun d => bits < bitWidth d
    (deltas.length - exceptions) * bits + exceptions * maxBits
  ((List.range' 1 maxBits).foldl
    (fun (st : ℕ × ℕ) bits => if cost bits ≤ st.1 then (cost bits, bits) else st) (2 ^ 63 - 1, 0)).2

def pForBlock (b : BStream) (block : List I64) : BStream :=
  let minVal := minValue block
  let b := writeVarint b (if minVal.slt 0#64 then -minVal * 2 - 1 else minVal * 2)
  let deltas : List U64 := block.map fun v => v - minVal
  let maxBits := blockWidth deltas
  let bestBits := bestWidth deltas maxBits
  let exceptions := deltas.zipIdx.filter fun p => bestBits < bitWidth p.1
  let b := writeBits b (BitVec.ofNat 64 bestBits - 1) 6
  let b := writeBits b (BitVec.ofNat 64 maxBits - 1) 6
  let b := writeBits b (BitVec.ofNat 64 exceptions.length) 7
  let b := exceptions.foldl (fun b p => writeBits b (BitVec.ofNat 64 p.2) 7) b
  let b := exceptions.foldl (fun b p => writeBits b p.1 maxBits) b
  (deltas.filter fun d => bitWidth d ≤ bestBits).foldl (fun b d => writeBits b d bestBits) b

def pForLoop : ℕ → List I64 → BStream → BStream
  | 0, _, b => b
  | k + 1, src, b =>
    if src.length = 0 then b
    else pForLoop k (src.drop pForBlockSize) (pForBlock b (src.take pForBlockSize))

def pForPackingAll (src : List I64) : BStream := pForLoop src.length src ⟨[], 0⟩

/-! ### What the packer writes -/

theorem blockWidth_spec (block : List U64) : (∀ v ∈ block, bitWidth v ≤ blockWidth block) ∧
    blockWidth block ≤ 64 ∧ (block ≠ [] → 1 ≤ blockWidth block) := by
  have hall : ∀ (l : List U64) (m : ℕ),
      let w := l.foldl (fun maxBits v => if maxBits < bitWidth v then bitWidth v else maxBits) m
      m ≤ w ∧ ∀ v ∈ l, bitWidth v ≤ w := by
    intro l
    induction l with
    | nil => intro m; exact ⟨le_rfl, by simp⟩
    | cons u l ih =>
      intro m
      obtain ⟨h1, h2⟩ := ih (if m < bitWidth u then bitWidth u else m)
      refine ⟨le_trans ?_ h1, forall_mem_cons.2 ⟨le_trans ?_ h1, h2⟩⟩ <;> split_ifs <;> omega
  have h64 : blockWidth block ≤ 64 :=
    foldlRecOn (motive := (· ≤ 64)) block _ (by omega) fun m hm v _ => by
      split_ifs <;> [exact bitWidth_le v; exact hm]
  refine ⟨(hall block 0).2, h64, fun hne => ?_⟩
  obtain ⟨u, l, rfl⟩ := exists_cons_of_ne_nil hne
  exact (bitWidth_pos u).trans_le ((hall (u :: l) 0).2 u mem_cons_self)

def blockBits (block : List U64) : List Bool :=
  toBits 6 (blockWidth block - 1) ++ block.flatMap fun v => toBits (blockWidth block) v.toNat

theorem holds_packBlock {b : BStream} {l : List Bool} (h : Holds b l) {block : List U64}
    (hne : block ≠ []) : Holds (packBlock b block) (l ++ blockBits block) := by
  obtain ⟨-, h64, h1⟩ := blockWidth_spec block
  have hpos := h1 hne
  have h0 := h.writeBits (BitVec.ofNat 64 (blockWidth block) - 1#64)
    (n := bitPackingHeaderBitWidth) (by simp [bitPackingHeaderBitWidth])
  rw [toNat_ofNat_pred (by omega) (by omega)] at h0
  have := Holds.foldl (fun v _ _ h => h.writeBits v h64) block h0
  rw [append_assoc] at this
  exact this

/-- The payload: the blocks of the values, one after the other. -/
def payloadBits : ℕ → List U64 → List Bool
  | 0, _ => []
  | k + 1, src =>
    if src.length = 0 then []
    else blockBits (src.take bitPackingBlockSize) ++ payloadBits k (src.drop bitPackingBlockSize)

theorem holds_bitPackingLoop : ∀ (k : ℕ) (src : List U64) {b : BStream} {l : List Bool}, Holds b l →
    Holds (bitPackingLoop k src b) (l ++ payloadBits k src)
  | 0, _, b, l, h => by simpa [bitPackingLoop, payloadBits] using h
  | k + 1, src, b, l, h => by
    rw [bitPackingLoop, payloadBits]
    split_ifs with h0
    · simpa using h
    · have hne : src.take bitPackingBlockSize ≠ [] := by
        rw [Ne, take_eq_nil_iff, not_or]
        exact ⟨by simp [bitPackingBlockSize], fun h' => h0 (by simp [h'])⟩
      rw [← append_assoc]
      exact holds_bitPackingLoop k _ (holds_packBlock h hne)

theorem holds_bitPackingAll (src : List U64) :
    Holds (bitPackingAll src) (payloadBits src.length src) := by
  have := holds_bitPackingLoop src.length src (holds_empty [])
  rwa [bytesBits_nil, nil_append] at this

/-! ### Reading the blocks -/

/-- The decoder has the values `vs` before it: the rest of a block, and further blocks. -/
structure Reads (d : BitPackingDecoder) (vs : List U64) : Prop where
  wf : Wf d.br
  total : d.numTotal = d.numRead + vs.length
  state : ∃ cur k src pad,
    rest d.br = (cur.flatMap fun v => toBits d.maxBits v.toNat) ++ (payloadBits k src ++ pad) ∧
    vs = cur ++ src ∧ src.length ≤ k ∧ d.numInBlock = d.idxInBlock + cur.length ∧
    (cur ≠ [] → 1 ≤ d.maxBits ∧ d.maxBits ≤ 64) ∧ ∀ v ∈ cur, v.toNat < 2 ^ d.maxBits

theorem reads_new (src : List U64) :
    Reads (newBitPackingDecoder (bitPackingAll src).stream src.length) src where
  wf := wf_newBReader _
  total := (Nat.zero_add _).symm
  state := ⟨[], src.length, src, _, by
    rw [newBitPackingDecoder, rest_newBReader, (holds_bitPackingAll src).bits]; rfl,
    rfl, le_rfl, rfl, by simp, by simp⟩

variable {d : BitPackingDecoder}

theorem read_append (hw : Wf d.br) (h1 : 1 ≤ d.maxBits) (h64 : d.maxBits ≤ 64) {v : U64}
    (hv : v.toNat < 2 ^ d.maxBits) {l : List Bool} (hr : rest d.br = toBits d.maxBits v.toNat ++ l)
    :
    ∃ br, d.read = (v, { d with br := br }) ∧ Wf br ∧ rest br = l := by
  obtain ⟨br, e, h2, h3⟩ := readBits_toBits hw hr (by omega) h64
  refine ⟨br, ?_, h2, h3⟩
  rw [Nat.mod_eq_of_lt hv, BitVec.ofNat_toNat, BitVec.setWidth_eq] at e
  rw [BitPackingDecoder.read, e]

variable {vs : List U64}

theorem lt_of_mem_block (hne : vs ≠ []) {v : U64} (hv : v ∈ vs) : v.toNat < 2 ^ blockWidth vs := by
  obtain ⟨hall, -, hpos⟩ := blockWidth_spec vs
  exact (bitWidth_le_iff (hpos hne)).1 (hall v hv)

theorem readHeader {br : BReader} (hw : Wf br) (hne : vs ≠ []) {k : ℕ}
    (hk : vs.length ≤ k) {pad : List Bool} (hr : rest br = payloadBits k vs ++ pad) :
    ∃ k' maxBits br', readBits br bitPackingHeaderBitWidth = (.ok maxBits, br') ∧
      (maxBits + 1).toNat = blockWidth (vs.take 128) ∧ k = k' + 1 ∧ Wf br' ∧
      rest br' = ((vs.take 128).flatMap fun v => toBits (blockWidth (vs.take 128)) v.toNat) ++
        (payloadBits k' (vs.drop 128) ++ pad) := by
  have hpos := length_pos_iff.2 hne
  obtain ⟨k', rfl⟩ := Nat.exists_eq_succ_of_ne_zero (show k ≠ 0 by omega)
  obtain ⟨-, h64, h1⟩ := blockWidth_spec (vs.take 128)
  have h1 := h1 (by simp [hne])
  rw [payloadBits, if_neg (by omega), bitPackingBlockSize, blockBits, append_assoc,
    append_assoc] at hr
  obtain ⟨br', e, h2, h3⟩ := readBits_toBits hw hr (by omega) (by omega)
  refine ⟨k', _, br', e, ?_, rfl, h2, h3⟩
  rw [BitVec.toNat_add, BitVec.toNat_ofNat, show (1 : U64).toNat = 1 from rfl]; omega

/-- **The next value** is decoded. -/
theorem Reads.next {v : U64} (h : Reads d (v :: vs)) :
    ∃ d1 d2, d.next = (true, d1) ∧ d1.read = (v, d2) ∧ Reads d2 vs := by
  obtain ⟨cur, k, src, pad, hr, hvs, hk, hidx, hmax, hsmall⟩ := h.state
  have ht := h.total
  rw [length_cons] at ht
  cases cur with
  | cons u cur =>
    -- inside a block
    obtain ⟨rfl, rfl⟩ : v = u ∧ vs = cur ++ src := by simpa using hvs
    obtain ⟨h1, h64⟩ := hmax (cons_ne_nil _ _)
    rw [flatMap_cons, append_assoc] at hr
    rw [length_cons] at hidx
    obtain ⟨br, e, k2, k3⟩ := read_append (d := d.advance) h.wf h1 h64
      (hsmall v mem_cons_self) hr
    refine ⟨d.advance, _, ?_, e, k2, ?_, cur, k, src, pad, k3, rfl, hk, ?_, fun _ => ⟨h1, h64⟩,
      fun w hw => hsmall w (mem_cons_of_mem _ hw)⟩
    · rw [BitPackingDecoder.next, if_neg (by omega), if_neg (by omega)]
    · simp only [BitPackingDecoder.advance]; omega
    · simp only [BitPackingDecoder.advance]; omega
  | nil =>
    -- at the start of a block
    have hsrc : src = v :: vs := hvs.symm
    subst hsrc
    rw [flatMap_nil, nil_append] at hr
    rw [length_nil] at hidx
    obtain ⟨k', maxBits, br, e, hmb, rfl, hw, hr'⟩ := readHeader h.wf (cons_ne_nil _ _) hk hr
    obtain ⟨-, h64, h1⟩ := blockWidth_spec ((v :: vs).take 128)
    have h1 := h1 (by simp)
    have htake : (v :: vs).take 128 = v :: vs.take 127 := rfl
    rw [htake] at hmb hr' h64 h1
    have hlt : ∀ w ∈ v :: vs.take 127, w.toNat < 2 ^ blockWidth (v :: vs.take 127) :=
      fun w => lt_of_mem_block (cons_ne_nil _ _)
    rw [flatMap_cons, append_assoc] at hr'
    have hnum : min bitPackingBlockSize (d.numTotal - d.numRead) = (v :: vs.take 127).length := by
      rw [← htake, length_take, h.total, Nat.add_sub_cancel_left]; rfl
    obtain ⟨br2, e2, k2, k3⟩ := read_append (d := BitPackingDecoder.advance { d with
        br := br
        maxBits := blockWidth (v :: vs.take 127)
        numInBlock := (v :: vs.take 127).length
        idxInBlock := 0 }) hw h1 h64 (hlt v mem_cons_self) hr'
    refine ⟨_, _, ?_, e2, k2, ?_, vs.take 127, k', vs.drop 127, pad, k3, ?_, ?_, ?_,
      fun _ => ⟨h1, h64⟩, fun w hw => hlt w (mem_cons_of_mem _ hw)⟩
    · rw [BitPackingDecoder.next, if_neg (by omega), if_pos (by omega), e]
      simp only [hmb, hnum]
    · simp only [BitPackingDecoder.advance]; omega
    · rw [take_append_drop]
    · rw [length_cons] at hk
      rw [length_drop]; omega
    · simp only [BitPackingDecoder.advance, length_cons]; omega

/-! ### Reading all values at once -/

theorem readBlock_append {w : ℕ} (h0 : 0 < w) (h64 : w ≤ 64) : ∀ (vs dst : List U64)
    {br : BReader} {l : List Bool}, Wf br → (∀ v ∈ vs, v.toNat < 2 ^ w) →
    (rest br = (vs.flatMap fun v => toBits w v.toNat) ++ l) →
    ∃ br', readBlock w vs.length br dst = (true, br', dst ++ vs) ∧ Wf br' ∧ rest br' = l
  | [], dst, br, l, hw, _, hr => ⟨br, by rw [append_nil]; rfl, hw, hr⟩
  | v :: vs, dst, br, l, hw, hlt, hr => by
    rw [flatMap_cons, append_assoc] at hr
    obtain ⟨br1, e1, hw1, hr1⟩ := readBits_toBits hw hr h0 h64
    rw [Nat.mod_eq_of_lt (hlt v mem_cons_self), BitVec.ofNat_toNat, BitVec.setWidth_eq] at e1
    obtain ⟨br2, e2, hw2, hr2⟩ := readBlock_append h0 h64 vs (dst ++ [v]) hw1
      (fun u hu => hlt u (mem_cons_of_mem _ hu)) hr1
    refine ⟨br2, ?_, hw2, hr2⟩
    rw [length_cons, readBlock, e1]
    simpa using e2

theorem unBitPackingLoop_append : ∀ (k : ℕ) {vs : List U64} {br : BReader} {dst : List U64}
    {pad : List Bool}, Wf br → vs.length ≤ k → rest br = payloadBits k vs ++ pad →
    unBitPackingLoop k vs.length br dst = dst ++ vs
  | 0, vs, br, dst, pad, _, hk, _ => by
    rw [length_eq_zero_iff.1 (Nat.le_zero.1 hk), append_nil]; rfl
  | k + 1, vs, br, dst, pad, hw, hk, hr => by
    rw [unBitPackingLoop]
    split_ifs with h0
    · rw [length_eq_zero_iff.1 h0, append_nil]
    · have hne : vs ≠ [] := fun h => h0 (by rw [h]; rfl)
      obtain ⟨k', maxBits, br1, e1, hmb, hk', hw1, hr1⟩ := readHeader hw hne hk hr
      obtain rfl := Nat.succ.inj hk'
      obtain ⟨-, h64, h1⟩ := blockWidth_spec (vs.take 128)
      have hblock : vs.take 128 ≠ [] := by simp [hne]
      obtain ⟨br2, e2, hw2, hr2⟩ := readBlock_append (h1 hblock) h64 (vs.take 128) dst hw1
        (fun v => lt_of_mem_block hblock) hr1
      have hnum : min bitPackingBlockSize vs.length = (vs.take 128).length := by simp; rfl
      simp only [e1, hmb, hnum, e2]
      rw [show vs.length - (vs.take 128).length = (vs.drop 128).length by simp; omega,
        unBitPackingLoop_append k hw2 (by rw [length_drop]; omega) hr2, append_assoc,
        take_append_drop]

/-- **Both decoders invert the encoder**, and the streaming one ends after the last value. -/
theorem bitPackingAll_decodes (src : List U64) :
    unBitPackingAll (newBReader (bitPackingAll src).stream) src.length = src ∧
      Lib.Codec.Gives BitPackingDecoder.next BitPackingDecoder.read src
        (newBitPackingDecoder (bitPackingAll src).stream src.length) := by
  constructor
  · have hr := rest_newBReader (bitPackingAll src).stream
    rw [(holds_bitPackingAll src).bits] at hr
    exact unBitPackingLoop_append src.length (wf_newBReader _) le_rfl hr
  · refine Lib.Codec.gives_of_step (P := Reads) (fun h => ?_) (fun h => h.next) src (reads_new src)
    have htotal := h.total
    rw [BitPackingDecoder.next, if_pos (by simpa using htotal.le)]

end TopcDB.Chunkenc.BitPacking
