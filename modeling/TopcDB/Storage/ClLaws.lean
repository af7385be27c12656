import TopcDB.Storage.ChainSeek

/-! # The iterators of CL chunks obey the laws of iterators

`CLIterator.Seek` is a loop of `Next`. An iterator over a chunk that holds as many samples as its
header says stays at the last one when it ends. -/

namespace TopcDB.Storage.ClLaws

open List Lib.Bits Lib.Assoc Go.Basic Chunkenc CLMeta CLChunk Chunk Merge AnySeries ChainSeek

variable {H FH : Type}

def clSamples (samples : List Sample) : List (AnySample H FH) :=
  samples.map fun x => .float x.t x.val

theorem getElem?_clSamples {samples : List Sample} {i : ℕ} {x : AnySample H FH}
    (h : (clSamples samples)[i]? = some x) :
    ∃ smp, samples[i]? = some smp ∧ x = .float smp.t smp.val := by
  rw [clSamples, getElem?_map, Option.map_eq_some_iff] at h
  obtain ⟨smp, hget, rfl⟩ := h
  exact ⟨smp, hget, rfl⟩

/-- An iterator over the samples of a chunk that has read the first `i` of them. -/
structure ClPassed (samples : List Sample) (i : ℕ) (it : CLIterator) : Prop where
  le : i ≤ samples.length
  err : it.err = none
  read : it.numRead = i
  total : it.numTotal = samples.length
  left : ∃ k it', drain k it = .ok (samples.drop i, it')
  current : ∀ j smp, i = j + 1 → samples[j]? = some smp → it.t = smp.t ∧ it.val = smp.val

variable {samples : List Sample} {i : ℕ} {it : CLIterator}

theorem ClPassed.next (h : ClPassed samples i it) {smp : Sample} (hx : samples[i]? = some smp) :
    ∃ it', it.next = .ok (true, it') ∧ ClPassed samples (i + 1) it' := by
  obtain ⟨hi, rfl⟩ := List.getElem?_eq_some_iff.1 hx
  obtain ⟨k, it1, hk⟩ := h.left
  rw [drop_eq_getElem_cons hi] at hk
  cases k with
  | zero => simp [drain] at hk
  | succ k =>
    obtain ⟨-, hnil⟩ | ⟨it2, rest, hn, hd, heq⟩ := Chunkenc.CLIterate.drain_succ hk
    · cases hnil
    · obtain ⟨hsmp, rfl⟩ := List.cons.inj heq
      obtain ⟨-, herr, hread, htot, -⟩ := Compaction.next_frame hn
      refine ⟨it2, hn, hi, herr, by rw [hread, h.read], by rw [htot, h.total], ⟨k, it1, hd⟩,
        fun j smp hj hsmp' => ?_⟩
      obtain rfl : i = j := by omega
      rw [getElem?_eq_getElem hi, hsmp] at hsmp'
      obtain rfl := Option.some.inj hsmp'
      exact ⟨rfl, rfl⟩

theorem ClPassed.next_end (h : ClPassed samples samples.length it) : it.next = .ok (false, it) := by
  unfold CLIterator.next
  rw [if_pos (Or.inr (h.read.trans h.total.symm))]

theorem ClPassed.seeks (h : ClPassed samples i it) {t : I64} {j : ℕ} (hij : i ≤ j)
    (hb : ∀ smp ∈ samples.take j, smp.t.toInt < t.toInt) : it.t.slt t ∨ it.numRead = 0 := by
  rcases i with _ | i
  · exact Or.inr h.read
  · have hi : i < samples.length := h.le
    have hget := getElem?_eq_getElem hi
    have hlt := hb samples[i] (mem_of_getElem? (i := i)
      (by rw [getElem?_take_of_lt (by omega), hget]))
    rw [(h.current i _ rfl hget).1, BitVec.slt_eq_decide]
    exact Or.inl (by simpa using hlt)

theorem ClPassed.seekLoop : ∀ {k i j : ℕ} {it : CLIterator} {t : I64} {smp : Sample},
    ClPassed samples i it → samples[j]? = some smp → i ≤ j + 1 → j + 1 - i < k →
    (∀ smp ∈ samples.take j, smp.t.toInt < t.toInt) → t.toInt ≤ smp.t.toInt →
    ∃ it', seekLoop t k it = .ok (.float, it') ∧ ClPassed samples (j + 1) it'
  | 0, _, _, _, _, _, _, _, _, hk, _, _ => by omega
  | k + 1, i, j, it, t, smp, h, hx, hij, hk, hb, ht => by
    rw [Chunkenc.Chunk.seekLoop]
    by_cases hi : i = j + 1
    · subst hi
      have hstop : ¬ (it.t.slt t ∨ it.numRead = 0) := by
        rw [(h.current j smp rfl hx).1, h.read, BitVec.slt_iff_toInt_lt]
        omega
      rw [if_neg hstop]
      exact ⟨it, rfl, h⟩
    · rw [if_pos (h.seeks (by omega : i ≤ j) hb)]
      obtain ⟨smp', hx'⟩ : ∃ smp', samples[i]? = some smp' :=
        ⟨_, getElem?_eq_getElem (lt_of_le_of_lt (by omega : i ≤ j)
          (List.getElem?_eq_some_iff.1 hx).1)⟩
      obtain ⟨it', hn, h'⟩ := h.next hx'
      simp only [hn]
      exact ClPassed.seekLoop h' hx (by omega) (by omega) hb ht

theorem ClPassed.seekLoop_end : ∀ {k i : ℕ} {it : CLIterator} {t : I64},
    ClPassed samples i it → samples.length - i < k →
    (∀ smp ∈ samples, smp.t.toInt < t.toInt) →
    ∃ it', Chunkenc.Chunk.seekLoop t k it = .ok (.none, it') ∧
      ClPassed samples samples.length it'
  | 0, _, _, _, _, hk, _ => by omega
  | k + 1, i, it, t, h, hk, hb => by
    rw [Chunkenc.Chunk.seekLoop, if_pos (h.seeks h.le (by rwa [take_length]))]
    rcases hx : samples[i]? with _ | smp
    · have hi : i = samples.length := le_antisymm h.le (getElem?_eq_none_iff.1 hx)
      subst hi
      simp only [h.next_end]
      exact ⟨it, rfl, h⟩
    · obtain ⟨it', hn, h'⟩ := h.next hx
      have hi := (List.getElem?_eq_some_iff.1 hx).1
      simp only [hn]
      exact ClPassed.seekLoop_end h' (by omega) hb

theorem ClPassed.seek_past {i : ℕ} {it : CLIterator} {t : I64} (h : ClPassed samples i it)
    (hb : ∀ x ∈ clSamples samples, (x : AnySample H FH).t.toInt < t.toInt) :
    ∃ it', (clIterator H FH).seek it t = .ok (.none, it') ∧
      ClPassed samples samples.length it' := by
  have hb' : ∀ smp ∈ samples, smp.t.toInt < t.toInt := fun y hy =>
    hb (.float y.t y.val) (mem_map_of_mem hy)
  obtain ⟨it', hs, h'⟩ := ClPassed.seekLoop_end (k := it.numTotal + 1) h
    (by rw [h.total]; omega) hb'
  exact ⟨it', by simp [clIterator, seek, h.err, hs], h'⟩

/-- **The iterators of CL chunks obey the laws.** -/
theorem laws_cl (H FH : Type) (samples : List Sample) :
    Laws (clIterator H FH) (clSamples samples) (ClPassed samples)
      (ClPassed samples samples.length) where
  le h := by rw [clSamples, length_map]; exact h.le
  err h := h.err
  err_ended h := h.err
  shows := by
    intro i it x hx h
    obtain ⟨smp, hget, rfl⟩ := getElem?_clSamples hx
    obtain ⟨ht, hv⟩ := h.current i smp rfl hget
    exact ⟨ht, by simp only [ReadsSample, clIterator, ht, hv]⟩
  next := by
    intro i it x hx h
    obtain ⟨smp, hget, rfl⟩ := getElem?_clSamples hx
    obtain ⟨it', hn, h'⟩ := h.next hget
    exact ⟨it', by simp [clIterator, hn, Except.map, AnySample.type], h'⟩
  next_end := by
    intro it h
    rw [clSamples, length_map] at h
    exact ⟨it, by simp [clIterator, h.next_end, Except.map], h⟩
  seek_self := by
    intro i it x t hx h ht
    obtain ⟨smp, hget, rfl⟩ := getElem?_clSamples hx
    have hstop : ¬ (it.t.slt t ∨ it.numRead = 0) := by
      rw [(h.current i smp rfl hget).1, h.read, BitVec.slt_iff_toInt_lt]
      simp only [AnySample.t] at ht
      omega
    simp only [clIterator, seek, h.err, Option.isSome_none, reduceCtorEq, if_false,
      Chunkenc.Chunk.seekLoop, if_neg hstop, AnySample.type]
  seek := by
    intro i j it x t hx h hij hb ht
    obtain ⟨smp, hget, rfl⟩ := getElem?_clSamples hx
    have hb' : ∀ smp ∈ samples.take j, smp.t.toInt < t.toInt := fun y hy =>
      hb (.float y.t y.val) (by rw [clSamples, ← map_take]; exact mem_map_of_mem hy)
    have hj := (List.getElem?_eq_some_iff.1 hget).1
    obtain ⟨it', hs, h'⟩ := ClPassed.seekLoop (k := it.numTotal + 1) h hget (by omega)
      (by rw [h.total]; omega) hb' ht
    exact ⟨it', by simp [clIterator, seek, h.err, hs, AnySample.type], h'⟩
  seek_end h hb := h.seek_past hb
  seek_ended h hb := h.seek_past hb

variable {order : RangeOrder (U64 × I64)} {b : List Byte}

theorem num_readCLMeta {hdr : Header} (h : readCLMeta b = .ok hdr) :
    hdr.num.toNat = numSamples b := by
  unfold readCLMeta at h
  split_ifs at h
  rw [← Except.ok.inj h, BitVec.toNat_ofNat]
  exact Nat.mod_eq_of_lt (Chunkenc.CLAppend.numSamples_lt b)

/-- A chunk that decodes to as many samples as its counter says opens to an iterator at its
start. -/
theorem clPassed_reset {ext : Extern} (hdec : decodeChunk ext order b = .ok (samples, none))
    (hlen : numSamples b = samples.length) :
    ∃ it, reset ext order b = .ok (some it) ∧ ClPassed samples 0 it := by
  obtain ⟨it, it', hr, hd, -⟩ := Chunkenc.CLIterate.decodeChunk_eq_ok hdec
  obtain ⟨hdr, hm, -, htot, -, he, hread, -⟩ := Chunkenc.CLIterate.reset_spec hr
  exact ⟨it, hr, Nat.zero_le _, he, hread, (htot.trans (num_readCLMeta hm)).trans hlen,
    ⟨_, it', hd⟩, fun j _ hj => by omega⟩

theorem input_cl (H FH : Type) {ext : Extern} {hdr : Header} (hm : readCLMeta b = .ok hdr)
    (hdec : decodeChunk ext order b = .ok (samples, none)) (hlen : hdr.num.toNat = samples.length)
    (hasc : samples.Pairwise fun x y => x.t.toInt < y.t.toInt)
    (habove : ∀ x ∈ samples, minInt64.toInt < x.t.toInt) :
    ∃ it, reset ext order b = .ok (some it) ∧ Input (clIterator H FH) it (clSamples samples) := by
  obtain ⟨it, hr, hstart⟩ := clPassed_reset hdec ((num_readCLMeta hm).symm.trans hlen)
  refine ⟨it, hr, ⟨_, _, laws_cl H FH samples, hstart⟩, ?_, ?_⟩
  · rw [clSamples, pairwise_map]
    exact hasc
  · exact forall_mem_map.2 habove

end TopcDB.Storage.ClLaws
