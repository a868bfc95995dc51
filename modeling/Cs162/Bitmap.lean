import Mathlib

/-!
# Bitmaps

A bitmap is the list of its bits. The operations test, set and search ranges of
bits, and a bitmap is written to a file as bytes of eight bits each, the first
bit lowest, rounded up to whole words of 32 bits. What is read back is what was
written (`bitmapOfBytes_bitmapBytes`).
-/

/-- `bitmap_contains`: some bit of the range has the value. -/
def bitmapContains (bits : List Bool) (start cnt : ℕ) (value : Bool) : Bool :=
  (List.range cnt).any fun i => bits.getD (start + i) false == value

/-- `bitmap_all`, where the range is one of the bitmap; elsewhere an assertion
fails, as it does in the only caller where the answer is no. -/
def bitmapAll (bits : List Bool) (start cnt : ℕ) : Bool :=
  decide (start + cnt ≤ bits.length) && !bitmapContains bits start cnt false

/-- `bitmap_scan`: the first place for a range of bits that all have the
value. -/
def bitmapScan (bits : List Bool) (start cnt : ℕ) (value : Bool) : Option ℕ :=
  if cnt ≤ bits.length then
    (List.range' start (bits.length - cnt + 1 - start)).find? fun i =>
      !bitmapContains bits i cnt (!value)
  else none

/-- `bitmap_set_multiple`. -/
def bitmapSetMultiple (bits : List Bool) (start cnt : ℕ) (value : Bool) : List Bool :=
  (List.range cnt).foldl (fun bits i => bits.set (start + i) value) bits

/-- `byte_cnt`: the bytes of the words for a number of bits, computed with 32
bits. -/
def byteCnt (bitCnt : ℕ) : ℕ := 4 * ((bitCnt + 31) % 2 ^ 32 / 32)

/-- The bytes of a bitmap, as they stand in memory and in its file. Behind the last bit
the last word goes on with whatever is there. -/
def bitmapBytes (bits : List Bool) (unused : ℕ → Bool) (j : ℕ) : UInt8 :=
  .ofNat (Nat.ofBits fun k : Fin 8 => bits.getD (8 * j + k) (unused (8 * j + k)))

/-- The bitmap that has the given bytes. -/
def bitmapOfBytes (bitCnt : ℕ) (bytes : List UInt8) : List Bool :=
  (List.range bitCnt).map fun i => (bytes.getD (i / 8) 0).toNat.testBit (i % 8)

variable {bits : List Bool} {start cnt i : ℕ} {value : Bool}

theorem bitmapContains_eq_false : bitmapContains bits start cnt value = false
      ↔ ∀ i < cnt, bits.getD (start + i) false ≠ value := by
  unfold bitmapContains
  simp [List.any_eq_false]

@[simp] theorem length_bitmapSetMultiple :
    (bitmapSetMultiple bits start cnt value).length = bits.length := by
  unfold bitmapSetMultiple
  induction cnt with
  | zero => rfl
  | succ cnt ih => rw [List.range_succ, List.foldl_concat, List.length_set, ih]

/-- **The range is set, and nothing else.** -/
theorem getElem?_bitmapSetMultiple (i : ℕ) : (bitmapSetMultiple bits start cnt value)[i]?
      = if start ≤ i ∧ i < start + cnt ∧ i < bits.length then some value else bits[i]? := by
  induction cnt with
  | zero =>
    rw [if_neg (by omega)]
    rfl
  | succ cnt ih =>
    have hstep : bitmapSetMultiple bits start (cnt + 1) value
        = (bitmapSetMultiple bits start cnt value).set (start + cnt) value := by
      unfold bitmapSetMultiple
      rw [List.range_succ, List.foldl_concat]
    rw [hstep, List.getElem?_set, length_bitmapSetMultiple, ih]
    by_cases hi : start + cnt = i
    · subst hi
      by_cases hlen : start + cnt < bits.length
      · rw [if_pos rfl, if_pos hlen, if_pos (by omega)]
      · rw [if_pos rfl, if_neg hlen, if_neg (by omega), List.getElem?_eq_none (by omega)]
    · rw [if_neg hi]
      by_cases hrange : start ≤ i ∧ i < start + cnt ∧ i < bits.length
      · rw [if_pos hrange, if_pos (by omega)]
      · rw [if_neg hrange, if_neg (by omega)]

/-- **The scan finds a range of free bits.** -/
theorem bitmapScan_eq_some (h : bitmapScan bits start cnt false = some i) :
    i + cnt ≤ bits.length ∧ ∀ j, i ≤ j → j < i + cnt → bits[j]? = some false := by
  unfold bitmapScan at h
  split at h
  · rename_i hcnt
    have hmem := List.mem_of_find?_eq_some h
    have hfree := List.find?_some h
    rw [List.mem_range'_1] at hmem
    have hle : i + cnt ≤ bits.length := by omega
    refine ⟨hle, fun j hij hj => ?_⟩
    simp only [Bool.not_false, Bool.not_eq_true'] at hfree
    have hbit := bitmapContains_eq_false.mp hfree (j - i) (by omega)
    rw [Nat.add_sub_cancel' hij] at hbit
    rw [List.getD_eq_getElem _ _ (by omega)] at hbit
    rw [List.getElem?_eq_getElem (by omega)]
    simpa using hbit
  · cases h

/-- **All bits of the range are set.** -/
theorem bitmapAll_iff : bitmapAll bits start cnt = true
      ↔ start + cnt ≤ bits.length ∧ ∀ j, start ≤ j → j < start + cnt → bits[j]? = some true := by
  unfold bitmapAll
  rw [Bool.and_eq_true, decide_eq_true_eq, Bool.not_eq_true', bitmapContains_eq_false]
  refine and_congr_right fun hle => ⟨fun h j hj hlt => ?_, fun h j hj => ?_⟩
  · have hbit := h (j - start) (by omega)
    rw [Nat.add_sub_cancel' hj, List.getD_eq_getElem _ _ (by omega)] at hbit
    rw [List.getElem?_eq_getElem (by omega)]
    simpa using hbit
  · have hbit := h (start + j) (by omega) (by omega)
    rw [List.getD_eq_getElem?_getD, hbit]
    simp

theorem lt_byteCnt {bitCnt : ℕ} (hsize : bitCnt + 31 < 2 ^ 32) (hi : i < bitCnt) :
    i / 8 < byteCnt bitCnt := by
  unfold byteCnt
  rw [Nat.mod_eq_of_lt hsize]
  omega

/-- **A bitmap is read back as it was written.** -/
theorem bitmapOfBytes_bitmapBytes {unused : ℕ → Bool} (hsize : bits.length + 31 < 2 ^ 32) :
    bitmapOfBytes bits.length ((List.range (byteCnt bits.length)).map (bitmapBytes bits unused))
      = bits := by
  unfold bitmapOfBytes
  refine List.ext_getElem (by simp) fun i hi hi' => ?_
  have hbyte := lt_byteCnt hsize hi'
  rw [List.getElem_map, List.getElem_range, List.getD_eq_getElem _ _ (by simpa using hbyte),
    List.getElem_map, List.getElem_range]
  unfold bitmapBytes
  rw [UInt8.toNat_ofNat_of_lt' (Nat.ofBits_lt_two_pow _), Nat.testBit_ofBits_lt _ _ (by omega)]
  show bits.getD (8 * (i / 8) + i % 8) (unused (8 * (i / 8) + i % 8)) = _
  rw [Nat.div_add_mod, List.getD_eq_getElem _ _ hi']

/-! ## The bits in use -/

/-- The bits that are set. -/
def usedBits (bits : List Bool) : Set ℕ := {i | bits[i]? = some true}

theorem lt_length_of_mem_usedBits (h : i ∈ usedBits bits) : i < bits.length := by
  by_contra hle
  have hbit : bits[i]? = some true := h
  rw [List.getElem?_eq_none (by omega)] at hbit
  cases hbit

theorem usedBits_bitmapSetMultiple_true (h : start + cnt ≤ bits.length) :
    usedBits (bitmapSetMultiple bits start cnt true)
      = usedBits bits ∪ Set.Ico start (start + cnt) := by
  ext i
  unfold usedBits
  rw [Set.mem_ofPred_eq, getElem?_bitmapSetMultiple, Set.mem_union, Set.mem_Ico, Set.mem_ofPred_eq]
  by_cases hi : start ≤ i ∧ i < start + cnt
  · rw [if_pos (by omega)]
    exact iff_of_true rfl (.inr hi)
  · rw [if_neg (by omega), or_iff_left hi]

theorem subset_usedBits_bitmapSetMultiple :
    usedBits bits ⊆ usedBits (bitmapSetMultiple bits start cnt true) := fun i hi => by
  have hbit : bits[i]? = some true := hi
  show (bitmapSetMultiple bits start cnt true)[i]? = some true
  rw [getElem?_bitmapSetMultiple, hbit, ite_self]

theorem usedBits_bitmapSetMultiple_false (h : start + cnt ≤ bits.length) :
    usedBits (bitmapSetMultiple bits start cnt false)
      = usedBits bits \ Set.Ico start (start + cnt) := by
  ext i
  unfold usedBits
  rw [Set.mem_ofPred_eq, getElem?_bitmapSetMultiple, Set.mem_sdiff, Set.mem_Ico, Set.mem_ofPred_eq]
  by_cases hi : start ≤ i ∧ i < start + cnt
  · rw [if_pos (by omega)]
    exact iff_of_false (by simp) fun hmem => hmem.2 hi
  · rw [if_neg (by omega), and_iff_left hi]

/-- A free bit may be set while others are, and freed again. -/
theorem bitmapSetMultiple_undo (start cnt : ℕ) (hfree : bits[i]? = some false)
    (hi : i ∉ Set.Ico start (start + cnt)) :
    bitmapSetMultiple (bitmapSetMultiple (bitmapSetMultiple bits i 1 true) start cnt true) i 1
      false = bitmapSetMultiple bits start cnt true := by
  have hout : ¬ (start ≤ i ∧ i < start + cnt) := hi
  refine List.ext_getElem? fun j => ?_
  simp only [getElem?_bitmapSetMultiple, length_bitmapSetMultiple]
  by_cases hj : j = i
  · subst hj
    have hlt : j < bits.length := (List.getElem?_eq_some_iff.mp hfree).1
    rw [if_pos (by omega), if_neg (by omega), hfree]
  · rw [if_neg (by omega)]
    split
    · rfl
    · rw [if_neg (by omega)]

/-- **What the scan finds is free.** -/
theorem disjoint_usedBits_of_bitmapScan (h : bitmapScan bits start cnt false = some i) :
    Disjoint (Set.Ico i (i + cnt)) (usedBits bits) := by
  refine Set.disjoint_left.mpr fun j hj hused => ?_
  have hfree := (bitmapScan_eq_some h).2 j hj.1 hj.2
  have hbit : bits[j]? = some true := hused
  rw [hbit] at hfree
  cases hfree

theorem bitmapAll_of_subset (h : start + cnt ≤ bits.length)
    (hused : Set.Ico start (start + cnt) ⊆ usedBits bits) : bitmapAll bits start cnt = true :=
  bitmapAll_iff.mpr ⟨h, fun _ hle hlt => hused ⟨hle, hlt⟩⟩
