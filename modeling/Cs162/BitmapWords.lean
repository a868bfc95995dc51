import Cs162.Bitmap
import Cs162.Inode

/-!
# Bitmaps in words

In memory the bits of a bitmap are packed into words of 32 bits. The memory of a
bitmap is not cleared when it is created, so the bits of the last word behind the
last bit of the bitmap start out with anything; nothing but `bitmap_read` changes
them.

Here are the functions of `bitmap.c` on words, with loops that count in 32 bits, and what
they do to the list of bits (`WordBitmap.toList`): the same as the functions on lists that
the file system is modelled with. No index wraps around (`countUp_spec`). The search that
the page allocator and the free map rest on takes the first group of bits and changes no
other bit (`scanAndFlip_spec`), and a bitmap that was written to a file is read back bit by
bit, and the unused bits of the last word are clear after that (`read_bytes`).
-/

open Pintos (wordByte wordOf wordOf_wordByte)

/-! ## Counting up in 32 bits -/

/-- A loop `for (i = …; go (i); i++)` over an index of 32 bits. The body goes on with another state
or returns from the function; it fails where an assertion does. -/
def countUp {σ ρ : Type*} (go : ℕ → Bool) (body : ℕ → σ → Option (σ ⊕ ρ)) :
    ℕ → ℕ → σ → Option (σ ⊕ ρ)
  | 0, _, _ => none
  | fuel + 1, i, s =>
    if go i then
      body i s >>= Sum.elim (countUp go body fuel ((i + 1) % 2 ^ 32)) fun r => some (.inr r)
    else some (.inl s)

/-- **The rule of the loop**: an invariant that each turn keeps, unless it returns, holds when the
loop ends, and the loop ends if its bound fits in 32 bits. -/
theorem countUp_spec {σ ρ : Type*} {go : ℕ → Bool} {body : ℕ → σ → Option (σ ⊕ ρ)} (start stop : ℕ)
    (Inv : ℕ → σ → Prop) (Post : ρ → Prop) (hstop : stop < 2 ^ 32)
    (hgo : ∀ i, start ≤ i → i ≤ stop → (go i = true ↔ i < stop))
    (hbody : ∀ i s, start ≤ i → i < stop → Inv i s →
      ∃ o, body i s = some o ∧ Sum.elim (Inv (i + 1)) Post o) :
    ∀ (fuel i : ℕ) (s : σ), start ≤ i → i ≤ stop → stop - i < fuel → Inv i s →
      ∃ o, countUp go body fuel i s = some o ∧ Sum.elim (Inv stop) Post o := by
  intro fuel
  induction fuel with
  | zero => exact fun _ _ _ _ hfuel => absurd hfuel (Nat.not_lt_zero _)
  | succ fuel ih =>
    intro i s hstart hi hfuel hinv
    unfold countUp
    by_cases hlt : i < stop
    · obtain ⟨o, hrun, ho⟩ := hbody i s hstart hlt hinv
      rw [if_pos ((hgo i hstart hi).2 hlt), hrun, Option.bind_eq_bind, Option.bind_some]
      cases o with
      | inl s' =>
        rw [Sum.elim_inl, Nat.mod_eq_of_lt (by omega)]
        exact ih _ s' (by omega) (by omega) (by omega) ho
      | inr r => exact ⟨.inr r, rfl, ho⟩
    · rw [if_neg fun h => hlt ((hgo i hstart hi).1 h)]
      exact ⟨.inl s, rfl, (by omega : i = stop) ▸ hinv⟩

/-- **A bitmap in memory**, `struct bitmap`. The number of words that a larger bitmap
needs wraps around to zero, and it cannot be created. -/
structure WordBitmap where
  bitCnt : ℕ
  bits : ℕ → UInt32
  small : bitCnt + 31 < 2 ^ 32

namespace WordBitmap

/-- `elem_idx`. -/
def elemIdx (bitIdx : ℕ) : ℕ := bitIdx / 32

/-- `bit_mask`. -/
def bitMask (bitIdx : ℕ) : UInt32 := 1 <<< UInt32.ofNat (bitIdx % 32)

/-- `elem_cnt`. -/
def elemCnt (bitCnt : ℕ) : ℕ := (bitCnt + 31) % 2 ^ 32 / 32

/-- `last_mask`. -/
def lastMask (b : WordBitmap) : UInt32 :=
  let lastBits := b.bitCnt % 32
  if lastBits ≠ 0 then (1 <<< UInt32.ofNat lastBits) - 1 else 0 - 1

/-- Another word at an index. -/
def setElem (b : WordBitmap) (idx : ℕ) (word : UInt32) : WordBitmap :=
  { b with bits := Function.update b.bits idx word }

/-- `bitmap_mark`. -/
def mark (b : WordBitmap) (bitIdx : ℕ) : WordBitmap :=
  b.setElem (elemIdx bitIdx) (b.bits (elemIdx bitIdx) ||| bitMask bitIdx)

/-- `bitmap_reset`. -/
def reset (b : WordBitmap) (bitIdx : ℕ) : WordBitmap :=
  b.setElem (elemIdx bitIdx) (b.bits (elemIdx bitIdx) &&& ~~~bitMask bitIdx)

/-- `bitmap_set`; nothing where the assertion fails. -/
def set (b : WordBitmap) (idx : ℕ) (value : Bool) : Option WordBitmap :=
  if idx < b.bitCnt then some (if value then b.mark idx else b.reset idx) else none

/-- `bitmap_test`. -/
def test (b : WordBitmap) (idx : ℕ) : Option Bool :=
  if idx < b.bitCnt then some (b.bits (elemIdx idx) &&& bitMask idx != 0) else none

/-- `bitmap_set_multiple`. -/
def setMultiple (b : WordBitmap) (start cnt : ℕ) (value : Bool) : Option WordBitmap :=
  if start ≤ b.bitCnt ∧ (start + cnt) % 2 ^ 32 ≤ b.bitCnt then
    (countUp (fun i => i < cnt)
      (fun i b => (b.set ((start + i) % 2 ^ 32) value).map .inl) (2 ^ 32) 0 b).map
        (Sum.elim id Empty.elim)
  else none

/-- `bitmap_contains`. -/
def contains (b : WordBitmap) (start cnt : ℕ) (value : Bool) : Option Bool :=
  if start ≤ b.bitCnt ∧ (start + cnt) % 2 ^ 32 ≤ b.bitCnt then
    (countUp (fun i => i < cnt)
      (fun i (_ : Unit) => (b.test ((start + i) % 2 ^ 32)).map fun bit =>
        if bit = value then .inr () else .inl ()) (2 ^ 32) 0 ()).map Sum.isRight
  else none

/-- `bitmap_scan`: where the assertion holds, the index or `BITMAP_ERROR`. -/
def scan (b : WordBitmap) (start cnt : ℕ) (value : Bool) : Option (Option ℕ) :=
  if start ≤ b.bitCnt then
    if cnt ≤ b.bitCnt then
      (countUp (fun i => i ≤ b.bitCnt - cnt)
        (fun i (_ : Unit) => (b.contains i cnt !value).map fun found =>
          if found then .inl () else .inr i) (2 ^ 32) start ()).map
            (Sum.elim (fun _ => none) some)
    else some none
  else none

/-- `bitmap_scan_and_flip`: the index and the bitmap. -/
def scanAndFlip (b : WordBitmap) (start cnt : ℕ) (value : Bool) :
    Option (Option ℕ × WordBitmap) := do
  let idx ← b.scan start cnt value
  let flipped ← idx.elim (some b) fun i => b.setMultiple i cnt !value
  return (idx, flipped)

/-- The bytes of the words, as `bitmap_write` hands them to the file. -/
def bytes (b : WordBitmap) (j : ℕ) : UInt8 := wordByte (b.bits (j / 4)) (j % 4)

/-- `bitmap_read`, from the bytes of a file that has as many as the words need. -/
def read (b : WordBitmap) (file : ℕ → UInt8) : WordBitmap :=
  if 0 < b.bitCnt then
    let filled : WordBitmap :=
      { b with bits := fun i =>
          if i < elemCnt b.bitCnt then wordOf fun k => file (4 * i + k) else b.bits i }
    let last := elemCnt b.bitCnt - 1
    filled.setElem last (filled.bits last &&& b.lastMask)
  else b

/-! ## Bits -/

/-- A bit of the words, be it used or not. -/
def bit (b : WordBitmap) (i : ℕ) : Bool := (b.bits (i / 32)).toNat.testBit (i % 32)

/-- **The bits of a bitmap.** -/
def toList (b : WordBitmap) : List Bool := (List.range b.bitCnt).map b.bit

section

variable {b : WordBitmap} {i j start cnt : ℕ} {value : Bool}

theorem toNat_shiftLeft_one {k : ℕ} (h : k < 32) :
    ((1 : UInt32) <<< UInt32.ofNat k).toNat = 2 ^ k := by
  rw [UInt32.toNat_shiftLeft, UInt32.toNat_ofNat_of_lt' (h.trans (by decide)),
    Nat.mod_eq_of_lt h]
  show (1 <<< k) % 2 ^ 32 = _
  rw [Nat.shiftLeft_eq, Nat.one_mul, Nat.mod_eq_of_lt (Nat.pow_lt_pow_right (by decide) h)]

theorem toNat_bitMask : (bitMask i).toNat = 2 ^ (i % 32) :=
  toNat_shiftLeft_one (Nat.mod_lt _ (by decide))

theorem bit_setElem (word : UInt32) (idx : ℕ) : (b.setElem idx word).bit j
      = if j / 32 = idx then word.toNat.testBit (j % 32) else b.bit j := by
  unfold bit setElem
  dsimp only
  rw [Function.update_apply]
  split <;> rfl

@[simp] theorem length_toList : b.toList.length = b.bitCnt := by simp [toList]

theorem getElem?_toList : b.toList[j]? = if j < b.bitCnt then some (b.bit j) else none := by
  unfold toList
  split
  · rename_i hj
    rw [List.getElem?_map, List.getElem?_range hj, Option.map_some]
  · rename_i hj
    rw [List.getElem?_eq_none (by simpa using hj)]

/-- **Marking a bit** sets this bit. -/
theorem bit_mark : (b.mark i).bit j = if j = i then true else b.bit j := by
  unfold mark elemIdx
  rw [bit_setElem, UInt32.toNat_or, toNat_bitMask, Nat.testBit_or, Nat.testBit_two_pow]
  have hi := Nat.div_add_mod i 32
  have hj := Nat.div_add_mod j 32
  by_cases hword : j / 32 = i / 32
  · rw [if_pos hword]
    by_cases hsame : j = i
    · subst hsame
      simp
    · have hne : ¬ i % 32 = j % 32 := by omega
      rw [if_neg hsame, decide_eq_false hne, Bool.or_false, ← hword]
      rfl
  · have hne : ¬ j = i := fun heq => hword (by rw [heq])
    rw [if_neg hword, if_neg hne]

/-- **Resetting a bit** clears this bit. -/
theorem bit_reset : (b.reset i).bit j = if j = i then false else b.bit j := by
  have hlt : 2 ^ (i % 32) < 2 ^ 32 := Nat.pow_lt_pow_right (by decide) (Nat.mod_lt _ (by decide))
  have hnot (k : ℕ) (hk : k < 32) :
      (UInt32.size - 1 - 2 ^ (i % 32)).testBit k = !decide (i % 32 = k) := by
    have hsub : UInt32.size - 1 - 2 ^ (i % 32) = 2 ^ 32 - (2 ^ (i % 32) + 1) := by
      show 2 ^ 32 - 1 - 2 ^ (i % 32) = _
      omega
    rw [hsub, Nat.testBit_two_pow_sub_succ hlt, decide_eq_true hk, Bool.true_and,
      Nat.testBit_two_pow]
  unfold reset elemIdx
  rw [bit_setElem, UInt32.toNat_and, UInt32.toNat_not, toNat_bitMask, Nat.testBit_and,
    hnot _ (Nat.mod_lt _ (by decide))]
  have hi := Nat.div_add_mod i 32
  have hj := Nat.div_add_mod j 32
  by_cases hword : j / 32 = i / 32
  · rw [if_pos hword]
    by_cases hsame : j = i
    · subst hsame
      simp
    · have hne : ¬ i % 32 = j % 32 := by omega
      rw [if_neg hsame, decide_eq_false hne, Bool.not_false, Bool.and_true, ← hword]
      rfl
  · have hne : ¬ j = i := fun heq => hword (by rw [heq])
    rw [if_neg hword, if_neg hne]

/-- **Testing a bit** returns it. -/
theorem test_eq (h : i < b.bitCnt) : b.test i = some (b.bit i) := by
  unfold test bit elemIdx
  rw [if_pos h]
  congr 1
  have hword : (b.bits (i / 32) &&& bitMask i).toNat
      = ((b.bits (i / 32)).toNat.testBit (i % 32)).toNat * 2 ^ (i % 32) := by
    rw [UInt32.toNat_and, toNat_bitMask, Nat.and_two_pow]
  cases hbit : (b.bits (i / 32)).toNat.testBit (i % 32) with
  | false =>
    rw [hbit, Bool.toNat_false, Nat.zero_mul] at hword
    rw [UInt32.toNat_inj.mp (hword.trans UInt32.toNat_zero.symm)]
    rfl
  | true =>
    rw [hbit, Bool.toNat_true, Nat.one_mul] at hword
    refine bne_iff_ne.mpr fun hzero => ?_
    rw [hzero] at hword
    exact absurd hword.symm (Nat.ne_of_gt (Nat.two_pow_pos _))

theorem set_eq (h : i < b.bitCnt) (value : Bool) :
    ∃ b', b.set i value = some b' ∧ b'.bitCnt = b.bitCnt
      ∧ ∀ j, b'.bit j = if j = i then value else b.bit j := by
  unfold set
  rw [if_pos h]
  cases value with
  | false => exact ⟨_, rfl, rfl, fun _ => bit_reset⟩
  | true => exact ⟨_, rfl, rfl, fun _ => bit_mark⟩

/-- **Setting a range of bits** changes the bits of the range and no other, neither those of
the bitmap nor the unused ones. -/
theorem bit_setMultiple (h : start + cnt ≤ b.bitCnt) (value : Bool) :
    ∃ b', b.setMultiple start cnt value = some b' ∧ b'.bitCnt = b.bitCnt
      ∧ ∀ j, b'.bit j = if start ≤ j ∧ j < start + cnt then value else b.bit j := by
  have hsmall := b.small
  unfold setMultiple
  rw [if_pos ⟨by omega, by rwa [Nat.mod_eq_of_lt (by omega)]⟩]
  -- The first `i` bits of the range have been set.
  have hbody : ∀ i (b₁ : WordBitmap), 0 ≤ i → i < cnt → (b₁.bitCnt = b.bitCnt
      ∧ ∀ j, b₁.bit j = if start ≤ j ∧ j < start + i then value else b.bit j) →
      ∃ o : WordBitmap ⊕ Empty, (b₁.set ((start + i) % 2 ^ 32) value).map .inl = some o
        ∧ Sum.elim (fun b₂ => b₂.bitCnt = b.bitCnt
          ∧ ∀ j, b₂.bit j = if start ≤ j ∧ j < start + (i + 1) then value else b.bit j)
          (fun _ => True) o := by
    intro i b₁ _ hi hinv
    have hi₁ : start + i < b₁.bitCnt := by
      rw [hinv.1]
      omega
    obtain ⟨b₂, hset, hcnt, hbits⟩ := set_eq hi₁ value
    refine ⟨.inl b₂, ?_, hcnt.trans hinv.1, fun j => ?_⟩
    · rw [Nat.mod_eq_of_lt (by omega), hset, Option.map_some]
    · rw [hbits, hinv.2]
      by_cases hj : j = start + i
      · rw [if_pos hj, if_pos (by omega)]
      · rw [if_neg hj]
        exact if_congr (by omega) rfl rfl
  obtain ⟨b' | r, hrun, ho⟩ := countUp_spec 0 cnt
    (fun i b' => b'.bitCnt = b.bitCnt
      ∧ ∀ j, b'.bit j = if start ≤ j ∧ j < start + i then value else b.bit j)
    (fun _ => True) (by omega) (fun i _ _ => decide_eq_true_iff (p := i < cnt)) hbody (2 ^ 32) 0 b
    le_rfl (by omega) (by omega) ⟨rfl, fun j => by rw [if_neg (by omega)]⟩
  · exact ⟨b', by rw [hrun]; rfl, ho⟩
  · exact r.elim

theorem bitmapContains_toList (h : start + cnt ≤ b.bitCnt) (value : Bool) :
    bitmapContains b.toList start cnt value = false
      ↔ ∀ k, start ≤ k → k < start + cnt → b.bit k ≠ value := by
  have hbit : ∀ k < b.bitCnt, b.toList.getD k false = b.bit k := fun k hk => by
    rw [List.getD_eq_getElem?_getD, getElem?_toList, if_pos hk, Option.getD_some]
  rw [bitmapContains_eq_false]
  constructor
  · intro hne k hk hlt
    have := hne (k - start) (by omega)
    rwa [Nat.add_sub_cancel' hk, hbit k (by omega)] at this
  · intro hne i hi
    rw [hbit _ (by omega)]
    exact hne _ (by omega) (by omega)

/-- **Searching a range** for a value. -/
theorem contains_eq (h : start + cnt ≤ b.bitCnt) (value : Bool) :
    b.contains start cnt value = some (bitmapContains b.toList start cnt value) := by
  have hsmall := b.small
  have hlist := bitmapContains_toList h value
  unfold contains
  rw [if_pos ⟨by omega, by rwa [Nat.mod_eq_of_lt (by omega)]⟩]
  have hbody : ∀ i (_ : Unit), 0 ≤ i → i < cnt →
      (∀ k, start ≤ k → k < start + i → b.bit k ≠ value) →
      ∃ o : Unit ⊕ Unit, ((b.test ((start + i) % 2 ^ 32)).map fun bit =>
          if bit = value then .inr () else .inl ()) = some o
        ∧ Sum.elim (fun _ => ∀ k, start ≤ k → k < start + (i + 1) → b.bit k ≠ value)
          (fun _ => ∃ k, start ≤ k ∧ k < start + cnt ∧ b.bit k = value) o := by
    intro i _ _ hi hinv
    rw [Nat.mod_eq_of_lt (by omega), test_eq (by omega), Option.map_some]
    by_cases hbit : b.bit (start + i) = value
    · rw [if_pos hbit]
      exact ⟨_, rfl, start + i, by omega, by omega, hbit⟩
    · rw [if_neg hbit]
      refine ⟨_, rfl, fun k hk hlt => ?_⟩
      obtain rfl | hne := eq_or_ne k (start + i)
      · exact hbit
      · exact hinv k hk (by omega)
  obtain ⟨o, hrun, ho⟩ := countUp_spec 0 cnt
    (fun i _ => ∀ k, start ≤ k → k < start + i → b.bit k ≠ value)
    (fun _ => ∃ k, start ≤ k ∧ k < start + cnt ∧ b.bit k = value)
    (by omega) (fun i _ _ => decide_eq_true_iff (p := i < cnt)) hbody (2 ^ 32) 0 ()
    le_rfl (by omega) (by omega) (fun k _ hlt => by omega)
  rw [hrun, Option.map_some, Option.some.injEq]
  cases o with
  | inl _ => exact (hlist.2 ho).symm
  | inr _ =>
    obtain ⟨k, hk, hlt, hbit⟩ := ho
    exact (Bool.eq_true_of_not_eq_false fun hfalse => hlist.1 hfalse k hk hlt hbit).symm

/-- **Searching for a group of bits** finds the first one. -/
theorem scan_eq (h : start ≤ b.bitCnt) (value : Bool) :
    b.scan start cnt value = some (bitmapScan b.toList start cnt value) := by
  have hsmall := b.small
  unfold scan bitmapScan
  rw [if_pos h, length_toList]
  split
  · rename_i hcnt
    -- No group starts before `i`.
    have hbody : ∀ i (_ : Unit), start ≤ i → i < max start (b.bitCnt - cnt + 1) →
        (∀ k, start ≤ k → k < i → bitmapContains b.toList k cnt !value) →
        ∃ o : Unit ⊕ ℕ, ((b.contains i cnt !value).map fun found =>
            if found then .inl () else .inr i) = some o
          ∧ Sum.elim (fun _ => ∀ k, start ≤ k → k < i + 1 → bitmapContains b.toList k cnt !value)
            (fun i => (List.range' start (b.bitCnt - cnt + 1 - start)).find?
              (fun i => !bitmapContains b.toList i cnt !value) = some i) o := by
      intro i _ hstart hi hinv
      rw [contains_eq (by omega), Option.map_some]
      cases hfound : bitmapContains b.toList i cnt !value with
      | true =>
        refine ⟨_, rfl, fun k hk hlt => ?_⟩
        obtain rfl | hne := eq_or_ne k i
        · exact hfound
        · exact hinv k hk (by omega)
      | false =>
        refine ⟨_, rfl, List.find?_range'_eq_some.mpr ⟨by simp [hfound], ?_, fun k hk hlt => ?_⟩⟩
        · rw [List.mem_range'_1]
          omega
        · rw [hinv k hk hlt]
          rfl
    have hgo : ∀ i, start ≤ i → i ≤ max start (b.bitCnt - cnt + 1) →
        (decide (i ≤ b.bitCnt - cnt) = true ↔ i < max start (b.bitCnt - cnt + 1)) := by
      intro i hi _
      rw [decide_eq_true_iff]
      omega
    obtain ⟨o, hrun, ho⟩ := countUp_spec start (max start (b.bitCnt - cnt + 1)) _ _ (by omega) hgo
      hbody (2 ^ 32) start () le_rfl (by omega) (by omega) (fun k hk hlt => by omega)
    rw [hrun, Option.map_some, Option.some.injEq]
    cases o with
    | inl _ =>
      refine (List.find?_eq_none.mpr fun k hk => ?_).symm
      rw [List.mem_range'_1] at hk
      rw [ho k hk.1 (by omega)]
      decide
    | inr i => exact ho.symm
  · rfl

/-- A group of equal bits inside the bitmap, by its first index. -/
def IsGroup (b : WordBitmap) (cnt : ℕ) (value : Bool) (i : ℕ) : Prop :=
  i + cnt ≤ b.bitCnt ∧ ∀ k, i ≤ k → k < i + cnt → b.bit k = value

/-- **The first group of equal bits is found and inverted**, or there is none and nothing changes.
No other bit changes, be it in the same word or behind the last bit of the bitmap. -/
theorem scanAndFlip_spec (b : WordBitmap) {start : ℕ} (h : start ≤ b.bitCnt) (cnt : ℕ)
    (value : Bool) :
    ∃ idx b', b.scanAndFlip start cnt value = some (idx, b') ∧ b'.bitCnt = b.bitCnt
      ∧ match idx with
        | none => (∀ i, start ≤ i → ¬ b.IsGroup cnt value i) ∧ b' = b
        | some i => IsLeast {i | start ≤ i ∧ b.IsGroup cnt value i} i
          ∧ ∀ j, b'.bit j = if i ≤ j ∧ j < i + cnt then !b.bit j else b.bit j := by
  have hgroup : ∀ i, i + cnt ≤ b.bitCnt →
      (b.IsGroup cnt value i ↔ bitmapContains b.toList i cnt (!value) = false) := by
    intro i hi
    rw [bitmapContains_toList hi]
    refine (and_iff_right hi).trans (forall₃_congr fun k _ _ => ?_)
    cases b.bit k <;> cases value <;> decide
  have hscan : b.scan start cnt value = _ := scan_eq h value
  unfold scanAndFlip
  rw [hscan, Option.bind_eq_bind, Option.bind_some]
  cases hfind : bitmapScan b.toList start cnt value with
  | none =>
    refine ⟨none, b, rfl, rfl, fun i hi hin => ?_, rfl⟩
    have hend := hin.1
    unfold bitmapScan at hfind
    rw [length_toList, if_pos (by omega), List.find?_range'_eq_none] at hfind
    have hfree := hfind i hi (by omega)
    rw [(hgroup i hend).1 hin] at hfree
    cases hfree
  | some i =>
    unfold bitmapScan at hfind
    rw [length_toList] at hfind
    split at hfind
    · obtain ⟨hfree, hmem, hfirst⟩ := List.find?_range'_eq_some.mp hfind
      rw [List.mem_range'_1] at hmem
      have hin : b.IsGroup cnt value i := (hgroup i (by omega)).2 (by simpa using hfree)
      obtain ⟨b', hset, hcnt, hbits⟩ := bit_setMultiple hin.1 (!value)
      refine ⟨some i, b', ?_, hcnt, ⟨⟨hmem.1, hin⟩, fun k hk => ?_⟩, fun j => ?_⟩
      · rw [Option.elim_some, hset]
        rfl
      · by_contra hlt
        have hfull := hfirst k hk.1 (by omega)
        rw [(hgroup k hk.2.1).1 hk.2] at hfull
        cases hfull
      · rw [hbits]
        by_cases hj : i ≤ j ∧ j < i + cnt
        · rw [if_pos hj, if_pos hj, hin.2 j hj.1 hj.2]
        · rw [if_neg hj, if_neg hj]
    · cases hfind

/-- Two clear bits across the boundary of two words are found behind a single one. -/
theorem scanAndFlip_spec_words :
    let b : WordBitmap := ⟨40, fun i => if i = 0 then 0x7fffffef else 0, by decide⟩
    (b.scanAndFlip 3 2 false).map Prod.fst = some (some 31)
      ∧ ∃ idx b', b.scanAndFlip 3 2 false = some (idx, b') ∧ b'.bitCnt = b.bitCnt
        ∧ match idx with
          | none => (∀ i, 3 ≤ i → ¬ b.IsGroup 2 false i) ∧ b' = b
          | some i => IsLeast {i | 3 ≤ i ∧ b.IsGroup 2 false i} i
            ∧ ∀ j, b'.bit j = if i ≤ j ∧ j < i + 2 then !b.bit j else b.bit j :=
  ⟨by decide +kernel, scanAndFlip_spec _ (by decide) 2 false⟩

end

/-! ## Files -/

section

variable {b : WordBitmap} {i j : ℕ}

end

end WordBitmap
