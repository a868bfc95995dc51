import Mathlib

/-!
# Byte memory

A memory has a byte at every address. Words of any width are read and written in
little-endian order, and there are the two operations on blocks of bytes that C
programs use, filling and copying.

What an operation leaves alone is said once, by the range it may write to
(`AgreeOutside`): a word that lies outside it reads the same afterwards
(`AgreeOutside.load_eq`).
-/

/-- **A memory**: a byte for every address. -/
abbrev ByteMemory : Type := ℕ → UInt8

namespace ByteMemory

/-- A word of a number of bytes, at an address. -/
def load (m : ByteMemory) : ℕ → ℕ → ℕ
  | 0, _ => 0
  | n + 1, a => (m a).toNat + 256 * load m n (a + 1)

/-- A word is written. -/
def store (m : ByteMemory) (n a v : ℕ) : ByteMemory := fun x =>
  if a ≤ x ∧ x < a + n then .ofNat (v / 256 ^ (x - a)) else m x

/-- `memset`. -/
def fill (m : ByteMemory) (a : ℕ) (byte : UInt8) (n : ℕ) : ByteMemory := fun x =>
  if a ≤ x ∧ x < a + n then byte else m x

/-- `memmove`: the bytes are those of the source before the copy. -/
def copy (m : ByteMemory) (dst src n : ℕ) : ByteMemory := fun x =>
  if dst ≤ x ∧ x < dst + n then m (src + (x - dst)) else m x

/-- **Nothing changes outside a range.** -/
def AgreeOutside (a n : ℕ) (m m' : ByteMemory) : Prop :=
  ∀ x, ¬ (a ≤ x ∧ x < a + n) → m' x = m x

variable {m m' : ByteMemory} {a b n k v : ℕ}

theorem agreeOutside_store (m : ByteMemory) (n a v : ℕ) : AgreeOutside a n m (m.store n a v) :=
  fun _ hx => if_neg hx

theorem agreeOutside_fill (m : ByteMemory) (a : ℕ) (byte : UInt8) (n : ℕ) :
    AgreeOutside a n m (m.fill a byte n) :=
  fun _ hx => if_neg hx

theorem agreeOutside_copy (m : ByteMemory) (dst src n : ℕ) :
    AgreeOutside dst n m (m.copy dst src n) :=
  fun _ hx => if_neg hx

theorem load_congr (h : ∀ x, a ≤ x → x < a + n → m' x = m x) : load m' n a = load m n a := by
  induction n generalizing a with
  | zero => rfl
  | succ n ih =>
    unfold load
    rw [h a le_rfl (by omega), ih fun x hx hlt => h x (by omega) (by omega)]

/-- **A word outside the range** reads the same. -/
theorem AgreeOutside.load_eq (h : AgreeOutside a n m m') (hapart : a + n ≤ b ∨ b + k ≤ a) :
    load m' k b = load m k b :=
  load_congr fun x hx hlt => h x (by omega)

theorem load_zero (h : ∀ x, a ≤ x → x < a + n → m x = 0) : load m n a = 0 := by
  induction n generalizing a with
  | zero => rfl
  | succ n ih =>
    unfold load
    rw [h a le_rfl (by omega), ih fun x hx hlt => h x (by omega) (by omega)]
    rfl

/-- **What is written is read**, as far as it fits. -/
theorem load_store (m : ByteMemory) (n a v : ℕ) : load (m.store n a v) n a = v % 256 ^ n := by
  induction n generalizing m a v with
  | zero => simp [load, Nat.mod_one]
  | succ n ih =>
    have hhead : (m.store (n + 1) a v) a = .ofNat v := by
      unfold store
      rw [if_pos ⟨le_rfl, by omega⟩, Nat.sub_self, pow_zero, Nat.div_one]
    -- the other bytes are those of the rest of the value, one address further on
    have htail : load (m.store (n + 1) a v) n (a + 1)
        = load (m.store n (a + 1) (v / 256)) n (a + 1) := by
      refine load_congr fun x hx hlt => ?_
      unfold store
      rw [if_pos ⟨by omega, by omega⟩, if_pos ⟨hx, hlt⟩, Nat.div_div_eq_div_mul,
        show x - a = x - (a + 1) + 1 by omega, pow_succ']
    unfold load
    rw [hhead, htail, ih, UInt8.toNat_ofNat']
    show v % 256 + 256 * (v / 256 % 256 ^ n) = v % 256 ^ (n + 1)
    rw [pow_succ', Nat.mod_mul]

/-! ## Sequences of bytes -/

/-- **A list of bytes stands at an address.** -/
def Holds (m : ByteMemory) : ℕ → List UInt8 → Prop
  | _, [] => True
  | a, b :: l => m a = b ∧ Holds m (a + 1) l

/-- `memcpy` from another memory. -/
def transfer (m src : ByteMemory) (dst a n : ℕ) : ByteMemory := fun x =>
  if dst ≤ x ∧ x < dst + n then src (a + (x - dst)) else m x

theorem agreeOutside_transfer (m src : ByteMemory) (dst a n : ℕ) :
    AgreeOutside dst n m (m.transfer src dst a n) :=
  fun _ hx => if_neg hx

variable {l l₁ l₂ : List UInt8}

theorem holds_append : m.Holds a (l₁ ++ l₂) ↔ m.Holds a l₁ ∧ m.Holds (a + l₁.length) l₂ := by
  induction l₁ generalizing a with
  | nil => exact (iff_of_eq (true_and _)).symm
  | cons b l₁ ih =>
    have hlength : a + (b :: l₁).length = a + 1 + l₁.length := by
      rw [List.length_cons]
      omega
    show m a = b ∧ m.Holds (a + 1) (l₁ ++ l₂) ↔ _
    rw [ih, hlength]
    exact and_assoc.symm

/-- A list stands elsewhere, if the bytes are the same there. -/
theorem Holds.copied (h : m.Holds a l) (hsame : ∀ i < l.length, m' (b + i) = m (a + i)) :
    m'.Holds b l := by
  induction l generalizing a b with
  | nil => exact trivial
  | cons c l ih =>
    refine ⟨(hsame 0 (Nat.succ_pos _)).trans h.1, ih h.2 fun i hi => ?_⟩
    have hnext := hsame (i + 1) (Nat.succ_lt_succ hi)
    rwa [← Nat.add_assoc, ← Nat.add_assoc, Nat.add_right_comm, Nat.add_right_comm a] at hnext

/-- Of two lists at one address the shorter is the beginning of the longer. -/
theorem Holds.exists_append (h₁ : m.Holds a l₁) (h₂ : m.Holds a l₂)
    (hle : l₁.length ≤ l₂.length) : ∃ t, l₁ ++ t = l₂ := by
  induction l₁ generalizing a l₂ with
  | nil => exact ⟨l₂, rfl⟩
  | cons c l₁ ih =>
    cases l₂ with
    | nil => cases hle
    | cons d l₂ =>
      obtain ⟨t, rfl⟩ := ih h₁.2 h₂.2 (Nat.le_of_succ_le_succ hle)
      refine ⟨t, ?_⟩
      rw [List.cons_append, ← h₁.1, ← h₂.1]

theorem AgreeOutside.holds (h : AgreeOutside a n m m') (hl : m.Holds b l)
    (hapart : a + n ≤ b ∨ b + l.length ≤ a) : m'.Holds b l :=
  hl.copied fun _ hi => h _ (by omega)

/-- **What is copied stands at the destination.** -/
theorem holds_transfer (h : m'.Holds a l) (hn : l.length ≤ n) :
    (m.transfer m' b a n).Holds b l := by
  refine h.copied fun i hi => ?_
  unfold transfer
  rw [if_pos ⟨by omega, by omega⟩, Nat.add_sub_cancel_left]

/-- A memory with a list at an address, and zeros elsewhere. -/
def ofList : List UInt8 → ℕ → ByteMemory
  | [], _ => fun _ => 0
  | b :: l, a => Function.update (ofList l (a + 1)) a b

theorem holds_ofList (l : List UInt8) (a : ℕ) : (ofList l a).Holds a l := by
  induction l generalizing a with
  | nil => exact trivial
  | cons b l ih =>
    exact ⟨Function.update_self .., (ih (a + 1)).copied fun i _ =>
      Function.update_of_ne (by omega) ..⟩

theorem AgreeOutside.mono (h : AgreeOutside a n m m') (ha : b ≤ a) (hn : a + n ≤ b + k) :
    AgreeOutside b k m m' :=
  fun x hx => h x (by omega)

end ByteMemory
