import Cs162.DoublyLinked
import Cs162.MmAlloc

/-!
# The blocks of the heap

What the allocator works on is a sequence of blocks in the order of their
addresses, each of which ends before the next begins. `Heap.Laid` says that a heap
holds such a sequence: its headers are linked in both directions from `start` to
`end`, and have the sizes and flags of the blocks. The functions of the allocator
are followed on the sequence: a free block is handed out again and may shrink, a
block is added at the break, and a block that is freed takes in the free block
behind it.
-/

namespace MmAlloc

open Command (Ensures)
open DoublyLinked (Linked)

/-- **A block**: where its header is, how many bytes it has, and whether they are
free. -/
structure Block where
  addr : ℕ
  size : ℕ
  free : Bool

/-- Where a block ends. -/
def Block.limit (b : Block) : ℕ := b.addr + blockSize + b.size

/-- A pointer that may be null. -/
def pointer (a : ℕ) : Option ℕ := if a = 0 then none else some a

theorem pointer_of_pos {a : ℕ} (h : 0 < a) : pointer a = some a := if_neg (Nat.ne_of_gt h)

theorem eq_zero_of_pointer {a : ℕ} (h : pointer a = none) : a = 0 := by
  unfold pointer at h
  split at h
  · assumption
  · cases h

theorem eq_of_pointer {a b : ℕ} (h : pointer a = some b) : a = b := by
  unfold pointer at h
  split at h
  · cases h
  · exact Option.some.inj h

namespace Heap

/-- The link to the block behind. -/
def next (h : Heap) (b : ℕ) : Option ℕ := pointer (h.get .next b)

/-- The link to the block before. -/
def prev (h : Heap) (b : ℕ) : Option ℕ := pointer (h.get .prev b)

/-- **The heap holds a sequence of blocks.** -/
structure Laid (h : Heap) (bs : List Block) : Prop where
  linked : Linked h.next h.prev none (bs.map Block.addr) none
  start : pointer h.start = (bs.map Block.addr).head?
  last : pointer h.last = (bs.map Block.addr).getLast?
  fields : ∀ b ∈ bs, h.get .size b.addr = b.size ∧ (h.get .free b.addr ≠ 0 ↔ b.free = true)
  layout : bs.Pairwise fun b c => b.limit ≤ c.addr
  bounds : ∀ b ∈ bs, 0 < b.addr ∧ b.limit ≤ h.brk
  brk_pos : 0 < h.brk
  brk_lt : h.brk < sizeMod
  blank : ∀ x, h.brk ≤ x → h.memory x = 0

/-! ## Fields -/

variable {h h' : Heap} {f g : Field} {a b v : ℕ} {bs l₁ l₂ : List Block}

theorem field_le (f : Field) : f.offset + f.width ≤ blockSize := by
  cases f <;> decide

theorem field_apart (hne : g ≠ f) :
    f.offset + f.width ≤ g.offset ∨ g.offset + g.width ≤ f.offset := by
  revert hne
  cases f <;> cases g <;> decide

/-- **A field after a write to a field**, of the same block or of one whose header is
elsewhere. -/
theorem get_set (hv : v < 256 ^ f.width) (hapart : a = b ∨ a + blockSize ≤ b ∨ b + blockSize ≤ a) :
    (h.set f b v).get g a = if a = b ∧ g = f then v else h.get g a := by
  unfold get set
  dsimp only
  split
  · rename_i heq
    obtain ⟨rfl, rfl⟩ := heq
    rw [ByteMemory.load_store, Nat.mod_eq_of_lt hv]
  · rename_i hne
    refine (ByteMemory.agreeOutside_store _ _ _ _).load_eq ?_
    have hf := field_le f
    have hg := field_le g
    rcases hapart with rfl | hlt | hlt
    · have hfields := field_apart fun heq => hne ⟨rfl, heq⟩
      omega
    · omega
    · omega

theorem blank_set {limit : ℕ} (h : ∀ x, limit ≤ x → h'.memory x = 0) (hb : b + blockSize ≤ limit)
    (f : Field) (v : ℕ) : ∀ x, limit ≤ x → (h'.set f b v).memory x = 0 := by
  intro x hx
  have hf := field_le f
  exact (ByteMemory.agreeOutside_store _ _ _ _ x (by omega)).trans (h x hx)

theorem brk_appendBlock (h : Heap) (block last s : ℕ) :
    (h.appendBlock block last s).brk = h.brk := by
  unfold appendBlock
  dsimp only
  split <;> rfl

/-- Adding a block writes to its header and to that of the last block. -/
theorem memory_appendBlock (h : Heap) {block last s x : ℕ} (hx : block + blockSize ≤ x)
    (hlast : last = 0 ∨ last + blockSize ≤ x) :
    (h.appendBlock block last s).memory x = h.memory x := by
  have hset (h : Heap) (f : Field) {b : ℕ} (v : ℕ) (hb : b + blockSize ≤ x) :
      (h.set f b v).memory x = h.memory x := by
    have hf := field_le f
    exact ByteMemory.agreeOutside_store _ _ _ _ x (by omega)
  have hfilled : (((h.set .free block 0).set .size block s).set .prev block last).memory x
      = h.memory x := by
    rw [hset _ _ _ hx, hset _ _ _ hx, hset _ _ _ hx]
  unfold appendBlock
  dsimp only
  split
  · exact hfilled
  · rename_i hne
    exact (hset _ _ _ (hlast.resolve_left hne)).trans hfilled

namespace Laid

variable {b c d : Block}

/-! ## The order of the blocks -/

theorem limit_le (hl : h.Laid bs) (hb : b ∈ bs) (hc : c ∈ bs) :
    b = c ∨ b.limit ≤ c.addr ∨ c.limit ≤ b.addr := by
  let R (b c : Block) : Prop := b = c ∨ b.limit ≤ c.addr ∨ c.limit ≤ b.addr
  have hpairwise : bs.Pairwise R := hl.layout.imp fun hbc => .inr (.inl hbc)
  have hsymm : Std.Symm R := ⟨fun b c hbc => hbc.imp Eq.symm Or.symm⟩
  exact List.Pairwise.forall_of_forall (fun _ _ => .inl rfl) hpairwise hb hc

theorem eq_of_addr (hl : h.Laid bs) (hb : b ∈ bs) (hc : c ∈ bs) (haddr : b.addr = c.addr) :
    b = c := by
  rcases hl.limit_le hb hc with heq | hle | hle
  · exact heq
  · unfold Block.limit blockSize at hle
    omega
  · unfold Block.limit blockSize at hle
    omega

theorem apart (hl : h.Laid bs) (hb : b ∈ bs) (hc : c ∈ bs) :
    b.addr = c.addr ∨ b.addr + blockSize ≤ c.addr ∨ c.addr + blockSize ≤ b.addr := by
  rcases hl.limit_le hb hc with heq | hle | hle
  · exact .inl (congrArg Block.addr heq)
  · exact .inr (.inl ((Nat.le_add_right _ _).trans hle))
  · exact .inr (.inr ((Nat.le_add_right _ _).trans hle))

theorem nodup (hl : h.Laid bs) : (bs.map Block.addr).Nodup := by
  refine List.pairwise_map.mpr (hl.layout.imp fun hle heq => ?_)
  unfold Block.limit blockSize at hle
  omega

theorem addr_ne (hl : h.Laid (l₁ ++ b :: l₂)) (hc : c ∈ l₁ ++ l₂) : c.addr ≠ b.addr := by
  have hnodup := hl.nodup
  rw [List.map_append, List.map_cons, List.nodup_middle, List.nodup_cons, ← List.map_append]
    at hnodup
  exact fun heq => hnodup.1 (heq ▸ List.mem_map_of_mem hc)

theorem header_le (hl : h.Laid bs) (hb : b ∈ bs) : b.addr + blockSize ≤ h.brk :=
  (Nat.le_add_right _ _).trans (hl.bounds b hb).2

theorem length_le (hl : h.Laid bs) : bs.length ≤ h.brk := by
  have hsub : (bs.map Block.addr).toFinset ⊆ Finset.range h.brk := by
    intro a ha
    obtain ⟨b, hb, rfl⟩ := List.mem_map.mp (List.mem_toFinset.mp ha)
    have hbound := (hl.bounds b hb).2
    unfold Block.limit blockSize at hbound
    exact Finset.mem_range.mpr (by omega)
  have hcard := Finset.card_le_card hsub
  rwa [List.toFinset_card_of_nodup hl.nodup, List.length_map, Finset.card_range] at hcard

/-! ## Writes to the payload -/

/-- A change of the memory that leaves the headers alone. -/
theorem of_memory (hl : h.Laid bs) {m : ByteMemory}
    (hheader : ∀ b ∈ bs, ∀ x, b.addr ≤ x → x < b.addr + blockSize → m x = h.memory x)
    (hblank : ∀ x, h.brk ≤ x → m x = 0) : { h with memory := m }.Laid bs := by
  have hget (b : Block) (hb : b ∈ bs) (f : Field) :
      { h with memory := m }.get f b.addr = h.get f b.addr := by
    have hf := field_le f
    exact ByteMemory.load_congr fun x hx hlt => hheader b hb x (by omega) (by omega)
  have hlink (f : Field) (a : ℕ) (ha : a ∈ bs.map Block.addr) :
      { h with memory := m }.get f a = h.get f a := by
    obtain ⟨b, hb, rfl⟩ := List.mem_map.mp ha
    exact hget b hb f
  exact
    { hl with
      linked := hl.linked.congr (fun a ha => congrArg pointer (hlink .next a ha))
        fun a ha => congrArg pointer (hlink .prev a ha)
      fields := fun b hb => by
        rw [hget b hb, hget b hb]
        exact hl.fields b hb
      blank := hblank }

/-- **Bytes of a block are written.** -/
theorem payload (hl : h.Laid bs) {m : ByteMemory} {a n : ℕ} (hb : b ∈ bs)
    (ha : b.addr + blockSize ≤ a) (hn : a + n ≤ b.limit)
    (hagree : ByteMemory.AgreeOutside a n h.memory m) : { h with memory := m }.Laid bs := by
  refine hl.of_memory (fun c hc x hx hlt => hagree x ?_) fun x hx => ?_
  · unfold Block.limit at hn
    rcases hl.limit_le hb hc with rfl | hle | hle
    · omega
    · unfold Block.limit at hle
      omega
    · unfold Block.limit at hle
      omega
  · have hbrk := (hl.bounds b hb).2
    exact (hagree x (by omega)).trans (hl.blank x hx)

/-! ## Searching -/

/-- **The search** finds the first free block that is large enough. By induction on the
blocks that are left. -/
theorem findFreeSpace_eq {size fuel curr : ℕ} {before : Option ℕ} {l : List Block}
    (hlinked : Linked h.next h.prev before (l.map Block.addr) none)
    (hfields : ∀ b ∈ l, h.get .size b.addr = b.size ∧ (h.get .free b.addr ≠ 0 ↔ b.free = true))
    (hpos : ∀ b ∈ l, 0 < b.addr) (hcurr : pointer curr = (l.map Block.addr).head?)
    (hfuel : l.length < fuel) : h.findFreeSpace size fuel curr
      = some ((l.find? fun b => b.free && decide (size ≤ b.size)).elim 0 Block.addr) := by
  induction l generalizing fuel curr before with
  | nil =>
    cases fuel with
    | zero => cases hfuel
    | succ fuel =>
      unfold findFreeSpace
      rw [if_pos (eq_zero_of_pointer hcurr)]
      rfl
  | cons b l ih =>
    cases fuel with
    | zero => cases hfuel
    | succ fuel =>
      obtain ⟨hsize, hfree⟩ := hfields b List.mem_cons_self
      have haddr : curr = b.addr := eq_of_pointer hcurr
      have hpos' := hpos b List.mem_cons_self
      subst haddr
      unfold findFreeSpace
      rw [if_neg (Nat.ne_of_gt hpos'), List.find?_cons]
      cases hfits : (b.free && decide (size ≤ b.size)) with
      | true =>
        rw [Bool.and_eq_true, decide_eq_true_eq] at hfits
        rw [if_pos ⟨hfree.mpr hfits.1, hsize ▸ hfits.2⟩]
        rfl
      | false =>
        have hnot : ¬ (h.get .free b.addr ≠ 0 ∧ size ≤ h.get .size b.addr) := fun hboth => by
          rw [hfree, hsize] at hboth
          rw [hboth.1, decide_eq_true hboth.2] at hfits
          cases hfits
        rw [if_neg hnot]
        refine ih hlinked.2.2 (fun c hc => hfields c (List.mem_cons_of_mem b hc))
          (fun c hc => hpos c (List.mem_cons_of_mem b hc)) ?_ (Nat.lt_of_succ_lt_succ hfuel)
        exact hlinked.2.1.trans (Option.or_none ..)

/-! ## Changing a block -/

/-- **The size and the flag of a block change**, and it does not grow. -/
theorem replace (hl : h.Laid (l₁ ++ b :: l₂)) {c : Block} (haddr : c.addr = b.addr)
    (hsize : c.size ≤ b.size)
    (hlinks : ∀ d ∈ l₁ ++ b :: l₂, h'.next d.addr = h.next d.addr ∧ h'.prev d.addr = h.prev d.addr)
    (hothers : ∀ d ∈ l₁ ++ b :: l₂, d.addr ≠ b.addr →
      h'.get .size d.addr = h.get .size d.addr ∧ h'.get .free d.addr = h.get .free d.addr)
    (hself : h'.get .size b.addr = c.size ∧ (h'.get .free b.addr ≠ 0 ↔ c.free = true))
    (hstart : h'.start = h.start) (hlast : h'.last = h.last) (hbrk : h'.brk = h.brk)
    (hblank : ∀ x, h'.brk ≤ x → h'.memory x = 0) : h'.Laid (l₁ ++ c :: l₂) := by
  have hmap : (l₁ ++ c :: l₂).map Block.addr = (l₁ ++ b :: l₂).map Block.addr := by
    rw [List.map_append, List.map_append, List.map_cons, List.map_cons, haddr]
  have hlimit : c.limit ≤ b.limit := by
    unfold Block.limit
    omega
  have hmem : ∀ d ∈ l₁ ++ c :: l₂, d = c ∨ d ∈ l₁ ++ b :: l₂ ∧ d.addr ≠ b.addr := by
    intro d hd
    rw [List.perm_middle.mem_iff, List.mem_cons] at hd
    refine hd.imp_right fun hd => ⟨?_, hl.addr_ne hd⟩
    exact List.perm_middle.mem_iff.mpr (List.mem_cons_of_mem b hd)
  have hb : b ∈ l₁ ++ b :: l₂ := List.mem_append_right _ List.mem_cons_self
  refine ⟨?_, ?_, ?_, fun d hd => ?_, ?_, fun d hd => ?_, hbrk ▸ hl.brk_pos, hbrk ▸ hl.brk_lt,
    hblank⟩
  · rw [hmap]
    refine hl.linked.congr (fun a ha => ?_) fun a ha => ?_
    · obtain ⟨d, hd, rfl⟩ := List.mem_map.mp ha
      exact (hlinks d hd).1
    · obtain ⟨d, hd, rfl⟩ := List.mem_map.mp ha
      exact (hlinks d hd).2
  · rw [hmap, hstart]
    exact hl.start
  · rw [hmap, hlast]
    exact hl.last
  · rcases hmem d hd with rfl | ⟨hd, hne⟩
    · rw [haddr]
      exact hself
    · rw [(hothers d hd hne).1, (hothers d hd hne).2]
      exact hl.fields d hd
  · have hlayout := hl.layout
    rw [List.pairwise_append, List.pairwise_cons] at hlayout ⊢
    obtain ⟨hleft, ⟨hright, hrest⟩, hacross⟩ := hlayout
    refine ⟨hleft, ⟨fun d hd => hlimit.trans (hright d hd), hrest⟩, fun d hd e he => ?_⟩
    rcases List.mem_cons.mp he with rfl | he
    · rw [haddr]
      exact hacross d hd b List.mem_cons_self
    · exact hacross d hd e (List.mem_cons_of_mem b he)
  · rcases hmem d hd with rfl | ⟨hd, -⟩
    · rw [haddr, hbrk]
      exact ⟨(hl.bounds b hb).1, hlimit.trans (hl.bounds b hb).2⟩
    · rw [hbrk]
      exact hl.bounds d hd

theorem sizeMod_eq : sizeMod = 256 ^ 8 := by decide

/-- What ends below the break is a `size_t`. -/
theorem lt_of_le_brk (hl : h.Laid bs) {n : ℕ} (hn : n ≤ h.brk) : n < 256 ^ 8 := by
  rw [← sizeMod_eq]
  exact hn.trans_lt hl.brk_lt

theorem addr_lt (hl : h.Laid bs) (hb : b ∈ bs) : b.addr < 256 ^ 8 :=
  hl.lt_of_le_brk ((Nat.le_add_right _ _).trans (hl.header_le hb))

/-- **A free block is handed out again.** -/
theorem reuse (hl : h.Laid (l₁ ++ b :: l₂)) {size : ℕ} (hsize : size ≤ b.size) :
    ((h.set .free b.addr 0).set .size b.addr size).Laid (l₁ ++ ⟨b.addr, size, false⟩ :: l₂) := by
  have hb : b ∈ l₁ ++ b :: l₂ := List.mem_append_right _ List.mem_cons_self
  obtain ⟨-, hlimit⟩ := hl.bounds b hb
  unfold Block.limit at hlimit
  have hlt : size < 256 ^ 8 := hl.lt_of_le_brk (by omega)
  have hget (d : Block) (hd : d ∈ l₁ ++ b :: l₂) (g : Field) :
      ((h.set .free b.addr 0).set .size b.addr size).get g d.addr
        = if d.addr = b.addr ∧ g = .size then size
          else if d.addr = b.addr ∧ g = .free then 0 else h.get g d.addr := by
    rw [get_set hlt (hl.apart hd hb), get_set (by decide) (hl.apart hd hb)]
  refine hl.replace rfl hsize (fun d hd => ?_) (fun d hd hne => ?_) ?_ rfl rfl rfl ?_
  · unfold next prev
    rw [hget d hd, hget d hd]
    simp
  · rw [hget d hd, hget d hd]
    simp [hne]
  · rw [hget b hb, hget b hb]
    simp
  · exact blank_set (blank_set hl.blank (hl.header_le hb) _ _) (hl.header_le hb) _ _

/-- **The flag of a block is set.** -/
theorem setFree (hl : h.Laid (l₁ ++ b :: l₂)) :
    (h.set .free b.addr 1).Laid (l₁ ++ ⟨b.addr, b.size, true⟩ :: l₂) := by
  have hb : b ∈ l₁ ++ b :: l₂ := List.mem_append_right _ List.mem_cons_self
  have hget (d : Block) (hd : d ∈ l₁ ++ b :: l₂) (g : Field) :
      (h.set .free b.addr 1).get g d.addr
        = if d.addr = b.addr ∧ g = .free then 1 else h.get g d.addr :=
    get_set (by decide) (hl.apart hd hb)
  refine hl.replace rfl le_rfl (fun d hd => ?_) (fun d hd hne => ?_) ?_ rfl rfl rfl ?_
  · unfold next prev
    rw [hget d hd, hget d hd]
    simp
  · rw [hget d hd, hget d hd]
    simp [hne]
  · rw [hget b hb, hget b hb]
    simpa using (hl.fields b hb).1
  · exact blank_set hl.blank (hl.header_le hb) _ _

/-! ## A new block -/

/-- The last block, if there is one. -/
theorem last_cases (hl : h.Laid bs) : h.last = 0 ∧ bs = [] ∨ ∃ b ∈ bs, h.last = b.addr := by
  cases hlast : pointer h.last with
  | none =>
    refine .inl ⟨eq_zero_of_pointer hlast, ?_⟩
    rw [hl.last, List.getLast?_eq_none_iff, List.map_eq_nil_iff] at hlast
    exact hlast
  | some a =>
    have hmem := hlast
    rw [hl.last] at hmem
    obtain ⟨b, hb, rfl⟩ := List.mem_map.mp (List.mem_of_getLast? hmem)
    exact .inr ⟨b, hb, eq_of_pointer hlast⟩

/-- The fields of the headers when a block is added at the break. -/
theorem get_appendBlock (hl : h.Laid bs) {s : ℕ} (hs : s < 256 ^ 8)
    (ha : a = h.brk ∨ ∃ b ∈ bs, a = b.addr) (g : Field) : (h.appendBlock h.brk h.last s).get g a
      = if a = h.last ∧ g = .next then h.brk
        else if a = h.brk ∧ g = .prev then h.last
        else if a = h.brk ∧ g = .size then s
        else if a = h.brk ∧ g = .free then 0 else h.get g a := by
  have hapart : a = h.brk ∨ a + blockSize ≤ h.brk ∨ h.brk + blockSize ≤ a := by
    refine ha.imp_right fun ⟨b, hb, heq⟩ => .inl ?_
    rw [heq]
    exact hl.header_le hb
  have hpos : a ≠ 0 := by
    rcases ha with rfl | ⟨b, hb, rfl⟩
    · exact Nat.ne_of_gt hl.brk_pos
    · exact Nat.ne_of_gt (hl.bounds b hb).1
  have hlt : h.last < 256 ^ 8 := by
    rcases hl.last_cases with ⟨hzero, -⟩ | ⟨b, hb, heq⟩
    · rw [hzero]
      decide
    · rw [heq]
      exact hl.addr_lt hb
  have hfilled : (((h.set .free h.brk 0).set .size h.brk s).set .prev h.brk h.last).get g a
      = if a = h.brk ∧ g = .prev then h.last
        else if a = h.brk ∧ g = .size then s
        else if a = h.brk ∧ g = .free then 0 else h.get g a := by
    rw [get_set hlt hapart, get_set hs hapart, get_set (by decide) hapart]
  rcases hl.last_cases with ⟨hzero, -⟩ | ⟨b, hb, heq⟩
  · have hhead : h.appendBlock h.brk h.last s
        = { ((h.set .free h.brk 0).set .size h.brk s).set .prev h.brk h.last with
            start := h.brk, last := h.brk } := by
      unfold Heap.appendBlock
      dsimp only
      rw [if_pos hzero]
    rw [hhead, if_neg fun hnot => hpos (hnot.1.trans hzero)]
    exact hfilled
  · have hnext : h.appendBlock h.brk h.last s
        = { (((h.set .free h.brk 0).set .size h.brk s).set .prev h.brk h.last).set
            .next h.last h.brk with last := h.brk } := by
      unfold Heap.appendBlock
      dsimp only
      rw [if_neg (heq ▸ Nat.ne_of_gt (hl.bounds b hb).1)]
    have hlastApart : a = h.last ∨ a + blockSize ≤ h.last ∨ h.last + blockSize ≤ a := by
      rw [heq]
      rcases ha with rfl | ⟨c, hc, rfl⟩
      · exact .inr (.inr (hl.header_le hb))
      · exact hl.apart hc hb
    rw [hnext]
    refine (get_set (hl.lt_of_le_brk le_rfl) hlastApart).trans ?_
    rw [hfilled]

/-- **A block is added at the break.** Its field `next` is zero because the memory is. -/
theorem appendBlock (hl : h.Laid bs) {s : ℕ} (hs : h.brk + (s + blockSize) < sizeMod) :
    ({ h with brk := h.brk + (s + blockSize) }.appendBlock h.brk h.last s).Laid
      (bs ++ [Block.mk h.brk s false]) := by
  have hsame (g : Field) (a : ℕ) :
      ({ h with brk := h.brk + (s + blockSize) }.appendBlock h.brk h.last s).get g a
        = (h.appendBlock h.brk h.last s).get g a := by
    unfold Heap.appendBlock
    dsimp only
    split <;> rfl
  have hget {a : ℕ} (ha : a = h.brk ∨ ∃ b ∈ bs, a = b.addr) (g : Field) :=
    (hsame g a).trans (hl.get_appendBlock (by rw [← sizeMod_eq]; omega) ha g)
  have hold {b : Block} (hb : b ∈ bs) : b.addr ≠ h.brk := by
    have hle := hl.header_le hb
    unfold blockSize at hle
    omega
  have hlast : h.last ≠ h.brk := by
    rcases hl.last_cases with ⟨hzero, -⟩ | ⟨b, hb, heq⟩
    · rw [hzero]
      exact Nat.ne_of_lt hl.brk_pos
    · rw [heq]
      exact hold hb
  have hfields (b : Block) (hb : b ∈ bs) (g : Field) (hg : g ≠ .next) :
      ({ h with brk := h.brk + (s + blockSize) }.appendBlock h.brk h.last s).get g b.addr
        = h.get g b.addr := by
    rw [hget (.inr ⟨b, hb, rfl⟩)]
    simp [hold hb, hg]
  refine ⟨?_, ?_, ?_, fun b hb => ?_, ?_, fun b hb => ?_, ?_, ?_, fun x hx => ?_⟩
  · rw [List.map_append]
    have hlinked : Linked h.next h.prev none (bs.map Block.addr ++ []) none := by
      rw [List.append_nil]
      exact hl.linked
    have hnodup : (bs.map Block.addr ++ []).Nodup := by
      rw [List.append_nil]
      exact hl.nodup
    refine Linked.insert hlinked hnodup ?_ ?_ (fun a ha => ?_) nofun (fun a ha hnot => ?_)
      fun a ha _ => ?_
    · show pointer _ = pointer 0
      refine congrArg pointer ((hget (.inl rfl) .next).trans ?_)
      rw [if_neg fun hnot => hlast hnot.1.symm]
      simp only [reduceCtorEq, and_false, if_false]
      exact ByteMemory.load_zero fun x hx _ => hl.blank x hx
    · refine (congrArg pointer ((hget (.inl rfl) .prev).trans ?_)).trans
        (hl.last.trans (Option.or_none ..).symm)
      simp
    · rw [← hl.last] at ha
      have haddr := eq_of_pointer ha
      rcases hl.last_cases with ⟨hzero, -⟩ | ⟨b, hb, heq⟩
      · rw [hzero] at ha
        cases ha
      · refine (congrArg pointer ((hget (.inr ⟨b, hb, haddr.symm.trans heq⟩) .next).trans ?_)).trans
          (pointer_of_pos hl.brk_pos)
        rw [if_pos ⟨haddr.symm, rfl⟩]
    · rw [List.map_nil, List.append_nil] at ha
      obtain ⟨b, hb, rfl⟩ := List.mem_map.mp ha
      refine congrArg pointer ((hget (.inr ⟨b, hb, rfl⟩) .next).trans ?_)
      rw [if_neg fun heq => hnot ?_]
      · simp
      · rw [← hl.last, ← heq.1]
        exact pointer_of_pos (hl.bounds b hb).1
    · rw [List.map_nil, List.append_nil] at ha
      obtain ⟨b, hb, rfl⟩ := List.mem_map.mp ha
      exact congrArg pointer (hfields b hb .prev nofun)
  · rcases hl.last_cases with ⟨hzero, rfl⟩ | ⟨b, hb, heq⟩
    · unfold Heap.appendBlock
      dsimp only
      rw [if_pos hzero]
      exact pointer_of_pos hl.brk_pos
    · have hpos : h.last ≠ 0 := heq ▸ Nat.ne_of_gt (hl.bounds b hb).1
      unfold Heap.appendBlock
      dsimp only
      rw [if_neg hpos, List.map_append, List.head?_append_of_ne_nil _ fun hnil => by
        rw [List.map_eq_nil_iff.mp hnil] at hb
        cases hb]
      exact hl.start
  · rw [List.map_append]
    exact (pointer_of_pos hl.brk_pos).trans List.getLast?_concat.symm
  · rcases List.mem_append.mp hb with hb | hb
    · rw [hfields b hb .size nofun, hfields b hb .free nofun]
      exact hl.fields b hb
    · rw [List.mem_singleton.mp hb]
      dsimp only
      rw [hget (.inl rfl), hget (.inl rfl)]
      simp
  · refine List.pairwise_append.mpr ⟨hl.layout, List.pairwise_singleton .., fun b hb c hc => ?_⟩
    rw [List.mem_singleton.mp hc]
    exact (hl.bounds b hb).2
  · rw [brk_appendBlock]
    rcases List.mem_append.mp hb with hb | hb
    · exact ⟨(hl.bounds b hb).1, (hl.bounds b hb).2.trans (Nat.le_add_right _ _)⟩
    · rw [List.mem_singleton.mp hb]
      unfold Block.limit
      exact ⟨hl.brk_pos, by dsimp only; omega⟩
  · rw [brk_appendBlock]
    exact Nat.add_pos_left hl.brk_pos _
  · rw [brk_appendBlock]
    exact hs
  · rw [brk_appendBlock] at hx
    rw [memory_appendBlock _ (by dsimp only at hx ⊢; omega) ?_]
    · exact hl.blank x ((Nat.le_add_right _ _).trans hx)
    · rcases hl.last_cases with ⟨hzero, -⟩ | ⟨b, hb, heq⟩
      · exact .inl hzero
      · have hle := hl.header_le hb
        dsimp only at hx
        exact .inr (by omega)

/-! ## Merging -/

theorem mem_middle (l₁ l₂ : List Block) (b : Block) : b ∈ l₁ ++ b :: l₂ :=
  List.mem_append_right l₁ List.mem_cons_self

theorem next_eq (hl : h.Laid (l₁ ++ b :: l₂)) : h.next b.addr = l₂.head?.map Block.addr := by
  have hplace : ((l₁ ++ b :: l₂).map Block.addr)[l₁.length]? = some b.addr := by simp
  rw [hl.linked.next_getElem? hplace]
  cases l₂ with
  | nil => simp
  | cons c l₂ => simp

theorem prev_eq (hl : h.Laid (l₁ ++ b :: l₂)) : h.prev b.addr = l₁.getLast?.map Block.addr := by
  cases l₁ using List.reverseRecOn with
  | nil => exact hl.linked.1
  | append_singleton l₁ a =>
    have hplace : ((l₁ ++ [a] ++ b :: l₂).map Block.addr)[l₁.length + 1]? = some b.addr := by simp
    rw [hl.linked.prev_getElem? hplace]
    simp

theorem merge_limit_le (hl : h.Laid (l₁ ++ b :: c :: l₂)) (free : Bool) :
    (Block.mk b.addr (b.size + c.size) free).limit ≤ c.limit := by
  have hlayout := hl.layout
  rw [List.pairwise_append, List.pairwise_cons] at hlayout
  have hbc := hlayout.2.1.1 c List.mem_cons_self
  unfold Block.limit at hbc ⊢
  dsimp only
  omega

theorem size_add_lt (hl : h.Laid (l₁ ++ b :: c :: l₂)) : b.size + c.size < 256 ^ 8 := by
  refine hl.lt_of_le_brk (le_trans ?_
    ((hl.merge_limit_le true).trans (hl.bounds c (by simp)).2))
  exact Nat.le_add_left _ _

/-- **A block takes in the one behind it**, which is not the last. -/
theorem merge (hl : h.Laid (l₁ ++ b :: c :: d :: l₂)) :
    (((h.set .size b.addr (b.size + c.size)).set .next b.addr d.addr).set .prev d.addr b.addr).Laid
      (l₁ ++ Block.mk b.addr (b.size + c.size) b.free :: d :: l₂) := by
  have hb : b ∈ l₁ ++ b :: c :: d :: l₂ := mem_middle l₁ _ b
  have hc : c ∈ l₁ ++ b :: c :: d :: l₂ := by simp
  have hd : d ∈ l₁ ++ b :: c :: d :: l₂ := by simp
  have hlayout := hl.layout
  rw [List.pairwise_append, List.pairwise_cons, List.pairwise_cons] at hlayout
  obtain ⟨hleft, ⟨-, hright, hrest⟩, hacross⟩ := hlayout
  have hlimit := hl.merge_limit_le b.free
  have hget {e : Block} (he : e ∈ l₁ ++ b :: c :: d :: l₂) (g : Field) :
      (((h.set .size b.addr (b.size + c.size)).set .next b.addr d.addr).set
          .prev d.addr b.addr).get g e.addr
        = if e.addr = d.addr ∧ g = .prev then b.addr
          else if e.addr = b.addr ∧ g = .next then d.addr
          else if e.addr = b.addr ∧ g = .size then b.size + c.size else h.get g e.addr := by
    rw [get_set (hl.addr_lt hb) (hl.apart he hd), get_set (hl.addr_lt hd) (hl.apart he hb),
      get_set hl.size_add_lt (hl.apart he hb)]
  have hdb : d.addr ≠ b.addr := hl.addr_ne (by simp)
  have hmem {e : Block} (he : e ∈ l₁ ++ d :: l₂) :
      e ∈ l₁ ++ b :: c :: d :: l₂ ∧ e.addr ≠ b.addr := by
    refine ⟨?_, hl.addr_ne ?_⟩
    · rcases List.mem_append.mp he with he | he
      · exact List.mem_append_left _ he
      · exact List.mem_append_right _ (List.mem_cons_of_mem b (List.mem_cons_of_mem c he))
    · rcases List.mem_append.mp he with he | he
      · exact List.mem_append_left _ he
      · exact List.mem_append_right _ (List.mem_cons_of_mem c he)
  refine ⟨?_, ?_, ?_, fun e he => ?_, ?_, fun e he => ?_, hl.brk_pos, hl.brk_lt, ?_⟩
  · have hlinked := hl.linked
    have hnodup := hl.nodup
    simp only [List.map_append, List.map_cons] at hlinked hnodup ⊢
    refine hlinked.remove hnodup ?_ ?_ (fun a ha hne => ?_) fun a ha hnot => ?_
    · refine (congrArg pointer ((hget hb .next).trans ?_)).trans (pointer_of_pos (hl.bounds d hd).1)
      simp
    · rintro a ⟨⟩
      refine (congrArg pointer ((hget hd .prev).trans ?_)).trans (pointer_of_pos (hl.bounds b hb).1)
      simp
    · have hin : a ∈ (l₁ ++ b :: c :: d :: l₂).map Block.addr := by simpa using ha
      obtain ⟨e, he, rfl⟩ := List.mem_map.mp hin
      refine congrArg pointer ((hget he .next).trans ?_)
      simp [hne]
    · have hin : a ∈ (l₁ ++ b :: c :: d :: l₂).map Block.addr := by simpa using ha
      obtain ⟨e, he, rfl⟩ := List.mem_map.mp hin
      have hne : e.addr ≠ d.addr := fun heq => hnot (by rw [heq]; rfl)
      refine congrArg pointer ((hget he .prev).trans ?_)
      simp [hne]
  · refine hl.start.trans ?_
    cases l₁ <;> rfl
  · refine hl.last.trans ?_
    simp
  · rw [List.perm_middle.mem_iff, List.mem_cons] at he
    rcases he with rfl | he
    · have hfree := (hl.fields b hb).2
      dsimp only
      rw [hget hb, hget hb]
      simpa [hdb.symm] using hfree
    · obtain ⟨he, hne⟩ := hmem he
      rw [hget he, hget he]
      simpa [hne] using hl.fields e he
  · refine List.pairwise_append.mpr ⟨hleft, List.pairwise_cons.mpr ⟨fun e he => ?_, hrest⟩,
      fun e he f hf => ?_⟩
    · exact hlimit.trans (hright e he)
    · rcases List.mem_cons.mp hf with rfl | hf
      · exact hacross e he b List.mem_cons_self
      · exact hacross e he f (List.mem_cons_of_mem b (List.mem_cons_of_mem c hf))
  · rw [List.perm_middle.mem_iff, List.mem_cons] at he
    rcases he with rfl | he
    · exact ⟨(hl.bounds b hb).1, hlimit.trans (hl.bounds c hc).2⟩
    · exact hl.bounds e (hmem he).1
  · exact blank_set (blank_set (blank_set hl.blank (hl.header_le hb) _ _)
      (hl.header_le hb) _ _) (hl.header_le hd) _ _

end Laid

end Heap

end MmAlloc
