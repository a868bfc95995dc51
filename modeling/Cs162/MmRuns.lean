import Cs162.MmBlocks
import Cs162.Run

/-!
# Runs of the allocator

A program calls the allocator and writes to the bytes it was given. As long as the
heap holds a sequence of blocks and every live allocation is a block of its own,
nothing overlaps. All calls keep this up but one: `fusion` is made for a block whose
neighbours are not free, or are free in a harmless way. Where the block before is
free it keeps the wrong one of the two headers, and where the block behind is free
and the last it leaves `end` at a header that is no longer in the list.
-/

namespace MmAlloc

open Command (Ensures)
open Transition (Run)

/-- **The neighbours of a block that is freed**: the one before is not free, and neither
is the one behind if it is the last. -/
def Heap.Mergeable (h : Heap) (b : ℕ) : Prop :=
  (h.get .prev b = 0 ∨ h.get .free (h.get .prev b) = 0)
    ∧ (h.get .next b = 0 ∨ h.get .free (h.get .next b) = 0 ∨ h.get .next b ≠ h.last)

instance (h : Heap) (b : ℕ) : Decidable (h.Mergeable b) := inferInstanceAs (Decidable (_ ∧ _))

/-- A block is freed by the call only if its neighbours allow it. -/
def HeapEvent.Tidy (h : Heap) : HeapEvent → Prop
  | malloc _ _ | write _ _ => True
  | free ptr => ptr ≠ 0 → h.Mergeable (getBlock ptr)
  | realloc ptr size _ =>
    ptr ≠ 0 → size = 0 ∨ h.get .size (getBlock ptr) < size.toNat → h.Mergeable (getBlock ptr)

instance (h : Heap) : (e : HeapEvent) → Decidable (e.Tidy h)
  | .malloc _ _ => isTrue trivial
  | .write _ _ => isTrue trivial
  | .free _ => inferInstanceAs (Decidable (_ → _))
  | .realloc _ _ _ => inferInstanceAs (Decidable (_ → _ → _))

/-- A step that frees a block only if its neighbours allow it. -/
def TidyStep (h : Heap) (e : HeapEvent) (h' : Heap) : Prop := HeapStep h e h' ∧ e.Tidy h

namespace Heap

variable {h h' : Heap} {bs l₁ l₂ : List Block} {b : Block}

/-! ## Freeing -/

/-- The neighbours of a block in the sequence. -/
def Neighbours (l₁ l₂ : List Block) : Prop :=
  (∀ a ∈ l₁.getLast?, a.free = false) ∧ ∀ c ∈ l₂.head?, c.free = true → l₂.tail ≠ []

theorem Laid.free_eq_zero_iff (hl : h.Laid bs) (hb : b ∈ bs) :
    h.get .free b.addr = 0 ↔ b.free = false := by
  rw [← not_iff_not, Bool.not_eq_false]
  exact (hl.fields b hb).2

theorem Laid.mergeable_iff (hl : h.Laid (l₁ ++ b :: l₂)) :
    h.Mergeable b.addr ↔ Neighbours l₁ l₂ := by
  have hprev := hl.prev_eq
  have hnext := hl.next_eq
  refine and_congr ?_ ?_
  · cases hlast : l₁.getLast? with
    | none =>
      rw [hlast] at hprev
      exact ⟨fun _ => nofun, fun _ => .inl (eq_zero_of_pointer hprev)⟩
    | some a =>
      rw [hlast] at hprev
      have ha : a ∈ l₁ ++ b :: l₂ := List.mem_append_left _ (List.mem_of_getLast? hlast)
      have hpos := (hl.bounds a ha).1
      rw [eq_of_pointer hprev, hl.free_eq_zero_iff ha]
      simp [Nat.ne_of_gt hpos]
  · cases l₂ with
    | nil => exact ⟨fun _ => nofun, fun _ => .inl (eq_zero_of_pointer hnext)⟩
    | cons c l₂ =>
      have hc : c ∈ l₁ ++ b :: c :: l₂ := by simp
      have hpos := (hl.bounds c hc).1
      have hlast : c.addr ≠ h.last ↔ l₂ ≠ [] := by
        have hlast := hl.last
        cases l₂ using List.reverseRecOn with
        | nil =>
          simp only [List.map_append, List.map_cons, List.map_nil] at hlast
          rw [List.getLast?_append] at hlast
          simpa using (eq_of_pointer hlast).symm
        | append_singleton l₂ e =>
          have hsplit : l₁ ++ b :: c :: (l₂ ++ [e]) = (l₁ ++ [b]) ++ c :: (l₂ ++ [e]) := by simp
          rw [hsplit] at hl
          have hne : e.addr ≠ c.addr := hl.addr_ne (by simp)
          have heq : h.last = e.addr := by
            refine eq_of_pointer (hlast.trans ?_)
            rw [show l₁ ++ b :: c :: (l₂ ++ [e]) = (l₁ ++ b :: c :: l₂) ++ [e] by simp,
              List.map_append]
            exact List.getLast?_concat
          simp [heq, hne.symm]
      rw [eq_of_pointer hnext, hl.free_eq_zero_iff hc, hlast]
      cases hfree : c.free with
      | false | true => simp [Nat.ne_of_gt hpos, hfree]

/-- Nothing is merged with the block before. -/
theorem Laid.fusionPrev_eq (hl : h.Laid (l₁ ++ b :: l₂)) (hn : Neighbours l₁ l₂) :
    h.fusionPrev b.addr = h := by
  obtain ⟨hprev, -⟩ := hl.mergeable_iff.mpr hn
  exact if_neg fun ⟨hne, hfree⟩ => hprev.elim hne hfree

/-- **What fusion does to the blocks**: a block takes in the one behind it if that is free. -/
inductive Merged (l₁ : List Block) (b : Block) : List Block → List Block → Prop
  | alone {l₂ : List Block} (hused : ∀ c ∈ l₂.head?, c.free = false) :
      Merged l₁ b l₂ (l₁ ++ b :: l₂)
  | behind {c d : Block} {l₂ : List Block} (hfree : c.free = true) :
      Merged l₁ b (c :: d :: l₂) (l₁ ++ Block.mk b.addr (b.size + c.size) b.free :: d :: l₂)

theorem Merged.mem (hm : Merged l₁ b l₂ bs) {d : Block} (hd : d ∈ l₁ ++ l₂)
    (hused : d.free = false) : d ∈ bs := by
  cases hm with
  | alone => exact List.perm_middle.mem_iff.mpr (List.mem_cons_of_mem b hd)
  | @behind c _ _ hfree =>
    have hne : d ≠ c := fun heq => by
      rw [heq, hfree] at hused
      cases hused
    rw [List.perm_middle.mem_iff, List.mem_cons] at hd
    exact List.perm_middle.mem_iff.mpr (List.mem_cons_of_mem _ (hd.resolve_left hne))

/-- **The block behind is taken in** if it is free. -/
theorem Laid.fusionNext (hl : h.Laid (l₁ ++ b :: l₂)) (hn : Neighbours l₁ l₂) :
    ∃ bs, (h.fusionNext b.addr).Laid bs ∧ Merged l₁ b l₂ bs := by
  unfold Heap.fusionNext
  have hnext := hl.next_eq
  cases l₂ with
  | nil =>
    rw [if_neg fun hnot => hnot.1 (eq_zero_of_pointer hnext)]
    exact ⟨_, hl, .alone nofun⟩
  | cons c l₂ =>
    have hc : c ∈ l₁ ++ b :: c :: l₂ := by simp
    have hb : b ∈ l₁ ++ b :: c :: l₂ := Laid.mem_middle l₁ _ b
    rw [eq_of_pointer hnext]
    cases hfree : c.free with
    | false =>
      rw [if_neg fun hnot => hnot.2 ((hl.free_eq_zero_iff hc).mpr hfree)]
      refine ⟨_, hl, .alone ?_⟩
      rintro _ ⟨⟩
      exact hfree
    | true =>
      cases l₂ with
      | nil => exact absurd rfl (hn.2 c rfl hfree)
      | cons d l₂ =>
        have hd : d ∈ l₁ ++ b :: c :: d :: l₂ := by simp
        have hsum := hl.size_add_lt
        have hsize : (h.get .size b.addr + h.get .size c.addr) % sizeMod = b.size + c.size := by
          rw [(hl.fields b hb).1, (hl.fields c hc).1, Laid.sizeMod_eq, Nat.mod_eq_of_lt hsum]
        have hsplit : l₁ ++ b :: c :: d :: l₂ = (l₁ ++ [b]) ++ c :: d :: l₂ := by simp
        have hbehind : h.next c.addr = some d.addr := (hsplit ▸ hl).next_eq
        refine ⟨_, ?_, .behind hfree⟩
        rw [if_pos ⟨Nat.ne_of_gt (hl.bounds c hc).1, (hl.fields c hc).2.mpr hfree⟩]
        dsimp only
        have hfirst : (h.set .size b.addr (b.size + c.size)).get .next b.addr = c.addr := by
          rw [get_set hsum (.inl rfl), if_neg (by simp)]
          exact eq_of_pointer hnext
        have hsecond : (h.set .size b.addr (b.size + c.size)).get .next c.addr = d.addr := by
          rw [get_set hsum (hl.apart hc hb), if_neg (by simp)]
          exact eq_of_pointer hbehind
        have hthird : ((h.set .size b.addr (b.size + c.size)).set .next b.addr d.addr).get
            .next b.addr = d.addr := by
          rw [get_set (hl.addr_lt hd) (.inl rfl), if_pos ⟨rfl, rfl⟩]
        rw [hsize, hfirst, hsecond, hthird, if_pos (Nat.ne_of_gt (hl.bounds d hd).1)]
        exact hl.merge

theorem live_set (h : Heap) (f : Field) (b v : ℕ) : (h.set f b v).live = h.live := rfl

theorem live_fusion (h : Heap) (b : ℕ) : (h.fusion b).live = h.live := by
  simp only [fusion, Heap.fusionNext, fusionPrev, apply_ite Heap.live, live_set, ite_self]

/-- **A block is freed**, and takes in the one behind it. -/
theorem Laid.free (hl : h.Laid (l₁ ++ b :: l₂)) (hm : h.Mergeable b.addr) :
    ∃ bs, ((h.set .free b.addr 1).fusion b.addr).Laid bs
      ∧ Merged l₁ ⟨b.addr, b.size, true⟩ l₂ bs := by
  have hfreed := hl.setFree
  have hn := hl.mergeable_iff.mp hm
  have hflag : (h.set .free b.addr 1).get .free b.addr ≠ 0 := by
    rw [get_set (by decide) (.inl rfl), if_pos ⟨rfl, rfl⟩]
    decide
  unfold fusion
  rw [if_neg hflag]
  have hsame := hfreed.fusionPrev_eq hn
  dsimp only at hsame
  rw [hsame]
  exact hfreed.fusionNext hn

/-! ## Allocating -/

/-- **What an allocation does to the blocks**: those in use stay, others may come into
use, and blocks in use are added behind. A block that is not as before has the size that was
asked for. -/
def Grown (size : ℕ) (bs bs' : List Block) : Prop :=
  ∃ (use : Block → Block) (added : List Block), bs' = bs.map use ++ added
    ∧ (∀ d ∈ bs, d.free = false → use d = d) ∧ (∀ d, (use d).free = true → d.free = true)
    ∧ (∀ d ∈ added, d.free = false) ∧ ∀ d ∈ bs', d ∈ bs ∨ d.size = size

theorem Grown.mem {size : ℕ} {bs' : List Block} (hg : Grown size bs bs') (hb : b ∈ bs)
    (hused : b.free = false) : b ∈ bs' := by
  obtain ⟨use, added, rfl, hsame, -⟩ := hg
  exact List.mem_append_left _ (List.mem_map.mpr ⟨b, hb, hsame b hb hused⟩)

/-- The neighbours of a block in use are no worse than before. -/
theorem Grown.neighbours {size : ℕ} {bs' : List Block} (hg : Grown size (l₁ ++ b :: l₂) bs')
    (hused : b.free = false) :
    ∃ l₁' l₂', bs' = l₁' ++ b :: l₂' ∧ (Neighbours l₁ l₂ → Neighbours l₁' l₂') := by
  obtain ⟨use, added, rfl, hsame, hfree, hadded, -⟩ := hg
  refine ⟨l₁.map use, l₂.map use ++ added, ?_, fun ⟨hbefore, hbehind⟩ => ⟨fun a ha => ?_, ?_⟩⟩
  · rw [List.map_append, List.map_cons, hsame b (Laid.mem_middle l₁ l₂ b) hused, List.append_assoc,
      List.cons_append]
  · rw [List.getLast?_map] at ha
    obtain ⟨d, hd, rfl⟩ := Option.map_eq_some_iff.mp ha
    cases huse : (use d).free with
    | false => rfl
    | true => exact absurd (hfree d huse) (by simp [hbefore d hd])
  · cases l₂ with
    | nil =>
      intro c hc hcfree
      have hmem : c ∈ added := List.mem_of_mem_head? hc
      rw [hadded c hmem] at hcfree
      cases hcfree
    | cons c l₂ =>
      rintro d ⟨⟩ hdfree
      have hcfree := hfree c hdfree
      have hne := hbehind c rfl hcfree
      intro hnil
      rw [List.map_cons, List.cons_append, List.tail_cons, List.append_eq_nil_iff,
        List.map_eq_nil_iff] at hnil
      exact hne hnil.1

/-- **The search** does not run forever. -/
theorem Laid.findFreeSpace_run (hl : h.Laid bs) (size : ℕ) : MmAlloc.findFreeSpace size h
      = .ok ((bs.find? fun b => b.free && decide (size ≤ b.size)).elim 0 Block.addr, h) := by
  have hfound : h.findFreeSpace size (h.brk + 1) h.start
      = some ((bs.find? fun b => b.free && decide (size ≤ b.size)).elim 0 Block.addr) :=
    Laid.findFreeSpace_eq hl.linked hl.fields (fun b hb => (hl.bounds b hb).1) hl.start
      (Nat.lt_succ_of_le hl.length_le)
  unfold MmAlloc.findFreeSpace
  rw [Command.get_bind_apply, hfound]
  rfl

/-- **A block is handed out**: it was not in use before. -/
def HandedOut (h : Heap) (bs : List Block) (size p : ℕ) (h' : Heap) : Prop :=
  h'.live = h.live ∧ ∃ bs' d, h'.Laid bs' ∧ Grown size bs bs' ∧ d ∈ bs' ∧ p = d.addr + blockSize
    ∧ d.free = false ∧ d.size = size ∧ ∀ c ∈ bs, c.free = false → c.addr ≠ d.addr

theorem HandedOut.memset {size p : ℕ} (hout : HandedOut h bs size p h') :
    Ensures (· = .segfault) h' (memset p size) fun _ h'' => HandedOut h bs size p h'' := by
  obtain ⟨hlive, bs', d, hl, hgrown, hd, rfl, hused, rfl, hnew⟩ := hout
  refine .ite (fun _ => ?_) fun _ => .stop rfl
  refine .modify ⟨hlive, bs', d, ?_, hgrown, hd, rfl, hused, rfl, hnew⟩
  exact hl.payload hd le_rfl le_rfl (ByteMemory.agreeOutside_fill _ _ _ _)

/-- A free block is handed out again. -/
theorem Laid.handedOut_reuse (hl : h.Laid bs) {size : ℕ} (hb : b ∈ bs) (hfree : b.free = true)
    (hsize : size ≤ b.size) :
    HandedOut h bs size (b.addr + blockSize) ((h.set .free b.addr 0).set .size b.addr size) := by
  obtain ⟨l₁, l₂, rfl⟩ := List.append_of_mem hb
  refine ⟨rfl, _, _, hl.reuse hsize, ⟨fun d => if d.addr = b.addr then ⟨b.addr, size, false⟩ else d,
    [], ?_, fun d hd hused => ?_, fun d => ?_, nofun, fun d hd => ?_⟩, Laid.mem_middle .., rfl, rfl,
    rfl, ?_⟩
  · have hother (l : List Block) (hl' : ∀ d ∈ l, d ∈ l₁ ++ l₂) :
        l.map (fun d => if d.addr = b.addr then ⟨b.addr, size, false⟩ else d) = l := by
      refine (List.map_congr_left fun d hd => if_neg ?_).trans (List.map_id l)
      exact hl.addr_ne (hl' d hd)
    rw [List.append_nil, List.map_append, List.map_cons, if_pos rfl,
      hother l₁ fun d => List.mem_append_left l₂, hother l₂ fun d => List.mem_append_right l₁]
  · refine if_neg fun heq => ?_
    rw [hl.eq_of_addr hd hb heq, hfree] at hused
    cases hused
  · intro huse
    dsimp only at huse
    split at huse
    · cases huse
    · exact huse
  · rw [List.perm_middle.mem_iff, List.mem_cons] at hd
    rcases hd with rfl | hd
    · exact .inr rfl
    · exact .inl (List.perm_middle.mem_iff.mpr (List.mem_cons_of_mem b hd))
  · intro c hc hused heq
    rw [hl.eq_of_addr hc hb heq, hfree] at hused
    cases hused

/-- A block at the break is handed out. -/
theorem Laid.handedOut_append (hl : h.Laid bs) {size : ℕ}
    (hsize : h.brk + (size + blockSize) < sizeMod) : HandedOut h bs size (h.brk + blockSize)
      ({ h with brk := h.brk + (size + blockSize) }.appendBlock h.brk h.last size) := by
  refine ⟨?_, _, Block.mk h.brk size false, hl.appendBlock hsize,
    ⟨id, [Block.mk h.brk size false], by rw [List.map_id], fun _ _ _ => rfl, fun _ => id,
      fun d hd => by rw [List.mem_singleton.mp hd], fun d hd => ?_⟩, by simp, rfl, rfl, rfl,
    fun c hc _ => ?_⟩
  · simp only [Heap.appendBlock, apply_ite Heap.live, live_set, ite_self]
  · rcases List.mem_append.mp hd with hd | hd
    · exact .inl hd
    · exact .inr (by rw [List.mem_singleton.mp hd])
  · have hle := hl.header_le hc
    unfold blockSize at hle
    dsimp only
    omega

/-- **What `extend_heap` does**: it fails, or fills in a block at the break. -/
theorem extendHeap_spec (h : Heap) (last s : ℕ) (grows : Bool) :
    Ensures (· = .segfault) h (extendHeap last s grows) fun block h' =>
      block = 0 ∧ h' = h ∨ block = h.brk ∧ h.brk + (s + blockSize) % sizeMod < sizeMod
        ∧ h' = { h with brk := h.brk + (s + blockSize) % sizeMod }.appendBlock h.brk last s := by
  have hsbrk : Ensures (· = .segfault) h (sbrk ((s + blockSize) % sizeMod) grows) fun block h' =>
      block = none ∧ h' = h ∨ block = some h.brk ∧ h.brk + (s + blockSize) % sizeMod < sizeMod
        ∧ h' = { h with brk := h.brk + (s + blockSize) % sizeMod } := by
    refine .get_bind (.ite (fun hgrows => .modify_bind ?_) fun _ => .pure (.inl ⟨rfl, rfl⟩))
    exact .pure (.inr ⟨rfl, hgrows.2.2, rfl⟩)
  refine .bind hsbrk ?_
  rintro block h' (⟨rfl, rfl⟩ | ⟨rfl, hlt, rfl⟩)
  · exact .pure (.inl ⟨rfl, rfl⟩)
  · exact .modify_bind (.pure (.inr ⟨rfl, hlt, rfl⟩))

/-- **What `mm_malloc` does**: it fails and changes nothing, or hands out a block. A size
that wraps around with the header ends in `memset`. -/
theorem Laid.mmMalloc (hl : h.Laid bs) (size : ℕ) (grows : Bool) :
    Ensures (· = .segfault) h (mmMalloc size grows) fun p h' =>
      p = 0 ∧ h' = h ∨ p ≠ 0 ∧ 0 < size ∧ HandedOut h bs size p h' := by
  refine .ite (fun _ => .pure (.inl ⟨rfl, rfl⟩)) fun hsize => ?_
  refine .bind_ok (hl.findFreeSpace_run size) ?_
  have hfinish {p : ℕ} {h' : Heap} (hp : p ≠ 0) (hout : HandedOut h bs size p h') :
      Ensures (· = .segfault) h' (do memset p size; pure p) fun p h' =>
        p = 0 ∧ h' = h ∨ p ≠ 0 ∧ 0 < size ∧ HandedOut h bs size p h' :=
    .bind hout.memset fun _ _ hout => .pure (.inr ⟨hp, Nat.pos_of_ne_zero hsize, hout⟩)
  cases hfind : bs.find? fun b => b.free && decide (size ≤ b.size) with
  | some b =>
    have hb := List.mem_of_find?_eq_some hfind
    have hfits := List.find?_some hfind
    rw [Bool.and_eq_true, decide_eq_true_eq] at hfits
    refine .ite (fun hzero => ?_) fun _ => .modify_bind ?_
    · exact absurd hzero (Nat.ne_of_gt (hl.bounds b hb).1)
    · exact hfinish (by unfold blockSize; omega) (hl.handedOut_reuse hb hfits.1 hfits.2)
  | none =>
    refine .ite (fun _ => .get_bind ?_) fun hne => absurd rfl hne
    refine .bind (extendHeap_spec h h.last size grows) ?_
    rintro block h' (⟨rfl, rfl⟩ | ⟨rfl, hlt, rfl⟩)
    · exact .ite (fun _ => .pure (.inl ⟨rfl, rfl⟩)) fun hne => absurd rfl hne
    · refine .ite (fun hzero => absurd hzero (Nat.ne_of_gt hl.brk_pos)) fun _ => ?_
      by_cases hwraps : size + blockSize < sizeMod
      · rw [Nat.mod_eq_of_lt hwraps] at hlt ⊢
        exact hfinish (by unfold blockSize; omega) (hl.handedOut_append hlt)
      · refine .bind (Q := fun _ _ => False) ?_ nofun
        refine .ite (fun hle => ?_) fun _ => .stop rfl
        have hpos := hl.brk_pos
        omega

/-! ## The live allocations -/

/-- **Every live allocation is a block in use**, and no two are the same. -/
structure Owned (live : List (ℕ × ℕ)) (bs : List Block) : Prop where
  block : ∀ x ∈ live, ∃ d ∈ bs, d.free = false ∧ x.1 = d.addr + blockSize ∧ x.2 ≤ d.size
  distinct : (live.map Prod.fst).Nodup

/-- **No two free blocks are neighbours**, and no block is empty. -/
structure Packed (bs : List Block) : Prop where
  positive : ∀ b ∈ bs, 0 < b.size
  separate : bs.IsChain fun b c => ¬ (b.free = true ∧ c.free = true)

/-- **The heap is in order.** -/
def InOrder (h : Heap) : Prop := ∃ bs, h.Laid bs ∧ Owned h.live bs ∧ Packed bs

variable {live : List (ℕ × ℕ)} {size p : ℕ}

theorem Owned.filter (ho : Owned live bs) (keep : ℕ × ℕ → Bool) : Owned (live.filter keep) bs where
  block x hx := ho.block x (List.mem_of_mem_filter hx)
  distinct := ho.distinct.sublist (List.filter_sublist.map Prod.fst)

theorem Owned.grown {bs' : List Block} (ho : Owned live bs) (hg : Grown size bs bs') :
    Owned live bs' where
  block x hx := by
    obtain ⟨d, hd, hused, hx⟩ := ho.block x hx
    exact ⟨d, hg.mem hd hused, hused, hx⟩
  distinct := ho.distinct

theorem Owned.add (ho : Owned live bs) (hb : b ∈ bs) (hused : b.free = false)
    (hsize : size ≤ b.size) (hnew : b.addr + blockSize ∉ live.map Prod.fst) :
    Owned (live ++ [(b.addr + blockSize, size)]) bs where
  block x hx := by
    rcases List.mem_append.mp hx with hx | hx
    · exact ho.block x hx
    · rw [List.mem_singleton.mp hx]
      exact ⟨b, hb, hused, rfl, hsize⟩
  distinct := by
    rw [List.map_append]
    refine ho.distinct.append (List.nodup_singleton _) ?_
    rw [List.map_singleton, List.disjoint_singleton]
    exact hnew

/-- An allocation does not make neighbours free. -/
theorem Packed.grown {bs' : List Block} (hp : Packed bs) (hg : Grown size bs bs')
    (hsize : 0 < size) : Packed bs' := by
  obtain ⟨use, added, rfl, -, hfree, hadded, hsizes⟩ := hg
  refine ⟨fun d hd => ?_, List.isChain_append.mpr ⟨?_, ?_, fun c _ d hd hboth => ?_⟩⟩
  · rcases hsizes d hd with hd | hd
    · exact hp.positive d hd
    · exact hd.symm ▸ hsize
  · exact List.isChain_map_of_isChain use
      (fun b c hnot hboth => hnot ⟨hfree b hboth.1, hfree c hboth.2⟩) hp.separate
  · refine (List.pairwise_of_forall_mem_list fun c hc d _ hboth => ?_).isChain
    rw [hadded c hc] at hboth
    cases hboth.1
  · rw [hadded d (List.mem_of_mem_head? hd)] at hboth
    cases hboth.2

theorem packed_append : Packed (l₁ ++ l₂) ↔ Packed l₁ ∧ Packed l₂
    ∧ ∀ b ∈ l₁.getLast?, ∀ c ∈ l₂.head?, ¬ (b.free = true ∧ c.free = true) := by
  constructor
  · rintro ⟨hpositive, hseparate⟩
    obtain ⟨h₁, h₂, hjoin⟩ := List.isChain_append.mp hseparate
    exact ⟨⟨fun b hb => hpositive b (List.mem_append_left _ hb), h₁⟩,
      ⟨fun b hb => hpositive b (List.mem_append_right _ hb), h₂⟩, hjoin⟩
  · rintro ⟨h₁, h₂, hjoin⟩
    refine ⟨fun b hb => ?_, h₁.separate.append h₂.separate hjoin⟩
    exact (List.mem_append.mp hb).elim (h₁.positive b) (h₂.positive b)

theorem packed_cons : Packed (b :: l₂) ↔ 0 < b.size ∧ Packed l₂
    ∧ ∀ c ∈ l₂.head?, ¬ (b.free = true ∧ c.free = true) := by
  rw [← List.singleton_append, packed_append]
  refine ⟨fun ⟨h₁, h₂, hjoin⟩ => ⟨h₁.positive b List.mem_cons_self, h₂, hjoin b rfl⟩,
    fun ⟨hb, h₂, hjoin⟩ => ⟨⟨fun c hc => ?_, .singleton b⟩, h₂, fun c hc => ?_⟩⟩
  · rw [List.mem_singleton.mp hc]
    exact hb
  · cases hc
    exact hjoin

/-- **Freeing does not leave free neighbours.** -/
theorem Packed.merged {bs' : List Block} (hp : Packed (l₁ ++ b :: l₂))
    (hbefore : ∀ a ∈ l₁.getLast?, a.free = false)
    (hm : Merged l₁ ⟨b.addr, b.size, true⟩ l₂ bs') : Packed bs' := by
  obtain ⟨h₁, h₂, -⟩ := packed_append.mp hp
  obtain ⟨hb, h₂, -⟩ := packed_cons.mp h₂
  have hjoin (l : List Block) :
      ∀ a ∈ l₁.getLast?, ∀ c ∈ l.head?, ¬ (a.free = true ∧ c.free = true) := by
    rintro a ha c - ⟨hfree, -⟩
    rw [hbefore a ha] at hfree
    cases hfree
  cases hm with
  | alone hused =>
    refine packed_append.mpr ⟨h₁, packed_cons.mpr ⟨hb, h₂, ?_⟩, hjoin _⟩
    rintro c hc ⟨-, hfree⟩
    rw [hused c hc] at hfree
    cases hfree
  | @behind c d l₂ hfree =>
    -- the block behind the one that is taken in is in use
    obtain ⟨hc, h₂, hnot⟩ := packed_cons.mp h₂
    refine packed_append.mpr ⟨h₁, packed_cons.mpr ⟨Nat.add_pos_left hb _, h₂, ?_⟩, hjoin _⟩
    rintro _ ⟨⟩ ⟨-, hd⟩
    exact hnot d rfl ⟨hfree, hd⟩

/-- **A block that is handed out** is not live yet. -/
theorem Owned.handedOut (ho : Owned live bs) (hout : HandedOut h bs size p h') :
    p ∉ live.map Prod.fst ∧
      ∃ bs', h'.Laid bs' ∧ Grown size bs bs' ∧ Owned (live ++ [(p, size)]) bs' := by
  obtain ⟨-, bs', d, hl, hgrown, hd, rfl, hused, rfl, hnew⟩ := hout
  have hnot : d.addr + blockSize ∉ live.map Prod.fst := fun hin => by
    obtain ⟨x, hx, heq⟩ := List.mem_map.mp hin
    obtain ⟨c, hc, hcused, hcx, -⟩ := ho.block x hx
    exact hnew c hc hcused (by omega)
  exact ⟨hnot, bs', hl, hgrown, (ho.grown hgrown).add hd hused le_rfl hnot⟩

theorem Owned.exists_block (ho : Owned live bs) (hp : p ∈ live.map Prod.fst) :
    ∃ d ∈ bs, d.free = false ∧ p = d.addr + blockSize ∧ getBlock p = d.addr := by
  obtain ⟨x, hx, rfl⟩ := List.mem_map.mp hp
  obtain ⟨d, hd, hused, hxd, -⟩ := ho.block x hx
  refine ⟨d, hd, hused, hxd, ?_⟩
  rw [hxd]
  exact Nat.add_sub_cancel ..

/-- **A live allocation is freed.** -/
theorem Owned.free (ho : Owned live bs) (hl : h.Laid bs) (hpacked : Packed bs)
    (hp : p ∈ live.map Prod.fst) (hm : h.Mergeable (getBlock p)) :
    ∃ bs', ((h.set .free (getBlock p) 1).fusion (getBlock p)).Laid bs'
      ∧ Owned (live.filter fun x => x.1 ≠ p) bs' ∧ Packed bs' := by
  obtain ⟨d, hd, -, hpd, hblock⟩ := ho.exists_block hp
  rw [hblock] at hm ⊢
  obtain ⟨l₁, l₂, rfl⟩ := List.append_of_mem hd
  obtain ⟨bs', hl', hmerged⟩ := hl.free hm
  have hpacked' := hpacked.merged (hl.mergeable_iff.mp hm).1 hmerged
  refine ⟨bs', hl', ⟨fun y hy => ?_, (ho.filter _).distinct⟩, hpacked'⟩
  obtain ⟨hy, hne⟩ := List.mem_filter.mp hy
  obtain ⟨e, he, heused, hye, hle⟩ := ho.block y hy
  have hed : e ≠ d := fun heq => of_decide_eq_true hne (by rw [hye, hpd, heq])
  refine ⟨e, hmerged.mem ?_ heused, heused, hye, hle⟩
  rw [List.perm_middle.mem_iff, List.mem_cons] at he
  exact he.resolve_left hed

/-! ## Every call -/

theorem InOrder.malloc (hi : h.InOrder) (size : UInt64) (grows : Bool) :
    Ensures (· = .segfault) h ((HeapEvent.malloc size grows).exec) fun _ h' => h'.InOrder := by
  obtain ⟨bs, hl, ho, hpacked⟩ := hi
  refine .bind (hl.mmMalloc size.toNat grows) ?_
  rintro p h' (⟨rfl, rfl⟩ | ⟨hp, hsize, hout⟩)
  · refine .modify ?_
    exact ⟨bs, hl, ho, hpacked⟩
  · refine .modify ?_
    obtain ⟨-, bs', hl', hgrown, ho'⟩ := ho.handedOut hout
    unfold hold
    rw [if_neg hp]
    rw [← hout.1] at ho'
    exact ⟨bs', { hl' with }, ho', hpacked.grown hgrown hsize⟩

theorem Owned.mmFree (ho : Owned live bs) (hl : h.Laid bs) (hpacked : Packed bs)
    (hp : p ∈ live.map Prod.fst) (hpos : p ≠ 0) (hm : h.Mergeable (getBlock p)) :
    Ensures (· = .segfault) h (mmFree p) fun _ h' => h'.live = h.live
      ∧ ∃ bs', h'.Laid bs' ∧ Owned (live.filter fun x => x.1 ≠ p) bs' ∧ Packed bs' := by
  refine .ite (fun hzero => absurd hzero hpos) fun _ => .modify ⟨live_fusion .., ?_⟩
  exact ho.free hl hpacked hp hm

theorem InOrder.free (hi : h.InOrder) {p : ℕ} (hvalid : (HeapEvent.free p).Valid h)
    (htidy : (HeapEvent.free p).Tidy h) :
    Ensures (· = .segfault) h ((HeapEvent.free p).exec) fun _ h' => h'.InOrder := by
  obtain ⟨bs, hl, ho, hpacked⟩ := hi
  by_cases hp : p = 0
  · subst hp
    exact .modify ⟨bs, { hl with }, ho.filter _, hpacked⟩
  · refine .bind (ho.mmFree hl hpacked (hvalid.resolve_left hp) hp (htidy hp))
      fun _ h' hfreed => .modify ?_
    obtain ⟨hlive, bs', hl', ho', hpacked'⟩ := hfreed
    refine ⟨bs', { hl' with }, ?_, hpacked'⟩
    show Owned (h'.live.filter _) bs'
    rw [hlive]
    exact ho'

/-- The bytes of a block that is handed out are copied to it. -/
theorem HandedOut.memcpy {src : ℕ} (hout : HandedOut h bs size p h') :
    Ensures (· = .segfault) h' (memcpy p src size) fun _ h'' => HandedOut h bs size p h'' := by
  obtain ⟨hlive, bs', d, hl, hgrown, hd, rfl, hused, rfl, hnew⟩ := hout
  refine .ite (fun _ => ?_) fun _ => .stop rfl
  refine .modify ⟨hlive, bs', d, ?_, hgrown, hd, rfl, hused, rfl, hnew⟩
  exact hl.payload hd le_rfl le_rfl (ByteMemory.agreeOutside_copy _ _ _ _)

/-- An allocation leaves a block that may be freed as it is. -/
theorem Laid.mergeable_grown {bs' : List Block} (hl : h.Laid bs) (hl' : h'.Laid bs')
    (hg : Grown size bs bs') (hb : b ∈ bs) (hused : b.free = false) (hm : h.Mergeable b.addr) :
    h'.Mergeable b.addr := by
  obtain ⟨l₁, l₂, rfl⟩ := List.append_of_mem hb
  obtain ⟨l₁', l₂', rfl, hn⟩ := hg.neighbours hused
  exact hl'.mergeable_iff.mpr (hn (hl.mergeable_iff.mp hm))

/-- **What `mm_realloc` does to a live allocation**, and to the list of live ones. -/
theorem InOrder.mmRealloc (hl : h.Laid bs) (ho : Owned h.live bs) (hpacked : Packed bs) {size : ℕ}
    (hp : p ∈ h.live.map Prod.fst) (hpos : p ≠ 0) (grows : Bool)
    (hm : size = 0 ∨ h.get .size (getBlock p) < size → h.Mergeable (getBlock p)) :
    Ensures (· = .segfault) h (mmRealloc p size grows) fun q h' =>
      q = 0 ∧ size ≠ 0 ∧ h' = h
        ∨ (size = 0 ∨ q ≠ 0) ∧ ((h'.retire p).hold q size).InOrder := by
  obtain ⟨d, hd, hused, hpd, hblock⟩ := ho.exists_block hp
  refine .ite (fun hzero => absurd hzero hpos) fun _ => .ite (fun hzero => ?_) fun hsize => ?_
  · refine .bind (ho.mmFree hl hpacked hp hpos (hm (.inl hzero))) fun _ h' hfreed =>
      .pure (.inr ?_)
    obtain ⟨hlive, bs', hl', ho', hpacked'⟩ := hfreed
    refine ⟨.inl hzero, bs', { hl' with }, ?_, hpacked'⟩
    show Owned (h'.live.filter _) bs'
    rw [hlive]
    exact ho'
  · refine .get_bind (.ite (fun hle => .pure (.inr ⟨.inr hpos, ?_⟩)) fun hlt => ?_)
    · have hgone : p ∉ (h.live.filter fun x => x.1 ≠ p).map Prod.fst := fun hin => by
        obtain ⟨x, hx, heq⟩ := List.mem_map.mp hin
        exact of_decide_eq_true (List.mem_filter.mp hx).2 heq
      rw [hblock, (hl.fields d hd).1] at hle
      unfold hold
      rw [if_neg hpos]
      refine ⟨bs, { hl with }, ?_, hpacked⟩
      show Owned (h.live.filter _ ++ _) bs
      rw [hpd] at hgone ⊢
      exact (ho.filter _).add hd hused hle hgone
    · refine .bind (hl.mmMalloc size grows) ?_
      rintro q h' (⟨rfl, rfl⟩ | ⟨hq, hpositive, hout⟩)
      · exact .ite (fun _ => .pure (.inl ⟨rfl, hsize, rfl⟩)) fun hne => absurd rfl hne
      · refine .ite (fun hzero => absurd hzero hq) fun _ => .bind hout.memcpy fun _ h'' hout => ?_
        obtain ⟨hnew, bs', hl', hgrown, ho'⟩ := ho.handedOut hout
        have hm' : h''.Mergeable (getBlock p) := by
          have hm := hm (.inr (Nat.lt_of_not_le hlt))
          rw [hblock] at hm ⊢
          exact hl.mergeable_grown hl' hgrown hd hused hm
        have hp' : p ∈ (h.live ++ [(q, size)]).map Prod.fst := by
          rw [List.map_append]
          exact List.mem_append_left _ hp
        refine .bind (ho'.mmFree hl' (hpacked.grown hgrown hpositive) hp' hpos hm')
          fun _ h₃ hfreed => .pure (.inr ⟨.inr hq, ?_⟩)
        obtain ⟨hlive, bs'', hl'', ho'', hpacked''⟩ := hfreed
        have hqp : q ≠ p := fun heq => hnew (heq ▸ hp)
        rw [List.filter_append, List.filter_cons_of_pos (by simpa using hqp), List.filter_nil,
          ← hout.1, ← hlive] at ho''
        unfold hold
        rw [if_neg hq]
        exact ⟨bs'', { hl'' with }, ho'', hpacked''⟩

theorem InOrder.realloc (hi : h.InOrder) {p : ℕ} {size : UInt64} {grows : Bool}
    (hvalid : (HeapEvent.realloc p size grows).Valid h)
    (htidy : (HeapEvent.realloc p size grows).Tidy h) :
    Ensures (· = .segfault) h ((HeapEvent.realloc p size grows).exec) fun _ h' => h'.InOrder := by
  have hzero : size = 0 ↔ size.toNat = 0 := ⟨fun heq => by rw [heq]; rfl, fun heq => by
    rw [← UInt64.toNat_inj]; exact heq⟩
  obtain ⟨bs, hl, ho, hpacked⟩ := hi
  by_cases hp : p = 0
  · subst hp
    refine .bind (hl.mmMalloc size.toNat grows) ?_
    rintro q h' (⟨rfl, rfl⟩ | ⟨hq, hsize, hout⟩)
    · exact .ite (fun _ => .modify ⟨bs, { hl with }, ho.filter _, hpacked⟩)
        fun _ => .pure ⟨bs, hl, ho, hpacked⟩
    · refine .ite (fun _ => .modify ?_) fun hnot => absurd (.inr hq) hnot
      have ho₀ := ho.filter fun x => decide (x.1 ≠ 0)
      obtain ⟨-, bs', hl', hgrown, ho'⟩ := ho₀.handedOut hout
      unfold hold
      rw [if_neg hq]
      rw [← hout.1] at ho'
      exact ⟨bs', { hl' with }, ho', hpacked.grown hgrown hsize⟩
  · refine .bind (InOrder.mmRealloc hl ho hpacked (hvalid.resolve_left hp) hp grows fun hcase =>
      htidy hp (hcase.imp_left hzero.mpr)) ?_
    rintro q h' (⟨rfl, hsize, rfl⟩ | ⟨hcase, hi⟩)
    · refine .ite (fun hor => ?_) fun _ => .pure ⟨bs, hl, ho, hpacked⟩
      exact (hor.elim (fun heq => hsize (hzero.mp heq)) fun hne => hne rfl).elim
    · refine .ite (fun _ => .modify hi) fun hnot => absurd (hcase.imp_left hzero.mpr) hnot

theorem InOrder.write (hi : h.InOrder) {a : ℕ} {byte : UInt8}
    (hvalid : (HeapEvent.write a byte).Valid h) :
    Ensures (· = .segfault) h ((HeapEvent.write a byte).exec) fun _ h' => h'.InOrder := by
  obtain ⟨bs, hl, ho, hpacked⟩ := hi
  obtain ⟨x, hx, hle, hlt⟩ := hvalid
  obtain ⟨d, hd, -, hxd, hsize⟩ := ho.block x hx
  have hagree : ByteMemory.AgreeOutside a 1 h.memory (Function.update h.memory a byte) :=
    fun y hy => Function.update_of_ne (by omega) ..
  refine .modify ⟨bs, hl.payload hd (by omega) ?_ hagree, ho, hpacked⟩
  unfold Block.limit
  omega

/-- **Every call keeps the heap in order**, and no search goes on forever. -/
theorem InOrder.exec (hi : h.InOrder) {e : HeapEvent} (hvalid : e.Valid h) (htidy : e.Tidy h) :
    Ensures (· = .segfault) h e.exec fun _ h' => h'.InOrder := by
  cases e with
  | malloc size grows => exact hi.malloc size grows
  | realloc p size grows => exact hi.realloc hvalid htidy
  | free p => exact hi.free hvalid htidy
  | write a byte => exact hi.write hvalid

theorem Initial.inOrder (hinit : h.Initial) : h.InOrder := by
  refine ⟨[], ⟨trivial, ?_, ?_, nofun, .nil, nofun, hinit.brk_pos, hinit.brk_lt, hinit.blank⟩, ?_,
    nofun, .nil⟩
  · rw [hinit.start]
    rfl
  · rw [hinit.last]
    rfl
  · rw [hinit.live]
    exact ⟨nofun, .nil⟩

/-! ## No overlap -/

theorem Laid.mem_of_reachable (hl : h.Laid bs) {a : ℕ} (ha : h.Reachable a) :
    a ∈ bs.map Block.addr := by
  have hstep {a : ℕ} {o : Option ℕ} (hlink : pointer a = o) (hne : a ≠ 0) : o = some a := by
    rw [← hlink]
    exact pointer_of_pos (Nat.pos_of_ne_zero hne)
  induction ha with
  | start hne => exact List.mem_of_mem_head? (hstep hl.start hne)
  | last hne => exact List.mem_of_getLast? (hstep hl.last hne)
  | @next a _ hne ih =>
    obtain ⟨n, hn⟩ := List.mem_iff_getElem?.mp ih
    exact List.mem_of_getElem? (hstep (hl.linked.next_getElem? hn) hne)
  | @prev a _ hne ih =>
    exact ((hl.linked.prev_eq_some_iff ih).mp (hstep rfl hne)).1

/-- **A heap in order has no overlap.** -/
theorem InOrder.noOverlap (hi : h.InOrder) : h.NoOverlap := by
  obtain ⟨bs, hl, ho, -⟩ := hi
  have hheader {a : ℕ} (ha : h.Reachable a) : ∃ b ∈ bs, b.addr = a :=
    List.mem_map.mp (hl.mem_of_reachable ha)
  refine ⟨?_, fun a c ha hc hne => ?_, fun x hx a ha => ?_, fun x hx => ?_, fun a ha => ?_⟩
  · have hdistinct : h.live.Pairwise fun x y => x.1 ≠ y.1 := List.pairwise_map.mp ho.distinct
    refine hdistinct.imp_of_mem fun {x y} hx hy hne => Set.Ico_disjoint_Ico.mpr ?_
    obtain ⟨b, hb, -, hxb, hxle⟩ := ho.block x hx
    obtain ⟨c, hc, -, hyc, hyle⟩ := ho.block y hy
    rcases hl.limit_le hb hc with rfl | hle | hle
    · exact absurd (hxb.trans hyc.symm) hne
    · unfold Block.limit at hle
      omega
    · unfold Block.limit at hle
      omega
  · obtain ⟨b, hb, rfl⟩ := hheader ha
    obtain ⟨d, hd, rfl⟩ := hheader hc
    have hapart := hl.apart hb hd
    exact Set.Ico_disjoint_Ico.mpr (by omega)
  · obtain ⟨b, hb, rfl⟩ := hheader ha
    obtain ⟨c, hc, -, hxc, hxle⟩ := ho.block x hx
    refine Set.Ico_disjoint_Ico.mpr ?_
    rcases hl.limit_le hb hc with rfl | hle | hle
    · omega
    · unfold Block.limit at hle
      omega
    · unfold Block.limit at hle
      omega
  · obtain ⟨b, hb, -, hxb, hxle⟩ := ho.block x hx
    have hle := (hl.bounds b hb).2
    unfold Block.limit at hle
    omega
  · obtain ⟨b, hb, rfl⟩ := hheader ha
    exact hl.header_le hb

end Heap

/-- The heap is in order in every run that frees a block only next to blocks that allow
it. -/
theorem inOrder_of_tidy {h₀ h : Heap} {events : List HeapEvent} (hinit : h₀.Initial)
    (hrun : Run TidyStep h₀ events h) : h.InOrder := by
  refine hrun.invariant (I := fun _ h => h.InOrder) hinit.inOrder ?_
  rintro - h e h' hi ⟨⟨hvalid, hexec⟩, htidy⟩
  exact (hi.exec hvalid htidy).of_ok hexec

/-- **Allocations do not overlap** in any run that frees a block only next to blocks that
allow it. Nor does any such call search the list forever. -/
theorem noOverlap_of_tidy {h₀ h : Heap} {events : List HeapEvent} (hinit : h₀.Initial)
    (hrun : Run TidyStep h₀ events h) :
    h.NoOverlap ∧ ∀ e : HeapEvent, e.Valid h → e.Tidy h → e.exec h ≠ .error .endless := by
  have hi := inOrder_of_tidy hinit hrun
  refine ⟨hi.noOverlap, fun e hvalid htidy hendless => ?_⟩
  cases (hi.exec hvalid htidy).of_error hendless

/-! ## A run with an overlap -/

/-- The step, as a function. -/
def nextHeap (h : Heap) (e : HeapEvent) : Option Heap :=
  if e.Valid h then (e.exec h).toOption.map Prod.snd else none

theorem heapStep_of_nextHeap {h h' : Heap} {e : HeapEvent} (hnext : nextHeap h e = some h') :
    HeapStep h e h' := by
  unfold nextHeap at hnext
  split at hnext
  · rename_i hvalid
    refine ⟨hvalid, ?_⟩
    cases hexec : e.exec h with
    | error fault =>
      rw [hexec] at hnext
      cases hnext
    | ok result =>
      rw [hexec] at hnext
      cases hnext
      rfl
  · cases hnext

/-- A heap without blocks. -/
def emptyHeap : Heap := ⟨fun _ => 0, 0, 0, 4096, []⟩

theorem emptyHeap_initial : emptyHeap.Initial :=
  ⟨rfl, rfl, rfl, by decide, by decide, fun _ _ => rfl⟩

/-- Three blocks, of which the middle one is freed, and a block is allocated. -/
def tidyEvents : List HeapEvent :=
  [.malloc 100 true, .malloc 50 true, .malloc 100 true, .free 4260, .malloc 20 true,
    .realloc 4128 300 true]

/-- Of three blocks the first two are freed, and more is allocated than the second has. -/
def overlapEvents : List HeapEvent :=
  [.malloc 100 true, .malloc 100 true, .malloc 100 true, .free 4128, .free 4260, .malloc 150 true]

/-- The step, as a function, if the neighbours allow it. -/
def nextTidy (h : Heap) (e : HeapEvent) : Option Heap :=
  if e.Tidy h then nextHeap h e else none

theorem tidyStep_of_nextTidy {h h' : Heap} {e : HeapEvent} (hnext : nextTidy h e = some h') :
    TidyStep h e h' := by
  unfold nextTidy at hnext
  split at hnext
  · exact ⟨heapStep_of_nextHeap hnext, ‹_›⟩
  · cases hnext

theorem noOverlap_of_tidy_run :
    ∃ h, emptyHeap.Initial ∧ Run TidyStep emptyHeap tidyEvents h ∧ h.live.length = 3
      ∧ h.NoOverlap ∧ ∀ e : HeapEvent, e.Valid h → e.Tidy h → e.exec h ≠ .error .endless := by
  have hcomputed : (tidyEvents.foldlM nextTidy emptyHeap).map (·.live.length) = some 3 := by
    decide +kernel
  obtain ⟨h, hh, hlive⟩ := Option.map_eq_some_iff.mp hcomputed
  have hrun : Run TidyStep emptyHeap tidyEvents h :=
    Run.of_foldlM (fun _ _ _ => tidyStep_of_nextTidy) hh
  exact ⟨h, emptyHeap_initial, hrun, hlive, noOverlap_of_tidy emptyHeap_initial hrun⟩

/-- **Allocations that overlap**: the second block is merged with the first as if it were
in front of it, and the next allocation goes over the header of the third. -/
theorem allocations_overlap :
    ∃ h, emptyHeap.Initial ∧ Run HeapStep emptyHeap overlapEvents h
      ∧ (4260, 150) ∈ h.live ∧ h.Reachable 4360 ∧ ¬ Disjoint (payload (4260, 150)) (header 4360)
      ∧ ¬ h.NoOverlap := by
  have hcomputed : (overlapEvents.foldlM nextHeap emptyHeap).map
      (fun h => (decide ((4260, 150) ∈ h.live), h.last)) = some (true, 4360) := by
    decide +kernel
  obtain ⟨h, hh, hsummary⟩ := Option.map_eq_some_iff.mp hcomputed
  obtain ⟨hlive, hlast⟩ := Prod.mk.inj hsummary
  have hlive := of_decide_eq_true hlive
  have hreach : h.Reachable 4360 := hlast ▸ .last (by rw [hlast]; decide)
  have hoverlap : ¬ Disjoint (payload (4260, 150)) (header 4360) := by
    unfold payload header blockSize
    rw [Set.Ico_disjoint_Ico]
    decide
  exact ⟨h, emptyHeap_initial, Run.of_foldlM (fun _ _ _ => heapStep_of_nextHeap) hh, hlive, hreach,
    hoverlap, fun hno => hoverlap (hno.apart _ hlive _ hreach)⟩

end MmAlloc
