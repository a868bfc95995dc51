import Cs162.MmRuns

/-!
# The list of blocks

The allocator knows its blocks only through `start`, `end` and the links in their headers.
In the runs in which fusion finds harmless neighbours (`TidyStep`) the links thread one
sequence of blocks in both directions, from `start` to `end`; every live allocation is a block
on it that is in use, and every free block on it can still be handed out, since the search
gets to it once the free blocks before it are in use.

Where fusion removes the first block `start` stays at it, and where it removes the last one
`end` does; what is allocated behind such an `end` is never found from `start`
(`blockList_broken`).
-/

namespace MmAlloc

open DoublyLinked (Linked)
open Transition (Run)

/-- **A block can be returned by `mm_malloc`**, with its size, though free blocks before it
may have to be used up first; the heap need not grow for it, and all its bytes are in it. -/
def Heap.Returnable (h : Heap) (b : ℕ) : Prop :=
  ∃ n h' h'', Run HeapStep h (List.replicate n (.malloc (.ofNat (h.get .size b)) false)) h'
    ∧ mmMalloc (h.get .size b) false h' = .ok (b + blockSize, h'')
    ∧ b + blockSize + h.get .size b ≤ h.brk

/-- **The list of blocks is intact**: it leads from `start` to `end` over these headers, and
no header is on it twice. -/
structure Heap.ListIntact (h : Heap) (headers : List ℕ) : Prop where
  linked : Linked h.next h.prev none headers none
  start : pointer h.start = headers.head?
  last : pointer h.last = headers.getLast?
  nodup : headers.Nodup

namespace Heap

variable {h : Heap} {bs l₁ l₂ : List Block} {b : Block}

/-- **The first free block that is large enough is handed out.** -/
theorem Laid.mmMalloc_reuse (hl : h.Laid (l₁ ++ b :: l₂)) {size : ℕ} (hpos : 0 < size)
    (hfree : b.free = true) (hsize : size ≤ b.size)
    (hfirst : ∀ d ∈ l₁, (d.free && decide (size ≤ d.size)) = false) (grows : Bool) :
    ∃ h', MmAlloc.mmMalloc size grows h = .ok (b.addr + blockSize, h') ∧ h'.brk = h.brk
      ∧ h'.Laid (l₁ ++ ⟨b.addr, size, false⟩ :: l₂) := by
  have hb := Laid.mem_middle l₁ l₂ b
  obtain ⟨haddr, hlimit⟩ := hl.bounds b hb
  have hfound : (l₁ ++ b :: l₂).find? (fun d => d.free && decide (size ≤ d.size)) = some b := by
    refine List.find?_eq_some_iff_append.mpr ⟨?_, l₁, l₂, rfl, fun d hd => ?_⟩
    · rw [hfree, decide_eq_true hsize]
      rfl
    · rw [hfirst d hd]
      rfl
  have hfind := hl.findFreeSpace_run size
  rw [hfound, Option.elim_some] at hfind
  have hroom : b.addr + blockSize + size ≤ sizeMod := by
    have hlt := hl.brk_lt
    unfold Block.limit at hlimit
    omega
  have hreuse := hl.reuse hsize
  have hpayload := hreuse.payload (Laid.mem_middle l₁ l₂ ⟨b.addr, size, false⟩) le_rfl le_rfl
    (ByteMemory.agreeOutside_fill _ (b.addr + blockSize) 0 size)
  refine ⟨_, ?_, ?_, hpayload⟩
  · unfold MmAlloc.mmMalloc memset
    rw [if_neg (Nat.ne_of_gt hpos), Command.bind_apply hfind]
    rw [if_neg (Nat.ne_of_gt haddr), if_pos hroom]
    rfl
  · rfl

/-- **A free block can be returned.** By induction on the number of free blocks before it. -/
theorem Laid.returnable (hl : h.Laid (l₁ ++ b :: l₂)) (hfree : b.free = true) (hpos : 0 < b.size) :
    ∃ n h' h'', Run HeapStep h (List.replicate n (.malloc (.ofNat b.size) false)) h'
      ∧ MmAlloc.mmMalloc b.size false h' = .ok (b.addr + blockSize, h'') := by
  have hword : (UInt64.ofNat b.size).toNat = b.size := by
    have hlimit := (hl.bounds b (Laid.mem_middle l₁ l₂ b)).2
    refine UInt64.toNat_ofNat_of_lt' (lt_of_le_of_lt ?_ hl.brk_lt)
    exact le_trans (Nat.le_add_left _ _) hlimit
  induction hcount : l₁.countP Block.free using Nat.strong_induction_on generalizing h l₁ with
  | _ count ih =>
    cases hfind : l₁.find? fun d => d.free && decide (b.size ≤ d.size) with
    | none =>
      obtain ⟨h', hrun, -⟩ := hl.mmMalloc_reuse hpos hfree le_rfl
        (fun d hd => Bool.eq_false_iff.mpr (List.find?_eq_none.mp hfind d hd)) false
      exact ⟨0, h, h', .nil, hrun⟩
    | some c =>
      -- the free block before it is used up
      obtain ⟨hfits, k₁, k₂, rfl, hfirst⟩ := List.find?_eq_some_iff_append.mp hfind
      rw [Bool.and_eq_true, decide_eq_true_eq] at hfits
      rw [List.append_assoc, List.cons_append] at hl
      obtain ⟨h₁, hmalloc, -, hl₁⟩ := hl.mmMalloc_reuse hpos hfits.1 hfits.2
        (fun d hd => (Bool.not_eq_eq_eq_not.mp (hfirst d hd))) false
      let h₂ := h₁.hold (c.addr + blockSize) b.size
      have hl₂ : h₂.Laid ((k₁ ++ ⟨c.addr, b.size, false⟩ :: k₂) ++ b :: l₂) := by
        rw [List.append_assoc, List.cons_append]
        unfold h₂ hold
        split
        · exact hl₁
        · exact { hl₁ with }
      have hstep : HeapStep h (.malloc (.ofNat b.size) false) h₂ := by
        refine ⟨trivial, ?_⟩
        show (MmAlloc.mmMalloc (UInt64.ofNat b.size).toNat false >>= _) h = _
        rw [hword, Command.bind_apply hmalloc]
        rfl
      have hfewer : (k₁ ++ ⟨c.addr, b.size, false⟩ :: k₂).countP Block.free < count := by
        rw [← hcount]
        simp [hfits.1]
      obtain ⟨n, h', h'', hrun, hreturns⟩ := ih _ hfewer hl₂ rfl
      refine ⟨n + 1, h', h'', ?_, hreturns⟩
      rw [List.replicate_succ]
      exact hrun.cons hstep

/-- **A heap in order has an intact list of blocks.** -/
theorem InOrder.listIntact (hi : h.InOrder) : ∃ headers, h.ListIntact headers
    ∧ (∀ x ∈ h.live, getBlock x.1 ∈ headers ∧ h.get .free (getBlock x.1) = 0)
    ∧ (∀ b ∈ headers, h.get .free b ≠ 0 → h.Returnable b)
    ∧ headers.IsChain fun b c => h.get .free b = 0 ∨ h.get .free c = 0 := by
  obtain ⟨bs, hl, ho, hpacked⟩ := hi
  refine ⟨bs.map Block.addr, ⟨hl.linked, hl.start, hl.last, hl.nodup⟩, fun x hx => ?_,
    fun a ha hfree => ?_, ?_⟩
  · obtain ⟨d, hd, hused, -, hblock⟩ := ho.exists_block (List.mem_map_of_mem hx)
    rw [hblock]
    exact ⟨List.mem_map_of_mem hd, (hl.free_eq_zero_iff hd).mpr hused⟩
  · obtain ⟨b, hb, rfl⟩ := List.mem_map.mp ha
    obtain ⟨hsize, hflag⟩ := hl.fields b hb
    have hlimit := (hl.bounds b hb).2
    have hpos := hpacked.positive b hb
    obtain ⟨l₁, l₂, rfl⟩ := List.append_of_mem hb
    obtain ⟨n, h', h'', hrun, hreturns⟩ := hl.returnable (hflag.mp hfree) hpos
    unfold Returnable
    rw [hsize]
    exact ⟨n, h', h'', hrun, hreturns, hlimit⟩
  · rw [List.isChain_map]
    refine hpacked.separate.imp_of_mem_imp fun b c hb hc hnot => ?_
    rw [hl.free_eq_zero_iff hb, hl.free_eq_zero_iff hc]
    cases hfree : b.free with
    | false => exact .inl rfl
    | true => exact .inr (Bool.eq_false_iff.mpr fun hfree' => hnot ⟨hfree, hfree'⟩)

end Heap

/-- **The list of blocks stays intact** in every run that frees a block only next to blocks
that allow it: it leads from `start` to `end`, in both directions; every live allocation's
block is on it, in use; every free block on it can be returned by `mm_malloc`; and no two
neighbours are free. -/
theorem blockList_intact {h₀ h : Heap} {events : List HeapEvent} (hinit : h₀.Initial)
    (hrun : Run TidyStep h₀ events h) :
    ∃ headers, h.ListIntact headers
      ∧ (∀ x ∈ h.live, getBlock x.1 ∈ headers ∧ h.get .free (getBlock x.1) = 0)
      ∧ (∀ b ∈ headers, h.get .free b ≠ 0 → h.Returnable b)
      ∧ headers.IsChain fun b c => h.get .free b = 0 ∨ h.get .free c = 0 :=
  (inOrder_of_tidy hinit hrun).listIntact

theorem blockList_intact_run :
    ∃ h, Run TidyStep emptyHeap tidyEvents h ∧ h.live.length = 3 ∧ ∃ headers,
      h.ListIntact headers
      ∧ (∀ x ∈ h.live, getBlock x.1 ∈ headers ∧ h.get .free (getBlock x.1) = 0)
      ∧ (∀ b ∈ headers, h.get .free b ≠ 0 → h.Returnable b)
      ∧ headers.IsChain fun b c => h.get .free b = 0 ∨ h.get .free c = 0 := by
  have hcomputed : (tidyEvents.foldlM nextTidy emptyHeap).map (·.live.length) = some 3 := by
    decide +kernel
  obtain ⟨h, hh, hlive⟩ := Option.map_eq_some_iff.mp hcomputed
  have hrun : Run TidyStep emptyHeap tidyEvents h :=
    Run.of_foldlM (fun _ _ _ => tidyStep_of_nextTidy) hh
  exact ⟨h, hrun, hlive, blockList_intact emptyHeap_initial hrun⟩

/-- Of two blocks the second is freed and then the first, and more is allocated than both
have. -/
def brokenEvents : List HeapEvent :=
  [.malloc 100 true, .malloc 100 true, .free 4260, .free 4128, .malloc 300 true]

/-- **A list that does not lead to `end`**: the first block has taken in the second, which
`end` is still at. The next allocation is linked behind that header, and `start` leads to the
first block only. -/
theorem blockList_broken :
    ∃ h, emptyHeap.Initial ∧ Run HeapStep emptyHeap brokenEvents h
      ∧ (4392, 300) ∈ h.live ∧ h.start ≠ getBlock 4392 ∧ h.get .next h.start = 0
      ∧ ¬ ∃ headers, h.ListIntact headers := by
  have hcomputed : (brokenEvents.foldlM nextHeap emptyHeap).map
      (fun h => (decide ((4392, 300) ∈ h.live), h.start, h.last, h.get .next 4096))
        = some (true, 4096, 4360, 0) := by
    decide +kernel
  obtain ⟨h, hh, hsummary⟩ := Option.map_eq_some_iff.mp hcomputed
  simp only [Prod.mk.injEq, decide_eq_true_eq] at hsummary
  obtain ⟨hlive, hstart, hlast, hnext⟩ := hsummary
  refine ⟨h, emptyHeap_initial, Run.of_foldlM (fun _ _ _ => heapStep_of_nextHeap) hh, hlive, ?_, ?_,
    fun ⟨headers, hintact⟩ => ?_⟩
  · rw [hstart]
    decide
  · rw [hstart]
    exact hnext
  · have hhead := hintact.start
    have hend := hintact.last
    rw [hstart] at hhead
    rw [hlast] at hend
    -- the list has the first block only
    match headers, hintact.linked, hhead, hend with
    | [a], _, hhead, hend =>
      cases hhead
      cases hend
    | a :: b :: headers, hlinked, hhead, _ =>
      cases hhead
      have hbehind := hlinked.2.1
      unfold Heap.next at hbehind
      rw [hnext] at hbehind
      cases hbehind

end MmAlloc
