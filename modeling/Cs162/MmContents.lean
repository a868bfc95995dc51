import Cs162.MmRuns

/-!
# The contents of a block that is reallocated

`mm_realloc` leaves an allocation where it is as long as its block is large enough, and moves
it to a block from `mm_malloc` otherwise. What is written on the way are headers and the new
block: the other allocations keep their bytes, and the allocation keeps as many as both sizes
have. This needs no condition on the neighbours of the block that is freed in the end, since
fusion follows links from header to header wherever they lead.

What stands behind the old bytes is another matter. The copy has the length of the new size,
so that it goes on into whatever lies behind the old block, over the zeros of the new one, and
a block that is large enough may hold bytes from before it was shrunk.
-/

namespace MmAlloc

open Command (Ensures)
open Transition (Run)

namespace Heap

variable {h h' : Heap} {A : Set ℕ} {b v : ℕ} {f g : Field}

/-! ## Headers -/

/-- The fields that are links. -/
def IsLink (f : Field) : Prop := f = .next ∨ f = .prev

instance : DecidablePred IsLink := fun _ => inferInstanceAs (Decidable (_ ∨ _))

/-- **The links stay among some headers**, which do not overlap. -/
structure Threaded (h : Heap) (A : Set ℕ) : Prop where
  apart : ∀ a ∈ A, ∀ b ∈ A, a = b ∨ a + blockSize ≤ b ∨ b + blockSize ≤ a
  lt : ∀ a ∈ A, a < 256 ^ 8
  link : ∀ f, IsLink f → ∀ a ∈ A, h.get f a = 0 ∨ h.get f a ∈ A

/-- **Nothing but these headers is written.** -/
def HeadersOnly (A : Set ℕ) (h h' : Heap) : Prop :=
  ∀ x, (∀ a ∈ A, x ∉ header a) → h'.memory x = h.memory x

theorem HeadersOnly.trans {h'' : Heap} (h₁ : HeadersOnly A h h') (h₂ : HeadersOnly A h' h'') :
    HeadersOnly A h h'' :=
  fun x hx => (h₂ x hx).trans (h₁ x hx)

theorem memory_set {x : ℕ} (hx : x ∉ header b) : (h.set f b v).memory x = h.memory x := by
  have hf := field_le f
  refine ByteMemory.agreeOutside_store _ _ _ _ x fun hin => hx (Set.mem_Ico.mpr ?_)
  omega

theorem headersOnly_set (hb : b ∈ A) : HeadersOnly A h (h.set f b v) :=
  fun _ hx => memory_set (hx b hb)

theorem width_link (hf : IsLink f) : f.width = 8 := by
  obtain rfl | rfl := hf <;> rfl

theorem Threaded.set (ht : h.Threaded A) (hb : b ∈ A) (hv : v < 256 ^ f.width)
    (hlink : IsLink f → v = 0 ∨ v ∈ A) : (h.set f b v).Threaded A := by
  refine { ht with link := fun g hg a ha => ?_ }
  rw [get_set hv (ht.apart a ha b hb)]
  split
  · rename_i heq
    exact hlink (heq.2 ▸ hg)
  · exact ht.link g hg a ha

/-- A header takes in the one that a link leads to, and its link is mended from both sides. -/
theorem Threaded.takeIn (ht : h.Threaded A) (hb : b ∈ A) (hf : IsLink f) (hg : IsLink g)
    (hne : h.get f b ≠ 0) {size : ℕ} (hsize : size < sizeMod) {h₁ h₂ : Heap}
    (h₁_eq : h₁ = h.set .size b size) (h₂_eq : h₂ = h₁.set f b (h₁.get f (h₁.get f b)))
    (h'_eq : h' = if h₂.get f b ≠ 0 then h₂.set g (h₂.get f b) b else h₂) :
    h'.Threaded A ∧ HeadersOnly A h h' := by
  have hsize' : size < 256 ^ Field.size.width := Laid.sizeMod_eq ▸ hsize
  have ht₁ : h₁.Threaded A := by
    rw [h₁_eq]
    exact ht.set hb hsize' fun hlink => absurd hlink (by decide)
  have hsame : h₁.get f b = h.get f b := by
    rw [h₁_eq, get_set hsize' (.inl rfl), if_neg]
    rintro ⟨-, rfl⟩
    exact absurd hf (by decide)
  have hin : h₁.get f b ∈ A := hsame ▸ (ht.link f hf b hb).resolve_left hne
  have hover := ht₁.link f hf _ hin
  have hlt : h₁.get f (h₁.get f b) < 256 ^ f.width := by
    rw [width_link hf]
    rcases hover with hzero | hover
    · rw [hzero]
      decide
    · exact ht.lt _ hover
  have ht₂ : h₂.Threaded A := by
    rw [h₂_eq]
    exact ht₁.set hb hlt fun _ => hover
  have honly : HeadersOnly A h h₂ := by
    rw [h₂_eq, h₁_eq]
    exact (headersOnly_set hb).trans (headersOnly_set hb)
  rw [h'_eq]
  split
  · rename_i hnot
    have hmem := (ht₂.link f hf b hb).resolve_left hnot
    have hb' : b < 256 ^ g.width := (width_link hg).symm ▸ ht.lt b hb
    exact ⟨ht₂.set hmem hb' fun _ => .inr hb, honly.trans (headersOnly_set hmem)⟩
  · exact ⟨ht₂, honly⟩

theorem sizeMod_pos : 0 < sizeMod := by decide

/-- **Fusion writes to headers only**, whatever the neighbours are. -/
theorem Threaded.fusion (ht : h.Threaded A) (hb : b ∈ A) : HeadersOnly A h (h.fusion b) := by
  have hprev : (h.fusionPrev b).Threaded A ∧ HeadersOnly A h (h.fusionPrev b) := by
    unfold fusionPrev
    split
    · rename_i hcase
      exact ht.takeIn hb (.inr rfl) (.inl rfl) hcase.1 (Nat.mod_lt _ sizeMod_pos) rfl rfl rfl
    · exact ⟨ht, fun _ _ => rfl⟩
  have hnext : HeadersOnly A (h.fusionPrev b) ((h.fusionPrev b).fusionNext b) := by
    unfold Heap.fusionNext
    split
    · rename_i hcase
      exact (hprev.1.takeIn hb (.inl rfl) (.inr rfl) hcase.1 (Nat.mod_lt _ sizeMod_pos)
        rfl rfl rfl).2
    · exact fun _ _ => rfl
  unfold Heap.fusion
  split
  · exact fun _ _ => rfl
  · exact hprev.2.trans hnext

namespace Laid

variable {bs : List Block} {c d : Block} {x : ℕ}

theorem threaded (hl : h.Laid bs) : h.Threaded {a | a ∈ bs.map Block.addr} where
  apart a ha b hb := by
    obtain ⟨c, hc, rfl⟩ := List.mem_map.mp ha
    obtain ⟨d, hd, rfl⟩ := List.mem_map.mp hb
    exact hl.apart hc hd
  lt a ha := by
    obtain ⟨c, hc, rfl⟩ := List.mem_map.mp ha
    exact hl.addr_lt hc
  link f hf a ha := by
    obtain ⟨c, hc, rfl⟩ := List.mem_map.mp ha
    obtain ⟨l₁, l₂, rfl⟩ := List.append_of_mem hc
    rcases hf with rfl | rfl
    · have hnext := hl.next_eq
      cases hhead : l₂.head? with
      | none =>
        rw [hhead] at hnext
        exact .inl (eq_zero_of_pointer hnext)
      | some e =>
        rw [hhead] at hnext
        rw [eq_of_pointer hnext]
        refine .inr (List.mem_map_of_mem (List.mem_append_right _ (List.mem_cons_of_mem _ ?_)))
        exact List.mem_of_mem_head? hhead
    · have hprev := hl.prev_eq
      cases hlast : l₁.getLast? with
      | none =>
        rw [hlast] at hprev
        exact .inl (eq_zero_of_pointer hprev)
      | some e =>
        rw [hlast] at hprev
        rw [eq_of_pointer hprev]
        exact .inr (List.mem_map_of_mem (List.mem_append_left _ (List.mem_of_getLast? hlast)))

theorem not_mem_header (hl : h.Laid bs) (hc : c ∈ bs) (hx : c.addr + blockSize ≤ x)
    (hlimit : x < c.limit) (hd : d ∈ bs) : x ∉ header d.addr := by
  intro hin
  obtain ⟨hle, hlt⟩ := Set.mem_Ico.mp hin
  rcases hl.limit_le hc hd with rfl | hcd | hdc
  · omega
  · omega
  · unfold Block.limit at hdc
    omega

/-- **What `mm_free` writes.** -/
theorem mmFree_memory (hl : h.Laid bs) (hc : c ∈ bs) (hd : d ∈ bs) (hx : c.addr + blockSize ≤ x)
    (hlimit : x < c.limit) : ((h.set .free d.addr 1).fusion d.addr).memory x = h.memory x := by
  have hmem : d.addr ∈ {a | a ∈ bs.map Block.addr} := List.mem_map_of_mem hd
  have ht := hl.threaded.set hmem (show 1 < 256 ^ Field.free.width by decide) fun hlink =>
    absurd hlink (by decide)
  refine ((headersOnly_set hmem).trans (ht.fusion hmem)) x fun a ha => ?_
  obtain ⟨e, he, rfl⟩ := List.mem_map.mp ha
  exact hl.not_mem_header hc hx hlimit he

/-- **What `mm_malloc` writes**: headers, and the block it hands out. -/
theorem mmMalloc_memory (hl : h.Laid bs) (size : ℕ) (grows : Bool) :
    Ensures (fun _ => True) h (MmAlloc.mmMalloc size grows) fun p h' =>
      p ≠ 0 → ∀ x, (∀ c ∈ bs, x ∉ header c.addr) → ¬ (getBlock p ≤ x ∧ x < p + size) →
        h'.memory x = h.memory x := by
  have hfinish {block : ℕ} {h' : Heap}
      (hsame : ∀ x, (∀ c ∈ bs, x ∉ header c.addr) → x ∉ header block →
        h'.memory x = h.memory x) :
      Ensures (fun _ => True) h' (do memset (block + blockSize) size; pure (block + blockSize))
        fun p h' => p ≠ 0 → ∀ x, (∀ c ∈ bs, x ∉ header c.addr) →
          ¬ (getBlock p ≤ x ∧ x < p + size) → h'.memory x = h.memory x := by
    refine .bind (Q := fun _ h'' => h''.memory = h'.memory.fill (block + blockSize) 0 size)
      (.ite (fun _ => .modify rfl) fun _ => .stop trivial) fun _ h'' hfill => .pure ?_
    intro _ x hheaders hout
    have hblock : getBlock (block + blockSize) = block := Nat.add_sub_cancel ..
    rw [hblock] at hout
    rw [hfill, ByteMemory.agreeOutside_fill _ _ _ _ x (by omega)]
    refine hsame x hheaders fun hin => hout ?_
    obtain ⟨hle, hlt⟩ := Set.mem_Ico.mp hin
    omega
  refine .ite (fun _ => .pure fun hne => absurd rfl hne) fun _ => ?_
  refine .bind_ok (hl.findFreeSpace_run size) ?_
  cases hfind : bs.find? fun b => b.free && decide (size ≤ b.size) with
  | some e =>
    refine .ite (fun hzero => ?_) fun _ => .modify_bind (hfinish fun x _ hx => ?_)
    · exact absurd hzero (Nat.ne_of_gt (hl.bounds e (List.mem_of_find?_eq_some hfind)).1)
    · rw [Option.elim_some] at hx ⊢
      rw [memory_set hx, memory_set hx]
  | none =>
    refine .ite (fun _ => .get_bind ?_) fun hne => absurd rfl hne
    refine .bind ((extendHeap_spec h h.last size grows).weaken fun _ _ => trivial) ?_
    rintro block h' (⟨rfl, rfl⟩ | ⟨rfl, -, rfl⟩)
    · exact .ite (fun _ => .pure fun hne => absurd rfl hne) fun hne => absurd rfl hne
    · refine .ite (fun hzero => absurd hzero (Nat.ne_of_gt hl.brk_pos)) fun _ => hfinish ?_
      intro x hheaders hx
      unfold Heap.appendBlock
      dsimp only
      split
      · dsimp only
        rw [memory_set hx, memory_set hx, memory_set hx]
      · rename_i hlast
        obtain ⟨hzero, -⟩ | ⟨c, hc, heq⟩ := hl.last_cases
        · exact absurd hzero hlast
        · rw [memory_set (heq ▸ hheaders c hc), memory_set hx, memory_set hx, memory_set hx]

end Laid

/-! ## Reallocating -/

variable {bs : List Block} {c d : Block} {p m q : ℕ}

/-- **Where the allocation is moved**: `mm_malloc` has left the blocks in use alone, the new
block has the bytes that then stand at the old pointer, and the blocks in use keep theirs. -/
theorem Laid.moved (hl : h.Laid bs) (hd : d ∈ bs) (hdused : d.free = false) {h₁ : Heap}
    {grows : Bool} (hmalloc : MmAlloc.mmMalloc m grows h = .ok (q, h₁)) (hq : q ≠ 0)
    (h'_eq : h' = ({ h₁ with memory := h₁.memory.copy q p m }.set .free d.addr 1).fusion d.addr) :
    (∀ c ∈ bs, c.free = false → ∀ x, c.addr + blockSize ≤ x → x < c.limit →
        h₁.memory x = h.memory x ∧ h'.memory x = h.memory x)
      ∧ (∀ i < m, h'.memory (q + i) = h₁.memory (p + i)) ∧ q + m < sizeMod ∧ blockSize < q := by
  obtain ⟨rfl, -⟩ | ⟨-, -, hout⟩ := (hl.mmMalloc m grows).of_ok hmalloc
  · exact absurd rfl hq
  have hmemory := (hl.mmMalloc_memory m grows).of_ok hmalloc hq
  obtain ⟨-, bs', e, hl₁, hgrown, he, rfl, -, rfl, hnew⟩ := hout
  have hl₂ : { h₁ with memory := h₁.memory.copy (e.addr + blockSize) p e.size }.Laid bs' :=
    hl₁.payload he le_rfl le_rfl (ByteMemory.agreeOutside_copy _ _ _ _)
  have hd' := hgrown.mem hd hdused
  have hblock : getBlock (e.addr + blockSize) = e.addr := Nat.add_sub_cancel ..
  refine ⟨fun c hc hused x hx hlimit => ?_, fun i hi => ?_, ?_, ?_⟩
  · have hc' := hgrown.mem hc hused
    -- the new block is apart from those in use
    have hapart : ¬ (e.addr ≤ x ∧ x < e.limit) := by
      rintro ⟨hle, hlt⟩
      rcases hl₁.limit_le hc' he with rfl | hce | hec
      · exact hnew c hc hused rfl
      · omega
      · omega
    unfold Block.limit at hapart
    have hsame : h₁.memory x = h.memory x :=
      hmemory x (fun b hb => hl.not_mem_header hc hx hlimit hb) (by rwa [hblock])
    refine ⟨hsame, ?_⟩
    rw [h'_eq, hl₂.mmFree_memory hc' hd' hx hlimit, ← hsame]
    exact ByteMemory.agreeOutside_copy _ _ _ _ x (by omega)
  · rw [h'_eq, hl₂.mmFree_memory he hd' (Nat.le_add_right _ _) (Nat.add_lt_add_left hi _)]
    show (if _ then _ else _) = _
    rw [if_pos ⟨Nat.le_add_right _ _, Nat.add_lt_add_left hi _⟩, Nat.add_sub_cancel_left]
  · exact (hl₁.bounds e he).2.trans_lt hl₁.brk_lt
  · exact Nat.lt_add_of_pos_left (hl₁.bounds e he).1

end Heap

open Heap (Owned)

/-- **A call of `mm_realloc` that returns `q`** for a live allocation `p` of `n` bytes and the
new size `m`, on a heap whose blocks do not overlap. -/
structure Reallocates (h : Heap) (p n m q : ℕ) (h' : Heap) : Prop where
  blocks : ∃ bs, h.Laid bs ∧ Owned h.live bs
  live : (p, n) ∈ h.live
  returns : ∃ grows, mmRealloc p m grows h = .ok (q, h')
  nonnull : q ≠ 0

namespace Reallocates

variable {h h' : Heap} {p n m q : ℕ}

/-- The block of a live allocation. -/
theorem block (hr : ∃ bs, h.Laid bs ∧ Owned h.live bs) (hlive : (p, n) ∈ h.live) :
    p ≠ 0 ∧ ∃ bs d, h.Laid bs ∧ d ∈ bs ∧ d.free = false ∧ getBlock p = d.addr := by
  obtain ⟨bs, hl, ho⟩ := hr
  obtain ⟨d, hd, hused, hpd, -⟩ := ho.block (p, n) hlive
  dsimp only at hpd
  have hpos := (hl.bounds d hd).1
  refine ⟨by omega, bs, d, hl, hd, hused, ?_⟩
  rw [hpd]
  exact Nat.add_sub_cancel ..

/-- Any other is copied, with what `mm_malloc` leaves behind it. -/
theorem copied (hr : ∃ bs, h.Laid bs ∧ Owned h.live bs) (hlive : (p, n) ∈ h.live) (hm : m ≠ 0)
    (hlt : ¬ m ≤ h.get .size (getBlock p)) {grows : Bool} {h₁ : Heap}
    (hmalloc : mmMalloc m grows h = .ok (q, h₁)) (hq : q ≠ 0) (hroom : p + m ≤ sizeMod) :
    ∃ h', Reallocates h p n m q h' ∧ ∀ i < m, h'.memory (q + i) = h₁.memory (p + i) := by
  obtain ⟨hp, bs, d, hl, hd, hused, hblock⟩ := block hr hlive
  obtain ⟨-, hcopied, hfits, -⟩ := hl.moved hd hused hmalloc hq rfl
  refine ⟨_, ⟨hr, hlive, ⟨grows, ?_⟩, hq⟩, hcopied⟩
  unfold mmRealloc
  rw [if_neg hp, if_neg hm, Command.get_bind_apply, if_neg hlt, Command.bind_apply hmalloc,
    if_neg hq]
  unfold memcpy mmFree
  rw [if_pos ⟨hfits.le, hroom⟩, if_neg hp, hblock]
  rfl

end Reallocates

/-! ## The bytes behind the old ones -/

end MmAlloc
