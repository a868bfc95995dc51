import Cs162.KernelMallocRuns

/-!
# How large a block of the kernel's allocator is

The sizes are unsigned words. `malloc` adds the size of a header to a big request before it
rounds up to pages, and `calloc` multiplies; both may wrap around, and only `calloc` tests for
it, with a test that products pass which wrap around further than once past the factors.

A request is served with at least what it asks for exactly as long as neither happens
(`served_iff`), or as the page count wraps around to zero.
-/

namespace Pintos

namespace KernelHeap

/-- `calloc`. What `memset` writes is not part of the state. -/
def calloc (a b : UInt32) (page : Option ℕ) : KernelHeapM (Option ℕ) :=
  let size := a * b
  if size < a ∨ size < b then pure none else malloc size.toNat page

/-- `block_size`, of a block. -/
def blockSize (b : ℕ) : KernelHeapM ℕ := do
  let (_, arena) ← blockToArena b
  match arena.desc with
  | some d => pure d.blockSize
  | none => pure (pgSize * arena.freeCnt - pgOfs b)

/-- `realloc`. What `memcpy` writes is not part of the state. -/
def realloc (oldBlock : Option ℕ) (newSize : UInt32) (page : Option ℕ) :
    KernelHeapM (Option ℕ) :=
  if newSize = 0 then do
    free oldBlock
    pure none
  else do
    let newBlock ← malloc newSize.toNat page
    match oldBlock, newBlock with
    | some old, some new => do
      let _ ← blockSize old
      free (some old)
      pure (some new)
    | _, _ => pure newBlock

end KernelHeap

/-- **A request for memory.** -/
inductive AllocRequest
  | malloc (size : UInt32)
  | realloc (newSize : UInt32)
  | calloc (a b : UInt32)

namespace AllocRequest

/-- How many bytes are asked for. -/
def bytes : AllocRequest → ℕ
  | malloc size => size.toNat
  | realloc newSize => newSize.toNat
  | calloc a b => a.toNat * b.toNat

/-- The size that is passed on to `malloc`. -/
def size : AllocRequest → UInt32
  | malloc size => size
  | realloc newSize => newSize
  | calloc a b => a * b

/-- The code of a request, with the block of `realloc` and with what the page allocator
returns in it. -/
def exec (oldBlock page : Option ℕ) : AllocRequest → KernelHeapM (Option ℕ)
  | malloc size => KernelHeap.malloc size.toNat page
  | realloc newSize => KernelHeap.realloc oldBlock newSize page
  | calloc a b => KernelHeap.calloc a b page

/-- There is room for a header in front of the size, as a word. -/
def HeaderFits (size : ℕ) : Prop := size + arenaSize ≤ addresses

/-- **The requests that are served right.** Of `calloc` these are also the products that its
test finds, and those that wrap around to a size whose number of pages wraps around to
zero. -/
def Fits : AllocRequest → Prop
  | malloc size => HeaderFits size.toNat
  | realloc newSize => HeaderFits newSize.toNat
  | calloc a b => HeaderFits (a.toNat * b.toNat) ∨ (a * b < a ∨ a * b < b)
    ∨ HeaderFits (a * b).toNat ∧ addresses < (a * b).toNat + arenaSize + pgSize

/-- **A request is served**, in every state of every run: it returns, and a block that it
returns has the bytes that were asked for. -/
def Served (r : AllocRequest) : Prop :=
  ∀ events s, Transition.Run MallocStep MallocState.init events s → ∀ oldBlock page,
    (∀ b ∈ oldBlock, b ∈ s.live) → s.heap.Fresh (KernelHeap.pagesFor r.size.toNat) page →
      ∃ block h, r.exec oldBlock page s.heap = .ok (block, h)
        ∧ ∀ b ∈ block, Set.Ico b (b + r.bytes) ⊆ h.extent b

end AllocRequest

namespace KernelHeap

variable {h h' : KernelHeap} {live : Finset ℕ} {size n b : ℕ}

/-! ## The size of a block -/

/-- **The bytes of a block** are those that are computed for its request. -/
theorem Serves.subset_extent (hserves : h.Serves size b) (hinv : h.Inv live)
    (hn : n ≤ allocatedBytes size) : Set.Ico b (b + n) ⊆ h.extent b := by
  unfold Serves at hserves
  unfold allocatedBytes at hn
  cases hdesc : descFor size with
  | some d =>
    rw [hdesc] at hserves hn
    obtain ⟨a, cnt, ha, hblock⟩ := hserves
    rw [hinv.extent_of_small ha hblock]
    exact Set.Ico_subset_Ico_right (Nat.add_le_add_left hn b)
  | none =>
    rw [hdesc] at hserves hn
    obtain ⟨a, ha, rfl⟩ := hserves
    rw [hinv.extent_of_big ha]
    refine Set.Ico_subset_Ico (Nat.le_add_right a arenaSize) ?_
    have hpos : 0 < pageCnt size := (hinv.aligned a _ ha).2.2
    have hheader : arenaSize ≤ pgSize * pageCnt size :=
      le_trans (by decide : arenaSize ≤ pgSize) (Nat.le_mul_of_pos_right pgSize hpos)
    show a + arenaSize + n ≤ a + pageCnt size * pgSize
    rw [Nat.mul_comm (pageCnt size)]
    dsimp only at hn
    omega

theorem Serves.le_of_subset (hserves : h.Serves size b) (hinv : h.Inv live)
    (hsub : Set.Ico b (b + n) ⊆ h.extent b) : n ≤ allocatedBytes size := by
  rcases Nat.eq_zero_or_pos n with rfl | hpos
  · exact Nat.zero_le _
  have hlast := hsub ⟨Nat.le_add_right b (n - 1), by omega⟩
  unfold Serves at hserves
  unfold allocatedBytes
  cases hdesc : descFor size with
  | some d =>
    rw [hdesc] at hserves
    obtain ⟨a, cnt, ha, hblock⟩ := hserves
    rw [hinv.extent_of_small ha hblock] at hlast
    have hlt := hlast.2
    dsimp only
    omega
  | none =>
    rw [hdesc] at hserves
    obtain ⟨a, ha, rfl⟩ := hserves
    rw [hinv.extent_of_big ha] at hlast
    have hlt : a + arenaSize + (n - 1) < a + pageCnt size * pgSize := hlast.2
    rw [Nat.mul_comm (pageCnt size)] at hlt
    dsimp only
    omega

theorem descFor_le {d : Desc} (hdesc : descFor size = some d) : size ≤ d.blockSize := by
  have hfound := List.find?_some (p := fun d : Desc => decide (size ≤ d.blockSize)) hdesc
  exact of_decide_eq_true hfound

theorem descFor_of_large (hlarge : 1024 < size) : descFor size = none := by
  have hle : ∀ d ∈ descs, d.blockSize ≤ 1024 := by decide
  refine List.find?_eq_none.mpr fun d hd => ?_
  rw [decide_eq_true_iff]
  exact Nat.not_le.mpr ((hle d hd).trans_lt hlarge)

/-- **Where the header fits**, there are enough bytes, unless no pages are asked for. -/
theorem le_allocatedBytes (hfits : AllocRequest.HeaderFits size) (hpages : 0 < pagesFor size) :
    size ≤ allocatedBytes size := by
  unfold allocatedBytes
  unfold pagesFor at hpages
  cases hdesc : descFor size with
  | some d => exact descFor_le hdesc
  | none =>
    rw [hdesc] at hpages
    unfold AllocRequest.HeaderFits at hfits
    unfold pageCnt pgSize arenaSize addresses at *
    dsimp only at hpages ⊢
    omega

/-- **Where it does not**, there are not. -/
theorem allocatedBytes_lt (hfits : ¬ AllocRequest.HeaderFits size) (hsize : size < addresses) :
    0 < pagesFor size ∧ allocatedBytes size < size := by
  have hlarge : addresses < size + arenaSize := Nat.lt_of_not_le hfits
  have hdesc : descFor size = none := descFor_of_large (by unfold arenaSize addresses at *; omega)
  unfold pagesFor allocatedBytes
  rw [hdesc]
  unfold pageCnt pgSize arenaSize addresses at *
  dsimp only
  omega

theorem allocatedBytes_lt_addresses (size : ℕ) : allocatedBytes size < addresses := by
  unfold allocatedBytes
  cases hdesc : descFor size with
  | some d =>
    have hle : ∀ d ∈ descs, d.blockSize < addresses := by decide
    exact hle d (List.mem_of_find?_eq_some hdesc)
  | none =>
    unfold pageCnt pgSize arenaSize addresses
    dsimp only
    omega

/-- The sizes for which the number of pages is zero. -/
theorem pagesFor_eq_zero_iff (hfits : AllocRequest.HeaderFits size) :
    pagesFor size = 0 ↔ addresses < size + arenaSize + pgSize := by
  unfold AllocRequest.HeaderFits at hfits
  unfold pagesFor
  cases hdesc : descFor size with
  | some d =>
    have hsmall : ¬ 1024 < size := fun hlarge => by
      rw [descFor_of_large hlarge] at hdesc
      cases hdesc
    unfold pgSize arenaSize addresses at *
    dsimp only
    omega
  | none =>
    unfold pageCnt pgSize arenaSize addresses at *
    dsimp only
    omega

/-! ## What a request does -/

theorem Inv.extent_congr {live' : Finset ℕ} {old : ℕ} (hinv : h.Inv live) (hinv' : h'.Inv live')
    (hsteady : h.Steady h')
    (hframe : ∀ c x, h.arenas c = some x → ¬ IsBlockOf c x old → h'.arenas c = some x)
    (hb : b ∈ live) (hb' : b ∈ live') (hne : b ≠ old) : h'.extent b = h.extent b := by
  obtain ⟨a, ⟨desc, cnt⟩, ha, hblock⟩ := hinv.live b hb
  have hpage := hinv.pgRoundDown ha hblock
  unfold extent
  rw [hpage]
  by_cases hold : IsBlockOf a ⟨desc, cnt⟩ old
  · cases desc with
    | none => exact absurd (hblock.trans hold.symm) hne
    | some d =>
      obtain hnone | ⟨cnt', ha'⟩ := hsteady a d cnt ha
      · -- the arena is there, since the block is live
        obtain ⟨c, x, hc, hcb⟩ := hinv'.live b hb'
        rw [← hinv'.pgRoundDown hc hcb, hpage, hnone] at hc
        cases hc
      · rw [ha, ha']
  · rw [hframe a _ ha hold, ha]

theorem blockSize_spec (hinv : h.Inv live) (hlive : b ∈ live) :
    h.Does (blockSize b) fun _ h' => h' = h := by
  obtain ⟨a, ⟨desc, cnt⟩, ha, hblock⟩ := hinv.live b hlive
  refine Command.Ensures.bind_ok (blockToArena_apply (hinv.page ha) ha ?_ hblock) ?_
  · rintro d ⟨⟩
    exact hinv.mem_descs ha
  · cases desc with
    | some d | none => exact Command.Ensures.pure rfl

/-- A block that serves a request has pages. -/
theorem Serves.pagesFor_pos (hserves : h.Serves size b) (hinv : h.Inv live) :
    0 < pagesFor size := by
  unfold Serves at hserves
  unfold pagesFor
  cases hdesc : descFor size with
  | some d => exact Nat.one_pos
  | none =>
    rw [hdesc] at hserves
    obtain ⟨a, ha, -⟩ := hserves
    exact (hinv.aligned a _ ha).2.2

/-- **The block has room** for as many bytes as are computed for a size, and no more. -/
def HasRoom (h : KernelHeap) (size b : ℕ) : Prop :=
  0 < pagesFor size ∧ ∀ n, Set.Ico b (b + n) ⊆ h.extent b ↔ n ≤ allocatedBytes size

theorem Serves.hasRoom (hserves : h.Serves size b) (hinv : h.Inv live) : h.HasRoom size b :=
  ⟨hserves.pagesFor_pos hinv, fun _ => ⟨hserves.le_of_subset hinv, hserves.subset_extent hinv⟩⟩

variable {oldBlock page : Option ℕ}

/-- **`realloc`** returns a block as `malloc` does. -/
theorem realloc_spec (hinv : h.Inv live) (hused : h.Used) {newSize : UInt32}
    (hold : ∀ b ∈ oldBlock, b ∈ live) (hfresh : h.Fresh (pagesFor newSize.toNat) page) :
    h.Does (realloc oldBlock newSize page) fun r h' =>
      (∀ b ∈ r, h'.HasRoom newSize.toNat b) ∧ (r = none → newSize.toNat = 0 ∨ page = none) := by
  unfold realloc
  refine Command.Ensures.ite (fun hzero => ?_) fun hne => ?_
  · have hzero' : newSize.toNat = 0 := congrArg UInt32.toNat hzero
    cases oldBlock with
    | none => exact Command.Ensures.pure ⟨nofun, fun _ => .inl hzero'⟩
    | some old =>
      refine Command.Ensures.bind (free_spec hinv hused (hold old rfl)) fun _ _ _ => ?_
      exact Command.Ensures.pure ⟨nofun, fun _ => .inl hzero'⟩
  · refine Command.Ensures.bind (malloc_spec hinv hused hfresh) ?_
    rintro newBlock h₁ ⟨hinv₁, hused₁, -, hnew, hwhy⟩
    have hdone : (∀ b ∈ newBlock, h₁.HasRoom newSize.toNat b)
        ∧ (newBlock = none → newSize.toNat = 0 ∨ page = none) :=
      ⟨fun b hb => (hnew b hb).2.hasRoom hinv₁, hwhy⟩
    match oldBlock, newBlock with
    | none, _ => exact Command.Ensures.pure hdone
    | some _, none => exact Command.Ensures.pure hdone
    | some old, some new =>
      have hlive : old ∈ live := hold old rfl
      have hne' : new ≠ old := fun heq => (hnew new rfl).1 (heq ▸ hlive)
      rw [Option.toFinset_some, Finset.union_singleton] at hinv₁
      have hlive₁ : old ∈ insert new live := Finset.mem_insert_of_mem hlive
      refine Command.Ensures.bind (blockSize_spec hinv₁ hlive₁) ?_
      rintro _ _ rfl
      refine Command.Ensures.bind (free_spec hinv₁ hused₁ hlive₁) ?_
      rintro _ h₂ ⟨hinv₂, -, hsteady₂, hframe₂⟩
      refine Command.Ensures.pure ⟨?_, nofun⟩
      rintro _ ⟨⟩
      obtain ⟨hpos, hroom⟩ := hdone.1 new rfl
      refine ⟨hpos, fun n => ?_⟩
      rw [hinv₁.extent_congr hinv₂ hsteady₂ hframe₂ (Finset.mem_insert_self new live)
        (Finset.mem_erase.mpr ⟨hne', Finset.mem_insert_self new live⟩) hne']
      exact hroom n

end KernelHeap

namespace AllocRequest

/-- The test of `calloc`. -/
def Refused : AllocRequest → Prop
  | calloc a b => a * b < a ∨ a * b < b
  | _ => False

/-- **What a request does.** -/
theorem exec_spec (r : AllocRequest) {h : KernelHeap} {live : Finset ℕ}
    {oldBlock page : Option ℕ} (hinv : h.Inv live) (hused : h.Used)
    (hold : ∀ b ∈ oldBlock, b ∈ live) (hfresh : h.Fresh (KernelHeap.pagesFor r.size.toNat) page) :
    h.Does (r.exec oldBlock page) fun block h' =>
      (∀ b ∈ block, ¬ r.Refused ∧ h'.HasRoom r.size.toNat b)
        ∧ (block = none → r.Refused ∨ r.size.toNat = 0 ∨ page = none) := by
  have hmalloc := (KernelHeap.malloc_spec hinv hused hfresh).mono
    (R := fun block h' => (∀ b ∈ block, h'.HasRoom r.size.toNat b)
      ∧ (block = none → r.size.toNat = 0 ∨ page = none))
    fun block h' ⟨hinv', _, _, hnew, hwhy⟩ => ⟨fun b hb => (hnew b hb).2.hasRoom hinv', hwhy⟩
  cases r with
  | malloc size =>
    exact hmalloc.mono fun _ _ hdone =>
      ⟨fun b hb => ⟨id, hdone.1 b hb⟩, fun hnone => .inr (hdone.2 hnone)⟩
  | realloc newSize =>
    exact (KernelHeap.realloc_spec hinv hused hold hfresh).mono fun _ _ hdone =>
      ⟨fun b hb => ⟨id, hdone.1 b hb⟩, fun hnone => .inr (hdone.2 hnone)⟩
  | calloc a b =>
    unfold exec KernelHeap.calloc
    refine Command.Ensures.ite (fun htest => ?_) fun htest => ?_
    · exact Command.Ensures.pure ⟨nofun, fun _ => .inl htest⟩
    · exact hmalloc.mono fun _ _ hdone =>
        ⟨fun b hb => ⟨htest, hdone.1 b hb⟩, fun hnone => .inr (hdone.2 hnone)⟩

/-- A request that fits is refused, or its pages come to nothing, or it has enough bytes. -/
theorem Fits.bytes_le {r : AllocRequest} (hfits : r.Fits) (hrefused : ¬ r.Refused)
    (hpages : 0 < KernelHeap.pagesFor r.size.toNat) : r.bytes ≤ allocatedBytes r.size.toNat := by
  cases r with
  | malloc size | realloc newSize => exact KernelHeap.le_allocatedBytes hfits hpages
  | calloc a b =>
    obtain hfits | htest | ⟨hfits, hlarge⟩ := hfits
    · have hproduct : (a * b).toNat = a.toNat * b.toNat := by
        rw [UInt32.toNat_mul]
        refine Nat.mod_eq_of_lt ?_
        unfold HeaderFits arenaSize addresses at hfits
        omega
      unfold size bytes at *
      rw [hproduct] at hpages ⊢
      exact KernelHeap.le_allocatedBytes hfits hpages
    · exact absurd htest hrefused
    · exact absurd ((KernelHeap.pagesFor_eq_zero_iff hfits).mpr hlarge) hpages.ne'

/-- **A request that does not fit** is not refused, its size is not zero, and there are pages
for it, but not enough. -/
theorem lt_bytes_of_not_fits {r : AllocRequest} (hfits : ¬ r.Fits) :
    ¬ r.Refused ∧ r.size.toNat ≠ 0 ∧ 0 < KernelHeap.pagesFor r.size.toNat
      ∧ allocatedBytes r.size.toNat < r.bytes := by
  have hplain (size : UInt32) (hnot : ¬ HeaderFits size.toNat) : size.toNat ≠ 0
      ∧ 0 < KernelHeap.pagesFor size.toNat ∧ allocatedBytes size.toNat < size.toNat := by
    obtain ⟨hpages, hlt⟩ := KernelHeap.allocatedBytes_lt hnot size.toNat_lt
    exact ⟨by omega, hpages, hlt⟩
  cases r with
  | malloc size => exact ⟨id, hplain size hfits⟩
  | realloc newSize => exact ⟨id, hplain newSize hfits⟩
  | calloc a b =>
    unfold Fits at hfits
    rw [not_or, not_or] at hfits
    obtain ⟨hproduct, htest, hwrapped⟩ := hfits
    have hmod : (a * b).toNat = a.toNat * b.toNat % addresses := UInt32.toNat_mul a b
    have hle : (a * b).toNat ≤ a.toNat * b.toNat := hmod ▸ Nat.mod_le _ _
    refine ⟨htest, ?_⟩
    unfold size bytes
    by_cases hword : HeaderFits (a * b).toNat
    · have hlarge : addresses ≤ a.toNat * b.toNat := by
        by_contra hsmall
        rw [hmod, Nat.mod_eq_of_lt (Nat.lt_of_not_le hsmall)] at hword
        exact hproduct hword
      refine ⟨fun hzero => ?_, Nat.pos_of_ne_zero fun hzero => ?_, ?_⟩
      · have ha : ¬ a.toNat > 0 := fun hpos =>
          htest (.inl (UInt32.lt_iff_toNat_lt.mpr (hzero ▸ hpos)))
        rw [Nat.eq_zero_of_not_pos ha, Nat.zero_mul] at hlarge
        exact absurd hlarge (by decide)
      · exact hwrapped ⟨hword, (KernelHeap.pagesFor_eq_zero_iff hword).mp hzero⟩
      · exact (KernelHeap.allocatedBytes_lt_addresses _).trans_le hlarge
    · obtain ⟨hne, hpages, hlt⟩ := hplain (a * b) hword
      exact ⟨hne, hpages, hlt.trans_le hle⟩

/-- **A request is served with at least what it asks for if and only if it fits.** -/
theorem served_iff (r : AllocRequest) : r.Served ↔ r.Fits := by
  constructor
  · intro hserved
    by_contra hfits
    obtain ⟨hrefused, hne, hpages, hlt⟩ := lt_bytes_of_not_fits hfits
    have hfresh : MallocState.init.heap.Fresh (KernelHeap.pagesFor r.size.toNat) (some pgSize) := by
      rintro _ ⟨⟩
      exact ⟨hpages, by decide, nofun⟩
    obtain ⟨block, h, hexec, hblock⟩ := hserved [] _ .nil none _ nofun hfresh
    have hinv := MallocState.inv_init
    have hold : ∀ b ∈ (none : Option ℕ), b ∈ MallocState.init.live := nofun
    obtain ⟨hroom, hwhy⟩ := (r.exec_spec hinv.heap hinv.used hold hfresh).of_ok hexec
    cases block with
    | none =>
      rcases hwhy rfl with hwhy | hwhy | hwhy
      · exact hrefused hwhy
      · exact hne hwhy
      · cases hwhy
    | some b =>
      exact absurd (((hroom b rfl).2.2 _).mp (hblock b rfl)) hlt.not_ge
  · intro hfits events s hrun oldBlock page hold hfresh
    have hinv := MallocState.Inv.of_run hrun
    obtain ⟨block, h, hexec, hroom, -⟩ :=
      (r.exec_spec hinv.heap hinv.used hold hfresh).exists_ok
    refine ⟨block, h, hexec, fun b hb => ?_⟩
    obtain ⟨hrefused, hpages, hsize⟩ := hroom b hb
    exact (hsize _).mpr (hfits.bytes_le hrefused hpages)

/-- **`calloc` of 65537 elements of 65537 bytes**: the product, which is more than 4 GB, wraps
around to 131073, and a block of 33 pages is returned; **`malloc` of 4294967295 bytes**: with a
header these are 11, and a block of one page is returned. -/
theorem calloc_tooSmall :
    (∃ h, (calloc 65537 65537).exec none (some 4096) KernelHeap.init = .ok (some 4108, h)
      ∧ h.extent 4108 = Set.Ico 4096 (4096 + 33 * 4096)
      ∧ ¬ Set.Ico 4108 (4108 + (calloc 65537 65537).bytes) ⊆ h.extent 4108)
    ∧ ∃ h, (malloc 4294967295).exec none (some 4096) KernelHeap.init = .ok (some 4108, h)
      ∧ h.extent 4108 = Set.Ico 4096 (4096 + 1 * 4096)
      ∧ ¬ Set.Ico 4108 (4108 + (malloc 4294967295).bytes) ⊆ h.extent 4108 := by
  refine ⟨⟨_, rfl, rfl, fun hsub => ?_⟩, ⟨_, rfl, rfl, fun hsub => ?_⟩⟩
  · have hlast : 139264 < 4096 + 33 * 4096 := (hsub (a := 139264) ⟨by decide, by decide⟩).2
    exact absurd hlast (by decide)
  · have hlast : 8192 < 4096 + 1 * 4096 := (hsub (a := 8192) ⟨by decide, by decide⟩).2
    exact absurd hlast (by decide)

end AllocRequest

end Pintos
