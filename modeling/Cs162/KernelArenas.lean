import Cs162.KernelMalloc

/-!
# The arenas of the kernel's allocator

Every free block and every live block lies in the pages of one arena, and the pages of
different arenas do not meet. So what `malloc` and `free` do is local: they change one
arena, and the blocks they move lie in its pages. `KernelHeap.Inv.change` is that argument,
made once; what is left for each function is its own arena.

An arena of a descriptor has each of its blocks either on the descriptor's list or live, and
its `free_cnt` counts the first. When the count reaches the number of blocks none is live,
the blocks are all on the list, and taking them off leaves none behind.
-/

namespace Pintos

/-- The blocks of an arena fit behind its header. -/
theorem descs_fit : ∀ d ∈ descs, 0 < d.blockSize ∧ 0 < d.blocksPerArena ∧
    arenaSize + d.blocksPerArena * d.blockSize ≤ pgSize := by
  decide

theorem mem_descs_of_descFor {size : ℕ} {d : Desc} (h : descFor size = some d) : d ∈ descs :=
  List.mem_of_find?_eq_some h

namespace KernelHeap

/-- An address is that of a block of an arena. -/
def IsBlock (d : Desc) (a b : ℕ) : Prop := ∃ i < d.blocksPerArena, b = blockAt d a i

/-- An address is that of a block of an arena, or of its big block. -/
def IsBlockOf (a : ℕ) (arena : Arena) (b : ℕ) : Prop :=
  match arena.desc with
  | some d => IsBlock d a b
  | none => b = a + arenaSize

/-- The number of pages of an arena. -/
def pages (arena : Arena) : ℕ :=
  match arena.desc with
  | some _ => 1
  | none => arena.freeCnt

/-- The pages of an arena. -/
def span (a : ℕ) (arena : Arena) : Set ℕ := Set.Ico a (a + pages arena * pgSize)

/-- The indices of the blocks of an arena that are on the list. -/
def freeBlocks (h : KernelHeap) (d : Desc) (a : ℕ) : Finset ℕ :=
  (Finset.range d.blocksPerArena).filter fun i => blockAt d a i ∈ h.freeList d

/-! ## Addresses -/

section addresses

variable {d : Desc} {a b i : ℕ}

/-- A block lies in the page of its arena, behind the header. -/
theorem blockAt_add_le (hd : d ∈ descs) (hi : i < d.blocksPerArena) :
    blockAt d a i + d.blockSize ≤ a + pgSize := by
  obtain ⟨-, -, hfit⟩ := descs_fit d hd
  have hle : (i + 1) * d.blockSize ≤ d.blocksPerArena * d.blockSize := Nat.mul_le_mul_right _ hi
  rw [Nat.succ_mul] at hle
  unfold blockAt
  omega

theorem le_blockAt : a + arenaSize ≤ blockAt d a i := Nat.le_add_right _ _

theorem blockAt_lt (hd : d ∈ descs) (hi : i < d.blocksPerArena) : blockAt d a i < a + pgSize := by
  have hle := blockAt_add_le (a := a) hd hi
  have hpos := (descs_fit d hd).1
  omega

theorem blockAt_inj (hd : d ∈ descs) {j : ℕ} (h : blockAt d a i = blockAt d a j) : i = j := by
  unfold blockAt at h
  exact Nat.eq_of_mul_eq_mul_right (descs_fit d hd).1 (Nat.add_left_cancel h)

/-- An address in a page, as its offset. -/
theorem pgRoundDown_of_aligned (ha : a % pgSize = 0) (hle : a ≤ b) (hlt : b < a + pgSize) :
    pgRoundDown b = a ∧ pgOfs b = b - a := by
  unfold pgRoundDown pgOfs
  unfold pgSize at *
  omega

theorem pgRoundDown_blockAt (ha : a % pgSize = 0) (hd : d ∈ descs) (hi : i < d.blocksPerArena) :
    pgRoundDown (blockAt d a i) = a ∧ pgOfs (blockAt d a i) = arenaSize + i * d.blockSize := by
  obtain ⟨hdown, hofs⟩ := pgRoundDown_of_aligned ha
    (le_trans (Nat.le_add_right a arenaSize) le_blockAt) (blockAt_lt hd hi)
  refine ⟨hdown, hofs.trans ?_⟩
  unfold blockAt
  omega

theorem IsBlock.mem_span (hd : d ∈ descs) (hb : IsBlock d a b) (cnt : ℕ) :
    b ∈ span a ⟨some d, cnt⟩ := by
  obtain ⟨i, hi, rfl⟩ := hb
  have hlt := blockAt_lt (a := a) hd hi
  refine ⟨le_trans (Nat.le_add_right a arenaSize) le_blockAt, ?_⟩
  show blockAt d a i < a + 1 * pgSize
  omega

end addresses

/-! ## The invariant -/

/-- What holds of an arena: its descriptor is one of the allocator's, its `free_cnt` counts
its blocks on the list, and its other blocks are live. The block of a big arena is live. -/
def ArenaOk (h : KernelHeap) (live : Finset ℕ) (a : ℕ) (arena : Arena) : Prop :=
  match arena.desc with
  | some d => d ∈ descs ∧ arena.freeCnt = (h.freeBlocks d a).card ∧
      ∀ b, IsBlock d a b → (b ∈ live ↔ b ∉ h.freeList d)
  | none => a + arenaSize ∈ live

/-- **The arenas have pages of their own, and every block is in one of them.** -/
structure Inv (h : KernelHeap) (live : Finset ℕ) : Prop where
  aligned : ∀ a arena, h.arenas a = some arena → a ≠ 0 ∧ a % pgSize = 0 ∧ 0 < pages arena
  disjoint : ∀ a x b y, h.arenas a = some x → h.arenas b = some y → a ≠ b →
    Disjoint (span a x) (span b y)
  arenas : ∀ a arena, h.arenas a = some arena → h.ArenaOk live a arena
  nodup : ∀ d, (h.freeList d).Nodup
  free : ∀ d, ∀ b ∈ h.freeList d, ∃ a cnt, h.arenas a = some ⟨some d, cnt⟩ ∧ IsBlock d a b
  live : ∀ b ∈ live, ∃ a arena, h.arenas a = some arena ∧ IsBlockOf a arena b

variable {h h' : KernelHeap} {live live' : Finset ℕ} {a b : ℕ} {d : Desc} {cnt : ℕ}
  {arena : Arena}

theorem Inv.mem_span (hinv : h.Inv live) (ha : h.arenas a = some arena)
    (hb : IsBlockOf a arena b) : b ∈ span a arena := by
  obtain ⟨desc, cnt⟩ := arena
  cases desc with
  | some d => exact IsBlock.mem_span (hinv.arenas a _ ha).1 hb cnt
  | none =>
    have hpos : 0 < cnt := (hinv.aligned a _ ha).2.2
    have hb : b = a + arenaSize := hb
    have hpage : pgSize ≤ cnt * pgSize := Nat.le_mul_of_pos_left pgSize hpos
    have hheader : arenaSize < pgSize := by decide
    show a ≤ b ∧ b < a + cnt * pgSize
    omega

theorem ArenaOk.congr (hok : h.ArenaOk live a arena) (hspan : ∀ b ∈ span a arena,
      (b ∈ live' ↔ b ∈ live) ∧ ∀ d, b ∈ h'.freeList d ↔ b ∈ h.freeList d)
    (hblocks : ∀ b, IsBlockOf a arena b → b ∈ span a arena) : h'.ArenaOk live' a arena := by
  obtain ⟨desc, cnt⟩ := arena
  cases desc with
  | some d =>
    obtain ⟨hd, hcnt, hlive⟩ := hok
    refine ⟨hd, ?_, fun b hb => ?_⟩
    · rw [hcnt]
      refine congrArg Finset.card (Finset.filter_congr fun i hi => ?_)
      exact ((hspan _ (hblocks _ ⟨i, Finset.mem_range.mp hi, rfl⟩)).2 d).symm
    · obtain ⟨hsame, hlist⟩ := hspan b (hblocks b hb)
      rw [hsame, hlist d]
      exact hlive b hb
  | none => exact (hspan _ (hblocks _ rfl)).1.mpr hok

/-- **A local change**: one arena changes, comes or goes, and the blocks that change hands
lie in pages that no other arena has. -/
theorem Inv.change (hinv : h.Inv live) {pages : Set ℕ}
    (hown : ∀ b x, h.arenas b = some x → b ≠ a → Disjoint (span b x) pages)
    (hold : ∀ x, h.arenas a = some x → span a x ⊆ pages)
    (harenas : ∀ b ≠ a, h'.arenas b = h.arenas b)
    (hlist : ∀ b ∉ pages, ∀ d, b ∈ h'.freeList d ↔ b ∈ h.freeList d)
    (hlive : ∀ b ∉ pages, (b ∈ live' ↔ b ∈ live)) (hnodup : ∀ d, (h'.freeList d).Nodup)
    (hnew : ∀ x, h'.arenas a = some x → (a ≠ 0 ∧ a % pgSize = 0 ∧ 0 < KernelHeap.pages x) ∧
      span a x ⊆ pages ∧ h'.ArenaOk live' a x) (hfree : ∀ d, ∀ b ∈ h'.freeList d, b ∈ pages →
      ∃ cnt, h'.arenas a = some ⟨some d, cnt⟩ ∧ IsBlock d a b)
    (hblocks : ∀ b ∈ live', b ∈ pages → ∃ x, h'.arenas a = some x ∧ IsBlockOf a x b) :
    h'.Inv live' := by
  have hother : ∀ b x, h.arenas b = some x → b ≠ a → ∀ c ∈ span b x, c ∉ pages :=
    fun b x hx hne c hc hmem => Set.disjoint_left.mp (hown b x hx hne) hc hmem
  -- Outside the pages that change, a block has the arena that it had.
  have hstay : ∀ b x c, h.arenas b = some x → c ∈ span b x → c ∉ pages → b ≠ a := by
    rintro b x c hx hc hnot rfl
    exact hnot (hold x hx hc)
  constructor
  case aligned =>
    intro b x hx
    by_cases hb : b = a
    · subst hb
      exact (hnew x hx).1
    · exact hinv.aligned b x ((harenas b hb).symm.trans hx)
  case disjoint =>
    intro b x c y hx hy hne
    by_cases hb : b = a
    · subst hb
      have hy' := (harenas c hne.symm).symm.trans hy
      exact ((hown c y hy' hne.symm).mono_right (hnew x hx).2.1).symm
    · have hx' := (harenas b hb).symm.trans hx
      by_cases hc : c = a
      · subst hc
        exact (hown b x hx' hb).mono_right (hnew y hy).2.1
      · exact hinv.disjoint b x c y hx' ((harenas c hc).symm.trans hy) hne
  case arenas =>
    intro b x hx
    by_cases hb : b = a
    · subst hb
      exact (hnew x hx).2.2
    · have hx' := (harenas b hb).symm.trans hx
      refine (hinv.arenas b x hx').congr (fun c hc => ?_) fun c hc => hinv.mem_span hx' hc
      have hnot := hother b x hx' hb c hc
      exact ⟨hlive c hnot, hlist c hnot⟩
  case nodup => exact hnodup
  case free =>
    intro d b hb
    by_cases hmem : b ∈ pages
    · obtain ⟨cnt, hcnt, hblock⟩ := hfree d b hb hmem
      exact ⟨a, cnt, hcnt, hblock⟩
    · obtain ⟨c, cnt, hc, hblock⟩ := hinv.free d b ((hlist b hmem d).mp hb)
      have hne := hstay c _ b hc (hinv.mem_span hc hblock) hmem
      exact ⟨c, cnt, (harenas c hne).trans hc, hblock⟩
  case live =>
    intro b hb
    by_cases hmem : b ∈ pages
    · obtain ⟨x, hx, hblock⟩ := hblocks b hb hmem
      exact ⟨a, x, hx, hblock⟩
    · obtain ⟨c, x, hx, hblock⟩ := hinv.live b ((hlive b hmem).mp hb)
      have hne := hstay c x b hx (hinv.mem_span hx hblock) hmem
      exact ⟨c, x, (harenas c hne).trans hx, hblock⟩

theorem Inv.eq_of_mem_span (hinv : h.Inv live) {c : ℕ} {x y : Arena} (hx : h.arenas a = some x)
    (hy : h.arenas c = some y) (hbx : b ∈ span a x) (hby : b ∈ span c y) : a = c := by
  by_contra hne
  exact Set.disjoint_left.mp (hinv.disjoint a x c y hx hy hne) hbx hby

/-- **An arena of a descriptor changes**: it comes, with blocks that are live or on the list,
or its blocks move between the two, or it goes, and leaves no block. -/
theorem Inv.replace (hinv : h.Inv live) (list : List ℕ) (new : Option ℕ) (hd : d ∈ descs)
    (ha : a ≠ 0 ∧ a % pgSize = 0) (hold : ∀ x, h.arenas a = some x → x.desc = some d)
    (hown : ∀ b x, h.arenas b = some x → b ≠ a → Disjoint (span b x) (Set.Ico a (a + pgSize)))
    (hnodup : list.Nodup) (hlist : ∀ b, ¬ IsBlock d a b → (b ∈ list ↔ b ∈ h.freeList d))
    (hlive : ∀ b, ¬ IsBlock d a b → (b ∈ live' ↔ b ∈ live)) (hcnt : ∀ cnt ∈ new, cnt =
      ((Finset.range d.blocksPerArena).filter fun i => blockAt d a i ∈ list).card)
    (hblocks : ∀ cnt ∈ new, ∀ b, IsBlock d a b → (b ∈ live' ↔ b ∉ list))
    (hgone : new = none → ∀ b, IsBlock d a b → b ∉ live' ∧ b ∉ list) :
    ((h.withFreeList d list).withArena a (new.map fun cnt => ⟨some d, cnt⟩)).Inv live' := by
  set h' := (h.withFreeList d list).withArena a (new.map fun cnt => ⟨some d, cnt⟩) with hh'
  have hself : h'.arenas a = new.map fun cnt => ⟨some d, cnt⟩ := Function.update_self ..
  have hlistd : h'.freeList d = list := Function.update_self ..
  have hspan : ∀ x, x.desc = some d → span a x = Set.Ico a (a + pgSize) := by
    rintro ⟨_, cnt⟩ rfl
    show Set.Ico a (a + 1 * pgSize) = _
    rw [one_mul]
  have hinside : ∀ b, IsBlock d a b → b ∈ Set.Ico a (a + pgSize) := fun b hb =>
    hspan ⟨some d, 0⟩ rfl ▸ hb.mem_span hd 0
  -- In the page of the arena, a block of any other kind has nowhere to be.
  have hmine : ∀ c x b, h.arenas c = some x → IsBlockOf c x b → b ∈ Set.Ico a (a + pgSize) →
      IsBlock d a b ∧ x.desc = some d := by
    intro c x b hc hb hmem
    have hca : c = a := by
      by_contra hne
      exact Set.disjoint_left.mp (hown c x hc hne) (hinv.mem_span hc hb) hmem
    subst hca
    have hdesc := hold x hc
    unfold IsBlockOf at hb
    rw [hdesc] at hb
    exact ⟨hb, hdesc⟩
  have hsome : ∀ b, IsBlock d a b → b ∈ live' ∨ b ∈ list →
      ∃ cnt, h'.arenas a = some ⟨some d, cnt⟩ := by
    intro b hb hor
    cases hnew : new with
    | none =>
      obtain ⟨hnotLive, hnotFree⟩ := hgone hnew b hb
      exact (hor.elim hnotLive hnotFree).elim
    | some cnt => exact ⟨cnt, hself.trans (congrArg _ hnew)⟩
  refine hinv.change hown (fun x hx => (hspan x (hold x hx)).le)
    (fun b hb => Function.update_of_ne hb ..) ?_ (fun b hb => hlive b (hb ∘ hinside b)) ?_ ?_ ?_ ?_
  · intro b hb d'
    by_cases hdd : d' = d
    · rw [hdd, hlistd]
      exact hlist b (hb ∘ hinside b)
    · show b ∈ Function.update h.freeList d list d' ↔ _
      rw [Function.update_of_ne hdd]
  · intro d'
    by_cases hdd : d' = d
    · rw [hdd, hlistd]
      exact hnodup
    · show (Function.update h.freeList d list d').Nodup
      rw [Function.update_of_ne hdd]
      exact hinv.nodup d'
  · intro x hx
    rw [hself] at hx
    obtain ⟨cnt, hnew, rfl⟩ := Option.map_eq_some_iff.mp hx
    refine ⟨⟨ha.1, ha.2, Nat.one_pos⟩, (hspan ⟨some d, cnt⟩ rfl).le, hd, ?_, fun b hb => ?_⟩
    · show cnt = ((Finset.range d.blocksPerArena).filter fun i =>
        blockAt d a i ∈ h'.freeList d).card
      rw [hlistd]
      exact hcnt cnt hnew
    · rw [hlistd]
      exact hblocks cnt hnew b hb
  · intro d' b hb hmem
    by_cases hdd : d' = d
    · subst hdd
      rw [hlistd] at hb
      have hblock : IsBlock d' a b := by
        by_contra hnot
        obtain ⟨c, cnt, hc, hblock⟩ := hinv.free d' b ((hlist b hnot).mp hb)
        exact hnot (hmine c _ b hc hblock hmem).1
      obtain ⟨cnt, hcnt⟩ := hsome b hblock (.inr hb)
      exact ⟨cnt, hcnt, hblock⟩
    · change b ∈ Function.update h.freeList d list d' at hb
      rw [Function.update_of_ne hdd] at hb
      obtain ⟨c, cnt, hc, hblock⟩ := hinv.free d' b hb
      exact (hdd (Option.some.inj (hmine c _ b hc hblock hmem).2)).elim
  · intro b hb hmem
    have hblock : IsBlock d a b := by
      by_contra hnot
      obtain ⟨c, x, hc, hblock⟩ := hinv.live b ((hlive b hnot).mp hb)
      exact hnot (hmine c x b hc hblock hmem).1
    obtain ⟨cnt, hcnt⟩ := hsome b hblock (.inl hb)
    exact ⟨_, hcnt, hblock⟩

theorem Inv.own_page (hinv : h.Inv live) (ha : h.arenas a = some ⟨some d, cnt⟩) :
    ∀ b x, h.arenas b = some x → b ≠ a → Disjoint (span b x) (Set.Ico a (a + pgSize)) := by
  intro b x hb hne
  have hspan : span a ⟨some d, cnt⟩ = Set.Ico a (a + pgSize) := by
    show Set.Ico a (a + 1 * pgSize) = _
    rw [one_mul]
  rw [← hspan]
  exact hinv.disjoint b x a _ hb ha hne

theorem Inv.live_iff (hinv : h.Inv live) (ha : h.arenas a = some ⟨some d, cnt⟩)
    (hb : IsBlock d a b) : b ∈ live ↔ b ∉ h.freeList d :=
  (hinv.arenas a _ ha).2.2 b hb

theorem Inv.mem_descs (hinv : h.Inv live) (ha : h.arenas a = some ⟨some d, cnt⟩) : d ∈ descs :=
  (hinv.arenas a _ ha).1

theorem Inv.freeCnt (hinv : h.Inv live) (ha : h.arenas a = some ⟨some d, cnt⟩) :
    cnt = (h.freeBlocks d a).card :=
  (hinv.arenas a _ ha).2.1

theorem Inv.page (hinv : h.Inv live) (ha : h.arenas a = some arena) : a ≠ 0 ∧ a % pgSize = 0 :=
  ⟨(hinv.aligned a arena ha).1, (hinv.aligned a arena ha).2.1⟩

/-- The header of an arena has its own descriptor. -/
theorem desc_eq (ha : h.arenas a = some ⟨some d, cnt⟩) :
    ∀ x, h.arenas a = some x → x.desc = some d := by
  intro x hx
  rw [ha, Option.some.injEq] at hx
  rw [← hx]

/-- **A block is taken** from the front of the list. -/
theorem Inv.take (hinv : h.Inv live) {list : List ℕ} (hlist : h.freeList d = b :: list)
    (ha : h.arenas a = some ⟨some d, cnt⟩) (hb : IsBlock d a b) :
    ((h.withFreeList d list).withArena a (some ⟨some d, cnt - 1⟩)).Inv (insert b live) := by
  have hnodup := hinv.nodup d
  rw [hlist, List.nodup_cons] at hnodup
  have hd := hinv.mem_descs ha
  have hne : ∀ c, ¬ IsBlock d a c → c ≠ b := fun c hc heq => hc (heq ▸ hb)
  refine hinv.replace list (some (cnt - 1)) hd (hinv.page ha) (desc_eq ha) (hinv.own_page ha)
    hnodup.2 ?_ ?_ ?_ ?_ nofun
  · intro c hc
    rw [hlist, List.mem_cons, or_iff_right (hne c hc)]
  · intro c hc
    rw [Finset.mem_insert, or_iff_right (hne c hc)]
  · rintro _ ⟨⟩
    obtain ⟨i, hi, rfl⟩ := hb
    have hmem : i ∈ h.freeBlocks d a := by
      refine Finset.mem_filter.mpr ⟨Finset.mem_range.mpr hi, ?_⟩
      rw [hlist]
      exact List.mem_cons_self
    rw [hinv.freeCnt ha, ← Finset.card_erase_of_mem hmem]
    refine congrArg Finset.card (Finset.ext fun j => ?_)
    rw [Finset.mem_erase, freeBlocks, Finset.mem_filter, Finset.mem_filter, hlist, List.mem_cons,
      and_left_comm]
    refine and_congr_right fun _ => ?_
    constructor
    · rintro ⟨hji, hblock | hmem⟩
      · exact (hji (blockAt_inj hd hblock)).elim
      · exact hmem
    · intro hj
      refine ⟨?_, .inr hj⟩
      rintro rfl
      exact hnodup.1 hj
  · rintro _ ⟨⟩ c hc
    by_cases hcb : c = b
    · rw [hcb]
      exact iff_of_true (Finset.mem_insert_self b live) hnodup.1
    · rw [Finset.mem_insert, or_iff_right hcb, hinv.live_iff ha hc, hlist, List.mem_cons,
        or_iff_right hcb]

/-- **A live block is given back** to the list. -/
theorem Inv.give (hinv : h.Inv live) (ha : h.arenas a = some ⟨some d, cnt⟩) (hb : IsBlock d a b)
    (hlive : b ∈ live) :
    ((h.withFreeList d (b :: h.freeList d)).withArena a (some ⟨some d, cnt + 1⟩)).Inv
      (live.erase b) := by
  have hnot : b ∉ h.freeList d := (hinv.live_iff ha hb).mp hlive
  have hd := hinv.mem_descs ha
  have hne : ∀ c, ¬ IsBlock d a c → c ≠ b := fun c hc heq => hc (heq ▸ hb)
  refine hinv.replace (b :: h.freeList d) (some (cnt + 1)) hd (hinv.page ha) (desc_eq ha)
    (hinv.own_page ha) (List.nodup_cons.mpr ⟨hnot, hinv.nodup d⟩) ?_ ?_ ?_ ?_ nofun
  · intro c hc
    rw [List.mem_cons, or_iff_right (hne c hc)]
  · intro c hc
    rw [Finset.mem_erase, and_iff_right (hne c hc)]
  · rintro _ ⟨⟩
    obtain ⟨i, hi, rfl⟩ := hb
    have hmem : i ∉ h.freeBlocks d a := fun hmem => hnot (Finset.mem_filter.mp hmem).2
    rw [hinv.freeCnt ha, ← Finset.card_insert_of_notMem hmem]
    refine congrArg Finset.card (Finset.ext fun j => ?_)
    rw [Finset.mem_insert, freeBlocks, Finset.mem_filter, Finset.mem_filter, List.mem_cons]
    constructor
    · rintro (rfl | ⟨hj, hmem⟩)
      · exact ⟨Finset.mem_range.mpr hi, .inl rfl⟩
      · exact ⟨hj, .inr hmem⟩
    · rintro ⟨hj, hblock | hmem⟩
      · exact .inl (blockAt_inj hd hblock)
      · exact .inr ⟨hj, hmem⟩
  · rintro _ ⟨⟩ c hc
    by_cases hcb : c = b
    · rw [hcb]
      exact iff_of_false (Finset.notMem_erase b live) (not_not_intro List.mem_cons_self)
    · rw [Finset.mem_erase, and_iff_right hcb, hinv.live_iff ha hc, List.mem_cons,
        or_iff_right hcb]

/-- The blocks of an arena, in order. -/
def blocks (d : Desc) (a : ℕ) : List ℕ := (List.range d.blocksPerArena).map (blockAt d a)

theorem mem_blocks : b ∈ blocks d a ↔ IsBlock d a b := by
  unfold blocks
  rw [List.mem_map]
  exact exists_congr fun i => and_congr List.mem_range eq_comm

/-- A new arena, all of whose blocks go to the end of the list. -/
theorem Inv.refill (hinv : h.Inv live) (hd : d ∈ descs) (ha : a ≠ 0 ∧ a % pgSize = 0)
    (hnone : h.arenas a = none)
    (hown : ∀ b x, h.arenas b = some x → b ≠ a → Disjoint (span b x) (Set.Ico a (a + pgSize))) :
    ((h.withFreeList d (h.freeList d ++ blocks d a)).withArena a
      (some ⟨some d, d.blocksPerArena⟩)).Inv live := by
  -- There was nothing in the page before.
  have hfresh : ∀ b x c, h.arenas b = some x → IsBlockOf b x c → ¬ IsBlock d a c := by
    rintro b x c hb hc ⟨i, hi, rfl⟩
    have hne : b ≠ a := by
      rintro rfl
      rw [hnone] at hb
      cases hb
    refine Set.disjoint_left.mp (hown b x hb hne) (hinv.mem_span hb hc) ?_
    exact ⟨le_trans (Nat.le_add_right a arenaSize) le_blockAt, blockAt_lt hd hi⟩
  have hnotFree : ∀ b, IsBlock d a b → b ∉ h.freeList d := by
    intro b hb hlist
    obtain ⟨c, cnt, hc, hblock⟩ := hinv.free d b hlist
    exact hfresh c _ b hc hblock hb
  have hnotLive : ∀ b, IsBlock d a b → b ∉ live := by
    intro b hb hlive
    obtain ⟨c, x, hc, hblock⟩ := hinv.live b hlive
    exact hfresh c x b hc hblock hb
  refine hinv.replace _ (some d.blocksPerArena) hd ha (fun x hx => ?_) hown ?_ ?_
    (fun _ _ => Iff.rfl) ?_ ?_ nofun
  · rw [hnone] at hx
    cases hx
  · refine (hinv.nodup d).append ?_ fun b hb hblock => hnotFree b (mem_blocks.mp hblock) hb
    exact List.nodup_range.map fun i j hij => blockAt_inj hd hij
  · intro b hb
    rw [List.mem_append, mem_blocks, or_iff_left hb]
  · rintro _ ⟨⟩
    rw [Finset.filter_true_of_mem, Finset.card_range]
    intro i hi
    exact List.mem_append_right _ (mem_blocks.mpr ⟨i, Finset.mem_range.mp hi, rfl⟩)
  · rintro _ ⟨⟩ b hb
    exact iff_of_false (hnotLive b hb) (not_not_intro (List.mem_append_right _ (mem_blocks.mpr hb)))

/-- **An arena with no live block goes**, and its blocks leave the list. -/
theorem Inv.release (hinv : h.Inv live) (ha : h.arenas a = some ⟨some d, cnt⟩)
    (hall : ∀ b, IsBlock d a b → b ∈ h.freeList d) :
    ((h.withFreeList d ((h.freeList d).diff (blocks d a))).withArena a none).Inv live := by
  refine hinv.replace _ none (hinv.mem_descs ha) (hinv.page ha) (desc_eq ha) (hinv.own_page ha)
    (hinv.nodup d).diff ?_ (fun _ _ => Iff.rfl) nofun nofun ?_
  · intro b hb
    rw [(hinv.nodup d).mem_sdiff_iff, mem_blocks, and_iff_left hb]
  · intro _ b hb
    refine ⟨fun hlive => (hinv.live_iff ha hb).mp hlive (hall b hb), ?_⟩
    rw [(hinv.nodup d).mem_sdiff_iff, mem_blocks]
    exact fun hdiff => hdiff.2 hb

/-- A big block comes, with pages of its own. -/
theorem Inv.addBig (hinv : h.Inv live) (ha : a ≠ 0 ∧ a % pgSize = 0) (hcnt : 0 < cnt)
    (hown : ∀ b x, h.arenas b = some x →
      Disjoint (span b x) (Set.Ico a (a + cnt * pgSize))) (hnone : h.arenas a = none) :
    (h.withArena a (some ⟨none, cnt⟩)).Inv (insert (a + arenaSize) live) := by
  have hself : (h.withArena a (some ⟨none, cnt⟩)).arenas a = some ⟨none, cnt⟩ :=
    Function.update_self ..
  have hpage : pgSize ≤ cnt * pgSize := Nat.le_mul_of_pos_left pgSize hcnt
  have hheader : arenaSize < pgSize := by decide
  have hmem : a + arenaSize ∈ Set.Ico a (a + cnt * pgSize) :=
    ⟨Nat.le_add_right a arenaSize, Nat.add_lt_add_left (hheader.trans_le hpage) a⟩
  refine hinv.change (fun b x hb _ => hown b x hb) (fun x hx => ?_)
    (fun b hb => Function.update_of_ne hb ..) (fun b _ d => Iff.rfl) ?_ hinv.nodup ?_ ?_ ?_
  · rw [hnone] at hx
    cases hx
  · intro b hb
    rw [Finset.mem_insert, or_iff_right (ne_of_mem_of_not_mem hmem hb).symm]
  · intro x hx
    rw [hself, Option.some.injEq] at hx
    subst hx
    exact ⟨⟨ha.1, ha.2, hcnt⟩, le_rfl, Finset.mem_insert_self _ _⟩
  · intro d b hb hmem
    obtain ⟨c, cnt', hc, hblock⟩ := hinv.free d b hb
    exact (Set.disjoint_left.mp (hown c _ hc) (hinv.mem_span hc hblock) hmem).elim
  · intro b hb hmem
    refine ⟨_, hself, ?_⟩
    obtain rfl | hb := Finset.mem_insert.mp hb
    · rfl
    · obtain ⟨c, x, hc, hblock⟩ := hinv.live b hb
      exact (Set.disjoint_left.mp (hown c x hc) (hinv.mem_span hc hblock) hmem).elim

/-- A big block goes, with its pages. -/
theorem Inv.removeBig (hinv : h.Inv live) (ha : h.arenas a = some ⟨none, cnt⟩) :
    (h.withArena a none).Inv (live.erase (a + arenaSize)) := by
  have hself : (h.withArena a none).arenas a = none := Function.update_self ..
  have hmem : a + arenaSize ∈ span a ⟨none, cnt⟩ := hinv.mem_span ha rfl
  refine hinv.change (fun b x hb hne => hinv.disjoint b x a _ hb ha hne) (fun x hx => ?_)
    (fun b hb => Function.update_of_ne hb ..) (fun b _ d => Iff.rfl) ?_ hinv.nodup ?_ ?_ ?_
  · rw [ha, Option.some.injEq] at hx
    rw [hx]
  · intro b hb
    rw [Finset.mem_erase, and_iff_right (ne_of_mem_of_not_mem hmem hb).symm]
  · intro x hx
    rw [hself] at hx
    cases hx
  · intro d b hb hin
    obtain ⟨c, cnt', hc, hblock⟩ := hinv.free d b hb
    obtain rfl := hinv.eq_of_mem_span ha hc hin (hinv.mem_span hc hblock)
    rw [ha] at hc
    cases hc
  · intro b hb hin
    obtain ⟨hne, hb⟩ := Finset.mem_erase.mp hb
    obtain ⟨c, x, hc, hblock⟩ := hinv.live b hb
    obtain rfl := hinv.eq_of_mem_span ha hc hin (hinv.mem_span hc hblock)
    rw [ha, Option.some.injEq] at hc
    subst hc
    exact (hne hblock).elim

end KernelHeap

end Pintos
