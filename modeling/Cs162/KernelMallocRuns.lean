import Cs162.KernelArenas
import Cs162.Run

/-!
# Runs of the kernel's allocator

A run is a sequence of calls of `malloc` and `free`, where only live blocks are freed and
the page allocator hands out pages that no arena has, or fails. No call fails an assertion,
and the invariant of `KernelArenas` holds after each; besides, an arena of a descriptor
always has a live block, for `free` returns it with its last one.
-/

namespace Pintos

namespace KernelHeap

variable {h h' : KernelHeap} {live : Finset ℕ} {a b : ℕ} {d : Desc} {cnt : ℕ} {arena : Arena}

/-! ## The code -/

/-- A command that ends, in a state with a property. -/
abbrev Does {α : Type} (h : KernelHeap) (c : KernelHeapM α) (Q : α → KernelHeap → Prop) : Prop :=
  Command.Ensures (fun _ => False) h c Q

theorem arenaAt_apply (ha : a ≠ 0) (harena : h.arenas a = some arena) :
    arenaAt a h = .ok (arena, h) := by
  unfold arenaAt
  rw [if_neg ha, Command.get_bind_apply]
  simp only [harena]
  rfl

theorem arenaToBlock_apply (ha : a ≠ 0) (harena : h.arenas a = some ⟨some d, cnt⟩) {i : ℕ}
    (hi : i < d.blocksPerArena) : arenaToBlock a i h = .ok (blockAt d a i, h) := by
  unfold arenaToBlock
  rw [Command.bind_apply (arenaAt_apply ha harena)]
  exact congrFun (if_pos hi) h

/-- **The assertions of `block_to_arena` hold** of a block. -/
theorem blockToArena_apply (ha : a ≠ 0 ∧ a % pgSize = 0) (harena : h.arenas a = some arena)
    (hdesc : ∀ d, arena.desc = some d → d ∈ descs) (hb : IsBlockOf a arena b) :
    blockToArena b h = .ok ((a, arena), h) := by
  obtain ⟨desc, cnt⟩ := arena
  cases desc with
  | some d =>
    obtain ⟨i, hi, rfl⟩ := hb
    have hd := hdesc d rfl
    obtain ⟨hdown, hofs⟩ := pgRoundDown_blockAt ha.2 hd hi
    have hlt : i * d.blockSize < addresses := by
      have hlt := blockAt_lt (a := 0) hd hi
      unfold blockAt at hlt
      have hpage : pgSize < addresses := by decide
      omega
    have haligned : (pgOfs (blockAt d a i) + addresses - arenaSize) % addresses % d.blockSize =
        0 := by
      rw [hofs, Nat.add_assoc, Nat.add_sub_cancel_left, Nat.add_mod_right, Nat.mod_eq_of_lt hlt,
        Nat.mul_mod_left]
    unfold blockToArena
    rw [hdown, Command.bind_apply (arenaAt_apply ha.1 harena)]
    exact congrFun (if_pos haligned) h
  | none =>
    have hb : b = a + arenaSize := hb
    have hheader : arenaSize < pgSize := by decide
    obtain ⟨hdown, hofs⟩ := pgRoundDown_of_aligned (b := b) ha.2 (hb ▸ Nat.le_add_right a arenaSize)
      (hb ▸ Nat.add_lt_add_left hheader a)
    rw [hb, Nat.add_sub_cancel_left] at hofs
    unfold blockToArena
    rw [hdown, Command.bind_apply (arenaAt_apply ha.1 harena)]
    exact congrFun (if_pos (hb ▸ hofs)) h

theorem withFreeList_withFreeList (h : KernelHeap) (d : Desc) (list list' : List ℕ) :
    (h.withFreeList d list).withFreeList d list' = h.withFreeList d list' := by
  unfold withFreeList
  rw [Function.update_idem]

theorem freeList_withFreeList (h : KernelHeap) (d : Desc) (list : List ℕ) :
    (h.withFreeList d list).freeList d = list := Function.update_self ..

theorem pushBlocks_apply (ha : a ≠ 0) (is : List ℕ) : ∀ {h : KernelHeap},
    h.arenas a = some ⟨some d, cnt⟩ → (∀ i ∈ is, i < d.blocksPerArena) → pushBlocks d a is h =
      .ok ((), h.withFreeList d (h.freeList d ++ is.map (blockAt d a))) := by
  induction is with
  | nil =>
    intro h _ _
    rw [List.map_nil, List.append_nil, withFreeList, Function.update_eq_self]
    rfl
  | cons i is ih =>
    intro h harena his
    have hblock := arenaToBlock_apply ha harena (his i List.mem_cons_self)
    unfold pushBlocks
    rw [Command.bind_apply hblock]
    refine (ih (h := h.withFreeList d (h.freeList d ++ [blockAt d a i])) harena
      fun j hj => his j (List.mem_cons_of_mem _ hj)).trans ?_
    rw [withFreeList_withFreeList, freeList_withFreeList, List.append_assoc]
    rfl

/-- The loop that takes the blocks of an arena off the list, each of which is on it. -/
theorem removeBlocks_apply (ha : a ≠ 0) (hd : d ∈ descs) (is : List ℕ) : ∀ {h : KernelHeap},
    h.arenas a = some ⟨some d, cnt⟩ → is.Nodup →
    (∀ i ∈ is, i < d.blocksPerArena ∧ blockAt d a i ∈ h.freeList d) → removeBlocks d a is h =
      .ok ((), h.withFreeList d ((h.freeList d).diff (is.map (blockAt d a)))) := by
  induction is with
  | nil =>
    intro h _ _ _
    rw [List.map_nil, List.diff_nil, withFreeList, Function.update_eq_self]
    rfl
  | cons i is ih =>
    intro h harena hnodup his
    obtain ⟨hnot, hnodup⟩ := List.nodup_cons.mp hnodup
    obtain ⟨hi, hmem⟩ := his i List.mem_cons_self
    unfold removeBlocks
    rw [Command.bind_apply (arenaToBlock_apply ha harena hi), Command.get_bind_apply, if_pos hmem]
    refine (ih (h := h.withFreeList d ((h.freeList d).erase (blockAt d a i))) harena hnodup
      fun j hj => ?_).trans ?_
    · obtain ⟨hjlt, hjmem⟩ := his j (List.mem_cons_of_mem _ hj)
      refine ⟨hjlt, ?_⟩
      rw [freeList_withFreeList]
      refine (List.mem_erase_of_ne ?_).mpr hjmem
      intro heq
      exact hnot (blockAt_inj hd heq ▸ hj)
    · rw [withFreeList_withFreeList, freeList_withFreeList, List.map_cons, List.diff_cons]

/-! ## One call -/

/-- An arena of a descriptor has a block that is not on the list. -/
def Used (h : KernelHeap) : Prop :=
  ∀ a d cnt, h.arenas a = some ⟨some d, cnt⟩ → cnt < d.blocksPerArena

/-- The arenas of descriptors are still there, or are gone. -/
def Steady (h h' : KernelHeap) : Prop :=
  ∀ a d cnt, h.arenas a = some ⟨some d, cnt⟩ →
    h'.arenas a = none ∨ ∃ cnt', h'.arenas a = some ⟨some d, cnt'⟩

/-- What the page allocator may return for a number of pages: nothing, or pages that no
arena has. -/
def Fresh (h : KernelHeap) (cnt : ℕ) (page : Option ℕ) : Prop :=
  ∀ a ∈ page, 0 < cnt ∧ (a ≠ 0 ∧ a % pgSize = 0) ∧
    ∀ b x, h.arenas b = some x → Disjoint (span b x) (Set.Ico a (a + cnt * pgSize))

theorem Steady.refl (h : KernelHeap) : h.Steady h := fun _ _ cnt ha => .inr ⟨cnt, ha⟩

theorem Steady.withFreeList (hsteady : h.Steady h') (d : Desc) (list : List ℕ) :
    h.Steady (h'.withFreeList d list) := hsteady

/-- A header changes at an address where there was none, or there was one of the same
descriptor. -/
theorem Steady.withArena (hsteady : h.Steady h') {new : Option Arena}
    (hold : ∀ d' cnt', h.arenas a = some ⟨some d', cnt'⟩ →
      new = none ∨ ∃ cnt'', new = some ⟨some d', cnt''⟩) : h.Steady (h'.withArena a new) := by
  intro c d' cnt' hc
  show Function.update h'.arenas a new c = none ∨
    ∃ cnt'', Function.update h'.arenas a new c = some ⟨some d', cnt''⟩
  by_cases hca : c = a
  · subst hca
    rw [Function.update_self]
    exact hold d' cnt' hc
  · rw [Function.update_of_ne hca]
    exact hsteady c d' cnt' hc

theorem Used.withArena (hused : h.Used) {new : Option Arena}
    (hnew : ∀ d cnt, new = some ⟨some d, cnt⟩ → cnt < d.blocksPerArena) :
    (h.withArena a new).Used := by
  intro c d' cnt' hc
  change Function.update h.arenas a new c = _ at hc
  by_cases hca : c = a
  · rw [hca, Function.update_self] at hc
    exact hnew d' cnt' hc
  · rw [Function.update_of_ne hca] at hc
    exact hused c d' cnt' hc

theorem Inv.none_of_fresh (hinv : h.Inv live) {page : Option ℕ} (hfresh : h.Fresh cnt page)
    (ha : a ∈ page) : h.arenas a = none := by
  obtain ⟨hpos, -, hdisjoint⟩ := hfresh a ha
  rw [Option.eq_none_iff_forall_ne_some]
  intro x hx
  have hpages := (hinv.aligned a x hx).2.2
  have hpage : 0 < pgSize := by decide
  have hold : a ∈ span a x := ⟨le_rfl, Nat.lt_add_of_pos_right (Nat.mul_pos hpages hpage)⟩
  have hnew : a ∈ Set.Ico a (a + cnt * pgSize) :=
    ⟨le_rfl, Nat.lt_add_of_pos_right (Nat.mul_pos hpos hpage)⟩
  exact Set.disjoint_left.mp (hdisjoint a x hx) hold hnew

/-- A free block is found, or a new arena is made, or there is no page. -/
theorem refill_spec (hinv : h.Inv live) (hused : h.Used) (hd : d ∈ descs) {page : Option ℕ}
    (hfresh : h.Fresh 1 page) : h.Does (refill d page) fun ready h' => h'.Inv live ∧ h.Steady h' ∧
      match ready with
      | false => h'.Used ∧ page = none
      | true => h'.freeList d ≠ [] ∧ ∀ a d' cnt, h'.arenas a = some ⟨some d', cnt⟩ →
          cnt < d'.blocksPerArena ∨ ∀ b ∈ h'.freeList d, IsBlock d a b := by
  refine Command.Ensures.get_bind ?_
  cases hlist : h.freeList d with
  | cons b list =>
    refine Command.Ensures.pure
      ⟨hinv, Steady.refl h, ?_, fun a d' cnt ha => .inl (hused a d' cnt ha)⟩
    rw [hlist]
    exact List.cons_ne_nil b list
  | nil =>
    cases page with
    | none => exact Command.Ensures.pure ⟨hinv, Steady.refl h, hused, rfl⟩
    | some a =>
      obtain ⟨-, ha, hdisjoint⟩ := hfresh a rfl
      rw [one_mul] at hdisjoint
      have hnone := hinv.none_of_fresh hfresh rfl
      have hself : (h.withArena a (some ⟨some d, d.blocksPerArena⟩)).arenas a =
          some ⟨some d, d.blocksPerArena⟩ := Function.update_self ..
      refine Command.Ensures.modify_bind (Command.Ensures.bind_ok
        (pushBlocks_apply ha.1 _ hself fun i hi => List.mem_range.mp hi)
        (Command.Ensures.pure ⟨?_, ?_, ?_, ?_⟩))
      · exact hinv.refill hd ha hnone fun b x hb _ => hdisjoint b x hb
      · refine ((Steady.refl h).withArena fun d' cnt' harena => ?_).withFreeList d _
        rw [hnone] at harena
        cases harena
      · rw [freeList_withFreeList]
        refine List.append_ne_nil_of_right_ne_nil _ (List.ne_nil_of_mem (a := blockAt d a 0) ?_)
        exact mem_blocks.mpr ⟨0, (descs_fit d hd).2.1, rfl⟩
      · intro c d' cnt' hc
        by_cases hca : c = a
        · subst hca
          refine .inr fun b hb => mem_blocks.mp ?_
          rw [freeList_withFreeList] at hb
          change b ∈ h.freeList d ++ blocks d c at hb
          rw [hlist] at hb
          exact hb
        · refine .inl (hused c d' cnt' ?_)
          change Function.update h.arenas a _ c = _ at hc
          rw [Function.update_of_ne hca] at hc
          exact hc

/-- The number of pages a request may ask the page allocator for. -/
def pagesFor (size : ℕ) : ℕ :=
  match descFor size with
  | some _ => 1
  | none => pageCnt size

/-- The block is one of a descriptor that a request may be served from, or has the pages that
are computed for it. -/
def Serves (h : KernelHeap) (size b : ℕ) : Prop :=
  match descFor size with
  | some d => ∃ a cnt, h.arenas a = some ⟨some d, cnt⟩ ∧ IsBlock d a b
  | none => ∃ a, h.arenas a = some ⟨none, pageCnt size⟩ ∧ b = a + arenaSize

/-- **`malloc` returns a block that was not live**, or none. -/
theorem malloc_spec (hinv : h.Inv live) (hused : h.Used) {size : ℕ} {page : Option ℕ}
    (hfresh : h.Fresh (pagesFor size) page) :
    h.Does (malloc size page) fun r h' => h'.Inv (live ∪ r.toFinset) ∧ h'.Used ∧ h.Steady h' ∧
      (∀ b ∈ r, b ∉ live ∧ h'.Serves size b) ∧ (r = none → size = 0 ∨ page = none) := by
  have hfail : ∀ h' : KernelHeap, h'.Inv live → h'.Used → h.Steady h' → size = 0 ∨ page = none →
      h'.Inv (live ∪ (none : Option ℕ).toFinset) ∧ h'.Used ∧ h.Steady h' ∧
        (∀ b ∈ (none : Option ℕ), b ∉ live ∧ h'.Serves size b) ∧
        ((none : Option ℕ) = none → size = 0 ∨ page = none) := by
    intro h' hinv' hused' hsteady hwhy
    rw [Option.toFinset_none, Finset.union_empty]
    exact ⟨hinv', hused', hsteady, nofun, fun _ => hwhy⟩
  unfold malloc
  refine Command.Ensures.ite (fun hzero => Command.Ensures.pure
    (hfail h hinv hused (Steady.refl h) (.inl hzero))) ?_
  intro _
  unfold pagesFor at hfresh
  cases hdesc : descFor size with
  | none =>
    rw [hdesc] at hfresh
    cases page with
    | none => exact Command.Ensures.pure (hfail h hinv hused (Steady.refl h) (.inr rfl))
    | some a =>
      obtain ⟨hpos, ha, hdisjoint⟩ := hfresh a rfl
      have hnone := hinv.none_of_fresh hfresh rfl
      refine Command.Ensures.modify_bind (Command.Ensures.pure ⟨?_, ?_, ?_, ?_, nofun⟩)
      · rw [Option.toFinset_some, Finset.union_singleton]
        exact hinv.addBig ha hpos hdisjoint hnone
      · exact hused.withArena nofun
      · refine (Steady.refl h).withArena fun d' cnt' harena => ?_
        rw [hnone] at harena
        cases harena
      · rintro _ ⟨⟩
        constructor
        · intro hlive
          obtain ⟨c, x, hc, hblock⟩ := hinv.live _ hlive
          have hpage : pgSize ≤ pageCnt size * pgSize := Nat.le_mul_of_pos_left pgSize hpos
          have hheader : arenaSize < pgSize := by decide
          refine Set.disjoint_left.mp (hdisjoint c x hc) (hinv.mem_span hc hblock) ?_
          exact ⟨Nat.le_add_right a arenaSize, Nat.add_lt_add_left (hheader.trans_le hpage) a⟩
        · unfold Serves
          rw [hdesc]
          exact ⟨a, Function.update_self .., rfl⟩
  | some d =>
    rw [hdesc] at hfresh
    have hd := mem_descs_of_descFor hdesc
    refine Command.Ensures.bind (refill_spec hinv hused hd hfresh) ?_
    rintro (_ | _) h₁ ⟨hinv₁, hsteady₁, hready⟩
    · exact Command.Ensures.pure (hfail h₁ hinv₁ hready.1 hsteady₁ (.inr hready.2))
    · obtain ⟨hne, hcounts⟩ := hready
      refine Command.Ensures.ite (fun _ => ?_) fun hf => absurd rfl hf
      obtain ⟨b, list, hlist⟩ := List.exists_cons_of_ne_nil hne
      have hmem : b ∈ h₁.freeList d := hlist ▸ List.mem_cons_self
      obtain ⟨a, cnt, ha, hblock⟩ := hinv₁.free d b hmem
      have hpop : popFront d h₁ = .ok (b, h₁.withFreeList d list) := by
        unfold popFront
        rw [Command.get_bind_apply, hlist]
        rfl
      refine Command.Ensures.bind_ok hpop (Command.Ensures.bind_ok
        (blockToArena_apply (hinv₁.page ha) ha ?_ hblock)
        (Command.Ensures.modify_bind (Command.Ensures.pure ⟨?_, ?_, ?_, ?_, nofun⟩)))
      · rintro _ ⟨⟩
        exact hd
      · rw [Option.toFinset_some, Finset.union_singleton]
        exact hinv₁.take hlist ha hblock
      · intro c d' cnt' hc
        change Function.update h₁.arenas a _ c = _ at hc
        by_cases hca : c = a
        · rw [hca, Function.update_self] at hc
          cases hc
          have hle : cnt ≤ d.blocksPerArena := by
            rw [hinv₁.freeCnt ha]
            exact (Finset.card_filter_le _ _).trans (Finset.card_range _).le
          have hpos := (descs_fit d hd).2.1
          show cnt - 1 < d.blocksPerArena
          omega
        · rw [Function.update_of_ne hca] at hc
          obtain hlt | hall := hcounts c d' cnt' hc
          · exact hlt
          · exact (hca (hinv₁.eq_of_mem_span hc ha ((hall b hmem).mem_span hd cnt')
              (hblock.mem_span hd cnt))).elim
      · refine (hsteady₁.withFreeList d list).withArena fun d' cnt' hold => .inr ?_
        obtain hgone | ⟨cnt'', hc⟩ := hsteady₁ a d' cnt' hold
        · rw [hgone] at ha
          cases ha
        · rw [hc] at ha
          cases ha
          exact ⟨_, rfl⟩
      · rintro _ ⟨⟩
        refine ⟨fun hlive => (hinv₁.live_iff ha hblock).mp hlive hmem, ?_⟩
        unfold Serves
        rw [hdesc]
        exact ⟨a, _, Function.update_self .., hblock⟩

/-- An arena whose count is full has all its blocks on the list. -/
theorem Inv.all_free (hinv : h.Inv live) (ha : h.arenas a = some ⟨some d, d.blocksPerArena⟩)
    (hb : IsBlock d a b) : b ∈ h.freeList d := by
  have hcard : (h.freeBlocks d a).card = (Finset.range d.blocksPerArena).card := by
    rw [← hinv.freeCnt ha, Finset.card_range]
  have hall : h.freeBlocks d a = Finset.range d.blocksPerArena :=
    Finset.eq_of_subset_of_card_le (Finset.filter_subset _ _) hcard.ge
  obtain ⟨i, hi, rfl⟩ := hb
  have hmem : i ∈ h.freeBlocks d a := hall ▸ Finset.mem_range.mpr hi
  exact (Finset.mem_filter.mp hmem).2

/-- **`free` takes a live block**, and an arena with its last one. -/
theorem free_spec (hinv : h.Inv live) (hused : h.Used) (hlive : b ∈ live) :
    h.Does (free (some b)) fun _ h' => h'.Inv (live.erase b) ∧ h'.Used ∧ h.Steady h' ∧
      ∀ c x, h.arenas c = some x → ¬ IsBlockOf c x b → h'.arenas c = some x := by
  obtain ⟨a, ⟨desc, cnt⟩, ha, hblock⟩ := hinv.live b hlive
  -- the call writes to one header only
  have hother (x : Option Arena) (c : ℕ) (y : Arena) (hc : h.arenas c = some y)
      (hnot : ¬ IsBlockOf c y b) : Function.update h.arenas a x c = some y := by
    have hca : c ≠ a := by
      rintro rfl
      rw [ha, Option.some.injEq] at hc
      exact hnot (hc ▸ hblock)
    rw [Function.update_of_ne hca, hc]
  refine Command.Ensures.bind_ok (blockToArena_apply (hinv.page ha) ha ?_ hblock) ?_
  · rintro d ⟨⟩
    exact hinv.mem_descs ha
  cases desc with
  | none =>
    obtain rfl : b = a + arenaSize := hblock
    refine Command.Ensures.modify ⟨hinv.removeBig ha, hused.withArena nofun, ?_, hother none⟩
    exact (Steady.refl h).withArena fun _ _ _ => .inl rfl
  | some d =>
    have hinv₁ := hinv.give ha hblock hlive
    have hlt : cnt < d.blocksPerArena := hused a d cnt ha
    set h₁ := (h.withFreeList d (b :: h.freeList d)).withArena a (some ⟨some d, cnt + 1⟩)
    have hself : h₁.arenas a = some ⟨some d, cnt + 1⟩ := Function.update_self ..
    have hold : ∀ d' cnt', h.arenas a = some ⟨some d', cnt'⟩ → d' = d := by
      intro d' cnt' hc
      rw [ha] at hc
      cases hc
      rfl
    have hsteady₁ : h.Steady h₁ := by
      refine ((Steady.refl h).withFreeList d _).withArena fun d' cnt' hc => .inr ?_
      exact ⟨cnt + 1, by rw [hold d' cnt' hc]⟩
    refine Command.Ensures.modify_bind (Command.Ensures.modify_bind (Command.Ensures.ite ?_ ?_))
    · intro hfull
      have hcnt : cnt + 1 = d.blocksPerArena := le_antisymm hlt hfull
      unfold releaseArena
      refine Command.Ensures.ite (fun _ => ?_) fun hne => absurd hcnt hne
      have hall : ∀ c, IsBlock d a c → c ∈ h₁.freeList d := fun c hc =>
        hinv₁.all_free (hcnt ▸ hself) hc
      refine Command.Ensures.bind_ok (removeBlocks_apply (hinv.page ha).1 (hinv.mem_descs ha) _
        hself List.nodup_range fun i hi => ?_) (Command.Ensures.modify ⟨?_, ?_, ?_, ?_⟩)
      · exact ⟨List.mem_range.mp hi, hall _ ⟨i, List.mem_range.mp hi, rfl⟩⟩
      · exact hinv₁.release hself hall
      · intro c d' cnt' hc
        change Function.update h₁.arenas a none c = _ at hc
        by_cases hca : c = a
        · rw [hca, Function.update_self] at hc
          cases hc
        · rw [Function.update_of_ne hca] at hc
          change Function.update h.arenas a _ c = _ at hc
          rw [Function.update_of_ne hca] at hc
          exact hused c d' cnt' hc
      · exact (hsteady₁.withFreeList d _).withArena fun _ _ _ => .inl rfl
      · intro c y hc hnot
        show Function.update (Function.update h.arenas a _) a none c = _
        rw [Function.update_idem]
        exact hother none c y hc hnot
    · intro hroom
      refine Command.Ensures.pure ⟨hinv₁, ?_, hsteady₁, hother _⟩
      refine Used.withArena (h := h.withFreeList d (b :: h.freeList d)) hused fun d' cnt' hc => ?_
      cases hc
      exact Nat.lt_of_not_le hroom

/-! ## Where live blocks lie -/

/-- **The memory of a live block**: as many bytes as the blocks of its descriptor have, or
the pages of a big block. -/
def extent (h : KernelHeap) (b : ℕ) : Set ℕ :=
  match h.arenas (pgRoundDown b) with
  | some ⟨some d, _⟩ => Set.Ico b (b + d.blockSize)
  | some ⟨none, cnt⟩ => span (pgRoundDown b) ⟨none, cnt⟩
  | none => ∅

theorem Inv.pgRoundDown (hinv : h.Inv live) (ha : h.arenas a = some arena)
    (hb : IsBlockOf a arena b) : pgRoundDown b = a := by
  obtain ⟨desc, cnt⟩ := arena
  cases desc with
  | some d =>
    obtain ⟨i, hi, rfl⟩ := hb
    exact (pgRoundDown_blockAt (hinv.page ha).2 (hinv.mem_descs ha) hi).1
  | none =>
    obtain rfl : b = a + arenaSize := hb
    have hheader : arenaSize < pgSize := by decide
    exact (pgRoundDown_of_aligned (hinv.page ha).2 (Nat.le_add_right a arenaSize)
      (Nat.add_lt_add_left hheader a)).1

theorem Inv.extent_of_small (hinv : h.Inv live) (ha : h.arenas a = some ⟨some d, cnt⟩)
    (hb : IsBlock d a b) : h.extent b = Set.Ico b (b + d.blockSize) := by
  unfold extent
  rw [hinv.pgRoundDown ha hb, ha]

theorem Inv.extent_of_big (hinv : h.Inv live) (ha : h.arenas a = some ⟨none, cnt⟩) :
    h.extent (a + arenaSize) = span a ⟨none, cnt⟩ := by
  unfold extent
  rw [hinv.pgRoundDown ha rfl, ha]

theorem Inv.extent_subset (hinv : h.Inv live) (ha : h.arenas a = some arena)
    (hb : IsBlockOf a arena b) : h.extent b ⊆ span a arena := by
  obtain ⟨desc, cnt⟩ := arena
  cases desc with
  | some d =>
    rw [hinv.extent_of_small ha hb]
    obtain ⟨i, hi, rfl⟩ := hb
    have hle := blockAt_add_le (a := a) (hinv.mem_descs ha) hi
    refine Set.Ico_subset_Ico (le_trans (Nat.le_add_right a arenaSize) le_blockAt) ?_
    show _ ≤ a + 1 * pgSize
    rw [one_mul]
    exact hle
  | none =>
    obtain rfl : b = a + arenaSize := hb
    exact (hinv.extent_of_big ha).le

/-- **Live blocks do not overlap.** -/
theorem Inv.extent_disjoint (hinv : h.Inv live) (hb : b ∈ live) {b' : ℕ} (hb' : b' ∈ live)
    (hne : b ≠ b') : Disjoint (h.extent b) (h.extent b') := by
  obtain ⟨a, x, ha, hblock⟩ := hinv.live b hb
  obtain ⟨a', x', ha', hblock'⟩ := hinv.live b' hb'
  by_cases haa : a = a'
  · subst haa
    rw [ha, Option.some.injEq] at ha'
    subst ha'
    obtain ⟨desc, cnt⟩ := x
    cases desc with
    | none => exact (hne (Eq.trans hblock hblock'.symm)).elim
    | some d =>
      rw [hinv.extent_of_small ha hblock, hinv.extent_of_small ha hblock']
      obtain ⟨i, -, rfl⟩ := hblock
      obtain ⟨j, -, rfl⟩ := hblock'
      rw [Set.Ico_disjoint_Ico]
      -- The blocks of an arena follow each other.
      have hstep : ∀ {i j : ℕ}, i < j → blockAt d a i + d.blockSize ≤ blockAt d a j := by
        intro i j hij
        have hle : (i + 1) * d.blockSize ≤ j * d.blockSize := Nat.mul_le_mul_right _ hij
        rw [Nat.succ_mul] at hle
        unfold blockAt
        omega
      obtain hij | hij := lt_or_gt_of_ne fun hij : i = j => hne (hij ▸ rfl)
      · exact (min_le_left _ _).trans ((hstep hij).trans (le_max_right _ _))
      · exact (min_le_right _ _).trans ((hstep hij).trans (le_max_left _ _))
  · exact (hinv.disjoint a x a' x' ha ha' haa).mono (hinv.extent_subset ha hblock)
      (hinv.extent_subset ha' hblock')

/-- **Live blocks do not overlap the header** of an arena of a descriptor. -/
theorem Inv.extent_disjoint_header (hinv : h.Inv live) (hb : b ∈ live)
    (ha : h.arenas a = some ⟨some d, cnt⟩) : Disjoint (h.extent b) (Set.Ico a (a + arenaSize)) := by
  obtain ⟨a', x, ha', hblock⟩ := hinv.live b hb
  by_cases haa : a' = a
  · subst haa
    rw [ha', Option.some.injEq] at ha
    subst ha
    rw [hinv.extent_of_small ha' hblock]
    obtain ⟨i, -, rfl⟩ := hblock
    rw [Set.Ico_disjoint_Ico]
    exact (min_le_right _ _).trans (le_blockAt.trans (le_max_left _ _))
  · have hheader : Set.Ico a (a + arenaSize) ⊆ Set.Ico a (a + pgSize) :=
      Set.Ico_subset_Ico_right (Nat.add_le_add_left (by decide) a)
    exact ((hinv.own_page ha a' x ha' haa).mono_left (hinv.extent_subset ha' hblock)).mono_right
      hheader

end KernelHeap

/-! ## Runs -/

/-- The heap, and the blocks that were returned and not freed. -/
structure MallocState where
  heap : KernelHeap
  live : Finset ℕ

/-- **A call**, with what the page allocator returns in it. -/
inductive MallocEvent
  | malloc (size : ℕ) (page : Option ℕ)
  | free (block : Option ℕ)

namespace MallocEvent

/-- The page allocator returns pages that no arena has, and live blocks are freed. -/
def Valid (s : MallocState) : MallocEvent → Prop
  | malloc size page => s.heap.Fresh (KernelHeap.pagesFor size) page
  | free block => ∀ b ∈ block, b ∈ s.live

/-- The code of a call, and the live blocks after it. -/
def exec : MallocEvent → Command MallocFault MallocState (Option ℕ)
  | malloc size page => fun s => do
    let (block, heap) ← KernelHeap.malloc size page s.heap
    pure (block, ⟨heap, s.live ∪ block.toFinset⟩)
  | free block => fun s => do
    let ((), heap) ← KernelHeap.free block s.heap
    pure (none, ⟨heap, s.live \ block.toFinset⟩)

end MallocEvent

/-- **A step**: a call that returns. -/
def MallocStep (s : MallocState) (e : MallocEvent) (s' : MallocState) : Prop :=
  e.Valid s ∧ ∃ r, e.exec s = .ok (r, s')

namespace MallocState

/-- Nothing is allocated. -/
def init : MallocState := ⟨KernelHeap.init, ∅⟩

/-- What holds in every state of a run. -/
structure Inv (s : MallocState) : Prop where
  heap : s.heap.Inv s.live
  used : s.heap.Used

theorem inv_init : init.Inv := by
  refine ⟨⟨nofun, nofun, nofun, fun _ => List.nodup_nil, nofun, ?_⟩, nofun⟩
  intro b hb
  cases hb

/-- **A call returns**, and what `malloc` returns was not live. -/
theorem Inv.exec {s : MallocState} (h : s.Inv) {e : MallocEvent} (hvalid : e.Valid s) :
    ∃ r s', e.exec s = .ok (r, s') ∧ s'.Inv ∧ s.heap.Steady s'.heap ∧ ∀ b ∈ r, b ∉ s.live := by
  cases e with
  | malloc size page =>
    obtain ⟨r, heap, hrun, hinv, hused, hsteady, hnew, -⟩ :=
      (KernelHeap.malloc_spec h.heap h.used hvalid).exists_ok
    refine ⟨r, ⟨heap, s.live ∪ r.toFinset⟩, ?_, ⟨hinv, hused⟩, hsteady, fun b hb => (hnew b hb).1⟩
    show (KernelHeap.malloc size page s.heap >>= _) = _
    rw [hrun]
    rfl
  | free block =>
    cases block with
    | none =>
      refine ⟨none, ⟨s.heap, s.live \ ∅⟩, rfl, ?_, KernelHeap.Steady.refl _, nofun⟩
      rw [Finset.sdiff_empty]
      exact h
    | some b =>
      obtain ⟨_, heap, hrun, hinv, hused, hsteady, -⟩ :=
        (KernelHeap.free_spec h.heap h.used (hvalid b rfl)).exists_ok
      refine ⟨none, ⟨heap, s.live \ {b}⟩, ?_, ⟨?_, hused⟩, hsteady, nofun⟩
      · show (KernelHeap.free (some b) s.heap >>= _) = _
        rw [hrun]
        rfl
      · rw [Finset.sdiff_singleton_eq_erase]
        exact hinv

theorem Inv.step {s s' : MallocState} (h : s.Inv) {e : MallocEvent} (hstep : MallocStep s e s') :
    s'.Inv ∧ s.heap.Steady s'.heap := by
  obtain ⟨hvalid, r, hrun⟩ := hstep
  obtain ⟨r', s₁, hexec, hinv, hsteady, -⟩ := h.exec hvalid
  rw [hrun] at hexec
  cases hexec
  exact ⟨hinv, hsteady⟩

theorem Inv.of_run {s : MallocState} {events : List MallocEvent}
    (hrun : Transition.Run MallocStep init events s) : s.Inv :=
  hrun.invariant (I := fun _ s => s.Inv) inv_init fun _ _ _ _ h hstep => (h.step hstep).1

theorem Inv.exists_live {s : MallocState} (h : s.Inv) {a : ℕ} {d : Desc} {cnt : ℕ}
    (ha : s.heap.arenas a = some ⟨some d, cnt⟩) :
    ∃ i < d.blocksPerArena, KernelHeap.blockAt d a i ∈ s.live := by
  by_contra hnone
  have hfull : s.heap.freeBlocks d a = Finset.range d.blocksPerArena := by
    refine Finset.filter_true_of_mem fun i hi => ?_
    by_contra hnot
    have hlt := Finset.mem_range.mp hi
    exact hnone ⟨i, hlt, (h.heap.live_iff ha ⟨i, hlt, rfl⟩).mpr hnot⟩
  have hcnt := h.heap.freeCnt ha
  rw [hfull, Finset.card_range] at hcnt
  exact absurd (h.used a d cnt ha) hcnt.not_lt

/-- A block whose arena is gone is neither live nor on a list. -/
theorem Inv.gone {s : MallocState} (h : s.Inv) {a i : ℕ} {d : Desc} (ha : a % pgSize = 0)
    (hd : d ∈ descs) (hi : i < d.blocksPerArena) (hnone : s.heap.arenas a = none) :
    KernelHeap.blockAt d a i ∉ s.live ∧ ∀ d', KernelHeap.blockAt d a i ∉ s.heap.freeList d' := by
  have hpage := (KernelHeap.pgRoundDown_blockAt ha hd hi).1
  have hno : ∀ c x, s.heap.arenas c = some x →
      ¬ KernelHeap.IsBlockOf c x (KernelHeap.blockAt d a i) := by
    intro c x hc hblock
    rw [← h.heap.pgRoundDown hc hblock, hpage, hnone] at hc
    cases hc
  constructor
  · intro hlive
    obtain ⟨c, x, hc, hblock⟩ := h.heap.live _ hlive
    exact hno c x hc hblock
  · intro d' hfree
    obtain ⟨c, cnt, hc, hblock⟩ := h.heap.free d' _ hfree
    exact hno c _ hc hblock

end MallocState

/-- **The arenas of the kernel's allocator are in order.** Along every run from `malloc_init`
in which live blocks are freed: the `free_cnt` of an arena is the number of its blocks on the
free list of its descriptor, which has each block once; no block is both live and on a list;
live blocks do not overlap one another, nor the header of an arena of a descriptor; no call
fails an assertion, and what `malloc` returns was not live. An arena of a descriptor is
returned to the page allocator in the call after which none of its blocks is live, and then
none of them is left on a list. -/
theorem kernelMalloc_arenas {events : List MallocEvent} {s : MallocState}
    (hrun : Transition.Run MallocStep MallocState.init events s) :
    (∀ a d cnt, s.heap.arenas a = some ⟨some d, cnt⟩ → cnt = (s.heap.freeBlocks d a).card) ∧
    (∀ d, (s.heap.freeList d).Nodup) ∧
    (∀ b ∈ s.live, ∀ d, b ∉ s.heap.freeList d) ∧
    (∀ b ∈ s.live, ∀ b' ∈ s.live, b ≠ b' → Disjoint (s.heap.extent b) (s.heap.extent b')) ∧
    (∀ b ∈ s.live, ∀ a d cnt, s.heap.arenas a = some ⟨some d, cnt⟩ →
      Disjoint (s.heap.extent b) (Set.Ico a (a + arenaSize))) ∧
    (∀ e : MallocEvent, e.Valid s →
      ∃ r s', e.exec s = .ok (r, s') ∧ ∀ b ∈ r, b ∉ s.live) ∧
    ∀ e s', MallocStep s e s' → ∀ a d cnt, s.heap.arenas a = some ⟨some d, cnt⟩ →
      (s'.heap.arenas a = none ↔
        ∀ i < d.blocksPerArena, KernelHeap.blockAt d a i ∉ s'.live) ∧
      (s'.heap.arenas a = none →
        ∀ i < d.blocksPerArena, ∀ d', KernelHeap.blockAt d a i ∉ s'.heap.freeList d') := by
  have hinv := MallocState.Inv.of_run hrun
  refine ⟨fun a d cnt ha => hinv.heap.freeCnt ha, hinv.heap.nodup, ?_,
    fun b hb b' hb' hne => hinv.heap.extent_disjoint hb hb' hne,
    fun b hb a d cnt ha => hinv.heap.extent_disjoint_header hb ha, ?_, ?_⟩
  · intro b hb d hfree
    obtain ⟨a, cnt, ha, hblock⟩ := hinv.heap.free d b hfree
    exact (hinv.heap.live_iff ha hblock).mp hb hfree
  · intro e hvalid
    obtain ⟨r, s', hexec, -, -, hnew⟩ := hinv.exec hvalid
    exact ⟨r, s', hexec, hnew⟩
  · intro e s' hstep a d cnt ha
    obtain ⟨hinv', hsteady⟩ := hinv.step hstep
    have hgone : s'.heap.arenas a = none → ∀ i < d.blocksPerArena, _ := fun hnone i hi =>
      hinv'.gone (hinv.heap.page ha).2 (hinv.heap.mem_descs ha) hi hnone
    refine ⟨⟨fun hnone i hi => (hgone hnone i hi).1, fun hfree => ?_⟩,
      fun hnone i hi => (hgone hnone i hi).2⟩
    obtain hnone | ⟨cnt', ha'⟩ := hsteady a d cnt ha
    · exact hnone
    · obtain ⟨i, hi, hlive⟩ := hinv'.exists_live ha'
      exact (hfree i hi hlive).elim

/-- The state after a call. -/
def MallocEvent.after (e : MallocEvent) (s : MallocState) : MallocState :=
  ((e.exec s).toOption.map Prod.snd).getD s

theorem mallocStep_after {e : MallocEvent} {s : MallocState} (hvalid : e.Valid s)
    (hends : (e.exec s).toOption.isSome) : MallocStep s e (e.after s) := by
  refine ⟨hvalid, ?_⟩
  unfold MallocEvent.after
  cases hrun : e.exec s with
  | ok result => exact ⟨result.1, rfl⟩
  | error fault =>
    rw [hrun] at hends
    cases hends

theorem mallocStep_free {b : ℕ} {s : MallocState} (hlive : b ∈ s.live)
    (hends : ((MallocEvent.free (some b)).exec s).toOption.isSome) :
    MallocStep s (.free (some b)) ((MallocEvent.free (some b)).after s) :=
  mallocStep_after (by rintro _ ⟨⟩; exact hlive) hends

/-- Two blocks of 1000 bytes from one new arena, the first of which is freed. -/
def arenaEvents : List MallocEvent :=
  [.malloc 1000 (some 4096), .malloc 1000 none, .free (some 4108)]

/-- When the other block is freed too, the page goes back and the list is empty. -/
theorem kernelMalloc_arenas_returned :
    ∃ s s', Transition.Run MallocStep MallocState.init arenaEvents s ∧ s.live = {5132} ∧
      s.heap.freeList ⟨1024, 3⟩ = [4108, 6156] ∧ MallocStep s (.free (some 5132)) s' ∧
      s'.heap.arenas 4096 = none ∧ s'.heap.freeList ⟨1024, 3⟩ = [] := by
  let s₁ := (MallocEvent.malloc 1000 (some 4096)).after MallocState.init
  let s₂ := (MallocEvent.malloc 1000 none).after s₁
  let s₃ := (MallocEvent.free (some 4108)).after s₂
  have h₁ : MallocStep MallocState.init (.malloc 1000 (some 4096)) s₁ := by
    refine mallocStep_after ?_ (by decide +kernel)
    rintro _ ⟨⟩
    exact ⟨by decide, by decide, nofun⟩
  have h₂ : MallocStep s₁ (.malloc 1000 none) s₂ := mallocStep_after nofun (by decide +kernel)
  have h₃ : MallocStep s₂ (.free (some 4108)) s₃ :=
    mallocStep_free (by decide +kernel) (by decide +kernel)
  have hrun : Transition.Run MallocStep MallocState.init arenaEvents s₃ :=
    .snoc (.snoc (.snoc .nil h₁) h₂) h₃
  have hlive : s₃.live = {5132} := by decide +kernel
  have hlast : MallocStep s₃ (.free (some 5132)) ((MallocEvent.free (some 5132)).after s₃) :=
    mallocStep_free (by decide +kernel) (by decide +kernel)
  have harena : s₃.heap.arenas 4096 = some ⟨some ⟨1024, 3⟩, 2⟩ := by decide +kernel
  obtain ⟨-, -, -, -, -, -, hreturn⟩ := kernelMalloc_arenas hrun
  have hgone := (hreturn _ _ hlast 4096 ⟨1024, 3⟩ 2 harena).1.mpr ?_
  · exact ⟨s₃, _, hrun, hlive, by decide +kernel, hlast, hgone, by decide +kernel⟩
  · have hempty : ((MallocEvent.free (some 5132)).after s₃).live = ∅ := by decide +kernel
    rw [hempty]
    exact fun i _ => Finset.notMem_empty _

/-- **No page is leaked**: when every block that was returned has been freed, big ones included,
the heap is as `malloc_init` left it. -/
theorem kernelMalloc_allFreed {events : List MallocEvent} {s : MallocState}
    (hrun : Transition.Run MallocStep MallocState.init events s) (hfreed : s.live = ∅) :
    s.heap = KernelHeap.init := by
  have hinv := MallocState.Inv.of_run hrun
  have hempty : ∀ b, b ∉ s.live := fun b => hfreed ▸ Finset.notMem_empty b
  have hnone (a : ℕ) : s.heap.arenas a = none := by
    cases ha : s.heap.arenas a with
    | none => rfl
    | some arena =>
      obtain ⟨_ | d, cnt⟩ := arena
      · exact absurd (hinv.heap.arenas a _ ha) (hempty _)
      · obtain ⟨i, -, hlive⟩ := hinv.exists_live ha
        exact absurd hlive (hempty _)
  have hlist (d : Desc) : s.heap.freeList d = [] :=
    List.eq_nil_iff_forall_not_mem.mpr fun b hb => by
      obtain ⟨a, cnt, ha, -⟩ := hinv.heap.free d b hb
      cases (hnone a).symm.trans ha
  exact congrArg₂ KernelHeap.mk (funext hnone) (funext hlist)

/-- Blocks of two arenas, and a big block of two pages. -/
def returnedEvents : List MallocEvent :=
  [.malloc 1000 (some 4096), .malloc 500 (some 8192), .malloc 5000 (some 12288),
    .free (some 12300), .free (some 4108), .free (some 8204)]

theorem kernelMalloc_allFreed_arenas :
    ∃ s, Transition.Run MallocStep MallocState.init returnedEvents s
      ∧ s.live = ∅ ∧ s.heap = KernelHeap.init := by
  let s₁ := (MallocEvent.malloc 1000 (some 4096)).after MallocState.init
  let s₂ := (MallocEvent.malloc 500 (some 8192)).after s₁
  let s₃ := (MallocEvent.malloc 5000 (some 12288)).after s₂
  let s₄ := (MallocEvent.free (some 12300)).after s₃
  let s₅ := (MallocEvent.free (some 4108)).after s₄
  let s₆ := (MallocEvent.free (some 8204)).after s₅
  have hothers : ∀ a, a ≠ 4096 → s₁.heap.arenas a = none := fun a ha =>
    (Function.update_of_ne ha _ _).trans (Function.update_of_ne ha _ fun _ => none)
  have hothers' : ∀ a, a ≠ 8192 → s₂.heap.arenas a = s₁.heap.arenas a := fun a ha =>
    (Function.update_of_ne ha _ _).trans (Function.update_of_ne ha _ s₁.heap.arenas)
  have hfirst : s₁.heap.arenas 4096 = some ⟨some ⟨1024, 3⟩, 2⟩ := by decide +kernel
  have hsecond : s₂.heap.arenas 8192 = some ⟨some ⟨512, 7⟩, 6⟩ := by decide +kernel
  have h₁ : MallocStep MallocState.init (.malloc 1000 (some 4096)) s₁ := by
    refine mallocStep_after ?_ (by decide +kernel)
    rintro _ ⟨⟩
    exact ⟨by decide, by decide, nofun⟩
  have h₂ : MallocStep s₁ (.malloc 500 (some 8192)) s₂ := by
    refine mallocStep_after ?_ (by decide +kernel)
    rintro _ ⟨⟩
    refine ⟨by decide, by decide, fun b x hx => ?_⟩
    obtain rfl : b = 4096 := by_contra fun hb => nomatch (hothers b hb).symm.trans hx
    cases hfirst.symm.trans hx
    exact Set.Ico_disjoint_Ico.mpr (by decide)
  have h₃ : MallocStep s₂ (.malloc 5000 (some 12288)) s₃ := by
    refine mallocStep_after ?_ (by decide +kernel)
    rintro _ ⟨⟩
    refine ⟨by decide, by decide, fun b x hx => ?_⟩
    by_cases hb : b = 8192
    · subst hb
      cases hsecond.symm.trans hx
      exact Set.Ico_disjoint_Ico.mpr (by decide)
    · rw [hothers' b hb] at hx
      obtain rfl : b = 4096 := by_contra fun hb => nomatch (hothers b hb).symm.trans hx
      cases hfirst.symm.trans hx
      exact Set.Ico_disjoint_Ico.mpr (by decide)
  have h₄ : MallocStep s₃ (.free (some 12300)) s₄ :=
    mallocStep_free (by decide +kernel) (by decide +kernel)
  have h₅ : MallocStep s₄ (.free (some 4108)) s₅ :=
    mallocStep_free (by decide +kernel) (by decide +kernel)
  have h₆ : MallocStep s₅ (.free (some 8204)) s₆ :=
    mallocStep_free (by decide +kernel) (by decide +kernel)
  have hrun : Transition.Run MallocStep MallocState.init returnedEvents s₆ :=
    .snoc (.snoc (.snoc (.snoc (.snoc (.snoc .nil h₁) h₂) h₃) h₄) h₅) h₆
  have hfreed : s₆.live = ∅ := by decide +kernel
  exact ⟨s₆, hrun, hfreed, kernelMalloc_allFreed hrun hfreed⟩

end Pintos
