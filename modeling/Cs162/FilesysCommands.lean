import Cs162.FilesysOwnership

/-!
# The commands of the file system keep the ownership of sectors

One specification for each command. Those that allocate and release sectors move
them between the free space and the reserved ones; those that write the directory
move them between the reserved ones and the files.
-/

namespace Pintos

open Command (Ensures)

theorem zeroSectors_apply (disk : Disk) (start cnt sector : ℕ) : zeroSectors disk start cnt sector
      = if start ≤ sector ∧ sector < start + cnt then fun _ => 0 else disk sector := by
  induction cnt with
  | zero =>
    rw [if_neg (by omega)]
    rfl
  | succ cnt ih =>
    have hstep : zeroSectors disk start (cnt + 1)
        = Function.update (zeroSectors disk start cnt) (start + cnt) fun _ => 0 := by
      unfold zeroSectors
      rw [List.range_succ, List.foldl_concat]
      rfl
    rw [hstep, Function.update_apply, ih]
    by_cases hs : sector = start + cnt
    · rw [if_pos hs, if_pos (by omega)]
    · rw [if_neg hs]
      by_cases hmem : start ≤ sector ∧ sector < start + cnt
      · rw [if_pos hmem, if_pos (by omega)]
      · rw [if_neg hmem, if_neg (by omega)]

section

variable {disk : Disk} {sector start t : ℕ} {length : Int32}

theorem writeInode_of_notMem (hne : t ≠ sector)
    (hmem : t ∉ Set.Ico start (start + bytesToSectors length)) :
    writeInode disk sector start length t = disk t := by
  have hrange : ¬ (start ≤ t ∧ t < start + bytesToSectors length) := hmem
  unfold writeInode
  rw [zeroSectors_apply, if_neg hrange]
  exact Function.update_of_ne hne _ _

theorem writeInode_of_mem (hmem : t ∈ Set.Ico start (start + bytesToSectors length)) :
    writeInode disk sector start length t = fun _ => 0 := by
  have hrange : start ≤ t ∧ t < start + bytesToSectors length := hmem
  unfold writeInode
  rw [zeroSectors_apply, if_pos hrange]

theorem inodeAt_writeInode (hmem : sector ∉ Set.Ico start (start + bytesToSectors length)) :
    inodeAt (writeInode disk sector start length) sector = ⟨.ofNat start, length⟩ := by
  have hrange : ¬ (start ≤ sector ∧ sector < start + bytesToSectors length) := hmem
  unfold inodeAt writeInode blockWrite
  rw [zeroSectors_apply, if_neg hrange, Function.update_self, InodeDisk.ofBytes_bytes]

/-- An entry that was written, where the file has all of it. -/
theorem entryAt_writeAt_self {data : InodeDisk} {e : DirEntry} {j : ℕ}
    (h : dirEntrySize * (j + 1) ≤ data.length.toInt.toNat) :
    entryAt (writeAt disk data e.bytes dirEntrySize (dirEntrySize * j)).1 data j
      = DirEntry.ofBytes e.bytes := by
  refine DirEntry.ofBytes_congr fun i hi => ?_
  rw [byteAt_writeAt, if_pos (by unfold transferSize dirEntrySize at *; omega),
    Nat.add_sub_cancel_left]

/-- The bytes of the other entries stay. -/
theorem byteAt_writeAt_entry {data : InodeDisk} {e : DirEntry} {j k i : ℕ} (h : k ≠ j)
    (hi : i < dirEntrySize) :
    byteAt (writeAt disk data e.bytes dirEntrySize (dirEntrySize * j)).1 data
      (dirEntrySize * k + i) = byteAt disk data (dirEntrySize * k + i) := by
  rw [byteAt_writeAt, if_neg]
  unfold transferSize dirEntrySize at *
  omega

end

namespace Filesys

variable {blockSize : ℕ} {reserved : Set ℕ} {openers : ℕ → ℕ} {fs fs' : Filesys} {sector : ℕ}
  {E : FilesysPanic → Prop}

/-! ## Inodes -/

theorem inodeOf_eq {node : Inode} (h : fs.openInodes sector = some node) :
    inodeOf sector fs = .ok (node, fs) := by
  unfold inodeOf
  rw [Command.bind_apply (show Command.get fs = .ok (fs, fs) from rfl), h]
  rfl

theorem inodeRemove_eq {node : Inode} (h : fs.openInodes sector = some node) :
    inodeRemove sector fs = .ok ((), fs.setInode sector (some { node with removed := true })) := by
  unfold inodeRemove
  rw [Command.bind_apply (inodeOf_eq h)]
  rfl

theorem inodeReadAt_eq {node : Inode} {size : ℤ} {offset : ℕ}
    (h : fs.openInodes sector = some node) :
    inodeReadAt sector size offset fs = .ok (readAt fs.disk node.data size offset, fs) := by
  unfold inodeReadAt
  rw [Command.bind_apply (inodeOf_eq h)]
  rfl

theorem inodeWriteAt_eq {node : Inode} {buffer : ℕ → UInt8} {size : ℤ} {offset : ℕ}
    (h : fs.openInodes sector = some node) (hdeny : node.denyWriteCnt = 0) :
    inodeWriteAt sector buffer size offset fs
      = .ok (transferSize node.data size offset,
          fs.onDisk (writeAt fs.disk node.data buffer size offset).1) := by
  unfold inodeWriteAt
  rw [Command.bind_apply (inodeOf_eq h), if_neg (by rw [hdeny]; exact not_not.mpr rfl),
    ← writeAt_snd]
  rfl

theorem writeEntry_eq {node : Inode} {e : DirEntry} {j : ℕ}
    (h : fs.openInodes sector = some node) (hdeny : node.denyWriteCnt = 0) :
    writeEntry sector e (dirEntrySize * j) fs
      = .ok (decide (dirEntrySize * (j + 1) ≤ node.data.length.toInt.toNat),
          fs.onDisk (writeAt fs.disk node.data e.bytes dirEntrySize (dirEntrySize * j)).1) := by
  unfold writeEntry
  rw [Command.bind_apply (inodeWriteAt_eq h hdeny)]
  show Except.ok (decide _, _) = _
  congr 2
  refine decide_eq_decide.mpr ?_
  unfold transferSize dirEntrySize
  omega

/-- What saving the free map does: all of it is written. -/
theorem bitmapWrite_eq {file : File} {node : Inode} (h : fs.openInodes file.inode = some node)
    (hdeny : node.denyWriteCnt = 0) (hlength : node.data.length.toInt = byteCnt fs.freeMap.length) :
    bitmapWrite file fs
      = .ok (true, fs.onDisk (writeAt fs.disk node.data (bitmapBytes fs.freeMap fs.unused)
          (byteCnt fs.freeMap.length) 0).1) := by
  have hall : transferSize node.data (byteCnt fs.freeMap.length) 0
      = byteCnt fs.freeMap.length := by
    unfold transferSize
    rw [hlength]
    omega
  unfold bitmapWrite fileWriteAt
  rw [Command.get_bind_apply, Command.bind_apply (inodeWriteAt_eq h hdeny), hall]
  show Except.ok (decide (_ = _), _) = _
  rw [decide_eq_true rfl]

/-- The bits are stored where the bytes of the map are in its file. -/
theorem storedMap_of_bytes {disk : Disk} {bits : List Bool} (unused : ℕ → Bool)
    (hsmall : bits.length + 31 < 2 ^ 32) (hbyte : ∀ pos < byteCnt bits.length,
      byteAt disk (inodeAt disk freeMapSector) pos = bitmapBytes bits unused pos) :
    storedMap disk bits.length = bits := by
  unfold storedMap
  rw [List.map_congr_left fun pos hpos => hbyte pos (List.mem_range.mp hpos)]
  exact bitmapOfBytes_bitmapBytes hsmall

namespace Inv

/-- **Opening an inode** that has an owner. -/
theorem inodeOpen (h : fs.Inv blockSize reserved openers) (howner : fs.IsFile sector) :
    Ensures E fs (inodeOpen sector) fun inode fs' =>
      inode = sector ∧ ∃ node, fs' = fs.setInode sector node ∧ Frame fs fs'
        ∧ fs'.Inv blockSize reserved (Function.update openers sector (openers sector + 1)) := by
  have hcount := h.count sector
  unfold Pintos.inodeOpen
  refine .get_bind ?_
  cases hnode : fs.openInodes sector with
  | some node =>
    rw [hnode] at hcount
    have hremoved : Option.any Inode.removed (some { node with openCnt := node.openCnt + 1 })
        = (fs.openInodes sector).any Inode.removed := by
      rw [hnode]
      rfl
    obtain ⟨hsector, hdata, hdeny, -⟩ := h.agrees sector node hnode
    refine .modify_bind (.pure ⟨rfl, _, rfl, Frame.setInode hremoved, ?_⟩)
    rw [← hcount]
    refine h.setInode hremoved (fun n hn => ?_) (fun _ => howner) fun _ => Nat.succ_pos _
    cases hn
    exact ⟨hsector, hdata, hdeny, Nat.succ_pos _⟩
  | none =>
    rw [hnode] at hcount
    have hremoved : Option.any Inode.removed
          (some ⟨sector, 1, false, 0, InodeDisk.ofBytes (fs.disk sector)⟩)
        = (fs.openInodes sector).any Inode.removed := by
      rw [hnode]
      rfl
    refine .modify_bind (.pure ⟨rfl, _, rfl, Frame.setInode hremoved, ?_⟩)
    rw [← hcount]
    refine h.setInode hremoved (fun n hn => ?_) (fun _ => howner) fun _ => Nat.succ_pos _
    cases hn
    exact ⟨rfl, rfl, rfl, Nat.one_pos⟩

/-- **A write through an open inode** other than those of the root directory and of the
free map. -/
theorem inodeWriteAt (h : fs.Inv blockSize reserved openers) (buffer : ℕ → UInt8) (size : ℤ)
    (offset : ℕ) (hopen : 0 < openers sector) (hne : sector ≠ rootDirSector)
    (hne' : sector ≠ freeMapSector) : ∃ disk, Pintos.inodeWriteAt sector buffer size offset fs
        = .ok (transferSize (inodeAt fs.disk sector) size offset, fs.onDisk disk)
      ∧ Frame fs (fs.onDisk disk) ∧ (fs.onDisk disk).Inv blockSize reserved openers := by
  obtain ⟨node, hnode, ⟨-, hdata, hdeny, -⟩, -⟩ := h.exists_node hopen
  obtain ⟨o, ho⟩ := h.isFile hopen
  have hother : ∀ t, t ∉ (inodeAt fs.disk sector).extent →
      (writeAt fs.disk (inodeAt fs.disk sector) buffer size offset).1 t = fs.disk t :=
    fun t ht => writeAt_of_notMem (h.placed o sector ho).2.1 ht
  have hframe := h.frame_extent ho hne hother
  refine ⟨_, (inodeWriteAt_eq hnode hdeny).trans (by rw [hdata]), hframe, ?_⟩
  exact h.onDisk hframe (h.off_extent ho hne' hother)

/-! ## The free map -/

/-- **The free map is saved** after a change of it, all of it. -/
theorem bitmapWrite (h : fs.Inv blockSize reserved openers) (fs' : Filesys) {file : File}
    (hfile : file.inode = freeMapSector) (hdisk : fs'.disk = fs.disk)
    (hnodes : fs'.openInodes = fs.openInodes) (hsize : fs'.freeMap.length = blockSize) :
    ∃ disk, Pintos.bitmapWrite file fs' = .ok (true, fs'.onDisk disk)
      ∧ Frame fs (fs.onDisk disk) ∧ storedMap disk blockSize = fs'.freeMap
      ∧ ∀ t, t ∉ (inodeAt fs.disk freeMapSector).extent → disk t = fs.disk t := by
  obtain ⟨node, hnode, ⟨-, hdata, hdeny, -⟩, -⟩ := h.exists_node h.mapOpen
  have hmap : fs.inodeSector .freeMap = some freeMapSector := rfl
  have hlength : node.data.length.toInt = byteCnt fs'.freeMap.length := by
    rw [hdata, h.mapLength, hsize]
  have hwrite : Pintos.bitmapWrite file fs' = _ :=
    bitmapWrite_eq (by rw [hfile, hnodes]; exact hnode) hdeny hlength
  rw [hdata, hdisk, hsize] at hwrite
  set disk := (writeAt fs.disk (inodeAt fs.disk freeMapSector)
    (bitmapBytes fs'.freeMap fs'.unused) (byteCnt blockSize) 0).1 with hdef
  have hother : ∀ t, t ∉ (inodeAt fs.disk freeMapSector).extent → disk t = fs.disk t :=
    fun t ht => writeAt_of_notMem (h.placed _ _ hmap).2.1 ht
  have hframe := h.frame_extent hmap (by decide) hother
  have hinode : inodeAt disk freeMapSector = inodeAt fs.disk freeMapSector :=
    hframe.inodes .freeMap freeMapSector rfl
  refine ⟨disk, hwrite, hframe, ?_, hother⟩
  rw [← hsize]
  refine storedMap_of_bytes fs'.unused (by rw [hsize]; exact h.small) fun pos hpos => ?_
  rw [hsize] at hpos
  rw [hinode, hdef, byteAt_writeAt, if_pos, Nat.sub_zero]
  unfold transferSize
  rw [h.mapLength]
  omega

/-- **Allocating sectors.** -/
theorem freeMapAllocate (h : fs.Inv blockSize reserved openers) (cnt : ℕ) :
    Ensures E fs (freeMapAllocate cnt) fun result fs' =>
      match result with
      | none => bitmapScan fs.freeMap 0 cnt false = none ∧ fs' = fs
      | some start => bitmapScan fs.freeMap 0 cnt false = some start
        ∧ fs'.Inv blockSize (reserved ∪ Set.Ico start (start + cnt)) openers ∧ Frame fs fs'
        ∧ ∃ disk, fs' = (fs.setBits start cnt true).onDisk disk
          ∧ ∀ t, t ∉ (inodeAt fs.disk freeMapSector).extent → disk t = fs.disk t := by
  unfold Pintos.freeMapAllocate
  refine .get_bind ?_
  cases hscan : bitmapScan fs.freeMap 0 cnt false with
  | none => exact .pure ⟨rfl, rfl⟩
  | some start =>
    obtain ⟨file, hmap, hfile⟩ := h.mapFile
    obtain ⟨disk, hwrite, hframe, hsaved, hother⟩ :=
      h.bitmapWrite (fs.setBits start cnt true) hfile rfl rfl
        (length_bitmapSetMultiple.trans h.size)
    refine .modify_bind ?_
    rw [hmap]
    refine .bind_ok hwrite (.pure ⟨rfl, h.setBits hframe hsaved ?_,
      ⟨hframe.sectors, hframe.inodes⟩, disk, rfl, hother⟩)
    rw [usedBits_bitmapSetMultiple_true (bitmapScan_eq_some hscan).1]
    exact h.tenure.acquire (disjoint_usedBits_of_bitmapScan hscan)

/-- **Releasing reserved sectors.** The assertion holds. -/
theorem freeMapRelease (h : fs.Inv blockSize reserved openers) {start cnt : ℕ}
    (hreserved : Set.Ico start (start + cnt) ⊆ reserved) (hle : start + cnt ≤ blockSize) :
    Ensures E fs (freeMapRelease start cnt) fun _ fs' =>
      fs'.Inv blockSize (reserved \ Set.Ico start (start + cnt)) openers ∧ Frame fs fs'
        ∧ ∃ disk, fs' = { (fs.setBits start cnt false).onDisk disk with
            released := fs.released ++ [(start, cnt)] }
          ∧ ∀ t, t ∉ (inodeAt fs.disk freeMapSector).extent → disk t = fs.disk t := by
  obtain ⟨file, hmap, hfile⟩ := h.mapFile
  have hle' : start + cnt ≤ fs.freeMap.length := by
    rw [h.size]
    exact hle
  have htenure : Tenure fs.region (reserved \ Set.Ico start (start + cnt))
      (usedBits (bitmapSetMultiple fs.freeMap start cnt false)) := by
    rw [usedBits_bitmapSetMultiple_false hle']
    exact h.tenure.release hreserved
  let fs₁ : Filesys :=
    { fs.setBits start cnt false with released := fs.released ++ [(start, cnt)] }
  obtain ⟨disk, hwrite, hframe, hsaved, hother⟩ :=
    h.bitmapWrite fs₁ hfile rfl rfl (length_bitmapSetMultiple.trans h.size)
  unfold Pintos.freeMapRelease
  refine .get_bind ?_
  rw [if_pos (bitmapAll_of_subset hle' (hreserved.trans h.tenure.reserved_used))]
  refine .modify_bind ?_
  rw [hmap]
  exact .bind_ok hwrite (.pure ⟨{ h.setBits hframe hsaved htenure with },
    ⟨hframe.sectors, hframe.inodes⟩, disk, rfl, hother⟩)

end Inv

/-- **The sectors of a file are released**: the file is gone, its sectors are free, and
every other file is kept. -/
structure Freed (sector : ℕ) (fs fs' : Filesys) : Prop where
  log : fs'.released = fs.released ++ [(sector, 1),
    ((inodeAt fs.disk sector).start.toNat, bytesToSectors (inodeAt fs.disk sector).length)]
  gone : ¬ fs'.IsFile sector
  free : Disjoint (sectorsAt fs.disk sector) (usedBits fs'.freeMap)
  keeps : ∀ t, t ≠ sector → fs.IsFile t →
    fs'.IsFile t ∧ inodeAt fs'.disk t = inodeAt fs.disk t

theorem Freed.of_keeps {fs₁ : Filesys} (h : Freed sector fs₁ fs') (hfile : fs.IsFile sector)
    (hkeeps : Keeps fs fs₁) (hreleased : fs₁.released = fs.released) : Freed sector fs fs' where
  log := by
    rw [h.log, hreleased, (hkeeps sector hfile).2]
  gone := h.gone
  free := by
    have hsame : sectorsAt fs₁.disk sector = sectorsAt fs.disk sector := by
      unfold sectorsAt
      rw [(hkeeps sector hfile).2]
    rw [← hsame]
    exact h.free
  keeps t hne ht :=
    ⟨(h.keeps t hne (hkeeps t ht).1).1, (h.keeps t hne (hkeeps t ht).1).2.trans (hkeeps t ht).2⟩

/-- What comes after the release may change no owner and release nothing. -/
theorem Freed.frame {fs₁ : Filesys} (h : Freed sector fs fs₁) (hframe : Frame fs₁ fs')
    (hreleased : fs'.released = fs₁.released) (hbits : fs'.freeMap = fs₁.freeMap) :
    Freed sector fs fs' where
  log := by
    rw [hreleased, h.log]
  gone hfile := h.gone (hfile.imp fun o ho => by rw [← hframe.sectors]; exact ho)
  free := by
    rw [hbits]
    exact h.free
  keeps t hne ht :=
    ⟨(hframe.keeps t (h.keeps t hne ht).1).1,
      (hframe.keeps t (h.keeps t hne ht).1).2.trans (h.keeps t hne ht).2⟩

theorem inodeSector_removed (h : (fs.openInodes sector).any Inode.removed = true) :
    fs.inodeSector (.removed sector) = some sector := by
  show (if _ then some sector else none) = _
  rw [if_pos h]

namespace Inv

/-- **The sectors of a removed file go back to the free map.** -/
theorem release (h : fs.Inv blockSize reserved openers) {node : Inode}
    (hnode : fs.openInodes sector = some node) (hremoved : node.removed = true) :
    Ensures E (fs.setInode sector none)
      (do
        Pintos.freeMapRelease node.sector 1
        Pintos.freeMapRelease node.data.start.toNat (bytesToSectors node.data.length))
      fun _ fs' => fs'.Inv blockSize reserved (Function.update openers sector 0)
        ∧ Freed sector fs fs' ∧ fs'.files = fs.files := by
  have hany : (fs.openInodes sector).any Inode.removed = true := by
    rw [hnode]
    exact hremoved
  have howner := inodeSector_removed hany
  obtain ⟨hapart, -, hle⟩ := h.placed _ _ howner
  obtain ⟨hsector, hdata, -⟩ := h.agrees sector node hnode
  have hused : sectorsAt fs.disk sector ⊆ usedBits fs.freeMap := by
    rw [← region_eq howner]
    exact h.tenure.own_used _
  have hone : Set.Ico sector (sector + 1) = {sector} := by
    ext x
    simp only [Set.mem_Ico, Set.mem_singleton_iff]
    omega
  rw [hsector, hdata]
  have hmem : sector ∈ sectorsAt fs.disk sector := Set.mem_insert _ _
  have hdev : sector + 1 ≤ blockSize := by
    rw [← h.size]
    exact lt_length_of_mem_usedBits (hused hmem)
  refine (freeMapRelease (h.resign hany) ?_ hdev).bind ?_
  · rw [hone]
    exact (Set.singleton_subset_iff.mpr hmem).trans Set.subset_union_right
  · rintro - fs₁ ⟨hinv₁, hframe₁, disk₁, rfl, -⟩
    refine (freeMapRelease hinv₁ ?_ hle).mono ?_
    · intro x hx
      refine ⟨.inr (.inr hx), fun hx' => ?_⟩
      rw [hone, Set.mem_singleton_iff] at hx'
      subst hx'
      exact hapart hx
    · rintro - fs₂ ⟨hinv₂, hframe₂, disk₂, rfl, -⟩
      have hframe := hframe₁.trans hframe₂
      refine ⟨hinv₂.mono fun x hx => ?_, ⟨List.append_assoc _ _ _, ?_, ?_, ?_⟩, rfl⟩
      · have hapart' : x ∉ sectorsAt fs.disk sector := fun hx' => by
          rw [← region_eq howner] at hx'
          exact Set.disjoint_left.mp (h.tenure.disjoint_reserved _) hx' hx
        refine ⟨⟨.inl hx, fun hx' => hapart' ?_⟩, fun hx' => hapart' (.inr hx')⟩
        rw [hone, Set.mem_singleton_iff] at hx'
        rw [hx']
        exact hmem
      · rintro ⟨o, ho⟩
        rw [hframe.sectors] at ho
        by_cases hs : o = .removed sector
        · rw [hs, inodeSector_setInode_removed] at ho
          cases ho
        · rw [inodeSector_setInode_of_ne hs] at ho
          exact hs (h.unique ho howner)
      · show Disjoint _ (usedBits (bitmapSetMultiple (bitmapSetMultiple fs.freeMap sector 1 false)
          _ _ false))
        rw [usedBits_bitmapSetMultiple_false (by rw [length_bitmapSetMultiple, h.size]; exact hle),
          usedBits_bitmapSetMultiple_false (by rw [h.size]; exact hdev), hone]
        refine Set.disjoint_left.mpr fun x hx hfree => ?_
        rcases hx with hx | hx
        · exact hfree.1.2 hx
        · exact hfree.2 hx
      · rintro t ht ⟨o, ho⟩
        refine hframe.keeps t ⟨o, ?_⟩
        rw [inodeSector_setInode_of_ne, ho]
        rintro rfl
        rw [howner] at ho
        exact ht (Option.some.inj ho).symm

/-- **Closing an inode.** The sectors of a removed file are released when its last
opener closes it, and nothing is released else. -/
theorem inodeClose (h : fs.Inv blockSize reserved openers) (hopen : 0 < openers sector)
    (hmap : sector = freeMapSector → 1 < openers sector) :
    Ensures E fs (inodeClose sector) fun _ fs' =>
      fs'.Inv blockSize reserved (Function.update openers sector (openers sector - 1))
        ∧ fs'.files = fs.files
        ∧ ((openers sector = 1 ∧ (fs.openInodes sector).any Inode.removed = true)
            ∧ Freed sector fs fs'
          ∨ ¬ (openers sector = 1 ∧ (fs.openInodes sector).any Inode.removed = true)
            ∧ Frame fs fs' ∧ ∃ node, fs' = fs.setInode sector node) := by
  obtain ⟨node, hnode, ⟨hsector, hdata, hdeny, hpos⟩, hcount⟩ := h.exists_node hopen
  have howner := h.isFile hopen
  unfold Pintos.inodeClose
  refine .bind_ok (inodeOf_eq hnode) ?_
  rw [hcount, hnode]
  split
  · rename_i hlast
    have hone : openers sector = 1 := by omega
    rw [hlast]
    refine .modify_bind ?_
    split
    · rename_i hremoved
      refine (h.release hnode hremoved).mono fun _ _ hpost => ?_
      exact ⟨hpost.1, hpost.2.2, .inl ⟨⟨hone, hremoved⟩, hpost.2.1⟩⟩
    · rename_i hremoved
      have hany : Option.any Inode.removed none = (fs.openInodes sector).any Inode.removed := by
        rw [hnode]
        exact (Bool.eq_false_of_not_eq_true hremoved).symm
      refine .pure ⟨h.setInode hany nofun nofun fun hs => ?_, rfl,
        .inr ⟨fun hboth => hremoved hboth.2, Frame.setInode hany, none, rfl⟩⟩
      have hmore := hmap hs
      omega
  · rename_i hmore
    have hany : Option.any Inode.removed (some { node with openCnt := openers sector - 1 })
        = (fs.openInodes sector).any Inode.removed := by
      rw [hnode]
      rfl
    refine .modify ⟨h.setInode hany (fun n hn => ?_) (fun _ => howner) fun _ => ?_, rfl,
      .inr ⟨fun hboth => hmore (by rw [hboth.1]), Frame.setInode hany, _, rfl⟩⟩
    · cases hn
      exact ⟨hsector, hdata, hdeny, Nat.pos_of_ne_zero hmore⟩
    · exact Nat.pos_of_ne_zero hmore

/-! ## Creating an inode -/

/-- **A new inode** in a reserved sector: its extent is reserved too. -/
theorem inodeCreate (h : fs.Inv blockSize reserved openers) (hsector : sector ∈ reserved)
    {length : Int32} (hpanic : length < 0 → E .assertLength) :
    Ensures E fs (inodeCreate sector length) fun success fs' => 0 ≤ length.toInt ∧
      if success then
        ∃ start disk,
          fs' = (fs.setBits start (bytesToSectors length) true).onDisk disk
          ∧ start + bytesToSectors length ≤ blockSize
          ∧ Disjoint (Set.Ico start (start + bytesToSectors length)) (usedBits fs.freeMap)
          ∧ inodeAt disk sector = ⟨.ofNat start, length⟩
          ∧ fs'.Inv blockSize (reserved ∪ Set.Ico start (start + bytesToSectors length)) openers
          ∧ Frame fs fs' ∧ bitmapScan fs.freeMap 0 (bytesToSectors length) false = some start
          ∧ ∀ t ∈ usedBits fs.freeMap, t ≠ sector → t ∉ (inodeAt fs.disk freeMapSector).extent →
            disk t = fs.disk t
      else bitmapScan fs.freeMap 0 (bytesToSectors length) false = none ∧ fs' = fs := by
  unfold Pintos.inodeCreate
  refine .ite (fun hneg => .stop (hpanic hneg)) fun hneg => ?_
  have hlength : 0 ≤ length.toInt := by
    rw [Int32.lt_iff_toInt_lt] at hneg
    exact not_lt.mp hneg
  refine (h.freeMapAllocate (bytesToSectors length)).bind fun result fs₁ hpost => ?_
  cases result with
  | none => exact .pure ⟨hlength, hpost⟩
  | some start =>
    obtain ⟨hscan, hinv, hframe, disk, rfl, hoff⟩ := hpost
    obtain ⟨hle, -⟩ := bitmapScan_eq_some hscan
    rw [h.size] at hle
    have hfree := disjoint_usedBits_of_bitmapScan hscan
    have hother : ∀ t, t ∉ reserved ∪ Set.Ico start (start + bytesToSectors length) →
        writeInode disk sector start length t = disk t := fun t ht =>
      writeInode_of_notMem (fun heq => ht (.inl (by rw [heq]; exact hsector)))
        fun hmem => ht (.inr hmem)
    have hframe' := hinv.frame_reserved hother
    refine .modify_bind (.pure ⟨hlength, start, _, rfl, hle, hfree, ?_,
      hinv.onDisk hframe' (hinv.off_reserved hother), hframe.trans hframe', hscan,
      fun t ht hne hmap => ?_⟩)
    · exact inodeAt_writeInode fun hmem =>
        Set.disjoint_left.mp hfree hmem (h.tenure.reserved_used hsector)
    · rw [← hoff t hmap]
      exact writeInode_of_notMem hne fun hmem => Set.disjoint_left.mp hfree hmem ht

/-! ## The root directory -/

/-- The loop over the entries of the root directory. -/
theorem scanDir_eq (h : fs.Inv blockSize reserved openers) (hopen : 0 < openers rootDirSector)
    (p : DirEntry → Bool) : scanDir rootDirSector p fs
      = .ok (scanEntries fs.disk (inodeAt fs.disk rootDirSector) p
          ((inodeAt fs.disk rootDirSector).length.toInt.toNat / dirEntrySize + 1) 0 .blank,
          fs) := by
  obtain ⟨node, hnode, ⟨-, hdata, -⟩, -⟩ := h.exists_node hopen
  unfold scanDir
  rw [Command.bind_apply (inodeOf_eq hnode), Command.get_bind_apply, hdata]
  rfl

end Inv

/-- What `lookup` finds in the root directory. -/
def findEntry (fs : Filesys) (name : CString) : Option (DirEntry × ℕ) :=
  let data := inodeAt fs.disk rootDirSector
  let (found, ofs, e) := scanEntries fs.disk data (DirEntry.matches name)
    (data.length.toInt.toNat / dirEntrySize + 1) 0 .blank
  if found then some (e, ofs) else none

/-- **What is found is a file.** -/
theorem findEntry_eq_some {name : CString} {e : DirEntry} {ofs : ℕ}
    (h : fs.findEntry name = some (e, ofs)) : ∃ j, ofs = dirEntrySize * j
      ∧ dirEntrySize * (j + 1) ≤ (inodeAt fs.disk rootDirSector).length.toInt.toNat
      ∧ fs.inodeSector (.entry j) = some e.inodeSector.toNat := by
  unfold findEntry at h
  dsimp only at h
  obtain ⟨j, hofs, hends⟩ : ScanEnds fs.disk (inodeAt fs.disk rootDirSector)
      (DirEntry.matches name) _ :=
    scanEntries_ends (k := 0) (DirEntry.matches name) (Nat.lt_add_left 0 (Nat.lt_succ_self _))
  rw [Nat.mul_zero] at hofs hends
  split at h
  · rename_i hfound
    cases h
    rcases hends with ⟨-, hfits, hentry, hmatches⟩ | ⟨hmissed, -⟩
    · refine ⟨j, hofs, hfits, ?_⟩
      have huse := (Bool.and_eq_true_iff.mp hmatches).1
      show (if _ then some _ else none) = _
      rw [if_pos ⟨hfits, huse⟩, hentry]
    · rw [hmissed] at hfound
      cases hfound
  · cases h

namespace Inv

theorem lookup_eq (h : fs.Inv blockSize reserved openers) (hopen : 0 < openers rootDirSector)
    (name : CString) : lookup rootDirSector name fs = .ok (fs.findEntry name, fs) := by
  unfold lookup
  rw [Command.bind_apply (h.scanDir_eq hopen _)]
  rfl

end Inv

/-- **An entry of the root directory is written**: every other entry, and every sector
outside the directory, is as it was. -/
structure EntryWritten (fs : Filesys) (j : ℕ) (disk : Disk) : Prop where
  other : ∀ t, t ∉ (inodeAt fs.disk rootDirSector).extent → disk t = fs.disk t
  entries : ∀ k, k ≠ j → entrySector disk k = entrySector fs.disk k

theorem EntryWritten.inodeSector_of_ne {j : ℕ} {disk : Disk} {o : Owner}
    (h : fs.EntryWritten j disk) (ho : o ≠ .entry j) :
    (fs.onDisk disk).inodeSector o = fs.inodeSector o := by
  cases o with
  | entry k => exact h.entries k fun heq => ho (by rw [heq])
  | freeMap => rfl
  | rootDir => rfl
  | removed t => rfl

theorem EntryWritten.inodeAt_eq {j : ℕ} {disk : Disk} (h : fs.EntryWritten j disk)
    (hsector : sector ∉ (inodeAt fs.disk rootDirSector).extent) :
    inodeAt disk sector = inodeAt fs.disk sector :=
  congrArg InodeDisk.ofBytes (h.other sector hsector)

namespace Inv

theorem notMem_rootDir (h : fs.Inv blockSize reserved openers) {o : Owner}
    (ho : fs.inodeSector o = some sector) :
    sector ∉ (inodeAt fs.disk rootDirSector).extent := fun hmem => by
  have hroot : fs.inodeSector .rootDir = some rootDirSector := rfl
  have hsame : o = .rootDir :=
    h.tenure.unique (mem_region ho) (extent_subset_region hroot hmem)
  rw [hsame, hroot] at ho
  cases ho
  exact (h.placed .rootDir _ hroot).1 hmem

/-- **Writing an entry of the root directory.** The entry is changed if the slot is in
the file, and nothing else is. -/
theorem writeEntry (h : fs.Inv blockSize reserved openers) (hopen : 0 < openers rootDirSector)
    (e : DirEntry) (j : ℕ) : ∃ disk, Pintos.writeEntry rootDirSector e (dirEntrySize * j) fs
        = .ok (decide (dirEntrySize * (j + 1)
            ≤ (inodeAt fs.disk rootDirSector).length.toInt.toNat), fs.onDisk disk)
      ∧ ((inodeAt fs.disk rootDirSector).length.toInt.toNat < dirEntrySize * (j + 1) →
        disk = fs.disk)
      ∧ fs.EntryWritten j disk
      ∧ entrySector disk j
        = if dirEntrySize * (j + 1) ≤ (inodeAt fs.disk rootDirSector).length.toInt.toNat
            ∧ e.inUse then some e.inodeSector.toNat else none := by
  obtain ⟨node, hnode, ⟨-, hdata, hdeny, -⟩, -⟩ := h.exists_node hopen
  have hroot : fs.inodeSector .rootDir = some rootDirSector := rfl
  obtain ⟨hapart, hlength, -⟩ := h.placed .rootDir _ hroot
  set data := inodeAt fs.disk rootDirSector with hdef
  set disk := (writeAt fs.disk data e.bytes dirEntrySize (dirEntrySize * j)).1 with hdisk
  have hother : ∀ t, t ∉ data.extent → disk t = fs.disk t := fun t ht =>
    writeAt_of_notMem hlength ht
  have hsame : inodeAt disk rootDirSector = data :=
    congrArg InodeDisk.ofBytes (hother _ hapart)
  refine ⟨disk, ?_, fun hbehind => ?_, ⟨hother, fun k hk => ?_⟩, ?_⟩
  · rw [writeEntry_eq hnode hdeny, hdata]
  · -- The length is a multiple of the size of an entry: no part of one is written.
    have hmultiple : data.length.toInt = 16 * dirEntrySize := h.rootLength
    rw [hdisk, writeAt_of_transferSize]
    unfold transferSize dirEntrySize at *
    omega
  · exact entrySector_congr hsame fun _ i hi => byteAt_writeAt_entry hk hi
  · unfold entrySector
    rw [hsame]
    by_cases hfits : dirEntrySize * (j + 1) ≤ data.length.toInt.toNat
    · rw [entryAt_writeAt_self hfits, DirEntry.inUse_ofBytes_bytes,
        DirEntry.inodeSector_ofBytes_bytes]
    · rw [if_neg fun hboth => hfits hboth.1, if_neg fun hboth => hfits hboth.1]

/-- The directory is not in the file of the free map. -/
theorem off_entry (h : fs.Inv blockSize reserved openers) {j : ℕ} {disk : Disk}
    (hwritten : fs.EntryWritten j disk) :
    ∀ t ∈ (inodeAt fs.disk freeMapSector).extent, disk t = fs.disk t := by
  have hroot : fs.inodeSector .rootDir = some rootDirSector := rfl
  exact h.off_extent hroot (by decide) hwritten.other

/-- **A file gets its name**: the entry takes over the reserved sectors. -/
theorem adopt (h : fs.Inv blockSize reserved openers) {j : ℕ} {disk : Disk}
    (hwritten : fs.EntryWritten j disk) (hfree : entrySector fs.disk j = none)
    (hentry : entrySector disk j = some sector) (hreserved : sectorsAt fs.disk sector ⊆ reserved)
    (hplaced : Placed blockSize sector (inodeAt fs.disk sector)) :
    (fs.onDisk disk).Inv blockSize ∅ openers := by
  have hnew : (fs.onDisk disk).inodeSector (.entry j) = some sector := hentry
  have hroot : fs.inodeSector .rootDir = some rootDirSector := rfl
  have hinode : ∀ o t, fs.inodeSector o = some t → inodeAt disk t = inodeAt fs.disk t :=
    fun o t ht => hwritten.inodeAt_eq (h.notMem_rootDir ht)
  have hsector : inodeAt disk sector = inodeAt fs.disk sector := by
    refine hwritten.inodeAt_eq fun hmem => ?_
    exact Set.disjoint_left.mp (h.tenure.disjoint_reserved .rootDir)
      (extent_subset_region hroot hmem) (hreserved (Set.mem_insert _ _))
  have hsome : ∀ o t, (fs.onDisk disk).inodeSector o = some t →
      o = .entry j ∧ t = sector ∨ o ≠ .entry j ∧ fs.inodeSector o = some t := fun o t ht => by
    by_cases ho : o = .entry j
    · subst ho
      rw [hnew] at ht
      exact .inl ⟨rfl, (Option.some.inj ht).symm⟩
    · rw [hwritten.inodeSector_of_ne ho] at ht
      exact .inr ⟨ho, ht⟩
  constructor
  case size => exact h.size
  case small => exact h.small
  case tenure =>
    refine h.tenure.adopt (.entry j) ?_ fun o ho => ?_
    · rw [region_eq hnew]
      unfold sectorsAt at hreserved ⊢
      show insert sector (inodeAt disk sector).extent ⊆ _
      rw [hsector]
      exact hreserved.trans Set.subset_union_right
    · cases ht : fs.inodeSector o with
      | none =>
        rw [region_eq_empty (by rw [hwritten.inodeSector_of_ne ho, ht])]
        exact Set.empty_subset _
      | some t =>
        rw [region_eq (by rw [hwritten.inodeSector_of_ne ho, ht]), region_eq ht]
        unfold sectorsAt
        show insert t (inodeAt disk t).extent ⊆ _
        rw [hinode o t ht]
  case placed =>
    intro o t ht
    show Placed blockSize t (inodeAt disk t)
    rcases hsome o t ht with ⟨-, rfl⟩ | ⟨-, ht⟩
    · rw [hsector]
      exact hplaced
    · rw [hinode o t ht]
      exact h.placed o t ht
  case mapLength => exact (congrArg (·.length.toInt) (hinode .freeMap _ rfl)).trans h.mapLength
  case rootLength => exact (congrArg (·.length.toInt) (hinode .rootDir _ rfl)).trans h.rootLength
  case saved => exact h.storedMap_eq (hinode .freeMap freeMapSector rfl) (h.off_entry hwritten)
  case mapFile => exact h.mapFile
  case mapOpen => exact h.mapOpen
  case agrees =>
    intro t node hnode
    obtain ⟨o, ho⟩ := h.owned t (by rw [show fs.openInodes t = some node from hnode]; rfl)
    obtain ⟨hs, hdata, hrest⟩ := h.agrees t node hnode
    exact ⟨hs, hdata.trans (hinode o t ho).symm, hrest⟩
  case owned =>
    intro t ht
    obtain ⟨o, ho⟩ := h.owned t ht
    refine ⟨o, ?_⟩
    rw [hwritten.inodeSector_of_ne, ho]
    rintro rfl
    rw [show fs.inodeSector (.entry j) = none from hfree] at ho
    cases ho
  case count => exact h.count
  case allowed => exact h.allowed

/-- A write that leaves the entry as it was changes no owner. -/
theorem frame_entry (h : fs.Inv blockSize reserved openers) {j : ℕ} {disk : Disk}
    (hwritten : fs.EntryWritten j disk) (hsame : entrySector disk j = entrySector fs.disk j) :
    Frame fs (fs.onDisk disk) := by
  refine ⟨funext fun o => ?_, fun o t ht => hwritten.inodeAt_eq (h.notMem_rootDir ht)⟩
  by_cases ho : o = .entry j
  · subst ho
    exact hsame
  · exact hwritten.inodeSector_of_ne ho

/-- **Naming a file.** -/
theorem dirAdd (h : fs.Inv blockSize reserved openers) (hopen : 0 < openers rootDirSector)
    (name : CString) (hsize : sector < 2 ^ 32) (hreserved : sectorsAt fs.disk sector ⊆ reserved)
    (hplaced : Placed blockSize sector (inodeAt fs.disk sector)) :
    Ensures E fs (dirAdd rootDirSector name sector) fun success fs' =>
      (∃ disk, fs' = fs.onDisk disk) ∧ (success = false → fs' = fs) ∧ Keeps fs fs'
        ∧ fs'.Inv blockSize (if success then ∅ else reserved) openers := by
  have hfalse : Ensures E fs (pure false) fun success fs' =>
      (∃ disk, fs' = fs.onDisk disk) ∧ (success = false → fs' = fs) ∧ Keeps fs fs'
        ∧ fs'.Inv blockSize (if success then ∅ else reserved) openers :=
    .pure ⟨⟨fs.disk, rfl⟩, fun _ => rfl, (Frame.refl fs).keeps, h⟩
  unfold Pintos.dirAdd
  refine .ite (fun _ => hfalse) fun _ => ?_
  refine .bind_ok (h.lookup_eq hopen name) ?_
  cases fs.findEntry name with
  | some found => exact hfalse
  | none =>
    refine .bind_ok (h.scanDir_eq hopen _) ?_
    obtain ⟨j, hofs, hends⟩ : ScanEnds fs.disk (inodeAt fs.disk rootDirSector)
        (fun e => !e.inUse) _ :=
      scanEntries_ends (k := 0) _ (Nat.lt_add_left 0 (Nat.lt_succ_self _))
    rw [Nat.mul_zero] at hofs hends
    generalize scanEntries fs.disk _ _ _ 0 _ = result at *
    obtain ⟨found, ofs, e⟩ := result
    dsimp only at hofs hends ⊢
    subst hofs
    obtain ⟨disk, hwrite, hnothing, hwritten, hentry⟩ :=
      h.writeEntry hopen ⟨.ofNat sector, strlcpy e.name name, true⟩ j
    refine .ok hwrite ⟨⟨disk, rfl⟩, fun hfailed => ?_, ?_⟩
    · rw [hnothing (not_le.mp (of_decide_eq_false hfailed))]
      rfl
    rcases hends with ⟨-, hfits, -, hunused⟩ | ⟨-, hbehind⟩
    · have hfree : entrySector fs.disk j = none := by
        unfold entrySector
        rw [if_neg]
        intro hboth
        rw [hboth.2] at hunused
        cases hunused
      rw [if_pos ⟨hfits, rfl⟩, UInt32.toNat_ofNat_of_lt' hsize] at hentry
      rw [decide_eq_true hfits, if_pos rfl]
      refine ⟨fun t ⟨o, ho⟩ => ⟨⟨o, ?_⟩, hwritten.inodeAt_eq (h.notMem_rootDir ho)⟩,
        h.adopt hwritten hfree hentry hreserved hplaced⟩
      rw [hwritten.inodeSector_of_ne, ho]
      rintro rfl
      rw [show fs.inodeSector (.entry j) = none from hfree] at ho
      cases ho
    · have hframe : Frame fs (fs.onDisk disk) := by
        refine h.frame_entry hwritten ?_
        rw [hentry, if_neg fun hboth => absurd hboth.1 (by omega)]
        unfold entrySector
        rw [if_neg fun hboth => absurd hboth.1 (by omega)]
      rw [decide_eq_false (by omega), if_neg Bool.false_ne_true]
      exact ⟨hframe.keeps, h.onDisk hframe (h.off_entry hwritten)⟩

/-- A file that is named is neither the root directory nor the free map. -/
theorem entry_ne (h : fs.Inv blockSize reserved openers) {j : ℕ}
    (hentry : fs.inodeSector (.entry j) = some sector) :
    sector ≠ rootDirSector ∧ sector ≠ freeMapSector := by
  constructor
  · rintro rfl
    cases h.unique hentry (show fs.inodeSector .rootDir = some rootDirSector from rfl)
  · rintro rfl
    cases h.unique hentry (show fs.inodeSector .freeMap = some freeMapSector from rfl)

/-- A file that is named is not marked as removed. -/
theorem not_removed (h : fs.Inv blockSize reserved openers) {o : Owner}
    (ho : fs.inodeSector o = some sector) (hne : o ≠ .removed sector) :
    (fs.openInodes sector).any Inode.removed = false := by
  refine Bool.eq_false_of_not_eq_true fun hremoved => hne ?_
  exact h.unique ho (inodeSector_removed hremoved)

/-- **A file loses its name and is marked as removed**: its sectors pass from the entry to
the inode in memory. -/
theorem erase (h : fs.Inv blockSize ∅ openers) {j : ℕ} {disk : Disk} {node : Inode}
    (hwritten : fs.EntryWritten j disk) (hentry : fs.inodeSector (.entry j) = some sector)
    (hnone : entrySector disk j = none) (hnode : fs.openInodes sector = some node) :
    ((fs.onDisk disk).setInode sector (some { node with removed := true })).Inv blockSize ∅ openers
      ∧ Keeps fs ((fs.onDisk disk).setInode sector (some { node with removed := true })) := by
  set fs' := (fs.onDisk disk).setInode sector (some { node with removed := true }) with hfs'
  have hinode : ∀ o t, fs.inodeSector o = some t → inodeAt disk t = inodeAt fs.disk t :=
    fun o t ht => hwritten.inodeAt_eq (h.notMem_rootDir ht)
  have hremoved : fs'.inodeSector (.removed sector) = some sector := by
    rw [hfs', inodeSector_setInode_removed]
    rfl
  have hold : fs'.inodeSector (.entry j) = none := hnone
  have hsame : ∀ o, o ≠ .removed sector → o ≠ .entry j → fs'.inodeSector o = fs.inodeSector o :=
    fun o hr hj => by
      rw [hfs', inodeSector_setInode_of_ne hr, hwritten.inodeSector_of_ne hj]
  have hfile : ∀ t, fs.IsFile t → fs'.IsFile t := by
    rintro t ⟨o, ho⟩
    by_cases hj : o = .entry j
    · rw [hj, hentry] at ho
      cases ho
      exact ⟨_, hremoved⟩
    · refine ⟨o, ?_⟩
      rw [hsame o ?_ hj, ho]
      rintro rfl
      have hfree : (fs.openInodes sector).any Inode.removed = false :=
        h.not_removed hentry nofun
      change (if _ then some sector else none) = _ at ho
      rw [hfree] at ho
      cases ho
  have hsome : ∀ o t, fs'.inodeSector o = some t →
      fs.inodeSector o = some t ∨ o = .removed sector ∧ t = sector := fun o t ht => by
    by_cases hr : o = .removed sector
    · rw [hr, hremoved] at ht
      exact .inr ⟨hr, (Option.some.inj ht).symm⟩
    · by_cases hj : o = .entry j
      · rw [hj, hold] at ht
        cases ht
      · rw [hsame o hr hj] at ht
        exact .inl ht
  have hnodes : fs'.openInodes
      = Function.update fs.openInodes sector (some { node with removed := true }) := rfl
  have hregion : ∀ t o, fs.inodeSector o = some t → sectorsAt disk t = sectorsAt fs.disk t :=
    fun t o ht => by
      unfold sectorsAt
      rw [hinode o t ht]
  refine ⟨?_, fun t ht => ⟨hfile t ht, ht.elim fun o ho => hinode o t ho⟩⟩
  constructor
  case size => exact h.size
  case small => exact h.small
  case tenure =>
    have hresigned : Tenure (Function.update fs.region (.entry j) ∅) (∅ ∪ fs.region (.entry j))
        (usedBits fs.freeMap) :=
      h.tenure.resign (.entry j) (Function.update_self _ _ _) fun o ho => by
        rw [Function.update_of_ne ho]
    refine hresigned.adopt (.removed sector) ?_ fun o hr => ?_
    · rw [region_eq hremoved, region_eq hentry]
      show sectorsAt disk sector ⊆ _
      rw [hregion _ _ hentry]
      exact Set.subset_union_right.trans Set.subset_union_right
    · by_cases hj : o = .entry j
      · rw [hj, region_eq_empty hold]
        exact Set.empty_subset _
      · rw [Function.update_of_ne hj]
        cases ht : fs.inodeSector o with
        | none =>
          rw [region_eq_empty (by rw [hsame o hr hj, ht])]
          exact Set.empty_subset _
        | some t =>
          rw [region_eq (by rw [hsame o hr hj, ht]), region_eq ht]
          show sectorsAt disk t ⊆ _
          rw [hregion t o ht]
  case placed =>
    intro o t ht
    show Placed blockSize t (inodeAt disk t)
    rcases hsome o t ht with ht | ⟨-, rfl⟩
    · rw [hinode o t ht]
      exact h.placed o t ht
    · rw [hinode _ _ hentry]
      exact h.placed _ _ hentry
  case mapLength => exact (congrArg (·.length.toInt) (hinode .freeMap _ rfl)).trans h.mapLength
  case rootLength => exact (congrArg (·.length.toInt) (hinode .rootDir _ rfl)).trans h.rootLength
  case saved => exact h.storedMap_eq (hinode .freeMap freeMapSector rfl) (h.off_entry hwritten)
  case mapFile => exact h.mapFile
  case mapOpen => exact h.mapOpen
  case agrees =>
    intro t n hn
    show n.Agrees disk t
    rw [hnodes] at hn
    by_cases ht : t = sector
    · subst ht
      rw [Function.update_self] at hn
      cases hn
      obtain ⟨hs, hdata, hrest⟩ := h.agrees t node hnode
      exact ⟨hs, hdata.trans (hinode _ _ hentry).symm, hrest⟩
    · rw [Function.update_of_ne ht] at hn
      obtain ⟨o, ho⟩ := h.owned t (by rw [hn]; rfl)
      obtain ⟨hs, hdata, hrest⟩ := h.agrees t n hn
      exact ⟨hs, hdata.trans (hinode o t ho).symm, hrest⟩
  case owned =>
    intro t ht
    refine hfile t (h.owned t ?_)
    rw [hnodes] at ht
    by_cases hts : t = sector
    · rw [hts, hnode]
      rfl
    · rwa [Function.update_of_ne hts] at ht
  case count =>
    intro t
    rw [hnodes, ← h.count]
    by_cases ht : t = sector
    · rw [ht, Function.update_self, hnode]
      rfl
    · rw [Function.update_of_ne ht]
  case allowed => exact h.allowed

/-- **Removing a name.** The file goes at once where nobody has it open, and is kept
until its last opener closes it otherwise. -/
theorem dirRemove (h : fs.Inv blockSize ∅ openers) (hopen : 0 < openers rootDirSector)
    (name : CString) : Ensures E fs (dirRemove rootDirSector name) fun _ fs' =>
      fs'.Inv blockSize ∅ openers ∧ fs'.files = fs.files
        ∧ ((∃ e ofs, fs.findEntry name = some (e, ofs) ∧ openers e.inodeSector.toNat = 0
              ∧ Freed e.inodeSector.toNat fs fs')
          ∨ (∀ e ofs, fs.findEntry name = some (e, ofs) → openers e.inodeSector.toNat ≠ 0)
            ∧ Keeps fs fs' ∧ fs'.released = fs.released) := by
  unfold Pintos.dirRemove
  refine .bind_ok (h.lookup_eq hopen name) ?_
  cases hfind : fs.findEntry name with
  | none =>
    exact .pure ⟨h, rfl, .inr ⟨nofun, (Frame.refl fs).keeps, rfl⟩⟩
  | some found =>
    obtain ⟨e, ofs⟩ := found
    obtain ⟨j, rfl, hfits, hentry⟩ := findEntry_eq_some hfind
    dsimp only
    generalize hsector : e.inodeSector.toNat = sector at hentry
    obtain ⟨hroot, hmap⟩ := h.entry_ne hentry
    refine (h.inodeOpen ⟨_, hentry⟩).bind ?_
    rintro inode fs₁ ⟨rfl, node₁, hfs₁, hframe₁, hinv₁⟩
    have hopener : 0 < Function.update openers inode (openers inode + 1) inode := by
      rw [Function.update_self]
      exact Nat.succ_pos _
    obtain ⟨disk, hwrite, -, hwritten, hnone⟩ := hinv₁.writeEntry
      (by rw [Function.update_of_ne (Ne.symm hroot)]; exact hopen) { e with inUse := false } j
    rw [if_neg fun hboth => Bool.false_ne_true hboth.2] at hnone
    refine .bind_ok hwrite ?_
    have hfits₁ : dirEntrySize * (j + 1) ≤ (inodeAt fs₁.disk rootDirSector).length.toInt.toNat := by
      rw [hframe₁.inodes .rootDir rootDirSector rfl]
      exact hfits
    rw [decide_eq_true hfits₁, if_pos rfl]
    obtain ⟨node, hnode, -⟩ := hinv₁.exists_node hopener
    have hentry₁ : fs₁.inodeSector (.entry j) = some inode := by
      rw [hframe₁.sectors]
      exact hentry
    obtain ⟨hinv₂, hkeeps₂⟩ := hinv₁.erase hwritten hentry₁ hnone hnode
    have hremove : inodeRemove inode (fs₁.onDisk disk) = _ := inodeRemove_eq hnode
    refine .bind_ok hremove ?_
    refine (hinv₂.inodeClose hopener fun heq => absurd heq hmap).bind ?_
    rintro - fs₃ ⟨hinv₃, hfiles₃, hclosed⟩
    rw [Function.update_self, Function.update_idem, Nat.add_sub_cancel, Function.update_eq_self]
      at hinv₃
    refine .pure ⟨hinv₃, hfiles₃.trans (by rw [hfs₁]; rfl), ?_⟩
    have hkeeps : Keeps fs
        ((fs₁.onDisk disk).setInode inode (some { node with removed := true })) :=
      hframe₁.keeps.trans hkeeps₂
    have hremoved : (((fs₁.onDisk disk).setInode inode
        (some { node with removed := true })).openInodes inode).any Inode.removed = true := by
      rw [openInodes_setInode_self]
      rfl
    rw [Function.update_self] at hclosed
    rcases hclosed with ⟨⟨hlast, -⟩, hfreed⟩ | ⟨hmore, hframe₃, node₃, rfl⟩
    · refine .inl ⟨e, _, rfl, by rw [hsector]; omega, ?_⟩
      rw [hsector]
      exact hfreed.of_keeps ⟨_, hentry⟩ hkeeps (by rw [hfs₁]; rfl)
    · refine .inr ⟨fun e' ofs' heq => ?_, hkeeps.trans hframe₃.keeps, by rw [hfs₁]; rfl⟩
      cases heq
      rw [hsector]
      exact fun hzero => hmore ⟨by rw [hzero], hremoved⟩

end Inv

end Filesys

end Pintos
