import Cs162.FilesysRuns

/-!
# Failed creations

`filesys_create` takes a sector for the inode and sectors for the data before it enters
the name in the directory. Where that fails it gives back the sector of the inode, and
nothing else: what `inode_create` has taken for the data stays marked in the free map
without an owner. So a failed creation leaves the file system as it was exactly if it had
not come to the data yet, or if there is no data.
-/

namespace Pintos

open Transition (Run)

namespace Filesys

/-- **The file system is as it was**: the free map, the owners of sectors, and every sector
of the root directory and of the files. -/
structure Unchanged (fs fs' : Filesys) : Prop where
  map : fs'.freeMap = fs.freeMap
  owners : fs'.inodeSector = fs.inodeSector
  content : ∀ o, o ≠ .freeMap → ∀ t ∈ fs.region o, fs'.disk t = fs.disk t

/-- A creation takes sectors for the data: there is a free sector for the inode, and there
are enough of them in a row for the data, of which there is some. -/
def TakesData (fs : Filesys) (initialSize : Int32) : Prop :=
  0 < bytesToSectors initialSize
    ∧ ∃ sector start, bitmapScan fs.freeMap 0 1 false = some sector
      ∧ bitmapScan (bitmapSetMultiple fs.freeMap sector 1 true) 0 (bytesToSectors initialSize) false
        = some start

variable {blockSize : ℕ} {openers : ℕ → ℕ} {fs fs' : Filesys} {initialSize : Int32}

/-- The free map is as it was if no sectors are taken for data. -/
theorem leaked_eq_iff : fs.leaked initialSize = fs.freeMap ↔ ¬ fs.TakesData initialSize := by
  unfold leaked TakesData
  cases hinode : bitmapScan fs.freeMap 0 1 false with
  | none => exact iff_of_true rfl fun ⟨_, _, _, hsome, _⟩ => nomatch hsome
  | some sector =>
    dsimp only
    cases hdata : bitmapScan (bitmapSetMultiple fs.freeMap sector 1 true) 0
        (bytesToSectors initialSize) false with
    | none =>
      refine iff_of_true rfl fun ⟨_, _, _, hsome, hstart⟩ => ?_
      cases hsome
      rw [hdata] at hstart
      cases hstart
    | some start =>
      dsimp only
      obtain ⟨hle, hfree⟩ := bitmapScan_eq_some hdata
      rw [length_bitmapSetMultiple] at hle
      constructor
      · rintro hsame ⟨hpos, -⟩
        -- The first of the sectors was free and is taken.
        have hnew : (bitmapSetMultiple fs.freeMap start (bytesToSectors initialSize) true)[start]?
            = some true := by
          rw [getElem?_bitmapSetMultiple, if_pos ⟨le_rfl, by omega, by omega⟩]
        have hold := hfree start le_rfl (by omega)
        rw [hsame] at hnew
        rw [subset_usedBits_bitmapSetMultiple hnew] at hold
        cases hold
      · intro hnot
        have hzero : bytesToSectors initialSize = 0 :=
          Nat.eq_zero_of_not_pos fun hpos => hnot ⟨hpos, sector, start, rfl, hdata⟩
        rw [hzero]
        rfl

/-- **A failed creation leaves the files alone.** -/
theorem Undone.unchanged_iff (h : fs.Undone (fs.leaked initialSize) fs')
    (hinv : fs.Inv blockSize ∅ openers) : fs.Unchanged fs' ↔ ¬ fs.TakesData initialSize := by
  rw [← leaked_eq_iff, ← h.map]
  refine ⟨Unchanged.map, fun hmap => ⟨hmap, h.frame.sectors, fun o ho t ht => ?_⟩⟩
  refine h.kept t (hinv.tenure.own_used o ht) fun hmem => ho ?_
  have howner : fs.inodeSector .freeMap = some freeMapSector := rfl
  exact hinv.tenure.unique ht (extent_subset_region howner hmem)

end Filesys

/-- **When a failed creation is atomic.** From a freshly formatted disk on, in every state
that any sequence of operations leads to: a creation that fails leaves the free map, the
directory and all files as they were if and only if it takes no sectors for data. -/
theorem filesysCreate_atomic_iff {blockSize : UInt32} {disk : Disk} {unused : ℕ → Bool}
    {fs₀ fs fs' : Filesys} {ops : List FilesysOp} {name : CString} {initialSize : Int32}
    (hinit : filesysInit blockSize true (.boot disk unused) = .ok ((), fs₀))
    (hrun : Run FilesysStep fs₀ ops fs)
    (hfailed : filesysCreate name initialSize fs = .ok (false, fs')) :
    fs.Unchanged fs' ↔ ¬ fs.TakesData initialSize := by
  have hinv := (filesysInit_inv hinit).run hrun
  obtain ⟨-, -, -, -, hundone⟩ :=
    (hinv.filesysCreate (E := fun _ => True) name fun _ _ => trivial).of_ok hfailed
  exact (hundone rfl).unchanged_iff hinv

/-- A device of twelve sectors is formatted, and a file is created. -/
def createdFile : Option Filesys :=
  (filesysInit 12 true (.boot (fun _ _ => 0) fun _ => false)).toOption.bind fun result =>
    filesysNext result.2 (.create ⟨[97], nul_not_mem_a⟩ 600)

/-- The file is created again, with another size. -/
def createdAgain (initialSize : Int32) : Option (Bool × Filesys) :=
  createdFile.bind fun fs => (filesysCreate ⟨[97], nul_not_mem_a⟩ initialSize fs).toOption

theorem createdAgain_run {initialSize : Int32} {success : Bool} {fs' : Filesys}
    (h : createdAgain initialSize = some (success, fs')) :
    ∃ fs₀ fs, filesysInit 12 true (.boot (fun _ _ => 0) fun _ => false) = .ok ((), fs₀)
      ∧ Run FilesysStep fs₀ [.create ⟨[97], by decide⟩ 600] fs
      ∧ createdFile = some fs
      ∧ filesysCreate ⟨[97], by decide⟩ initialSize fs = .ok (success, fs') := by
  obtain ⟨fs, hcreated, hagain⟩ := Option.bind_eq_some_iff.mp h
  obtain ⟨⟨⟨⟩, fs₀⟩, hinit, hnext⟩ := Option.bind_eq_some_iff.mp hcreated
  have hrun : Run FilesysStep fs₀ [.create ⟨[97], by decide⟩ 600] fs :=
    .snoc .nil (filesysStep_of_next _ _ _ hnext)
  exact ⟨fs₀, fs, Command.eq_ok_of_toOption hinit, hrun, hcreated,
    Command.eq_ok_of_toOption hagain⟩

theorem filesysCreate_atomic_iff_empty :
    ∃ fs fs', createdFile = some fs ∧ filesysCreate ⟨[97], by decide⟩ 0 fs = .ok (false, fs')
      ∧ fs.Unchanged fs' := by
  have hcomputed : (createdAgain 0).map Prod.fst = some false := by decide +kernel
  obtain ⟨⟨success, fs'⟩, hagain, hfalse⟩ := Option.map_eq_some_iff.mp hcomputed
  cases hfalse
  obtain ⟨fs₀, fs, hinit, hrun, hcreated, hfailed⟩ := createdAgain_run hagain
  refine ⟨fs, fs', hcreated, hfailed, (filesysCreate_atomic_iff hinit hrun hfailed).mpr ?_⟩
  rintro ⟨hpos, -⟩
  exact absurd hpos (by decide)

/-- **Creating a file that exists** takes two sectors and keeps them. -/
theorem filesysCreate_leaks :
    ∃ fs₀ fs fs', filesysInit 12 true (.boot (fun _ _ => 0) fun _ => false) = .ok ((), fs₀)
      ∧ Run FilesysStep fs₀ [.create ⟨[97], by decide⟩ 600] fs
      ∧ filesysCreate ⟨[97], by decide⟩ 600 fs = .ok (false, fs')
      ∧ fs.freeMap.count true = 7 ∧ fs'.freeMap.count true = 9 ∧ ¬ fs.Unchanged fs' := by
  have hcomputed : (createdAgain 600).map (fun result =>
      (result.1, createdFile.map (fun fs => fs.freeMap.count true), result.2.freeMap.count true))
      = some (false, some 7, 9) := by
    decide +kernel
  obtain ⟨⟨success, fs'⟩, hagain, hresult⟩ := Option.map_eq_some_iff.mp hcomputed
  obtain ⟨fs₀, fs, hinit, hrun, hcreated, hfailed⟩ := createdAgain_run hagain
  simp only [hcreated, Option.map_some, Prod.mk.injEq, Option.some.injEq] at hresult
  obtain ⟨rfl, hbefore, hafter⟩ := hresult
  refine ⟨fs₀, fs, fs', hinit, hrun, hfailed, hbefore, hafter, fun hsame => ?_⟩
  rw [hsame.map, hbefore] at hafter
  cases hafter

end Pintos
