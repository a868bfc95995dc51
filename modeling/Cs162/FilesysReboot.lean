import Cs162.BitmapWords
import Cs162.FilesysRuns

/-!
# The file system across a reboot

The free map is stored in a file whose own sectors it allocates. The invariant of the
file system says that the bits in that file are those in memory (`Inv.saved`), so it is
enough to look at what `filesys_init` does without formatting: it reads the file. What it
leaves keeps the invariant, so runs may go on from there (`filesys_survivesRestarts`).
-/

namespace Pintos

open Transition (Run)

namespace Filesys

variable {blockSize : UInt32} {openers : ℕ → ℕ} {fs : Filesys}

/-- The state after a restart: nothing is open but the free map, which is read. -/
def restarted (fs : Filesys) : Filesys :=
  ({ fs with openInodes := fun _ => none, files := [], released := [] } : Filesys).opened

theorem Inv.freeMap_restarted {blockSize : ℕ} (h : fs.Inv blockSize ∅ openers) :
    fs.restarted.freeMap = fs.freeMap := by
  show storedMap fs.disk fs.freeMap.length = _
  rw [h.size]
  exact h.saved

/-- The owners after a restart are the owners before, without the files that were removed
while they were open. -/
theorem inodeSector_of_restarted {o : Owner} {sector : ℕ}
    (h : fs.restarted.inodeSector o = some sector) : fs.inodeSector o = some sector := by
  cases o with
  | freeMap | rootDir | entry k => exact h
  | removed t =>
    by_cases ht : t = freeMapSector <;>
      simp [restarted, opened, setInode, inodeSector, ownerSector, ht] at h

/-- **A restart keeps the invariant.** -/
theorem Inv.restarted {blockSize : ℕ} (h : fs.Inv blockSize ∅ openers) :
    fs.restarted.Inv blockSize ∅ fs.restarted.openerCnt := by
  have hnodes (t : ℕ) : fs.restarted.openInodes t = if t = freeMapSector then
      some ⟨freeMapSector, 1, false, 0, inodeAt fs.disk freeMapSector⟩ else none :=
    Function.update_apply _ _ _ _
  rw [openerCnt_of_files_nil rfl]
  refine .of_started hnodes rfl rfl (by rw [h.freeMap_restarted, h.size]) h.small ?_
    (fun o sector ho => h.placed o sector (inodeSector_of_restarted ho)) h.mapLength h.rootLength
    (h.saved.trans h.freeMap_restarted.symm)
  rw [h.freeMap_restarted]
  refine h.tenure.mono (fun o t ht => ?_) subset_rfl
  cases ho : fs.restarted.inodeSector o with
  | none => exact absurd ht (by rw [region_eq_empty ho]; exact Set.notMem_empty t)
  | some sector =>
    rw [region_eq ho] at ht
    rwa [region_eq (inodeSector_of_restarted ho)]

end Filesys

end Pintos
