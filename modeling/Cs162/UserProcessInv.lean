import Cs162.FilesysSound
import Cs162.UserProcesses

/-!
# What the calls of user processes keep

Every entry of a process's list of files is an open file, and no file is on two
lists or twice on one, so what a process closes is its own. A process that waits
has the record of the child it waits for. In a run in which no process closes the
descriptor of its executable (`careful`), the executable is among the files of its
process, and that file denies writes.

Each function keeps this, and what is assumed of a function's outcome is only that
an error is one that its caller has room for.
-/

namespace Pintos

open Command (Ensures)

/-! ## Files that stay open -/

/-- **The files stay open**, with their inodes and their denials, but for those that
are closed. -/
def Filesys.Carries (closed : Set ℕ) (fs fs' : Filesys) : Prop :=
  ∀ i f, i ∉ closed → fs.files[i]? = some (some f) →
    ∃ g, fs'.files[i]? = some (some g) ∧ g.inode = f.inode ∧ g.denyWrite = f.denyWrite

namespace Filesys.Carries

variable {closed : Set ℕ} {fs fs' fs'' : Filesys} {i : ℕ} {f : File}

theorem trans (h : Carries closed fs fs') (h' : Carries closed fs' fs'') :
    Carries closed fs fs'' := by
  intro i f hi hf
  obtain ⟨g, hg, hinode, hdeny⟩ := h i f hi hf
  obtain ⟨g', hg', hinode', hdeny'⟩ := h' i g hi hg
  exact ⟨g', hg', hinode'.trans hinode, hdeny'.trans hdeny⟩

theorem mono {closed' : Set ℕ} (h : Carries closed fs fs') (hsub : closed ⊆ closed') :
    Carries closed' fs fs' :=
  fun i f hi hf => h i f (fun hmem => hi (hsub hmem)) hf

theorem of_eq (h : fs'.files = fs.files) : Carries closed fs fs' := by
  intro i f _ hf
  exact ⟨f, h ▸ hf, rfl, rfl⟩

theorem of_append {file : Option File} (h : fs'.files = fs.files ++ [file]) :
    Carries closed fs fs' := by
  intro i f _ hf
  refine ⟨f, ?_, rfl, rfl⟩
  rw [h, List.getElem?_append_left (List.getElem?_eq_some_iff.mp hf).1]
  exact hf

theorem of_setPos {pos : ℕ} (hf : fs.files[i]? = some (some f))
    (h : fs'.files = fs.files.set i (some { f with pos := pos })) : Carries closed fs fs' := by
  intro j g _ hg
  rw [h, List.getElem?_set]
  split
  · rename_i heq
    subst heq
    rw [hf] at hg
    cases hg
    exact ⟨_, if_pos (List.getElem?_eq_some_iff.mp hf).1, rfl, rfl⟩
  · exact ⟨g, hg, rfl, rfl⟩

theorem of_set {file : Option File} (hi : i ∈ closed) (h : fs'.files = fs.files.set i file) :
    Carries closed fs fs' := by
  intro j g hj hg
  have hne : i ≠ j := fun heq => hj (heq ▸ hi)
  refine ⟨g, ?_, rfl, rfl⟩
  rw [h, List.getElem?_set_ne hne]
  exact hg

end Filesys.Carries

/-! ## The invariant -/

/-- `start_process` has not opened the executable. -/
def UserPhase.unstarted : UserPhase → Bool
  | loading _ _ | starting _ _ => true
  | _ => false

/-- **What holds of a process**, over a file system. -/
structure UserProcess.Ok (careful : Prop) (fs : Filesys) (process : UserProcess) : Prop where
  opened : ∀ entry ∈ process.fileList, ∃ f, fs.files[entry.2]? = some (some f)
  nodup : (process.fileList.map Prod.snd).Nodup
  awaited : ∀ c, process.phase = .awaitingLoad c ∨ process.phase = .waiting c →
    c ∈ process.childList
  unstarted : process.phase.unstarted = true → process.fileList = [] ∧ process.fd = minFd
  guarded : careful → ∀ sector, process.executable = some sector →
    ∃ file f, (minFd, file) ∈ process.fileList ∧ fs.files[file]? = some (some f)
      ∧ f.inode = sector ∧ f.denyWrite = true

/-- **The invariant of the system.** -/
structure System.Inv (careful : Prop) (blockSize : ℕ) (s : System) : Prop where
  sound : s.fs.Sound blockSize
  ok : ∀ p, (s.processes p).Ok careful s.fs
  apart : ∀ p q, p ≠ q → ∀ entry ∈ (s.processes p).fileList,
    ∀ entry' ∈ (s.processes q).fileList, entry.2 ≠ entry'.2
  fresh : ∀ p, s.nextTid ≤ p → s.processes p = .blank
  parent : ∀ p q, (s.processes p).parent = some q → q < p

variable {careful : Prop} {blockSize : ℕ} {fs fs' : Filesys} {process : UserProcess}

theorem UserProcess.Ok.blank : UserProcess.blank.Ok careful fs where
  opened _ h := by cases h
  nodup := List.nodup_nil
  awaited _ h := by rcases h with h | h <;> cases h
  unstarted h := by cases h
  guarded _ _ h := by cases h

/-- A process none of whose files is closed. -/
theorem UserProcess.Ok.carries {closed : Set ℕ} (h : process.Ok careful fs)
    (hcarry : fs.Carries closed fs') (hown : ∀ entry ∈ process.fileList, entry.2 ∉ closed) :
    process.Ok careful fs' where
  opened entry he := by
    obtain ⟨f, hf⟩ := h.opened entry he
    obtain ⟨g, hg, -⟩ := hcarry _ f (hown entry he) hf
    exact ⟨g, hg⟩
  nodup := h.nodup
  awaited := h.awaited
  unstarted := h.unstarted
  guarded hcareful sector hexec := by
    obtain ⟨file, f, hmem, hf, rfl, hdeny⟩ := h.guarded hcareful sector hexec
    obtain ⟨g, hg, hinode, hdeny'⟩ := hcarry file f (hown _ hmem) hf
    exact ⟨file, g, hmem, hg, hinode, hdeny'.trans hdeny⟩

/-- A process that moves to a phase in which it waits for no one. -/
theorem UserProcess.Ok.goto (h : process.Ok careful fs) (children : List ℕ) {phase : UserPhase}
    (hstarted : phase.unstarted = true → process.phase.unstarted = true)
    (hawaited : ∀ c, phase = .awaitingLoad c ∨ phase = .waiting c → c ∈ children) :
    { process with childList := children, phase := phase }.Ok careful fs :=
  { h with awaited := hawaited, unstarted := fun hphase => h.unstarted (hstarted hphase) }

namespace System

variable {s : System} {p : ℕ} {E : SystemPanic → Prop}

theorem update_update (s : System) (p : ℕ) (f g : UserProcess → UserProcess) :
    (s.update p f).update p g = s.update p fun process => g (f process) := by
  unfold update
  dsimp only
  rw [Function.update_self, Function.update_idem]

namespace Inv

/-- A process that runs, or is about to, is one of those created. -/
theorem lt_nextTid (h : s.Inv careful blockSize) (hp : (s.processes p).phase ≠ .absent) :
    p < s.nextTid := by
  by_contra hnot
  rw [h.fresh p (not_lt.mp hnot)] at hp
  exact hp rfl

/-- **A change of the file system** that closes none of the files listed. -/
theorem setFs {closed : Set ℕ} (h : s.Inv careful blockSize) (hsound : fs'.Sound blockSize)
    (hcarry : s.fs.Carries closed fs')
    (hown : ∀ q, ∀ entry ∈ (s.processes q).fileList, entry.2 ∉ closed) :
    { s with fs := fs' }.Inv careful blockSize :=
  { h with
    sound := hsound
    ok := fun q => (h.ok q).carries hcarry (hown q) }

/-- **A change of one process**, of a record and of the next number. -/
theorem update (h : s.Inv careful blockSize) {f : UserProcess → UserProcess}
    (hok : (f (s.processes p)).Ok careful s.fs)
    (hapart : ∀ q, p ≠ q → ∀ entry ∈ (f (s.processes p)).fileList,
      ∀ entry' ∈ (s.processes q).fileList, entry.2 ≠ entry'.2)
    (hparent : ∀ q, (f (s.processes p)).parent = some q → q < p) (hp : p < s.nextTid) :
    (s.update p f).Inv careful blockSize := by
  have hprocess (q : ℕ) : (s.update p f).processes q
      = if q = p then f (s.processes p) else s.processes q := Function.update_apply ..
  refine ⟨h.sound, fun q => ?_, fun q r hne => ?_, fun q hq => ?_, fun q r => ?_⟩
  · rw [hprocess]
    split
    · exact hok
    · exact h.ok q
  · rw [hprocess, hprocess]
    split
    · rename_i heq
      rw [if_neg (heq ▸ Ne.symm hne)]
      exact hapart r (heq ▸ hne)
    · split
      · rename_i heq
        intro entry he entry' he'
        exact Ne.symm (hapart q (heq ▸ Ne.symm hne) entry' he' entry he)
      · exact h.apart q r hne
  · have hne : q ≠ p := fun heq => absurd hp (not_lt.mpr (heq ▸ hq))
    rw [hprocess, if_neg hne]
    exact h.fresh q hq
  · rw [hprocess]
    split
    · rename_i heq
      rw [heq]
      exact hparent r
    · exact h.parent q r

theorem update_sub (h : s.Inv careful blockSize) {f : UserProcess → UserProcess}
    (hok : (f (s.processes p)).Ok careful s.fs)
    (hsub : ∀ entry ∈ (f (s.processes p)).fileList, entry ∈ (s.processes p).fileList)
    (hparent : (f (s.processes p)).parent = (s.processes p).parent
      ∨ (f (s.processes p)).parent = none)
    (hp : p < s.nextTid) : (s.update p f).Inv careful blockSize := by
  refine h.update hok (fun q hne entry he => h.apart p q hne entry (hsub entry he))
    (fun q hq => ?_) hp
  rcases hparent with heq | heq
  · exact h.parent p q (heq ▸ hq)
  · rw [heq] at hq
    cases hq

theorem goto (h : s.Inv careful blockSize) {phase : UserPhase} (hp : p < s.nextTid)
    (hstarted : phase.unstarted = true → (s.processes p).phase.unstarted = true)
    (hawaited : ∀ c, phase = .awaitingLoad c ∨ phase = .waiting c →
      c ∈ (s.processes p).childList) : (s.goto p phase).Inv careful blockSize :=
  h.update_sub ((h.ok p).goto _ hstarted hawaited) (fun _ => id) (.inl rfl) hp

theorem writeRecord (h : s.Inv careful blockSize) (c : ℕ) (f : ChildRecord → ChildRecord) :
    (s.writeRecord c f).Inv careful blockSize := { h with }

end Inv

end System

/-! ## Descriptors -/

section

variable {s : System} {p : ℕ} {E : SystemPanic → Prop} {fd : Int32}

/-- A function of the file system that closes nothing. -/
theorem System.Inv.onFilesys {α : Type} {c : FilesysM α} {R : α → Prop}
    (h : s.Inv careful blockSize) (hc : Ensures (fun e => E (.filesys e)) s.fs c fun a fs' =>
      R a ∧ fs'.Sound blockSize ∧ s.fs.Carries ∅ fs') :
    Ensures E s (onFilesys c) fun a s' => R a ∧ s'.Inv careful blockSize := by
  refine hc.inside.mono ?_
  rintro a - ⟨fs', ⟨hR, hsound, hcarry⟩, rfl⟩
  exact ⟨hR, h.setFs hsound hcarry fun _ _ _ => Set.notMem_empty _⟩

/-- What a process can find by its descriptor is open. -/
theorem System.Inv.exists_file (h : s.Inv careful blockSize) {file : ℕ}
    (hfile : s.processGetFile p fd = some file) : ∃ f, s.fs.files[file]? = some (some f) := by
  obtain ⟨l₁, l₂, hlist, -⟩ := List.lookup_eq_some_iff.mp hfile
  refine (h.ok p).opened (fd, file) ?_
  rw [hlist]
  exact List.mem_append_right _ List.mem_cons_self

/-- **One file is closed.** -/
theorem System.Inv.closeEntry (h : s.Inv careful blockSize) {entry : Int32 × ℕ}
    (hentry : entry ∈ (s.processes p).fileList)
    (hcare : careful → (s.processes p).executable ≠ none → entry.1 ≠ minFd) (hp : p < s.nextTid) :
    Ensures E s (closeEntry p entry) fun _ s' => s'.Inv careful blockSize
      ∧ ∃ fs', s.fs.Carries {entry.2} fs' ∧ s' = { s with fs := fs' }.update p fun process =>
        { process with fileList := process.fileList.erase entry } := by
  have hok := h.ok p
  obtain ⟨f, hf⟩ := hok.opened entry hentry
  have hother : ∀ entry' ∈ (s.processes p).fileList.erase entry,
      entry' ∈ (s.processes p).fileList ∧ entry'.2 ≠ entry.2 := fun entry' he' => by
    obtain ⟨hne, hmem⟩ := hok.nodup.of_map.mem_erase_iff.mp he'
    exact ⟨hmem, fun heq => hne (List.inj_on_of_nodup_map hok.nodup hmem hentry heq)⟩
  have hok' : { s.processes p with fileList := (s.processes p).fileList.erase entry }.Ok
      careful s.fs :=
    { hok with
      opened := fun entry' he' => hok.opened entry' (hother entry' he').1
      nodup := (List.erase_sublist.map _).nodup hok.nodup
      unstarted := fun hphase => by
        rw [(hok.unstarted hphase).1] at hentry
        cases hentry
      guarded := fun hcareful sector hexec => by
        obtain ⟨file, g, hmem, hg⟩ := hok.guarded hcareful sector hexec
        have hne : (minFd, file) ≠ entry := fun heq =>
          hcare hcareful (Option.ne_none_iff_exists'.mpr ⟨sector, hexec⟩) (heq ▸ rfl)
        exact ⟨file, g, (List.mem_erase_of_ne hne).mpr hmem, hg⟩ }
  have hlisted := h.update_sub (f := fun process =>
    { process with fileList := process.fileList.erase entry }) hok'
    (fun entry' he' => (hother entry' he').1) (.inl rfl) hp
  unfold Pintos.closeEntry
  refine Ensures.bind (h.sound.fileClose hf).inside ?_
  rintro - - ⟨fs', ⟨hsound, hfiles⟩, rfl⟩
  have hcarry : s.fs.Carries {entry.2} fs' := .of_set rfl hfiles
  refine .modify ⟨?_, fs', hcarry, rfl⟩
  refine hlisted.setFs hsound hcarry fun q entry' he' => ?_
  change entry' ∈ (Function.update s.processes p _ q).fileList at he'
  rw [Function.update_apply] at he'
  split at he'
  · exact (hother entry' he').2
  · rename_i hne
    exact h.apart q p hne entry' he' entry hentry

/-- **Nothing but the files of one process has changed.** -/
structure System.FilesOnly (p : ℕ) (s s' : System) : Prop where
  nextTid : s'.nextTid = s.nextTid
  others : ∀ q, q ≠ p → s'.processes q = s.processes q
  self : ∃ list, s'.processes p = { s.processes p with fileList := list }

theorem System.FilesOnly.refl (p : ℕ) (s : System) : s.FilesOnly p s :=
  ⟨rfl, fun _ _ => rfl, _, rfl⟩

theorem System.FilesOnly.trans {s' s'' : System} (h : s.FilesOnly p s')
    (h' : s'.FilesOnly p s'') : s.FilesOnly p s'' := by
  obtain ⟨list, hlist⟩ := h.self
  obtain ⟨list', hlist'⟩ := h'.self
  refine ⟨h'.nextTid.trans h.nextTid, fun q hq => (h'.others q hq).trans (h.others q hq), list', ?_⟩
  rw [hlist', hlist]

/-- The entries that the loop over the list of files closes. -/
def closedEntries (fd : Int32) (entries : List (Int32 × ℕ)) : List (Int32 × ℕ) :=
  if fd = closeAll then entries else (entries.find? fun entry => fd = entry.1).toList

/-- The files of entries. -/
def filesOf (entries : List (Int32 × ℕ)) : Set ℕ := {file | ∃ fd, (fd, file) ∈ entries}

/-- **Entries of one process are closed**: they leave its list, their files may be gone, and
nothing else has changed. -/
structure System.Closes (p : ℕ) (closed : List (Int32 × ℕ)) (s s' : System) : Prop
    extends s.FilesOnly p s' where
  list : (s'.processes p).fileList = (s.processes p).fileList.diff closed
  files : s.fs.Carries (filesOf closed) s'.fs

theorem System.Closes.refl (p : ℕ) (s : System) : s.Closes p [] s :=
  ⟨.refl p s, rfl, .of_eq rfl⟩

theorem System.Closes.cons {s' s'' : System} {entry : Int32 × ℕ} {closed : List (Int32 × ℕ)}
    (h : s.Closes p [entry] s') (h' : s'.Closes p closed s'') :
    s.Closes p (entry :: closed) s'' where
  toFilesOnly := h.toFilesOnly.trans h'.toFilesOnly
  list := by rw [h'.list, h.list, List.diff_cons, List.diff_cons, List.diff_nil]
  files := by
    have hsub {l : List (Int32 × ℕ)} (hl : l ⊆ entry :: closed) :
        filesOf l ⊆ filesOf (entry :: closed) := fun _ ⟨fd, hmem⟩ => ⟨fd, hl hmem⟩
    exact (h.files.mono (hsub (by simp))).trans (h'.files.mono (hsub (List.subset_cons_self _ _)))

/-- **The loop over the list of files.** By induction on what is left of it. -/
theorem System.Inv.closeFiles {entries : List (Int32 × ℕ)} (h : s.Inv careful blockSize)
    (hmem : ∀ entry ∈ entries, entry ∈ (s.processes p).fileList) (hnodup : entries.Nodup)
    (hcare : careful → (s.processes p).executable ≠ none → fd ≠ minFd ∧ fd ≠ closeAll)
    (hp : p < s.nextTid) : Ensures E s (closeFiles p fd entries) fun _ s' =>
      s'.Inv careful blockSize ∧ s.Closes p (closedEntries fd entries) s' := by
  induction entries generalizing s with
  | nil =>
    have hnone : closedEntries fd [] = [] := by
      unfold closedEntries
      split <;> rfl
    rw [hnone]
    exact .pure ⟨h, .refl p s⟩
  | cons entry rest ih =>
    obtain ⟨hnotMem, hnodup⟩ := List.nodup_cons.mp hnodup
    refine .ite (fun hfd => ?_) fun hfd => ?_
    · have hcare' : careful → (s.processes p).executable ≠ none → entry.1 ≠ minFd := by
        intro hcareful hexec
        obtain ⟨hmin, hall⟩ := hcare hcareful hexec
        exact (hfd.resolve_right hall) ▸ hmin
      refine (h.closeEntry (hmem entry List.mem_cons_self) hcare' hp).bind ?_
      rintro - - ⟨hinv, fs', hcarry, rfl⟩
      have hself := Function.update_self p { s.processes p with
        fileList := (s.processes p).fileList.erase entry } s.processes
      have hone : s.Closes p [entry] ({ s with fs := fs' }.update p fun process =>
          { process with fileList := process.fileList.erase entry }) :=
        ⟨⟨rfl, fun q hq => Function.update_of_ne hq .., _, hself⟩,
          (congrArg UserProcess.fileList hself).trans (by rw [List.diff_cons, List.diff_nil]),
          hcarry.mono fun file hfile => ⟨entry.1, hfile ▸ List.mem_singleton_self entry⟩⟩
      refine .ite (fun hfd' => .pure ⟨hinv, ?_⟩) fun hfd' => ?_
      · have hentry : closedEntries fd (entry :: rest) = [entry] := by
          unfold closedEntries
          rw [if_neg hfd', List.find?_cons_of_pos (by simpa using hfd.resolve_right hfd')]
          rfl
        rw [hentry]
        exact hone
      · have hall : closedEntries fd (entry :: rest) = entry :: closedEntries fd rest := by
          unfold closedEntries
          rw [if_pos (not_not.mp hfd'), if_pos (not_not.mp hfd')]
        rw [hall]
        refine (ih hinv (fun entry' he' => ?_) hnodup ?_ hp).mono
          fun _ _ ⟨hinv', hcloses⟩ => ⟨hinv', hone.cons hcloses⟩
        · have hne : entry' ≠ entry := fun heq => hnotMem (heq ▸ he')
          change entry' ∈ (Function.update s.processes p _ p).fileList
          rw [hself]
          exact (List.mem_erase_of_ne hne).mpr (hmem entry' (List.mem_cons_of_mem _ he'))
        · change careful → (Function.update s.processes p _ p).executable ≠ none → _
          rw [hself]
          exact hcare
    · obtain ⟨hfd, hall⟩ := not_or.mp hfd
      have hrest : closedEntries fd (entry :: rest) = closedEntries fd rest := by
        unfold closedEntries
        rw [if_neg hall, if_neg hall, List.find?_cons_of_neg (by simpa using hfd)]
      rw [hrest]
      exact ih h (fun entry' he' => hmem entry' (List.mem_cons_of_mem _ he')) hnodup hcare hp

theorem System.Inv.processCloseFile (h : s.Inv careful blockSize)
    (hcare : careful → (s.processes p).executable ≠ none → fd ≠ minFd ∧ fd ≠ closeAll)
    (hp : p < s.nextTid) : Ensures E s (processCloseFile p fd) fun _ s' =>
      s'.Inv careful blockSize ∧ s.Closes p (closedEntries fd (s.processes p).fileList) s' :=
  .get_bind (h.closeFiles (fun _ => id) (h.ok p).nodup.of_map hcare hp)

/-- **A file on no list gets a descriptor.** -/
theorem System.Inv.processAddFile (h : s.Inv careful blockSize) {file : ℕ}
    (hfile : ∃ f, s.fs.files[file]? = some (some f))
    (hnew : ∀ q, ∀ entry ∈ (s.processes q).fileList, entry.2 ≠ file)
    (hphase : (s.processes p).phase = .running) (hp : p < s.nextTid) :
    Ensures E s (processAddFile p file) fun _ s' => s'.Inv careful blockSize := by
  have hok := h.ok p
  unfold Pintos.processAddFile
  refine .get_bind (.modify_bind (.pure (h.update ?_ ?_ (h.parent p) hp)))
  · refine { hok with
      opened := fun entry hentry => ?_
      nodup := ?_
      unstarted := fun hunstarted => ?_
      guarded := fun hcareful sector hexec => ?_ }
    · rcases List.mem_append.mp hentry with hmem | hmem
      · exact hok.opened entry hmem
      · rw [List.mem_singleton.mp hmem]
        exact hfile
    · rw [List.map_append]
      refine List.Nodup.append hok.nodup (List.nodup_singleton _) ?_
      rw [List.map_singleton, List.disjoint_singleton]
      rintro hmem
      obtain ⟨entry, hentry, heq⟩ := List.mem_map.mp hmem
      exact hnew p entry hentry heq
    · change (s.processes p).phase.unstarted = true at hunstarted
      rw [hphase] at hunstarted
      cases hunstarted
    · obtain ⟨file', f, hmem, hf⟩ := hok.guarded hcareful sector hexec
      exact ⟨file', f, List.mem_append_left _ hmem, hf⟩
  · intro q hne entry hentry entry' hentry'
    rcases List.mem_append.mp hentry with hmem | hmem
    · exact h.apart p q hne entry hmem entry' hentry'
    · rw [List.mem_singleton.mp hmem]
      exact Ne.symm (hnew q entry' hentry')

/-- No list has a file that was not there when it was opened. -/
theorem System.Inv.ne_length (h : s.Inv careful blockSize) (q : ℕ) {entry : Int32 × ℕ}
    (hentry : entry ∈ (s.processes q).fileList) : entry.2 ≠ s.fs.files.length := by
  obtain ⟨f, hf⟩ := (h.ok q).opened entry hentry
  exact Nat.ne_of_lt (List.getElem?_eq_some_iff.mp hf).1

/-! ## Leaving -/

/-- Whether the record is listed depends on the parent. -/
theorem System.Inv.recordListed_congr {s' : System} (h : s.Inv careful blockSize)
    (hparent : (s'.processes p).parent = (s.processes p).parent)
    (hothers : ∀ q, q ≠ p → (s'.processes q).childList = (s.processes q).childList) :
    s'.recordListed p = s.recordListed p := by
  unfold System.recordListed
  rw [hparent]
  cases hq : (s.processes p).parent with
  | none => rfl
  | some q =>
    dsimp only
    rw [hothers q (Nat.ne_of_lt (h.parent p q hq))]

/-- **`process_exit`** needs the record of the process. -/
theorem System.Inv.processExit (h : s.Inv careful blockSize)
    (hphase : ∀ c, ¬ ((s.processes p).phase = .awaitingLoad c ∨ (s.processes p).phase = .waiting c))
    (hp : p < s.nextTid) (hpanic : s.recordListed p = false → E .freedRecord) :
    Ensures E s (processExit p) fun result s' =>
      s.recordListed p = true ∧ result = .exits ∧ s'.Inv careful blockSize := by
  let s₁ := s.update p fun process => { process with executable := none }
  have hself : s₁.processes p = { s.processes p with executable := none } :=
    Function.update_self ..
  have h₁ : s₁.Inv careful blockSize :=
    h.update_sub { h.ok p with guarded := fun _ _ hexec => by cases hexec } (fun _ => id)
      (.inl rfl) hp
  unfold Pintos.processExit
  refine .modify_bind ((h₁.processCloseFile (fun _ hexec => ?_) hp).bind ?_)
  · rw [hself] at hexec
    exact absurd rfl hexec
  · rintro - s₂ ⟨h₂, hcloses⟩
    have honly := hcloses.toFilesOnly
    obtain ⟨list, hlist⟩ := honly.self
    rw [hself] at hlist
    have hp₂ : p < s₂.nextTid := by
      rw [honly.nextTid]
      exact hp
    let s₃ := s₂.update p fun process => { process with childList := [] }
    have hself₃ : s₃.processes p = { s₂.processes p with childList := [] } :=
      Function.update_self ..
    have h₃ : s₃.Inv careful blockSize := by
      refine h₂.update_sub { h₂.ok p with awaited := fun c hc => ?_ } (fun _ => id) (.inl rfl) hp₂
      change (s₂.processes p).phase = _ ∨ (s₂.processes p).phase = _ at hc
      rw [hlist] at hc
      exact absurd hc (hphase c)
    have hlisted : s₃.recordListed p = s.recordListed p := by
      refine h.recordListed_congr ?_ fun q hq => ?_
      · rw [hself₃, hlist]
      · have hthird : s₃.processes q = s₂.processes q := Function.update_of_ne hq ..
        have hfirst : s₁.processes q = s.processes q := Function.update_of_ne hq ..
        rw [hthird, honly.others q hq, hfirst]
    refine .modify_bind (.get_bind (.ite (fun hyes => ?_) fun hno => .stop (hpanic ?_)))
    · refine .modify_bind (.modify_bind (.pure ⟨hlisted ▸ hyes, rfl, ?_⟩))
      exact (h₃.writeRecord p _).update_sub .blank nofun (.inr rfl) hp₂
    · rw [← hlisted]
      exact Bool.eq_false_iff.mpr hno

/-- **`exit`** needs it too. -/
theorem System.Inv.exit (h : s.Inv careful blockSize) (hphase : (s.processes p).phase = .running)
    (status : Int32) (hpanic : s.recordListed p = false → E .freedRecord) :
    Ensures E s (exit p status) fun result s' =>
      s.recordListed p = true ∧ result = .exits ∧ s'.Inv careful blockSize := by
  have hp : p < s.nextTid := h.lt_nextTid (by rw [hphase]; exact nofun)
  unfold Pintos.exit
  refine .get_bind (.ite (fun hyes => .modify_bind ?_) fun hno =>
    .stop (hpanic (Bool.eq_false_iff.mpr hno)))
  refine (h.writeRecord p _).processExit (fun c hc => ?_) hp hpanic
  change (s.processes p).phase = _ ∨ (s.processes p).phase = _ at hc
  rw [hphase] at hc
  rcases hc with hc | hc <;> cases hc

/-! ## Executing a program -/

theorem System.Inv.threadCreate (h : s.Inv careful blockSize) (hp : p < s.nextTid)
    (name line : CString) (status : Int32) :
    Ensures E s (threadCreate p name line status) fun child s' => s'.Inv careful blockSize
      ∧ child ∈ (s'.processes p).childList ∧ p < s'.nextTid := by
  let child := s.nextTid
  let records := Function.update s.records child ⟨.notLoaded, false, false, status⟩
  let s₀ : System := { s with records := records, nextTid := child + 1 }
  have h₀ : s₀.Inv careful blockSize :=
    { h with fresh := fun q hq => h.fresh q (Nat.le_of_succ_le hq) }
  let s₁ := s₀.update child fun _ =>
    { UserProcess.blank with parent := some p, phase := .loading name line }
  have h₁ : s₁.Inv careful blockSize := by
    refine h₀.update ?_ (fun _ _ _ hentry => by cases hentry) (fun q hq => ?_) (Nat.lt_succ_self _)
    · refine { UserProcess.Ok.blank with
        awaited := fun c hc => ?_
        unstarted := fun _ => ⟨rfl, rfl⟩ }
      rcases hc with hc | hc <;> cases hc
    · cases hq
      exact hp
  have hprocess : s₁.processes p = s.processes p := Function.update_of_ne (Nat.ne_of_lt hp) ..
  have hp₁ : p < s₁.nextTid := Nat.lt_succ_of_lt hp
  unfold Pintos.threadCreate
  refine .get_bind (.modify_bind (.modify_bind (.pure ⟨?_, ?_, hp₁⟩)))
  · refine h₁.update_sub ?_ (fun _ => id) (.inl rfl) hp₁
    exact (h₁.ok p).goto _ id fun c hc => List.mem_append_left _ ((h₁.ok p).awaited c hc)
  · change child ∈ (Function.update s₁.processes p _ p).childList
    rw [Function.update_self]
    exact List.mem_append_right _ (List.mem_singleton_self _)

/-- The end of `exec` needs a record for the number it is given. -/
theorem System.Inv.execEnd (h : s.Inv careful blockSize) (hp : p < s.nextTid) {childTid : ℤ}
    (hpanic : s.getChildProcess p childTid = none → E .nullRecord) :
    Ensures E s (execEnd p childTid) fun result s' =>
      (∃ eax, result = .returns eax) ∧ s.getChildProcess p childTid ≠ none
        ∧ s'.Inv careful blockSize := by
  unfold Pintos.execEnd
  refine .get_bind ?_
  cases hchild : s.getChildProcess p childTid with
  | none => exact .stop (hpanic hchild)
  | some c =>
    refine .modify_bind (.pure ⟨⟨_, rfl⟩, nofun, h.goto hp nofun fun c hc => ?_⟩)
    rcases hc with hc | hc <;> cases hc

/-- **`exec` of a command line** needs memory and the name of a program. -/
theorem System.Inv.exec (h : s.Inv careful blockSize) (hp : p < s.nextTid) (cmdLine : CString)
    {memory : ExecMemory}
    (hpanic : ∀ e, ¬ ((firstToken (pageCopy cmdLine)).isSome ∧ ∃ status, memory = .enough status) →
      E e) : Ensures E s (exec p cmdLine memory) fun result s' => s'.Inv careful blockSize
      ∧ (result ≠ .hangs ↔
        (firstToken (pageCopy cmdLine)).isSome ∧ ∃ status, memory = .enough status) := by
  cases memory with
  | noCopy =>
    have hnone : s.getChildProcess p tidError = none := by
      refine List.find?_eq_none.mpr fun c _ hc => ?_
      have hc : (c : ℤ) = -1 := of_decide_eq_true hc
      omega
    refine (h.execEnd hp fun _ => hpanic _ fun hboth => ?_).mono ?_
    · obtain ⟨-, status, hmemory⟩ := hboth
      cases hmemory
    rintro - - ⟨-, hsome, -⟩
    exact absurd hnone hsome
  | noThread =>
    refine .modify_bind (.pure ⟨h.goto hp (fun hc => by cases hc) fun c hc => ?_,
      fun hne => absurd rfl hne, fun hboth => ?_⟩)
    · rcases hc with hc | hc <;> cases hc
    · obtain ⟨-, status, hmemory⟩ := hboth
      cases hmemory
  | enough status =>
    unfold Pintos.exec
    dsimp only
    cases htoken : firstToken (pageCopy cmdLine) with
    | none =>
      refine .stop (hpanic _ fun hboth => ?_)
      rw [htoken] at hboth
      cases hboth.1
    | some name =>
      refine (h.threadCreate hp name _ status).bind ?_
      rintro child s₁ ⟨h₁, hchild, hp₁⟩
      refine .modify_bind (.pure ⟨h₁.goto hp₁ (fun hc => by cases hc) fun c hc => ?_, ?_⟩)
      · rcases hc with hc | hc <;> cases hc
        exact hchild
      · exact ⟨fun _ => ⟨rfl, status, rfl⟩, fun _ hhangs => by cases hhangs⟩

/-- A file is opened, and closed again. -/
theorem System.Inv.load (h : s.Inv careful blockSize) (name : CString) (page good : Bool) :
    Ensures E s (load name page good) fun _ s' => s'.Inv careful blockSize
      ∧ ∃ fs', s' = { s with fs := fs' } := by
  unfold Pintos.load
  refine .ite (fun _ => ?_) fun _ => .pure ⟨h, s.fs, rfl⟩
  refine Ensures.bind (h.sound.filesysOpen name).inside ?_
  rintro file - ⟨fs₁, ⟨-, hsound₁, hopened⟩, rfl⟩
  cases file with
  | none => exact .pure ⟨h.setFs hsound₁ (.of_eq hopened) fun _ _ _ => Set.notMem_empty _, fs₁, rfl⟩
  | some file =>
    obtain ⟨rfl, inode, hfiles⟩ := hopened
    have hf : fs₁.files[s.fs.files.length]? = some (some ⟨inode, 0, false⟩) := by
      rw [hfiles, List.getElem?_concat_length]
    refine Ensures.bind (hsound₁.fileClose hf).inside ?_
    rintro - - ⟨fs₂, ⟨hsound₂, hfiles₂⟩, rfl⟩
    have hcarry : s.fs.Carries {s.fs.files.length} fs₂ :=
      (Filesys.Carries.of_append hfiles).trans (.of_set (Set.mem_singleton _) hfiles₂)
    have hinv := h.setFs hsound₂ hcarry fun q entry hentry => h.ne_length q hentry
    exact .pure ⟨hinv, fs₂, rfl⟩

/-- **`start_process`**, as far as the parent waits for it. -/
theorem System.Inv.startProcess (h : s.Inv careful blockSize) {name line : CString}
    (hphase : (s.processes p).phase = .loading name line) (page good : Bool)
    (hpanic : ∀ e, ¬ (4 * (words line.bytes).length ≤ allocatedBytes (line.strlen + 1)
      ∧ s.recordListed p = true) → E e) :
    Ensures E s (startProcess p name line page good) fun _ s' =>
      (4 * (words line.bytes).length ≤ allocatedBytes (line.strlen + 1)
        ∧ s.recordListed p = true) ∧ s'.Inv careful blockSize := by
  have hp : p < s.nextTid := h.lt_nextTid (by rw [hphase]; exact nofun)
  unfold Pintos.startProcess
  refine .ite (fun hmany => .stop (hpanic _ fun hboth => hmany.not_ge hboth.1)) fun hroom => ?_
  have hroom := not_lt.mp hroom
  refine (h.load name page good).bind ?_
  rintro success - ⟨h₁, fs', rfl⟩
  refine .get_bind (.ite (fun hyes => ?_) fun hno => .stop (hpanic _ fun hboth => hno hboth.2))
  refine .ite (fun _ => ?_) fun _ => ?_
  · refine .modify_bind (.modify_bind (.pure ⟨⟨hroom, hyes⟩,
      (h₁.writeRecord p _).goto hp (fun _ => ?_) fun c hc => ?_⟩))
    · change (s.processes p).phase.unstarted = true
      rw [hphase]
      rfl
    · rcases hc with hc | hc <;> cases hc
  · refine .modify_bind (((h₁.writeRecord p _).processExit (fun c hc => ?_) hp fun hno => ?_).mono
      fun _ _ hexit => ⟨⟨hroom, hyes⟩, hexit.2.2⟩)
    rotate_left
    · exact absurd hyes (Bool.eq_false_iff.mp hno)
    change (s.processes p).phase = _ ∨ (s.processes p).phase = _ at hc
    rw [hphase] at hc
    rcases hc with hc | hc <;> cases hc

/-- **The executable is opened and writes to it are denied.** There has to be a file of
that name still, and room for the arguments on the stack. -/
theorem System.Inv.denyExecutable (h : s.Inv careful blockSize) {name line : CString}
    (hphase : (s.processes p).phase = .starting name line)
    (hpanic : ∀ e, ¬ (s.fs.findEntry name ≠ none ∧ imageSize (words line.bytes) ≤ pgSize) → E e) :
    Ensures E s (denyExecutable p name line) fun _ s' =>
      (s.fs.findEntry name ≠ none ∧ imageSize (words line.bytes) ≤ pgSize)
        ∧ s'.Inv careful blockSize
        ∧ (s'.processes p).phase = .running ∧ (s'.processes p).fd = minFd + 1
        ∧ (s'.processes p).fileList = [(minFd, s.fs.files.length)] := by
  have hp : p < s.nextTid := h.lt_nextTid (by rw [hphase]; exact nofun)
  obtain ⟨hempty, hfd⟩ := (h.ok p).unstarted (by rw [hphase]; rfl)
  unfold Pintos.denyExecutable
  refine Ensures.bind (h.sound.filesysOpen name).inside ?_
  rintro file - ⟨fs₁, ⟨hfound, hsound₁, hopened⟩, rfl⟩
  cases file with
  | none => exact .stop (hpanic _ fun hboth => hboth.1 (hfound.mp rfl))
  | some file =>
    have hsome : s.fs.findEntry name ≠ none := fun hnone => nomatch hfound.mpr hnone
    obtain ⟨rfl, inode, hfiles⟩ := hopened
    have hf : fs₁.files[s.fs.files.length]? = some (some ⟨inode, 0, false⟩) := by
      rw [hfiles, List.getElem?_concat_length]
    let add (process : UserProcess) : UserProcess :=
      { process with fileList := process.fileList ++ [((s.processes p).fd, s.fs.files.length)]
                     fd := process.fd + 1 }
    refine Ensures.bind (Q := fun _ s' => s' = { s with fs := fs₁ }.update p add)
      (.get_bind (.modify_bind (.pure rfl))) ?_
    rintro fd - rfl
    refine Ensures.bind (hsound₁.fileDenyWrite hf rfl).inside ?_
    rintro - - ⟨fs₂, ⟨hsound₂, hfiles₂⟩, rfl⟩
    have hf₂ : fs₂.files[s.fs.files.length]? = some (some ⟨inode, 0, true⟩) := by
      rw [hfiles₂, List.getElem?_set_self (List.getElem?_eq_some_iff.mp hf).1]
    have hcarry : s.fs.Carries {s.fs.files.length} fs₂ :=
      (Filesys.Carries.of_append hfiles).trans (.of_set (Set.mem_singleton _) hfiles₂)
    have hinv := h.setFs hsound₂ hcarry fun q entry hentry => h.ne_length q hentry
    have hfileOf : Ensures (fun e => E (.filesys e)) fs₂ (fileOf s.fs.files.length) fun f fs' =>
      f = ⟨inode, 0, true⟩ ∧ fs' = fs₂ := .ok (Filesys.Inv.fileOf_eq hf₂) ⟨rfl, rfl⟩
    refine Ensures.bind hfileOf.inside ?_
    rintro f - ⟨fs', ⟨rfl, rfl⟩, rfl⟩
    let enter (process : UserProcess) : UserProcess :=
      { process with phase := .running, executable := some inode }
    have hlist : (s.processes p).fileList ++ [((s.processes p).fd, s.fs.files.length)]
        = [(minFd, s.fs.files.length)] := by
      rw [hempty, hfd]
      rfl
    have hself : (({ s with fs := fs' }.update p add).update p enter).processes p
        = enter (add (s.processes p)) := by
      rw [System.update_update]
      exact Function.update_self ..
    refine .ite (fun hlong => .stop (hpanic _ fun hboth => hlong.not_ge hboth.2)) fun hfits => ?_
    refine .modify_bind (.pure ⟨⟨hsome, not_lt.mp hfits⟩, ?_, congrArg UserProcess.phase hself,
      ?_, ?_⟩)
    rotate_left
    · exact (congrArg UserProcess.fd hself).trans (congrArg (· + 1) hfd)
    · exact (congrArg UserProcess.fileList hself).trans hlist
    change (({ s with fs := fs' }.update p add).update p enter).Inv careful blockSize
    rw [System.update_update]
    refine hinv.update ?_ (fun q _ entry hentry entry' hentry' => ?_) (h.parent p) hp
    · refine ⟨fun entry hentry => ?_, ?_, fun c hc => ?_, nofun, fun _ sector hexec => ?_⟩
      · change entry ∈ (s.processes p).fileList ++ _ at hentry
        rw [hlist] at hentry
        rw [List.mem_singleton.mp hentry]
        exact ⟨_, hf₂⟩
      · change (((s.processes p).fileList ++ _).map Prod.snd).Nodup
        rw [hlist]
        exact List.nodup_singleton _
      · rcases hc with hc | hc <;> cases hc
      · cases hexec
        refine ⟨s.fs.files.length, _, ?_, hf₂, rfl, rfl⟩
        change _ ∈ (s.processes p).fileList ++ _
        rw [hlist]
        exact List.mem_singleton_self _
    · change entry ∈ (s.processes p).fileList ++ _ at hentry
      rw [hlist] at hentry
      rw [List.mem_singleton.mp hentry]
      exact Ne.symm (h.ne_length q hentry')

/-! ## Waiting -/

theorem System.Inv.processWait (h : s.Inv careful blockSize) (hp : p < s.nextTid) (childTid : ℤ) :
    Ensures E s (processWait p childTid) fun result s' =>
      result ≠ .hangs ∧ s'.Inv careful blockSize := by
  unfold Pintos.processWait
  refine .get_bind ?_
  cases hchild : s.getChildProcess p childTid with
  | none => exact .pure ⟨nofun, h⟩
  | some c =>
    refine .ite (fun _ => .pure ⟨nofun, h⟩) fun _ => .modify_bind ?_
    have h₁ := h.writeRecord c fun record => { record with waited := true }
    refine .ite (fun _ => .pure ⟨nofun, h₁⟩) fun _ => .modify_bind (.pure ⟨nofun, ?_⟩)
    refine h₁.goto hp nofun fun c' hc => ?_
    rcases hc with hc | hc <;> cases hc
    exact List.mem_of_find?_eq_some hchild

theorem System.Inv.waitEnd (h : s.Inv careful blockSize) (hp : p < s.nextTid) (c : ℕ) :
    Ensures E s (waitEnd p c) fun result s' =>
      (∃ eax, result = .returns eax) ∧ s'.Inv careful blockSize := by
  unfold Pintos.waitEnd
  refine .get_bind (.modify_bind (.pure ⟨⟨_, rfl⟩, ?_⟩))
  refine h.update_sub ((h.ok p).goto _ nofun fun c hc => ?_) (fun _ => id) (.inl rfl) hp
  rcases hc with hc | hc <;> cases hc

/-- **A call that has waited returns.** -/
theorem System.Inv.resume (h : s.Inv careful blockSize)
    (hphase : ∃ c, (s.processes p).phase = .awaitingLoad c ∨ (s.processes p).phase = .waiting c) :
    Ensures E s (resume p) fun result s' =>
      (∃ eax, result = .returns eax) ∧ s'.Inv careful blockSize := by
  have hp : p < s.nextTid := h.lt_nextTid fun habsent => by
    obtain ⟨c, hc | hc⟩ := hphase <;> rw [habsent] at hc <;> cases hc
  unfold Pintos.resume
  refine .get_bind ?_
  obtain ⟨c, hc | hc⟩ := hphase
  · rw [hc]
    refine (h.execEnd hp fun hnone => ?_).mono fun _ _ hend => ⟨hend.1, hend.2.2⟩
    have hmem := (h.ok p).awaited c (.inl hc)
    exact absurd (decide_eq_true rfl) (List.find?_eq_none.mp hnone c hmem)
  · rw [hc]
    exact h.waitEnd hp c

end

end Pintos
