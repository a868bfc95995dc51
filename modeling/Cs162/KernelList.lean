import Mathlib.Data.List.Sort

/-!
# The kernel's lists, as sequences

The lists of the kernel library are kept in order by a comparison function
`less` that their users supply. The operations are given here on the sequence
of the elements, over an arbitrary type: insertion in front of the first
larger element, the natural merge sort, and the search for a maximum. Loops
run with a bound on their number of iterations, which their callers take from
the length of the list.
-/

namespace KernelList

variable {α : Type*}

/-- `list_insert_ordered`: the element goes in front of the first one it is
less than, or to the end. -/
def listInsertOrdered (less : α → α → Bool) (elem : α) (list : List α) : List α :=
  list.orderedInsert (fun a b => less a b = true) elem

/-- `find_end_of_run`: the rest of the run that starts with the given element,
and what follows the run. -/
def findEndOfRun (less : α → α → Bool) : α → List α → List α × List α
  | _, [] => ([], [])
  | a, b :: list =>
    if less b a then ([], b :: list)
    else ((b :: (findEndOfRun less b list).1), (findEndOfRun less b list).2)

/-- `inplace_merge`: an element of the second run goes in front of the first
run's next one only if it is less than that. -/
def inplaceMerge (less : α → α → Bool) : ℕ → List α → List α → List α
  | n + 1, a :: as, b :: bs =>
    if less b a then b :: inplaceMerge less n (a :: as) bs
    else a :: inplaceMerge less n as (b :: bs)
  | _, as, bs => as ++ bs

/-- One pass of `list_sort`: each two adjacent runs are merged; with the
number of runs put out. -/
def mergePass (less : α → α → Bool) : ℕ → List α → List α × ℕ
  | n + 1, a :: list =>
    match findEndOfRun less a list with
    | (run, []) => (a :: run, 1)
    | (run, b :: list) =>
      let second := b :: (findEndOfRun less b list).1
      let rest := mergePass less n (findEndOfRun less b list).2
      (inplaceMerge less (run.length + 1 + second.length) (a :: run) second ++ rest.1,
        rest.2 + 1)
  | _, list => (list, 0)

/-- The loop of `list_sort`: passes are made until one puts out a single
run. -/
def sortLoop (less : α → α → Bool) : ℕ → List α → List α
  | 0, list => list
  | n + 1, list =>
    match mergePass less list.length list with
    | (list, runs) => if runs > 1 then sortLoop less n list else list

/-- `list_sort`: a natural merge sort. -/
def listSort (less : α → α → Bool) (list : List α) : List α :=
  sortLoop less list.length list

/-- `list_max`: the element the search stays with, `none` for the end of an
empty list. -/
def listMax (less : α → α → Bool) : List α → Option α
  | [] => none
  | a :: list => some (list.foldl (fun max e => if less max e then e else max) a)

example : listSort (fun a b : ℕ => decide (a > b)) [3, 1, 4, 1, 5, 9, 2, 6]
    = [9, 6, 5, 4, 3, 2, 1, 1] := by decide

variable {less : α → α → Bool} {elem : α} {list : List α}

@[simp] theorem mem_listInsertOrdered {a : α} :
    a ∈ listInsertOrdered less elem list ↔ a = elem ∨ a ∈ list :=
  List.mem_orderedInsert _

theorem perm_listInsertOrdered : (listInsertOrdered less elem list).Perm (elem :: list) :=
  List.perm_orderedInsert _ _ _

theorem nodup_listInsertOrdered :
    (listInsertOrdered less elem list).Nodup ↔ elem ∉ list ∧ list.Nodup := by
  rw [perm_listInsertOrdered.nodup_iff, List.nodup_cons]

/-- **Insertion keeps a list in order**: the list is ordered by a transitive
relation that puts the element before those it is less than and behind the
others. -/
theorem pairwise_listInsertOrdered {r : α → α → Prop} (htrans : ∀ a b c, r a b → r b c → r a c)
    (hless : ∀ a ∈ list, less elem a = true → r elem a)
    (hge : ∀ a ∈ list, less elem a = false → r a elem) (hlist : list.Pairwise r) :
    (listInsertOrdered less elem list).Pairwise r := by
  unfold listInsertOrdered
  induction list with
  | nil => exact List.pairwise_singleton _ _
  | cons a list ih =>
    obtain ⟨hall, hlist⟩ := List.pairwise_cons.mp hlist
    rw [List.orderedInsert_cons]
    split
    · rename_i h
      have ha := hless a (by simp) h
      refine List.pairwise_cons.mpr ⟨?_, List.pairwise_cons.mpr ⟨hall, hlist⟩⟩
      intro b hb
      rcases List.mem_cons.mp hb with rfl | hb
      · exact ha
      · exact htrans _ _ _ ha (hall b hb)
    · rename_i h
      refine List.pairwise_cons.mpr ⟨?_, ih (fun b hb => hless b (by simp [hb]))
        (fun b hb => hge b (by simp [hb])) hlist⟩
      intro b hb
      rcases (List.mem_orderedInsert _).mp hb with rfl | hb
      · exact hge a (by simp) (by simpa using h)
      · exact hall b hb

/-- What is left of an ordered list after that front is what does not have the property. -/
theorem dropWhile_of_pairwise {r : α → α → Prop} {p : α → Bool} (hlist : list.Pairwise r)
    (hp : ∀ a b, r a b → p b = true → p a = true) :
    list.dropWhile p = list.filter fun a => !p a := by
  induction list with
  | nil => rfl
  | cons a list ih =>
    obtain ⟨hall, hlist⟩ := List.pairwise_cons.mp hlist
    cases ha : p a with
    | true =>
      rw [List.dropWhile_cons_of_pos ha, ih hlist, List.filter_cons_of_neg (by simp [ha])]
    | false =>
      have hnone : ∀ b ∈ a :: list, (!p b) = true := by
        intro b hb
        rcases List.mem_cons.mp hb with rfl | hb
        · rw [ha]
          rfl
        · rw [Bool.not_eq_true_eq_eq_false, Bool.eq_false_iff]
          intro hpb
          exact Bool.false_ne_true (ha.symm.trans (hp a b (hall b hb) hpb))
      rw [List.dropWhile_cons_of_neg (by simp [ha]), List.filter_eq_self.mpr hnone]

theorem mem_of_listMax {a : α} (h : listMax less list = some a) : a ∈ list := by
  match list with
  | [] => cases h
  | b :: list =>
    obtain rfl := Option.some.inj h
    induction list generalizing b with
    | nil => exact List.mem_singleton_self b
    | cons c list ih =>
      rw [List.foldl_cons]
      split
      · exact List.mem_cons_of_mem b (ih c rfl)
      · rcases List.mem_cons.mp (ih b rfl) with heq | hmem
        · rw [heq]
          exact List.mem_cons_self
        · exact List.mem_cons_of_mem b (List.mem_cons_of_mem c hmem)

/-! ## Sorting rearranges -/

theorem findEndOfRun_append (less : α → α → Bool) (a : α) (list : List α) :
    (findEndOfRun less a list).1 ++ (findEndOfRun less a list).2 = list := by
  induction list generalizing a with
  | nil => rfl
  | cons b list ih =>
    rw [findEndOfRun]
    split
    · rfl
    · exact congrArg (b :: ·) (ih b)

theorem perm_inplaceMerge (less : α → α → Bool) (n : ℕ) (as bs : List α) :
    (inplaceMerge less n as bs).Perm (as ++ bs) := by
  induction n generalizing as bs with
  | zero => rw [inplaceMerge]; simp
  | succ n ih =>
    match as, bs with
    | [], bs => rw [inplaceMerge]; simp
    | a :: as, [] => rw [inplaceMerge]; simp
    | a :: as, b :: bs =>
      rw [inplaceMerge]
      split
      · exact ((ih (a :: as) bs).cons b).trans List.perm_middle.symm
      · exact (ih as (b :: bs)).cons a

theorem perm_mergePass (less : α → α → Bool) (n : ℕ) (list : List α) :
    (mergePass less n list).1.Perm list := by
  induction n generalizing list with
  | zero => exact .refl list
  | succ n ih =>
    match list with
    | [] => exact .refl []
    | a :: list =>
      rw [mergePass]
      have hfirst := findEndOfRun_append less a list
      split
      · rename_i run hrun
        rw [hrun, List.append_nil] at hfirst
        rw [← hfirst]
      · rename_i run b rest hrun
        rw [hrun] at hfirst
        have hsecond := findEndOfRun_append less b rest
        refine ((perm_inplaceMerge ..).append (ih _)).trans ?_
        rw [← hfirst, List.append_assoc, List.cons_append, List.cons_append, hsecond]

theorem perm_sortLoop (less : α → α → Bool) (n : ℕ) (list : List α) :
    (sortLoop less n list).Perm list := by
  induction n generalizing list with
  | zero => exact .refl list
  | succ n ih =>
    have hpass := perm_mergePass less list.length list
    rw [sortLoop]
    split
    rename_i list' runs hlist'
    rw [hlist'] at hpass
    split
    · exact (ih list').trans hpass
    · exact hpass

/-- **Sorting keeps the elements.** -/
theorem perm_listSort (less : α → α → Bool) (list : List α) : (listSort less list).Perm list :=
  perm_sortLoop less _ list

end KernelList
