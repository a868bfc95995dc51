import Cs162.KernelList
import Cs162.Query

/-!
# The assertions of `list_sort`

`list_sort` checks its own work: each merge asserts that its two runs are
sorted, and the end of the sort that the list is. Here the sort with its
assertions is a program of comparisons, so that it can be run in one go or be
interrupted between any two of them. A failed assertion, or a sort that does
not come to an end, is the result `none`.

Run against a fixed comparison function, the assertions of the merges hold for
whatever function it is (`run_mergePassQuery`): the runs were found by the same
comparisons. The last one does not, and neither does the sort end for every
function. Both do for a strict weak order (`run_listSortQuery`).
-/

namespace KernelList

variable {α : Type}

/-! ## The programs -/

/-- `is_sorted`. -/
def isSortedQuery : List α → Query α Bool
  | a :: b :: list => .ask b a fun less => if less then .done false else isSortedQuery (b :: list)
  | _ => .done true

/-- `find_end_of_run`. -/
def findEndOfRunQuery : α → List α → Query α (List α × List α)
  | _, [] => .done ([], [])
  | a, b :: list => .ask b a fun less =>
    if less then .done ([], b :: list)
    else (findEndOfRunQuery b list).map fun r => (b :: r.1, r.2)

/-- The loop of `inplace_merge`. -/
def mergeQuery : ℕ → List α → List α → Query α (List α)
  | n + 1, a :: as, b :: bs => .ask b a fun less =>
    if less then (mergeQuery n (a :: as) bs).map (b :: ·)
    else (mergeQuery n as (b :: bs)).map (a :: ·)
  | _, as, bs => .done (as ++ bs)

/-- `inplace_merge`, with its assertions. -/
def inplaceMergeQuery (as bs : List α) : Query α (Option (List α)) :=
  (isSortedQuery as).bind fun first => (isSortedQuery bs).bind fun second =>
    if first && second then (mergeQuery (as.length + bs.length) as bs).map some else .done none

/-- One pass of `list_sort`. -/
def mergePassQuery : ℕ → List α → Query α (Option (List α × ℕ))
  | n + 1, a :: list =>
    (findEndOfRunQuery a list).bind fun first =>
      match first with
      | (run, []) => .done (some (a :: run, 1))
      | (run, b :: list) =>
        (findEndOfRunQuery b list).bind fun second =>
          (inplaceMergeQuery (a :: run) (b :: second.1)).bind fun merged =>
            match merged with
            | none => .done none
            | some merged =>
              (mergePassQuery n second.2).map
                (Option.map fun rest => (merged ++ rest.1, rest.2 + 1))
  | _, list => .done (some (list, 0))

/-- The loop of `list_sort`, with the assertion behind it. -/
def sortLoopQuery : ℕ → List α → Query α (Option (List α))
  | 0, _ => .done none
  | n + 1, list =>
    (mergePassQuery list.length list).bind fun pass =>
      match pass with
      | none => .done none
      | some (list, runs) =>
        if runs > 1 then sortLoopQuery n list
        else (isSortedQuery list).map fun sorted => if sorted then some list else none

/-- `list_sort`, with its assertions. -/
def listSortQuery (list : List α) : Query α (Option (List α)) :=
  sortLoopQuery (list.length + 1) list

/-! ## What they return -/

section

variable (less : α → α → Bool)

/-- **In order**, as `is_sorted` has it: no element is less than the one
before it. -/
def Sorted (list : List α) : Prop := list.IsChain fun a b => less b a = false

theorem run_isSortedQuery (list : List α) :
    (isSortedQuery list).run less = true ↔ Sorted less list := by
  unfold Sorted
  induction list with
  | nil => simp [isSortedQuery]
  | cons a list ih =>
    cases list with
    | nil => simp [isSortedQuery]
    | cons b list =>
      rw [isSortedQuery, Query.run_ask, List.isChain_cons_cons, ← ih]
      cases less b a <;> simp

theorem run_findEndOfRunQuery (a : α) (list : List α) :
    (findEndOfRunQuery a list).run less = findEndOfRun less a list := by
  induction list generalizing a with
  | nil => rfl
  | cons b list ih =>
    rw [findEndOfRunQuery, findEndOfRun, Query.run_ask]
    cases less b a
    · simp [ih]
    · rfl

theorem run_mergeQuery (n : ℕ) (as bs : List α) :
    (mergeQuery n as bs).run less = inplaceMerge less n as bs := by
  induction n generalizing as bs with
  | zero => rw [mergeQuery, inplaceMerge] <;> simp
  | succ n ih =>
    cases as with
    | nil => rw [mergeQuery, inplaceMerge] <;> simp
    | cons a as =>
      cases bs with
      | nil => rw [mergeQuery, inplaceMerge] <;> simp
      | cons b bs =>
        rw [mergeQuery, inplaceMerge, Query.run_ask]
        cases less b a <;> simp [ih]

theorem sorted_findEndOfRun (a : α) (list : List α) :
    Sorted less (a :: (findEndOfRun less a list).1) := by
  unfold Sorted
  induction list generalizing a with
  | nil => exact List.isChain_singleton a
  | cons b list ih =>
    rw [findEndOfRun]
    cases hless : less b a
    · exact List.isChain_cons_cons.mpr ⟨hless, ih b⟩
    · exact List.isChain_singleton a

/-- **The assertions of the merges hold** for every comparison function. -/
theorem run_mergePassQuery (n : ℕ) (list : List α) :
    (mergePassQuery n list).run less = some (mergePass less n list) := by
  induction n generalizing list with
  | zero => cases list <;> rfl
  | succ n ih =>
    cases list with
    | nil => rfl
    | cons a list =>
      have hfirst := sorted_findEndOfRun less a list
      rw [mergePassQuery, mergePass, Query.run_bind, run_findEndOfRunQuery]
      split
      · rename_i run hrun
        rw [hrun]
        rfl
      · rename_i run b rest hrun
        rw [hrun] at hfirst
        have hsecond := sorted_findEndOfRun less b rest
        rw [hrun]
        dsimp only
        rw [Query.run_bind, run_findEndOfRunQuery, Query.run_bind, inplaceMergeQuery,
          Query.run_bind, Query.run_bind, (run_isSortedQuery less _).mpr hfirst,
          (run_isSortedQuery less _).mpr hsecond]
        simp [run_mergeQuery, ih]

/-! ## Sorting ends and sorts -/

/-- The elements that are less than the one before them. -/
def descents : List α → ℕ
  | a :: b :: list => (if less b a then 1 else 0) + descents (b :: list)
  | _ => 0

theorem descents_eq_zero_iff (list : List α) : descents less list = 0 ↔ Sorted less list := by
  unfold Sorted
  induction list with
  | nil => simp [descents]
  | cons a list ih =>
    cases list with
    | nil => simp [descents]
    | cons b list =>
      rw [descents, List.isChain_cons_cons, ← ih]
      cases less b a <;> simp

theorem descents_cons_le (a : α) (list : List α) : descents less (a :: list) ≤ list.length := by
  induction list generalizing a with
  | nil => exact le_rfl
  | cons b list ih =>
    have := ih b
    rw [descents, List.length_cons]
    split <;> omega

theorem descents_append_le (as bs : List α) :
    descents less (as ++ bs) ≤ descents less as + descents less bs + 1 := by
  induction as with
  | nil =>
    rw [List.nil_append]
    omega
  | cons a as ih =>
    cases as with
    | nil =>
      cases bs with
      | nil => exact Nat.zero_le _
      | cons b bs =>
        rw [List.cons_append, List.nil_append, descents]
        split <;> omega
    | cons a' as =>
      rw [List.cons_append, List.cons_append, descents, descents]
      rw [List.cons_append] at ih
      omega

/-- A run ends at a descent. -/
theorem descents_findEndOfRun (a : α) (list : List α) :
    descents less (a :: list) = descents less (findEndOfRun less a list).2
      + if (findEndOfRun less a list).2 = [] then 0 else 1 := by
  induction list generalizing a with
  | nil => rfl
  | cons b list ih =>
    rw [findEndOfRun, descents]
    cases hless : less b a
    · simp [ih b]
    · simp [Nat.add_comm]

end

/-- With enough iterations the loop of `inplace_merge` is the merge of the library. -/
theorem inplaceMerge_eq_merge {less : α → α → Bool} {n : ℕ} {as bs : List α}
    (hn : as.length + bs.length ≤ n) :
    inplaceMerge less n as bs = List.merge as bs fun a b => !less b a := by
  induction n generalizing as bs with
  | zero =>
    obtain rfl : as = [] := List.length_eq_zero_iff.mp (by omega)
    rw [inplaceMerge] <;> simp
  | succ n ih =>
    cases as with
    | nil => rw [inplaceMerge] <;> simp
    | cons a as =>
      cases bs with
      | nil => rw [inplaceMerge] <;> simp
      | cons b bs =>
        simp only [List.length_cons] at hn
        rw [inplaceMerge, List.cons_merge_cons]
        cases less b a
        · simp [ih (show as.length + (b :: bs).length ≤ n by simp; omega)]
        · simp [ih (show (a :: as).length + bs.length ≤ n by simp; omega)]

@[simp] theorem mergePass_nil (less : α → α → Bool) (n : ℕ) : mergePass less n [] = ([], 0) := by
  cases n <;> rfl

theorem mergePass_pos (less : α → α → Bool) {n : ℕ} {list : List α} (hne : list ≠ [])
    (hn : list.length ≤ n) : 0 < (mergePass less n list).2 := by
  match n, list with
  | _, [] => exact absurd rfl hne
  | 0, a :: list => simp at hn
  | n + 1, a :: list =>
    rw [mergePass]
    split <;> simp

/-- **A strict weak order**: asymmetric, and what is not less in two steps is
not less in one. -/
structure StrictWeak (less : α → α → Bool) : Prop where
  asymm : ∀ a b, less a b = true → less b a = false
  trans : ∀ a b c, less b a = false → less c b = false → less c a = false

/-- Neither of two elements is less than the other. -/
def equivalent (less : α → α → Bool) (a b : α) : Bool := !less a b && !less b a

/-- The order by a key, the greatest first, is one. -/
theorem strictWeak_key {β : Type} [LinearOrder β] (key : α → β) :
    StrictWeak fun a b => decide (key a > key b) where
  asymm a b hab := decide_eq_false (of_decide_eq_true hab).le.not_gt
  trans a b c hab hbc := by
    have hle : key c ≤ key a :=
      (not_lt.mp (of_decide_eq_false hbc)).trans (not_lt.mp (of_decide_eq_false hab))
    exact decide_eq_false hle.not_gt

section

variable {less : α → α → Bool} (h : StrictWeak less)

include h

/-- No later element is less than an earlier one. -/
theorem StrictWeak.pairwise_iff (list : List α) :
    list.Pairwise (fun a b => less b a = false) ↔ Sorted less list := by
  have : IsTrans α fun a b => less b a = false := ⟨fun a b c hab hbc => h.trans a b c hab hbc⟩
  exact List.isChain_iff_pairwise.symm

theorem StrictWeak.sorted_inplaceMerge {n : ℕ} {as bs : List α}
    (hn : as.length + bs.length ≤ n) (has : Sorted less as) (hbs : Sorted less bs) :
    Sorted less (inplaceMerge less n as bs) := by
  rw [← h.pairwise_iff] at has hbs ⊢
  rw [inplaceMerge_eq_merge hn]
  have hto : ∀ {l : List α}, l.Pairwise (fun a b => less b a = false)
      ↔ l.Pairwise fun a b => (!less b a) = true := by simp
  rw [hto] at has hbs ⊢
  refine List.pairwise_merge ?_ ?_ as bs has hbs
  · simpa using h.trans
  · intro a b
    cases hab : less b a
    · rfl
    · rw [h.asymm b a hab]
      rfl

/-- **A pass halves the number of runs.** -/
theorem StrictWeak.mergePass_runs {n : ℕ} {list : List α} (hn : list.length ≤ n) :
    descents less (mergePass less n list).1 ≤ (mergePass less n list).2 - 1
      ∧ 2 * (mergePass less n list).2 ≤ descents less list + 2 := by
  induction n generalizing list with
  | zero =>
    obtain rfl : list = [] := List.length_eq_zero_iff.mp (by omega)
    exact ⟨le_rfl, by simp [mergePass]⟩
  | succ n ih =>
    cases list with
    | nil => exact ⟨le_rfl, by simp [mergePass]⟩
    | cons a list =>
      have hlength := congrArg List.length (findEndOfRun_append less a list)
      have hdescents := descents_findEndOfRun less a list
      have hfirst := sorted_findEndOfRun less a list
      rw [mergePass]
      split
      · rename_i run hrun
        rw [hrun] at hfirst
        exact ⟨((descents_eq_zero_iff less _).mpr hfirst).le, by dsimp only; omega⟩
      · rename_i run b rest hrun
        rw [hrun] at hfirst hdescents hlength
        have hlength' := congrArg List.length (findEndOfRun_append less b rest)
        have hdescents' := descents_findEndOfRun less b rest
        have hsecond := sorted_findEndOfRun less b rest
        simp only [List.length_append, List.length_cons] at hlength hlength' hn
        simp only [reduceCtorEq, if_false] at hdescents
        obtain ⟨hout, hruns⟩ := ih (show (findEndOfRun less b rest).2.length ≤ n by omega)
        dsimp only
        set second := b :: (findEndOfRun less b rest).1 with hsecond_eq
        set merged := inplaceMerge less (run.length + 1 + second.length) (a :: run) second
        have hmerged : descents less merged = 0 :=
          (descents_eq_zero_iff less _).mpr (h.sorted_inplaceMerge (by simp) hfirst hsecond)
        by_cases hrest : (findEndOfRun less b rest).2 = []
        · rw [hrest, mergePass_nil, List.append_nil]
          exact ⟨hmerged.le, by omega⟩
        · have hpos := mergePass_pos less (n := n) hrest (by omega)
          have happend := descents_append_le less merged
            (mergePass less n (findEndOfRun less b rest).2).1
          rw [if_neg hrest] at hdescents'
          omega

/-- The sort ends: one more pass would change nothing. -/
theorem StrictWeak.sortLoop_succ {n : ℕ} {list : List α} (hn : descents less list < n) :
    sortLoop less (n + 1) list = sortLoop less n list := by
  induction n generalizing list with
  | zero => omega
  | succ n ih =>
    obtain ⟨hout, hruns⟩ := h.mergePass_runs (le_refl list.length)
    rw [sortLoop, sortLoop]
    dsimp only
    split
    · exact ih (by omega)
    · rfl

/-- **The assertions hold and the sort ends**, and what it leaves is in
order. -/
theorem StrictWeak.run_sortLoopQuery {n : ℕ} {list : List α} (hn : descents less list < n) :
    (sortLoopQuery n list).run less = some (sortLoop less n list)
      ∧ Sorted less (sortLoop less n list) := by
  induction n generalizing list with
  | zero => omega
  | succ n ih =>
    obtain ⟨hout, hruns⟩ := h.mergePass_runs (le_refl list.length)
    rw [sortLoopQuery, Query.run_bind, run_mergePassQuery, sortLoop]
    dsimp only
    split
    · exact ih (by omega)
    · rename_i hone
      have hsorted := (descents_eq_zero_iff less _).mp (Nat.le_zero.mp (hout.trans (by omega)))
      rw [Query.run_map, (run_isSortedQuery less _).mpr hsorted]
      exact ⟨rfl, hsorted⟩

/-- **`list_sort` sorts**, and none of its assertions fails. -/
theorem StrictWeak.run_listSortQuery (list : List α) :
    (listSortQuery list).run less = some (listSort less list)
      ∧ (listSort less list).Pairwise fun a b => less b a = false := by
  have hloop : sortLoop less (list.length + 1) list = listSort less list := by
    cases list with
    | nil => rfl
    | cons a list =>
      exact h.sortLoop_succ (Nat.lt_succ_of_le (descents_cons_le less a list))
  have hfuel : descents less list < list.length + 1 := by
    cases list with
    | nil => exact Nat.zero_lt_one
    | cons a list => exact Nat.lt_succ_of_le ((descents_cons_le less a list).trans (Nat.le_succ _))
  obtain ⟨hrun, hsorted⟩ := h.run_sortLoopQuery hfuel
  rw [hloop] at hrun hsorted
  exact ⟨hrun, (h.pairwise_iff _).mpr hsorted⟩

/-! ## Equivalent elements stay in order -/

/-- A merge keeps the order of the elements that are equivalent to a given one: an element that
goes in front of the first run is less than all of it. -/
theorem StrictWeak.filter_inplaceMerge (x : α) {n : ℕ} {as bs : List α} (has : Sorted less as) :
    (inplaceMerge less n as bs).filter (equivalent less x)
      = as.filter (equivalent less x) ++ bs.filter (equivalent less x) := by
  induction n generalizing as bs with
  | zero => rw [inplaceMerge, List.filter_append]; simp
  | succ n ih =>
    cases as with
    | nil => rw [inplaceMerge] <;> simp
    | cons a as =>
      cases bs with
      | nil => rw [inplaceMerge] <;> simp
      | cons b bs =>
        rw [inplaceMerge]
        cases hless : less b a with
        | false =>
          have htail : Sorted less as := List.IsChain.tail has
          rw [if_neg Bool.false_ne_true, List.filter_cons, ih htail, List.filter_cons (x := a)]
          split <;> rfl
        | true =>
          rw [if_pos rfl, List.filter_cons, ih has, List.filter_cons (x := b)]
          split
          · rename_i hb
            have hnone : (a :: as).filter (equivalent less x) = [] := by
              refine List.filter_eq_nil_iff.mpr fun a' ha' hx => ?_
              have hle : less a' a = false := by
                obtain rfl | ha' := List.mem_cons.mp ha'
                · exact Bool.eq_false_iff.mpr fun h' => by simp [h.asymm _ _ h'] at h'
                · exact (List.pairwise_cons.mp ((h.pairwise_iff _).mpr has)).1 a' ha'
              simp only [equivalent, Bool.and_eq_true, Bool.not_eq_true'] at hx hb
              have := h.trans _ _ _ (h.trans _ _ _ hle hx.1) hb.2
              rw [hless] at this
              cases this
            rw [hnone]
            rfl
          · rfl

theorem StrictWeak.filter_mergePass (x : α) (n : ℕ) (list : List α) :
    (mergePass less n list).1.filter (equivalent less x) = list.filter (equivalent less x) := by
  induction n generalizing list with
  | zero => cases list <;> rfl
  | succ n ih =>
    cases list with
    | nil => rfl
    | cons a list =>
      have hfirst := findEndOfRun_append less a list
      have hsorted := sorted_findEndOfRun less a list
      rw [mergePass]
      split
      · rename_i run hrun
        rw [hrun, List.append_nil] at hfirst
        rw [← hfirst]
      · rename_i run b rest hrun
        rw [hrun] at hfirst hsorted
        dsimp only
        rw [List.filter_append, h.filter_inplaceMerge x hsorted, ih, ← List.filter_append,
          ← List.filter_append, ← hfirst]
        simp only [List.append_assoc, List.cons_append, findEndOfRun_append]

theorem StrictWeak.filter_sortLoop (x : α) (n : ℕ) (list : List α) :
    (sortLoop less n list).filter (equivalent less x) = list.filter (equivalent less x) := by
  induction n generalizing list with
  | zero => rfl
  | succ n ih =>
    have hpass := h.filter_mergePass x list.length list
    rw [sortLoop]
    dsimp only
    split
    · rw [ih, hpass]
    · exact hpass

end

end KernelList
