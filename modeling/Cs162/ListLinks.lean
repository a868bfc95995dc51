import Cs162.DoublyLinked
import Cs162.ListSort

/-!
# The kernel's lists, in memory

A list of the kernel library is a head, a tail and the elements between them, all
linked in both directions. The operations on sequences (`KernelList`) are here the code
that moves links: `list_splice` writes six of them, and `list_sort` holds pointers into
the list while its nodes change places.

A sequence of nodes that is threaded by the links stands for the list (`Threads`), and
each function is seen to do to it what the function of the same name does to the
sequence. Null is `none`. So is the result where an assertion fails, where null is
followed, and where a loop does not come to its end within the given number of
iterations.
-/

namespace KernelList

open DoublyLinked

variable {A : Type}

/-- **The links** of all nodes (`struct list_elem`). -/
structure Links (A : Type) where
  prev : A → Option A
  next : A → Option A

namespace Links

/-! ## The operations -/

section

variable [DecidableEq A]

def setPrev (m : Links A) (a : A) (o : Option A) : Links A :=
  { m with prev := Function.update m.prev a o }

def setNext (m : Links A) (a : A) (o : Option A) : Links A :=
  { m with next := Function.update m.next a o }

/-- `is_head`. -/
def isHead (m : Links A) (elem : A) : Bool := (m.prev elem).isNone && (m.next elem).isSome

/-- `is_interior`. -/
def isInterior (m : Links A) (elem : A) : Bool := (m.prev elem).isSome && (m.next elem).isSome

/-- `is_tail`. -/
def isTail (m : Links A) (elem : A) : Bool := (m.prev elem).isSome && (m.next elem).isNone

/-- `list_next`. -/
def listNext (m : Links A) (elem : A) : Option A :=
  if m.isHead elem || m.isInterior elem then m.next elem else none

/-- `list_prev`. -/
def listPrev (m : Links A) (elem : A) : Option A :=
  if m.isInterior elem || m.isTail elem then m.prev elem else none

/-- `list_splice`. -/
def listSplice (m : Links A) (before first last : A) : Option (Links A) :=
  if m.isInterior before || m.isTail before then
    if first = last then some m
    else do
      let last ← m.listPrev last
      if m.isInterior first && m.isInterior last then
        -- the elements are removed from their list
        let m := m.setNext (← m.prev first) (m.next last)
        let m := m.setPrev (← m.next last) (m.prev first)
        -- and put in front of the other one
        let m := m.setPrev first (m.prev before)
        let m := m.setNext last (some before)
        let m := m.setNext (← m.prev before) (some first)
        some (m.setPrev before (some last))
      else none
  else none

variable (less : A → A → Bool)

/-- The loop of `is_sorted`. -/
def isSortedLoop (m : Links A) : ℕ → A → A → Option Bool
  | 0, _, _ => none
  | n + 1, a, b => do
    let a ← m.listNext a
    if a = b then some true
    else if less a (← m.listPrev a) then some false
    else isSortedLoop m n a b

/-- `is_sorted`. -/
def isSorted (fuel : ℕ) (m : Links A) (a b : A) : Option Bool :=
  if a = b then some true else m.isSortedLoop less fuel a b

/-- `find_end_of_run`. -/
def findEndOfRun (m : Links A) : ℕ → A → A → Option A
  | 0, _, _ => none
  | n + 1, a, b => do
    let a ← m.listNext a
    if a = b then some a
    else if less a (← m.listPrev a) then some a
    else findEndOfRun m n a b

/-- The loop of `inplace_merge`. -/
def mergeLoop : ℕ → Links A → A → A → A → Option (Links A)
  | 0, _, _, _, _ => none
  | n + 1, m, a0, a1b0, b1 =>
    if a0 = a1b0 ∨ a1b0 = b1 then some m
    else if less a1b0 a0 then do
      let a1b0 ← m.listNext a1b0
      let m ← m.listSplice a0 (← m.listPrev a1b0) a1b0
      mergeLoop n m a0 a1b0 b1
    else do
      mergeLoop n m (← m.listNext a0) a1b0 b1

/-- `inplace_merge`. -/
def inplaceMerge (fuel : ℕ) (m : Links A) (a0 a1b0 b1 : A) : Option (Links A) := do
  if (← m.isSorted less fuel a0 a1b0) && (← m.isSorted less fuel a1b0 b1) then
    mergeLoop less fuel m a0 a1b0 b1
  else none

/-- The inner loop of `list_sort`, with `output_run_cnt`. -/
def sortPass (fuel : ℕ) (tail : A) : ℕ → Links A → A → ℕ → Option (Links A × ℕ)
  | 0, _, _, _ => none
  | n + 1, m, a0, outputRunCnt =>
    if a0 = tail then some (m, outputRunCnt)
    else do
      let a1b0 ← m.findEndOfRun less fuel a0 tail
      if a1b0 = tail then some (m, outputRunCnt + 1)
      else do
        let b1 ← m.findEndOfRun less fuel a1b0 tail
        sortPass fuel tail n (← m.inplaceMerge less fuel a0 a1b0 b1) b1 (outputRunCnt + 1)

/-- The outer loop of `list_sort`, with the assertion behind it. -/
def sortLoop (fuel : ℕ) (head tail : A) : ℕ → Links A → Option (Links A)
  | 0, _ => none
  | n + 1, m => do
    let (m, outputRunCnt) ← sortPass less fuel tail fuel m (← m.next head) 0
    if outputRunCnt > 1 then sortLoop fuel head tail n m
    else if ← m.isSorted less fuel (← m.next head) tail then some m
    else none

/-- `list_sort`. -/
def listSort (fuel : ℕ) (m : Links A) (head tail : A) : Option (Links A) :=
  sortLoop less fuel head tail fuel m

end

/-! ## Sequences of nodes -/

theorem listNext_eq (m : Links A) (a : A) : m.listNext a = m.next a := by
  unfold listNext isHead isInterior
  cases m.prev a <;> cases m.next a <;> rfl

theorem listPrev_eq (m : Links A) (a : A) : m.listPrev a = m.prev a := by
  unfold listPrev isTail isInterior
  cases m.prev a <;> cases m.next a <;> rfl

theorem isInterior_or_isTail (m : Links A) (a : A) :
    (m.isInterior a || m.isTail a) = (m.prev a).isSome := by
  unfold isTail isInterior
  cases m.prev a <;> cases m.next a <;> rfl

/-- **The links thread a sequence**, from a head to a tail. -/
structure Threads (m : Links A) (l : List A) : Prop where
  linked : Linked m.next m.prev none l none
  nodup : l.Nodup

section

variable {m : Links A} {a b c d l l₁ l₂ : List A} {x y : A}

theorem Threads.next_eq (h : m.Threads (l₁ ++ l₂)) (hx : x ∈ l₁.getLast?) (hy : y ∈ l₂.head?) :
    m.next x = some y := by
  rw [(linked_append.mp h.linked).1.next_last hx, show l₂.head? = some y from hy]
  rfl

theorem Threads.prev_eq (h : m.Threads (l₁ ++ l₂)) (hx : x ∈ l₁.getLast?) (hy : y ∈ l₂.head?) :
    m.prev y = some x := by
  rw [(linked_append.mp h.linked).2.prev_head hy, show l₁.getLast? = some x from hx]
  rfl

theorem Threads.ne (h : m.Threads (l₁ ++ l₂)) (hx : x ∈ l₁) (hy : y ∈ l₂) : x ≠ y :=
  fun heq => (List.nodup_append'.mp h.nodup).2.2 hx (heq ▸ hy)

theorem Threads.ne_behind (h : m.Threads (l ++ (l₁ ++ l₂))) (hx : x ∈ l₁) (hy : y ∈ l₂) : x ≠ y :=
  (show m.Threads ((l ++ l₁) ++ l₂) by simpa using h).ne (List.mem_append_right l hx) hy

theorem Threads.next_isSome (h : m.Threads (l₁ ++ l₂)) (hx : x ∈ l₁) (hy : y ∈ l₂.head?) :
    (m.next x).isSome = true := by
  obtain ⟨u, v, rfl⟩ := List.append_of_mem hx
  have h' : m.Threads ((u ++ [x]) ++ (v ++ l₂)) := by simpa using h
  cases v with
  | nil => rw [h'.next_eq (by simp) hy]; rfl
  | cons z v => rw [h'.next_eq (by simp) (y := z) (by simp)]; rfl

theorem Threads.prev_isSome (h : m.Threads (l₁ ++ l₂)) (hx : x ∈ l₁.getLast?) (hy : y ∈ l₂) :
    (m.prev y).isSome = true := by
  obtain ⟨u, v, rfl⟩ := List.append_of_mem hy
  have h' : m.Threads ((l₁ ++ u) ++ (y :: v)) := by simpa using h
  have hlast : ((l₁ ++ u).getLast?).isSome = true := by
    rw [List.getLast?_append, show l₁.getLast? = some x from hx]
    cases u.getLast? <;> rfl
  obtain ⟨z, hz⟩ := Option.isSome_iff_exists.mp hlast
  rw [h'.prev_eq hz (by simp)]
  rfl

section

variable [DecidableEq A] {before first last p q r : A}

/-- The links after the six writes of `list_splice`, where `p`, `q` and `r` stand before
`before`, `first` and `last`. -/
def spliced (m : Links A) (p before q first r last : A) : Links A where
  prev := Function.update (Function.update (Function.update m.prev last (some q)) first (some p))
    before (some r)
  next := Function.update (Function.update (Function.update m.next q (some last)) r (some before)) p
    (some first)

theorem listSplice_eq (hbefore : m.prev before = some p) (hfirst : m.prev first = some q)
    (hlast : m.prev last = some r) (hr : m.next r = some last)
    (hinterior : m.isInterior first = true ∧ m.isInterior r = true) (hrq : r ≠ q)
    (hbf : before ≠ first) (hbl : before ≠ last) (hfl : first ≠ last) :
    m.listSplice before first last = some (m.spliced p before q first r last) := by
  unfold Links.listSplice
  rw [isInterior_or_isTail, hbefore, Option.isSome_some, if_pos rfl, if_neg hfl, listPrev_eq, hlast]
  -- the later reads see none of the earlier writes
  simp [hinterior, setNext, setPrev, spliced, hbefore, hfirst, hr, Function.update_of_ne hrq,
    Function.update_of_ne hbl, Function.update_of_ne hbf]

/-- **`list_splice` moves a part of a list** in front of the part before it. -/
theorem Threads.listSplice (h : m.Threads (a ++ (b ++ (c ++ d)))) (hp : a.getLast? = some p)
    (hbefore : b.head? = some before) (hq : b.getLast? = some q) (hfirst : c.head? = some first)
    (hr : c.getLast? = some r) (hlast : d.head? = some last) :
    ∃ m', m.listSplice before first last = some m' ∧ m'.Threads (a ++ (c ++ (b ++ d))) := by
  have hbc : m.Threads ((a ++ b) ++ (c ++ d)) := by simpa using h
  have hcd : m.Threads ((a ++ (b ++ c)) ++ d) := by simpa using h
  have hp' := List.mem_of_getLast? hp
  have hq' := List.mem_of_getLast? hq
  have hr' := List.mem_of_getLast? hr
  have hbefore' := List.mem_of_mem_head? hbefore
  have hfirst' := List.mem_of_mem_head? hfirst
  have hlast' := List.mem_of_mem_head? hlast
  have hqLast : q ∈ (a ++ b).getLast? := List.mem_getLast?_append_of_mem_getLast? hq
  have hrLast : r ∈ (a ++ (b ++ c)).getLast? :=
    List.mem_getLast?_append_of_mem_getLast? (List.mem_getLast?_append_of_mem_getLast? hr)
  have hinterior : ∀ x ∈ c, m.isInterior x = true := fun x hx =>
    Bool.and_eq_true_iff.mpr ⟨hbc.prev_isSome hqLast (by simp [hx]),
      hcd.next_isSome (by simp [hx]) hlast⟩
  have hpq : p ≠ q := h.ne hp' (by simp [hq'])
  have hpr : p ≠ r := h.ne hp' (by simp [hr'])
  have hqr : q ≠ r := hbc.ne (by simp [hq']) (by simp [hr'])
  have hbf : before ≠ first := hbc.ne (by simp [hbefore']) (by simp [hfirst'])
  have hbl : before ≠ last := hcd.ne (by simp [hbefore']) hlast'
  have hfl : first ≠ last := hcd.ne (by simp [hfirst']) hlast'
  refine ⟨m.spliced p before q first r last, listSplice_eq
    (h.prev_eq hp (List.mem_head?_append_of_mem_head? hbefore))
    (hbc.prev_eq hqLast (List.mem_head?_append_of_mem_head? hfirst)) (hcd.prev_eq hrLast hlast)
    (hcd.next_eq hrLast hlast) ⟨hinterior first hfirst', hinterior r hr'⟩ hqr.symm hbf hbl hfl,
    ?_, (List.perm_append_comm_assoc _ _ _).append_left a |>.nodup h.nodup⟩
  refine h.linked.swap h.nodup (List.ne_nil_of_mem hp') (List.ne_nil_of_mem hq')
    (List.ne_nil_of_mem hr') (List.ne_nil_of_mem hlast') ?_ ?_ ?_ ?_ ?_ ?_ ?_ ?_ <;>
    simp +contextual only [spliced, hp, hq, hr, hbefore, hfirst, hlast, Option.mem_some_iff,
      forall_eq']
  · simp
  · simp [hbf.symm]
  · simp [hpr.symm]
  · simp
  · simp [hqr, hpq.symm]
  · simp [hbl.symm, hfl.symm]
  · intro x hxp hxq hxr
    simp [Ne.symm hxp, Ne.symm hxq, Ne.symm hxr]
  · intro x hxb hxf hxl
    simp [Ne.symm hxb, Ne.symm hxf, Ne.symm hxl]

end

end

/-! ## Sorting -/

section

variable [DecidableEq A] {less : A → A → Bool} {m : Links A} {pre seg list as bs post : List A}
  {a a0 a1b0 b b1 head tail : A} {n fuel : ℕ}

/-- `is_sorted` says of a part that is in order that it is. -/
theorem Threads.isSorted (h : m.Threads (pre ++ (seg ++ b :: post))) (hseg : Sorted less seg)
    (ha : (seg ++ b :: post).head? = some a) (hfuel : seg.length ≤ fuel) :
    m.isSorted less fuel a b = some true := by
  unfold Links.isSorted
  cases seg with
  | nil =>
    cases ha
    rw [if_pos rfl]
  | cons c seg =>
    cases ha
    rw [if_neg (h.ne_behind List.mem_cons_self List.mem_cons_self)]
    induction fuel generalizing pre a seg with
    | zero => exact absurd hfuel (by simp)
    | succ n ih =>
      have hhere : m.Threads ((pre ++ [a]) ++ (seg ++ b :: post)) := by simpa using h
      rw [isSortedLoop, listNext_eq]
      cases seg with
      | nil =>
        rw [hhere.next_eq (y := b) (by simp) (by simp)]
        simp
      | cons c seg =>
        obtain ⟨hac, hseg⟩ := List.isChain_cons_cons.mp hseg
        have hcb : c ≠ b := h.ne_behind (by simp) List.mem_cons_self
        rw [hhere.next_eq (y := c) (by simp) (by simp), Option.bind_eq_bind, Option.bind_some,
          if_neg hcb, listPrev_eq, hhere.prev_eq (x := a) (by simp) (by simp),
          Option.bind_some, hac, if_neg Bool.false_ne_true]
        exact ih seg hhere hseg (by simpa using hfuel)

/-- `find_end_of_run` finds what follows the run. -/
theorem Threads.findEndOfRun (h : m.Threads (pre ++ (a :: list ++ b :: post)))
    (hfuel : list.length < fuel) :
    m.findEndOfRun less fuel a b = ((KernelList.findEndOfRun less a list).2 ++ [b]).head? := by
  induction fuel generalizing pre a list with
  | zero => exact absurd hfuel (Nat.not_lt_zero _)
  | succ n ih =>
    have hhere : m.Threads ((pre ++ [a]) ++ (list ++ b :: post)) := by simpa using h
    rw [Links.findEndOfRun, listNext_eq]
    cases list with
    | nil =>
      rw [hhere.next_eq (y := b) (by simp) (by simp)]
      simp [KernelList.findEndOfRun]
    | cons c list =>
      have hcb : c ≠ b := h.ne_behind (by simp) List.mem_cons_self
      rw [hhere.next_eq (y := c) (by simp) (by simp), Option.bind_eq_bind, Option.bind_some,
        if_neg hcb, listPrev_eq, hhere.prev_eq (x := a) (by simp) (by simp),
        Option.bind_some, KernelList.findEndOfRun]
      cases less c a with
      | true => rfl
      | false => exact ih hhere (by simpa using hfuel)

/-- **The loop of `inplace_merge`**: an element that comes first is spliced in front of the
rest of the first run. -/
theorem Threads.mergeLoop (h : m.Threads (pre ++ (as ++ (bs ++ b1 :: post)))) (hpre : pre ≠ [])
    (ha0 : (as ++ (bs ++ b1 :: post)).head? = some a0)
    (ha1b0 : (bs ++ b1 :: post).head? = some a1b0) (hn : as.length + bs.length ≤ n) :
    ∃ m', Links.mergeLoop less (n + 1) m a0 a1b0 b1 = some m'
      ∧ m'.Threads (pre ++ (KernelList.inplaceMerge less n as bs ++ b1 :: post)) := by
  induction n generalizing m pre as bs a0 a1b0 with
  | zero =>
    obtain rfl : as = [] := List.length_eq_zero_iff.mp (by omega)
    obtain rfl : bs = [] := List.length_eq_zero_iff.mp (by omega)
    cases ha0
    cases ha1b0
    refine ⟨m, ?_, h⟩
    rw [Links.mergeLoop, if_pos (.inl rfl)]
  | succ n ih =>
    cases as with
    | nil =>
      obtain rfl : a0 = a1b0 := Option.some.inj (ha0.symm.trans ha1b0)
      refine ⟨m, ?_, ?_⟩
      · rw [Links.mergeLoop, if_pos (.inl rfl)]
      · rwa [KernelList.inplaceMerge]
        simp
    | cons a as =>
      cases bs with
      | nil =>
        cases ha1b0
        refine ⟨m, ?_, ?_⟩
        · rw [Links.mergeLoop, if_pos (.inr rfl)]
        · rw [KernelList.inplaceMerge, List.append_nil]
          · exact h
          · simp
      | cons b bs =>
        cases ha0
        cases ha1b0
        simp only [List.length_cons] at hn
        have hne : ¬ (a0 = a1b0 ∨ a1b0 = b1) := by
          have h' : m.Threads ((pre ++ a0 :: as) ++ (a1b0 :: bs ++ b1 :: post)) := by simpa using h
          exact not_or.mpr ⟨h.ne_behind List.mem_cons_self (by simp),
            h'.ne_behind List.mem_cons_self List.mem_cons_self⟩
        rw [Links.mergeLoop, if_neg hne, KernelList.inplaceMerge]
        cases less a1b0 a0 with
        | true =>
          obtain ⟨c, hc⟩ : ∃ c, (bs ++ b1 :: post).head? = some c := by
            cases bs <;> exact ⟨_, rfl⟩
          have hhere : m.Threads ((pre ++ a0 :: as ++ [a1b0]) ++ (bs ++ b1 :: post)) := by
            simpa using h
          obtain ⟨p, hp⟩ : ∃ p, pre.getLast? = some p :=
            ⟨_, List.getLast?_eq_some_getLast hpre⟩
          obtain ⟨m', hsplice, h'⟩ := Threads.listSplice (a := pre) (b := a0 :: as) (c := [a1b0])
            (by simpa using h) hp rfl (List.getLast?_eq_some_getLast (List.cons_ne_nil a0 as))
            rfl rfl hc
          rw [if_pos rfl, listNext_eq, hhere.next_eq List.getLast?_concat hc, Option.bind_eq_bind,
            Option.bind_some, listPrev_eq, hhere.prev_eq List.getLast?_concat hc,
            Option.bind_some, hsplice]
          have hrest : m'.Threads ((pre ++ [a1b0]) ++ (a0 :: as ++ (bs ++ b1 :: post))) := by
            simpa using h'
          obtain ⟨m'', hloop, h''⟩ := ih hrest (by simp) rfl hc (by simp; omega)
          exact ⟨m'', hloop, by simpa using h''⟩
        | false =>
          have hhere : m.Threads ((pre ++ [a0]) ++ (as ++ (a1b0 :: bs ++ b1 :: post))) := by
            simpa using h
          obtain ⟨c, hc⟩ : ∃ c, (as ++ (a1b0 :: bs ++ b1 :: post)).head? = some c := by
            cases as <;> exact ⟨_, rfl⟩
          rw [if_neg Bool.false_ne_true, listNext_eq, hhere.next_eq (x := a0) (by simp) hc,
            Option.bind_eq_bind, Option.bind_some]
          obtain ⟨m', hloop, h'⟩ := ih hhere (by simp) hc rfl (by simp; omega)
          exact ⟨m', hloop, by simpa using h'⟩

/-- **`inplace_merge` merges two runs**, and its assertions hold. -/
theorem Threads.inplaceMerge (h : m.Threads (pre ++ (as ++ (bs ++ b1 :: post)))) (hpre : pre ≠ [])
    (ha0 : (as ++ (bs ++ b1 :: post)).head? = some a0)
    (ha1b0 : (bs ++ b1 :: post).head? = some a1b0) (has : Sorted less as) (hbs : Sorted less bs)
    (hfuel : as.length + bs.length < fuel) :
    ∃ m', m.inplaceMerge less fuel a0 a1b0 b1 = some m'
      ∧ m'.Threads (pre ++ (KernelList.inplaceMerge less (as.length + bs.length) as bs
        ++ b1 :: post)) := by
  have hfirst : m.isSorted less fuel a0 a1b0 = some true := by
    obtain ⟨rest, hrest⟩ := List.head?_eq_some_iff.mp ha1b0
    rw [hrest] at h ha0
    exact h.isSorted has ha0 (by omega)
  have hsecond : m.isSorted less fuel a1b0 b1 = some true :=
    (show m.Threads ((pre ++ as) ++ (bs ++ b1 :: post)) by simpa using h).isSorted hbs ha1b0
      (by omega)
  obtain ⟨fuel, rfl⟩ := Nat.exists_eq_add_of_lt hfuel
  obtain ⟨m', hloop, h'⟩ := h.mergeLoop hpre ha0 ha1b0 (Nat.le_add_right _ fuel)
  rw [inplaceMerge_eq_merge (Nat.le_add_right _ fuel)] at h'
  refine ⟨m', ?_, ?_⟩
  · rw [Links.inplaceMerge, hfirst, hsecond]
    exact hloop
  · rwa [inplaceMerge_eq_merge le_rfl]

/-- The second of two adjacent runs is found, and they are merged. -/
theorem Threads.mergeRuns {run rest : List A}
    (h : m.Threads (pre ++ (a0 :: run ++ (b :: rest ++ [tail])))) (hpre : pre ≠ [])
    (hrun : Sorted less (a0 :: run)) (hfuel : run.length + rest.length + 2 < fuel) :
    ∃ b1 m', m.findEndOfRun less fuel b tail = some b1
      ∧ ((KernelList.findEndOfRun less b rest).2 ++ [tail]).head? = some b1
      ∧ m.inplaceMerge less fuel a0 b b1 = some m'
      ∧ m'.Threads (pre ++ (KernelList.inplaceMerge less
          (run.length + 1 + (b :: (KernelList.findEndOfRun less b rest).1).length) (a0 :: run)
          (b :: (KernelList.findEndOfRun less b rest).1)
        ++ ((KernelList.findEndOfRun less b rest).2 ++ [tail]))) := by
  have happend := findEndOfRun_append less b rest
  have hlength := congrArg List.length happend
  rw [List.length_append] at hlength
  obtain ⟨b1, post, hpost⟩ : ∃ b1 post,
      (KernelList.findEndOfRun less b rest).2 ++ [tail] = b1 :: post :=
    List.exists_cons_of_ne_nil (by simp)
  have hend : m.findEndOfRun less fuel b tail = some b1 := by
    have h' : m.Threads ((pre ++ a0 :: run) ++ (b :: rest ++ [tail])) := by simpa using h
    rw [h'.findEndOfRun (by omega), hpost]
    rfl
  have hrest : b :: rest ++ [tail]
      = (b :: (KernelList.findEndOfRun less b rest).1) ++ b1 :: post := by
    rw [← hpost]
    simp [← List.append_assoc, happend]
  rw [hrest] at h
  obtain ⟨m', hmerge, h'⟩ := h.inplaceMerge hpre rfl rfl hrun (sorted_findEndOfRun less b rest)
    (show _ < fuel by simp only [List.length_cons]; omega)
  rw [hpost]
  exact ⟨b1, m', hend, rfl, hmerge, h'⟩

variable (less) in
/-- **One pass of `list_sort`.** -/
theorem Threads.sortPass {k : ℕ} (h : m.Threads (pre ++ (list ++ [tail]))) (hpre : pre ≠ [])
    (ha0 : (list ++ [tail]).head? = some a0) (hk : list.length ≤ k) (hn : list.length < n)
    (hfuel : list.length < fuel) (outputRunCnt : ℕ) :
    ∃ m', Links.sortPass less fuel tail n m a0 outputRunCnt
        = some (m', outputRunCnt + (mergePass less k list).2)
      ∧ m'.Threads (pre ++ ((mergePass less k list).1 ++ [tail])) := by
  induction k generalizing n m pre list a0 outputRunCnt with
  | zero =>
    obtain rfl : list = [] := List.length_eq_zero_iff.mp (by omega)
    obtain ⟨n, rfl⟩ := Nat.exists_eq_succ_of_ne_zero hn.ne'
    cases ha0
    exact ⟨m, if_pos rfl, h⟩
  | succ k ih =>
    obtain ⟨n, rfl⟩ := Nat.exists_eq_succ_of_ne_zero (Nat.zero_lt_of_lt hn).ne'
    cases list with
    | nil =>
      cases ha0
      exact ⟨m, if_pos rfl, h⟩
    | cons a list =>
      cases ha0
      have hat : a0 ≠ tail := h.ne_behind List.mem_cons_self (List.mem_singleton_self tail)
      have hend : m.findEndOfRun less fuel a0 tail
          = ((KernelList.findEndOfRun less a0 list).2 ++ [tail]).head? :=
        h.findEndOfRun (by simp at hfuel; omega)
      have happend := findEndOfRun_append less a0 list
      have hsorted := sorted_findEndOfRun less a0 list
      rw [Links.sortPass, if_neg hat, hend, mergePass]
      split
      · rename_i run hrun
        rw [hrun, List.append_nil] at happend
        subst happend
        refine ⟨m, ?_, h⟩
        rw [hrun]
        simp
      · rename_i run b rest hrun
        rw [hrun] at happend hsorted
        have hlength := congrArg List.length happend
        have hlength' := congrArg List.length (findEndOfRun_append less b rest)
        simp only [List.length_append, List.length_cons] at hlength hlength' hk hn hfuel
        have h₁ : m.Threads (pre ++ (a0 :: run ++ (b :: rest ++ [tail]))) := by
          rw [← happend] at h
          simpa using h
        have hbt : b ≠ tail :=
          (show m.Threads ((pre ++ a0 :: run ++ b :: rest) ++ [tail]) by simpa using h₁).ne
            (by simp) (List.mem_singleton_self tail)
        obtain ⟨b1, m₁, hend', hb1, hmerge, h₂⟩ := h₁.mergeRuns hpre hsorted
          (show _ < fuel by omega)
        rw [← List.append_assoc pre] at h₂
        obtain ⟨m', hpass, h'⟩ := ih h₂ (by simp [hpre]) hb1 (n := n) (by omega) (by omega)
          (by omega) (outputRunCnt + 1)
        refine ⟨m', ?_, by simpa using h'⟩
        rw [hrun]
        simp only [List.cons_append, List.head?_cons, Option.bind_eq_bind, Option.bind_some,
          if_neg hbt, hend', hmerge, hpass]
        rw [Nat.add_assoc, Nat.add_comm 1]

/-- **The loop of `list_sort`** ends, and the assertion behind it holds. -/
theorem Threads.sortLoop (hweak : StrictWeak less) (h : m.Threads (head :: (list ++ [tail])))
    (hdescents : descents less list < n) (hfuel : list.length < fuel) :
    ∃ m', Links.sortLoop less fuel head tail n m = some m'
      ∧ m'.Threads (head :: (KernelList.sortLoop less n list ++ [tail])) := by
  have hbegin : ∀ {m : Links A} {list : List A}, m.Threads (head :: (list ++ [tail])) →
      ∃ a0, m.next head = some a0 ∧ (list ++ [tail]).head? = some a0 := by
    intro m list h
    obtain ⟨a0, ha0⟩ : ∃ a0, (list ++ [tail]).head? = some a0 := by cases list <;> exact ⟨_, rfl⟩
    exact ⟨a0, (show m.Threads ([head] ++ (list ++ [tail])) from h).next_eq rfl ha0, ha0⟩
  induction n generalizing m list with
  | zero => exact absurd hdescents (Nat.not_lt_zero _)
  | succ n ih =>
    obtain ⟨hout, hruns⟩ := hweak.mergePass_runs (le_refl list.length)
    obtain ⟨a0, hnext, ha0⟩ := hbegin h
    have hhere : m.Threads ([head] ++ (list ++ [tail])) := h
    obtain ⟨m', hpass, h'⟩ := hhere.sortPass less (List.cons_ne_nil head []) ha0 le_rfl hfuel
      hfuel 0
    have hlength := (perm_mergePass less list.length list).length_eq
    rw [Links.sortLoop, hnext, KernelList.sortLoop]
    simp only [Option.bind_eq_bind, Option.bind_some, hpass, Nat.zero_add]
    split
    · exact ih h' (by omega) (by omega)
    · have hsorted := (descents_eq_zero_iff less _).mp (Nat.le_zero.mp (hout.trans (by omega)))
      obtain ⟨a0', hnext', ha0'⟩ := hbegin h'
      rw [hnext', Option.bind_some, h'.isSorted hsorted ha0' (by omega)]
      exact ⟨m', rfl, h'⟩

end

/-- **`list_sort`** ends without a failed assertion, for every list in memory and every strict weak
order. The links then thread the same nodes, in order, those that are equivalent in the order
they were in. -/
theorem listSort_stable [DecidableEq A] {less : A → A → Bool} (hweak : StrictWeak less)
    {m : Links A} {head tail : A} {list : List A} (h : m.Threads (head :: (list ++ [tail])))
    {fuel : ℕ} (hfuel : list.length < fuel) :
    ∃ m' sorted, m.listSort less fuel head tail = some m'
      ∧ m'.Threads (head :: (sorted ++ [tail])) ∧ sorted.Perm list
      ∧ sorted.Pairwise (fun a b => less b a = false)
      ∧ ∀ x, sorted.filter (equivalent less x) = list.filter (equivalent less x) := by
  have hdescents : descents less list < fuel := by
    cases list with
    | nil => exact hfuel
    | cons a list =>
      exact (descents_cons_le less a list).trans_lt ((Nat.lt_succ_self _).trans hfuel)
  obtain ⟨m', hsort, h'⟩ := h.sortLoop hweak hdescents hfuel
  exact ⟨m', _, hsort, h', perm_sortLoop less fuel list,
    (hweak.pairwise_iff _).mpr (hweak.run_sortLoopQuery hdescents).2,
    fun x => hweak.filter_sortLoop x fuel list⟩

/-- Four elements between a head `0` and a tail `5`. -/
def fourLinks : Links ℕ where
  prev n := if n = 0 then none else some (n - 1)
  next n := if n < 5 then some (n + 1) else none

theorem fourLinks_threads : fourLinks.Threads [0, 1, 2, 3, 4, 5] :=
  ⟨⟨rfl, rfl, rfl, rfl, rfl, rfl, rfl, rfl, rfl, rfl, rfl, rfl, trivial⟩, by decide⟩

/-- The odd nodes come first, and keep their order. -/
theorem listSort_stable_four : ∃ m' sorted,
    fourLinks.listSort (fun a b => decide (a % 2 > b % 2)) 5 0 5 = some m'
      ∧ m'.Threads (0 :: (sorted ++ [5])) ∧ sorted.Perm [1, 2, 3, 4]
      ∧ sorted.Pairwise (fun a b => decide (b % 2 > a % 2) = false)
      ∧ ∀ x, sorted.filter (equivalent (fun a b => decide (a % 2 > b % 2)) x)
        = [1, 2, 3, 4].filter (equivalent (fun a b => decide (a % 2 > b % 2)) x) :=
  listSort_stable (strictWeak_key (· % 2)) fourLinks_threads (by decide)

end Links

end KernelList
