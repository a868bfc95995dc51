import Cs162.Donation

/-!
# The loop of `check_to_donate`

The loop is to stop after eight levels of nested donation, but its counter
stays at zero. What ends it is that every turn raises another thread to the
donor's priority, and that it stops at the first thread that has it: where the
chain of waiting threads runs into a cycle, this is a thread of the cycle that
it has raised before, or the donor. So the loop ends, with no more turns than
there are threads below the donor's priority, and it has then raised just the
threads that the chain leads to (`checkToDonate_exact`).
-/

namespace Pintos

/-- The variables of the loop, with the kernel it changes. -/
structure DonateLoop where
  kernel : Kernel
  curr : ThreadId
  l : Option LockId
  counter : ℕ

namespace DonateLoop

variable {s s' : DonateLoop} {n : ℕ}

/-- The variables before the first turn. -/
def start (k : Kernel) (curr : ThreadId) : DonateLoop :=
  ⟨k, curr, (k.threads curr).waitLock, 0⟩

/-- One turn, unless the loop is left: at its condition, or by a `return` in
its body. -/
def turn (s : DonateLoop) : Option DonateLoop :=
  match s.l with
  | none => none
  | some l =>
    if s.counter < 8 then
      match s.kernel.holder l with
      | none => none
      | some h =>
        if s.kernel.priority h ≥ s.kernel.priority s.curr then none
        else
          let kernel := s.kernel.update h fun t => { t with priority := s.kernel.priority s.curr }
          some { s with kernel := kernel, curr := h, l := (kernel.threads h).waitLock }
    else none

/-- **The loop is left**, after a number of turns, with the given values of
its variables. -/
inductive Ends : DonateLoop → ℕ → DonateLoop → Prop
  | left {s : DonateLoop} : s.turn = none → Ends s 0 s
  | turn {s s₁ s' : DonateLoop} {n : ℕ} : s.turn = some s₁ → Ends s₁ n s' → Ends s (n + 1) s'

theorem Ends.unique {n' : ℕ} {s'' : DonateLoop} (h : Ends s n s') (h' : Ends s n' s'') :
    n = n' ∧ s' = s'' := by
  induction h generalizing n' with
  | left hleft =>
    cases h' with
    | left => exact ⟨rfl, rfl⟩
    | turn hturn => exact absurd (hleft.symm.trans hturn) nofun
  | turn hturn _ ih =>
    cases h' with
    | left hleft => exact absurd (hleft.symm.trans hturn) nofun
    | turn hturn' h' =>
      obtain rfl := Option.some.inj (hturn.symm.trans hturn')
      obtain ⟨rfl, rfl⟩ := ih h'
      exact ⟨rfl, rfl⟩

end DonateLoop

namespace Kernel

variable {k : Kernel} {l : LockId} {t u h curr : ThreadId} {n : ℕ}

/-- **The threads that a thread's donation is to reach**: those that its
`wait_lock` leads to. -/
def DoneeOf (k : Kernel) (t u : ThreadId) : Prop :=
  ∃ l, (k.threads t).waitLock = some l ∧ Donee k (k.priority t) l u

/-- **The loop ends**: its turns are those of `donate`, and each leaves fewer threads
below the donor's priority. -/
theorem ends_donate (hholders : ∀ l h, k.holder l = some h → h < k.nextThread) (curr : ThreadId)
    (hn : k.below (k.priority curr) ≤ n) :
    ∃ m ≤ n, ∃ s, (DonateLoop.start k curr).Ends m s ∧ s.kernel = donate n curr k := by
  induction n generalizing k curr with
  | zero =>
    refine ⟨0, le_rfl, DonateLoop.start k curr, .left ?_, rfl⟩
    -- With no thread below the donor's priority the first turn is not completed.
    unfold DonateLoop.turn DonateLoop.start
    dsimp only
    split
    · rfl
    · rename_i l _
      rw [if_pos (by decide)]
      split
      · rfl
      · rename_i h hholder
        exact if_pos (le_priority_of_below hn (hholders l h hholder))
  | succ n ih =>
    have hstop (hturn : (DonateLoop.start k curr).turn = none)
        (hdonate : donate (n + 1) curr k = k) :
        ∃ m ≤ n + 1, ∃ s, (DonateLoop.start k curr).Ends m s ∧ s.kernel = donate (n + 1) curr k :=
      ⟨0, Nat.zero_le _, DonateLoop.start k curr, .left hturn, hdonate.symm⟩
    cases hwait : (k.threads curr).waitLock with
    | none =>
      refine hstop ?_ ?_
      · simp only [DonateLoop.turn, DonateLoop.start, hwait]
      · simp only [donate, hwait]
    | some l =>
      cases hholder : k.holder l with
      | none =>
        refine hstop ?_ ?_
        · simp only [DonateLoop.turn, DonateLoop.start, hwait, hholder, ite_self]
        · simp only [donate, hwait, hholder]
      | some h =>
        by_cases hge : k.priority h ≥ k.priority curr
        · refine hstop ?_ ?_
          · simp only [DonateLoop.turn, DonateLoop.start, hwait, hholder, if_pos hge, ite_self]
          · simp only [donate, hwait, hholder, if_pos hge]
        · have hlow : k.priority h < k.priority curr := not_le.mp hge
          set k₁ := k.update h fun t => { t with priority := k.priority curr } with hk₁
          have hraise : k₁ = k.setPriorities (Function.update k.priority h (k.priority curr)) :=
            update_priority_eq ..
          have hself : k₁.priority h = k.priority curr := by
            rw [hraise]
            exact Function.update_self ..
          have hfew : k₁.below (k₁.priority h) ≤ n := by
            rw [hself, hraise]
            exact Nat.le_of_lt_succ (lt_of_lt_of_le (below_raise (hholders l h hholder) hlow) hn)
          obtain ⟨m, hm, s, hends, hs⟩ := ih (k := k₁) hholders h hfew
          have hturn : (DonateLoop.start k curr).turn = some (DonateLoop.start k₁ h) := by
            simp only [DonateLoop.turn, DonateLoop.start, hwait, hholder, if_neg hge]
            rfl
          refine ⟨m + 1, Nat.succ_le_succ hm, s, .turn hturn hends, hs.trans ?_⟩
          simp only [donate, hwait, hholder, if_neg hge, ← hk₁]

theorem Donated.raised_of_donee {p : ThreadId → ℤ} (hp : Donated k curr p)
    (hdonee : k.DoneeOf curr u) : k.priority u < k.priority curr ∧ p u = k.priority curr := by
  obtain ⟨l, hwait, hdonee⟩ := hdonee
  have hraised {h : ThreadId} (hlow : k.priority h < k.priority curr)
      (hle : k.priority curr ≤ p h) : p h = k.priority curr := by
    rcases hp.raised h with heq | ⟨-, heq, -⟩
    · exact absurd (heq ▸ hle) (not_le.mpr hlow)
    · exact heq
  -- By induction along the chain: whoever waits for the lock is the donor, or was raised.
  have hchain : ∀ {l u}, Donee k (k.priority curr) l u → ∀ t, t = curr ∨ p t ≠ k.priority t →
      (k.threads t).waitLock = some l → k.priority u < k.priority curr ∧ p u = k.priority curr := by
    intro l u hdonee
    induction hdonee with
    | holder hholder hlow =>
      intro t ht hwait
      exact ⟨hlow, hraised hlow (hp.passed_on t _ _ ht hwait hholder)⟩
    | next hholder hlow hnext _ ih =>
      intro t ht hwait
      have heq := hraised hlow (hp.passed_on t _ _ ht hwait hholder)
      exact ih _ (.inr (heq ▸ hlow.ne')) hnext
  exact hchain hdonee curr (.inl rfl) hwait

end Kernel

/-- **Nested donation ends and is exact.** Let the threads be finitely many,
with any priorities, any holders of the locks and any `wait_lock` fields. The
loop of `check_to_donate` ends, after at most as many turns as there are
threads below the donor's priority. It has then changed nothing but
priorities: those of the threads that `wait_lock` and `holder` lead to from
the donor, up to the first holder that is absent or has at least the donor's
priority, are raised to the donor's, and the others are as before. -/
theorem checkToDonate_exact (k : Kernel)
    (hholders : ∀ l h, k.holder l = some h → h < k.nextThread) (t : ThreadId) :
    ∃ n s p, (DonateLoop.start k t).Ends n s ∧ n ≤ k.below (k.priority t)
      ∧ s.kernel = k.checkToDonate t ∧ s.kernel = k.setPriorities p
      ∧ (∀ u, k.DoneeOf t u → k.priority u < k.priority t ∧ p u = k.priority t)
      ∧ (∀ u, ¬ k.DoneeOf t u → p u = k.priority u)
      ∧ ∀ u, k.priority u ≤ p u := by
  obtain ⟨p, hp, hdonated⟩ := k.checkToDonate_spec hholders t
  obtain ⟨n, hn, s, hends, -⟩ := Kernel.ends_donate hholders t le_rfl
  -- The loop does not depend on the bound that `check_to_donate` has in the model.
  obtain ⟨n', -, s', hends', hs'⟩ := Kernel.ends_donate (n := k.nextThread) hholders t
    ((Finset.card_filter_le _ _).trans (Finset.card_range _).le)
  obtain ⟨-, rfl⟩ := hends.unique hends'
  refine ⟨n, s, p, hends, hn, hs', hs'.trans hp, fun u hu => hdonated.raised_of_donee hu,
    fun u hu => ?_, hdonated.le⟩
  rcases hdonated.raised u with heq | ⟨-, -, hdonee⟩
  · exact heq
  · exact absurd hdonee hu

/-- Thread 2 waits for a lock of thread 0, which waits for a lock of thread 1, which waits
for a lock of thread 0. -/
def cyclicKernel : Kernel :=
  { boot false fun _ => 0 with
    threads := fun t =>
      { Kernel.newThread (10 * t + 10) with
        waitLock := some (.lock (if t = 0 then 1 else 0)) }
    nextThread := 3
    holder := fun l => if l = .lock 0 then some 0 else if l = .lock 1 then some 1 else none }

/-- Both threads of the cycle are raised to the priority of thread 2. -/
theorem checkToDonate_exact_cycle :
    ∃ n s, (DonateLoop.start cyclicKernel 2).Ends n s ∧ n ≤ 2
      ∧ s.kernel.priority 0 = 30 ∧ s.kernel.priority 1 = 30 := by
  have hholders : ∀ l h, cyclicKernel.holder l = some h → h < cyclicKernel.nextThread := by
    intro l h hholder
    simp only [cyclicKernel] at hholder ⊢
    split at hholder
    · cases hholder
      decide
    · split at hholder
      · cases hholder
        decide
      · cases hholder
  obtain ⟨n, s, p, hends, hn, -, hs, hraised, -, -⟩ := checkToDonate_exact cyclicKernel hholders 2
  have hzero : cyclicKernel.DoneeOf 2 0 := ⟨.lock 0, rfl, .holder rfl (by decide)⟩
  have hone : cyclicKernel.DoneeOf 2 1 :=
    ⟨.lock 0, rfl, .next rfl (by decide) rfl (.holder rfl (by decide))⟩
  refine ⟨n, s, hends, hn.trans (by decide), ?_, ?_⟩
  · rw [hs]
    exact (hraised 0 hzero).2
  · rw [hs]
    exact (hraised 1 hone).2

end Pintos
