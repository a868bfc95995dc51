import Cs162.Alarm

/-!
# The list of sleeping threads

`timer_sleep` inserts the running thread into `threads_to_wakeup` by its
deadline, with a comparison that is not strict, and `timer_interrupt` takes
threads off the front as long as they are due. The list stays in the order of
the deadlines, and the threads on it are those that have entered it and that
the alarm has not made ready since (`timerInterrupt_exact_iff`). So a timer
interrupt takes off just the threads that are due – if it comes to its end: a
thread that has entered the list and released its lock, but has not blocked
yet, makes `thread_unblock` fail, and those behind it stay.
-/

namespace Pintos

open KernelList
open Transition (Run)

namespace Kernel

variable {k k' : Kernel} {t c : ThreadId} {sw : Switch} {a : Action} {e : Event}
  {wakeupTick : ℤ}

/-- **The invariant of the list of sleeping threads.** -/
structure AlarmInv (k : Kernel) : Prop where
  active : k.Active
  parked : k.Parked
  sorted : k.threadsToWakeup.Pairwise fun a b =>
    (k.threads a).wakeupTick ≤ (k.threads b).wakeupTick

/-! ## What a step does to the list -/

/-- **A thread enters the list** with its deadline. -/
structure Enqueued (k k' : Kernel) (wakeupTick : ℤ) : Prop where
  head : (k.threads k.current).pending.head? = some (.sleepEnqueue wakeupTick)
  fresh : k.current ∉ k.threadsToWakeup
  mem : ∀ t, t ∈ k'.threadsToWakeup ↔ t = k.current ∨ t ∈ k.threadsToWakeup
  sorted : k'.threadsToWakeup.Pairwise fun a b =>
    (k'.threads a).wakeupTick ≤ (k'.threads b).wakeupTick
  ticks : k'.ticks = k.ticks
  next : k.nextThread ≤ k'.nextThread
  deadline : (k'.threads k.current).wakeupTick = wakeupTick
  wakeupTick : ∀ t < k.nextThread, t ≠ k.current →
    (k'.threads t).wakeupTick = (k.threads t).wakeupTick
  pending : ∀ t, (k'.threads t).pending = if t = k.current then (k.threads t).pending.tail
    else (k.threads t).pending
  blocked : ∀ t < k.nextThread, t ≠ k.current → k'.status t = .blocked → k.status t = .blocked

theorem AlarmInv.enqueued (h : k.AlarmInv) (ha : k.action e = some (.sleepEnqueue wakeupTick))
    (hsw : k.handle e = some sw) : Enqueued k sw.finish wakeupTick := by
  rcases handle_eq_some hsw with ⟨a, ha', hfrom, hrun⟩ | ⟨rfl, -⟩ | ⟨n, k', rfl, -, -⟩
  · obtain rfl : a = .sleepEnqueue wakeupTick := Option.some.inj (ha'.symm.trans ha)
    have hfresh := h.parked.current_awake h.active hfrom nofun
    have hlt (t : ThreadId) (ht : t ∈ k.threadsToWakeup) : t < k.nextThread :=
      h.parked.sleeper_lt h.active.toWf ht
    set k₀ := k.goOn (k.threads k.current).pending.tail
    simp only [Action.run, Kernel.sleepEnqueue] at hrun
    set k₁ := k₀.updateCurrent fun t => { t with wakeupTick := wakeupTick, slept := true }
    set list := listInsertOrdered k₁.compareThreadsByWakeupTime k₁.current k₁.threadsToWakeup
    set k₂ : Kernel := { k₁ with threadsToWakeup := list }
    have hself : k₂.threads k.current = { k.threads k.current with
        wakeupTick := wakeupTick, slept := true,
        pending := (k.threads k.current).pending.tail } := by
      refine (Function.update_self (f := k₀.threads) ..).trans ?_
      rw [show k₀.threads k₀.current = _ from Function.update_self (f := k.threads) ..]
    have hothers (t : ThreadId) (ht : t ≠ k.current) : k₂.threads t = k.threads t :=
      (Function.update_of_ne (f := k₀.threads) ht ..).trans (Function.update_of_ne ht ..)
    have hsame (c : ThreadId) : SameAlarm c k₂ sw.finish := sameAlarm_lockRelease hrun
    have hcurrent := h.active.current_lt
    have htick (t : ThreadId) (ht : t < k.nextThread) :
        (sw.finish.threads t).wakeupTick
          = if t = k.current then wakeupTick else (k.threads t).wakeupTick := by
      rw [(hsame k.current).wakeupTick t ht]
      split
      · rename_i heq
        rw [heq, hself]
      · rename_i hne
        rw [hothers t hne]
    refine ⟨?_, hfresh, fun t => ?_, ?_, (hsame k.current).ticks, ?_, ?_, fun t ht hne => ?_,
      fun t => ?_, fun t ht hne hblocked => ?_⟩
    · exact hfrom.resolve_right fun hcall => Bool.false_ne_true hcall.2
    · rw [(hsame k.current).sleepers]
      exact mem_listInsertOrdered
    · rw [(hsame k.current).sleepers]
      have hinserted : list.Pairwise fun a b =>
          (k₂.threads a).wakeupTick ≤ (k₂.threads b).wakeupTick := by
        refine pairwise_listInsertOrdered (fun a b c => le_trans)
          (fun a _ hless => of_decide_eq_true hless)
          (fun a _ hge => (not_le.mp (of_decide_eq_false hge)).le) ?_
        refine h.sorted.imp_of_mem fun {a b} ha hb hle => ?_
        rw [hothers a fun heq => hfresh (heq ▸ ha), hothers b fun heq => hfresh (heq ▸ hb)]
        exact hle
      have halive (t : ThreadId) (ht : t ∈ list) : t < k.nextThread := by
        rcases mem_listInsertOrdered.mp ht with rfl | hmem
        · exact hcurrent
        · exact hlt t hmem
      refine hinserted.imp_of_mem fun {a b} ha hb hle => ?_
      rw [(hsame k.current).wakeupTick a (halive a ha),
        (hsame k.current).wakeupTick b (halive b hb)]
      exact hle
    · exact (hsame k.current).next
    · rw [htick _ hcurrent, if_pos rfl]
    · rw [htick t ht, if_neg hne]
    · rw [(quiet_lockRelease hrun t).2]
      split
      · rename_i heq
        rw [heq, hself]
      · rename_i hne
        rw [hothers t hne]
    · have hblocked₂ := (hsame k.current).blocked t ht hne hblocked
      unfold status at hblocked₂ ⊢
      rwa [hothers t hne] at hblocked₂
  · cases ha
  · cases ha

/-- **What a step does to the list**: the timer takes from it, a thread enters it, or it
stays. -/
theorem AlarmInv.step_cases (h : k.AlarmInv) (hstep : KernelStep k e k') :
    (e = .timerInterrupt ∧ Alarmed k k')
      ∨ (∃ wakeupTick, k.action e = some (.sleepEnqueue wakeupTick) ∧ Enqueued k k' wakeupTick)
      ∨ e ≠ .timerInterrupt ∧ (∀ wakeupTick, k.action e ≠ some (.sleepEnqueue wakeupTick))
        ∧ SameAlarm k.current k k' := by
  obtain ⟨sw, hsw, rfl⟩ := Option.map_eq_some_iff.mp hstep.2
  by_cases htimer : e = .timerInterrupt
  · subst htimer
    refine .inl ⟨rfl, ?_⟩
    simp only [handle] at hsw
    split at hsw
    · exact alarmed_timerInterrupt h.active h.parked.sleepers_nodup hsw
    · cases hsw
  · by_cases henqueue : ∃ wakeupTick, k.action e = some (.sleepEnqueue wakeupTick)
    · obtain ⟨w, ha⟩ := henqueue
      exact .inr (.inl ⟨w, ha, h.enqueued ha hsw⟩)
    · have hne := not_exists.mp henqueue
      exact .inr (.inr ⟨htimer, hne, sameAlarm_handle hsw htimer hne⟩)

theorem AlarmInv.alarmed (h : k.AlarmInv) (hstep : KernelStep k .timerInterrupt k') :
    Alarmed k k' := by
  rcases h.step_cases hstep with ⟨-, halarmed⟩ | ⟨w, ha, -⟩ | ⟨hne, -⟩
  · exact halarmed
  · cases ha
  · exact absurd rfl hne

theorem AlarmInv.sorted_step (h : k.AlarmInv) (hstep : KernelStep k e k') :
    k'.threadsToWakeup.Pairwise fun a b =>
      (k'.threads a).wakeupTick ≤ (k'.threads b).wakeupTick := by
  rcases h.step_cases hstep with ⟨-, halarmed⟩ | ⟨w, -, henqueued⟩ | ⟨-, -, hsame⟩
  · rw [halarmed.sleepers]
    simp only [halarmed.wakeupTick]
    exact h.sorted.sublist (List.dropWhile_sublist _)
  · exact henqueued.sorted
  · rw [hsame.sleepers]
    refine h.sorted.imp_of_mem fun {a b} ha hb hle => ?_
    rw [hsame.wakeupTick a (h.parked.sleeper_lt h.active.toWf ha),
      hsame.wakeupTick b (h.parked.sleeper_lt h.active.toWf hb)]
    exact hle

/-- **The step lemma.** -/
theorem AlarmInv.step (h : k.AlarmInv) (hstep : KernelStep k e k') : k'.AlarmInv where
  active := hstep.active h.active
  parked := hstep.parked h.parked h.active
  sorted := h.sorted_step hstep

/-! ## A thread on the list -/

/-- The alarm makes a thread ready. -/
def AlarmReadies (c : ThreadId) (k : Kernel) (e : Event) (k' : Kernel) : Prop :=
  e = .timerInterrupt ∧ k.status c = .blocked ∧ k'.status c ≠ .blocked

theorem AlarmInv.notMem_due (h : k.AlarmInv)
    (hc : c ∈ k.threadsToWakeup.dropWhile (k.due (k.ticks + 1))) : c ∉ k.dueSleepers := by
  have hnodup := h.parked.sleepers_nodup
  rw [← List.takeWhile_append_dropWhile (p := k.due (k.ticks + 1)) (l := k.threadsToWakeup)]
    at hnodup
  exact fun hdue => (List.disjoint_of_nodup_append hnodup) hdue hc

/-- **The timer** leaves a thread on the list just if it does not make it ready. -/
theorem AlarmInv.mem_timer (h : k.AlarmInv) (halarmed : Alarmed k k') (hc : c ∈ k.threadsToWakeup) :
    c ∈ k'.threadsToWakeup ↔ ¬ (k.status c = .blocked ∧ k'.status c ≠ .blocked) := by
  have hidle : c ≠ k.idleThread := fun heq => h.parked.idle_awake (heq ▸ hc)
  have hstatus := halarmed.status c hidle
  rw [halarmed.sleepers]
  constructor
  · rintro hstays ⟨hblocked, hreadied⟩
    exact hreadied (hstatus.mpr ⟨hblocked, h.notMem_due hstays⟩)
  · intro hsleeps
    -- A sleeper that was due has been made ready.
    have hnot : c ∉ k.dueSleepers := fun hdue =>
      hsleeps ⟨halarmed.blocked c hdue, fun hblocked => (hstatus.mp hblocked).2 hdue⟩
    rw [← List.takeWhile_append_dropWhile (p := k.due (k.ticks + 1)) (l := k.threadsToWakeup),
      List.mem_append] at hc
    exact hc.resolve_left hnot

/-- **A thread on the list** stays there, with its deadline, just as long as the alarm does
not make it ready. -/
theorem AlarmInv.mem_step (h : k.AlarmInv) (hstep : KernelStep k e k')
    (hc : c ∈ k.threadsToWakeup) : (c ∈ k'.threadsToWakeup ↔ ¬ AlarmReadies c k e k')
      ∧ (k'.threads c).wakeupTick = (k.threads c).wakeupTick := by
  have hlt := h.parked.sleeper_lt h.active.toWf hc
  rcases h.step_cases hstep with ⟨rfl, halarmed⟩ | ⟨w, ha, henqueued⟩ | ⟨htimer, -, hsame⟩
  · refine ⟨(h.mem_timer halarmed hc).trans ?_, halarmed.wakeupTick c⟩
    exact not_congr ⟨fun hreadied => ⟨rfl, hreadied⟩, And.right⟩
  · have hne : c ≠ k.current := fun heq => henqueued.fresh (heq ▸ hc)
    refine ⟨iff_of_true ((henqueued.mem c).mpr (.inr hc)) ?_, henqueued.wakeupTick c hlt hne⟩
    rintro ⟨rfl, -⟩
    cases ha
  · exact ⟨iff_of_true (hsame.sleepers ▸ hc) fun hreadied => htimer hreadied.1,
      hsame.wakeupTick c hlt⟩

/-- A thread that a step brings to the list enters it. -/
theorem AlarmInv.enters (h : k.AlarmInv) (hstep : KernelStep k e k')
    (hc : c ∈ k'.threadsToWakeup) (hnew : c ∉ k.threadsToWakeup) :
    c = k.current ∧ k.action e = some (.sleepEnqueue (k'.threads c).wakeupTick) := by
  rcases h.step_cases hstep with ⟨-, halarmed⟩ | ⟨w, ha, henqueued⟩ | ⟨-, -, hsame⟩
  · rw [halarmed.sleepers] at hc
    exact absurd (List.dropWhile_subset _ hc) hnew
  · obtain rfl := ((henqueued.mem c).mp hc).resolve_right hnew
    exact ⟨rfl, henqueued.deadline ▸ ha⟩
  · exact absurd (hsame.sleepers ▸ hc) hnew

/-! ## The timer interrupt -/

/-- **A timer interrupt is exact**: it takes the threads that are due off the list, and
leaves the others on it as they are. -/
def AlarmExact (k : Kernel) : Prop :=
  ∃ k', KernelStep k .timerInterrupt k' ∧ k'.ticks = k.ticks + 1
    ∧ k'.threadsToWakeup
      = k.threadsToWakeup.filter fun t => ((k.ticks + 1 : ℕ) : ℤ) < (k.threads t).wakeupTick

/-- In a list that is in order the threads that are not due are at the end. -/
theorem AlarmInv.dropWhile_due (h : k.AlarmInv) (now : ℕ) : k.threadsToWakeup.dropWhile (k.due now)
      = k.threadsToWakeup.filter fun t => (now : ℤ) < (k.threads t).wakeupTick := by
  have hdue (t : ThreadId) : (decide ((now : ℤ) < (k.threads t).wakeupTick)) = !k.due now t := by
    unfold due
    rw [← decide_not]
    exact decide_eq_decide.mpr not_le.symm
  simp only [hdue]
  exact dropWhile_of_pairwise h.sorted
    fun a b hle hb => decide_eq_true (hle.trans (of_decide_eq_true hb))

/-- A timer interrupt comes to its end just if no thread that is due has still to block. -/
theorem AlarmInv.timer_iff (h : k.AlarmInv) (hon : k.interruptsOn = true) :
    (∃ k', KernelStep k .timerInterrupt k') ↔ k.DueHaveBlocked := by
  rw [← h.parked.wakesSleepers_iff]
  constructor
  · rintro ⟨k', hstep⟩
    obtain ⟨sw, hsw, -⟩ := Option.map_eq_some_iff.mp hstep.2
    simp only [handle, hon, if_true] at hsw
    refine ⟨(alarmed_timerInterrupt h.active h.parked.sleepers_nodup hsw).blocked, ?_⟩
    rw [hsw]
    exact Option.some_ne_none sw
  · rintro ⟨-, hsome⟩
    obtain ⟨sw, hsw⟩ := Option.ne_none_iff_exists'.mp hsome
    refine ⟨sw.finish, (fun hexit => by cases hexit), ?_⟩
    simp only [handle, hon, if_true, hsw]
    rfl

/-- **The timer interrupt is exact** under the same condition. -/
theorem AlarmInv.alarmExact_iff (h : k.AlarmInv) (hon : k.interruptsOn = true) :
    k.AlarmExact ↔ k.DueHaveBlocked := by
  rw [← h.timer_iff hon]
  constructor
  · rintro ⟨k', hstep, -⟩
    exact ⟨k', hstep⟩
  · rintro ⟨k', hstep⟩
    have halarmed := h.alarmed hstep
    exact ⟨k', hstep, halarmed.ticks, halarmed.sleepers.trans (h.dropWhile_due _)⟩

end Kernel

/-! ## Runs -/

theorem boot_alarmInv (mlfqs : Bool) (values : ℕ → ℕ) : (boot mlfqs values).AlarmInv where
  active := boot_active mlfqs values
  parked := boot_parked mlfqs values
  sorted := List.Pairwise.nil

/-- **A thread that sleeps**: in some run to this state it has entered the list, with its
deadline, and the alarm has not made it ready since. -/
def Sleeps (mlfqs : Bool) (values : ℕ → ℕ) (c : ThreadId) (wakeupTick : ℤ) (k : Kernel) : Prop :=
  ∃ events₁ k₁ e k₂ events₂, Run KernelStep (boot mlfqs values) events₁ k₁
    ∧ k₁.current = c ∧ k₁.action e = some (.sleepEnqueue wakeupTick) ∧ KernelStep k₁ e k₂
    ∧ Run (fun k e k' => KernelStep k e k' ∧ ¬ k.AlarmReadies c e k') k₂ events₂ k

section

variable {mlfqs : Bool} {values : ℕ → ℕ} {c : ThreadId} {wakeupTick : ℤ} {k k' : Kernel}
  {e : Event} {events : List Event}

theorem alarmInv_of_run (hrun : Run KernelStep (boot mlfqs values) events k) : k.AlarmInv :=
  hrun.invariant (I := fun _ k => k.AlarmInv) (boot_alarmInv mlfqs values)
    fun _ _ _ _ hinv hstep => hinv.step hstep

/-- **A thread that sleeps is on the list.** -/
theorem Sleeps.on_list (h : Sleeps mlfqs values c wakeupTick k) :
    k.AlarmInv ∧ c ∈ k.threadsToWakeup ∧ (k.threads c).wakeupTick = wakeupTick := by
  obtain ⟨events₁, k₁, e, k₂, events₂, hrun₁, rfl, ha, hstep, hrun₂⟩ := h
  have hinv₁ := alarmInv_of_run hrun₁
  refine hrun₂.invariant (I := fun _ k => k.AlarmInv ∧ k₁.current ∈ k.threadsToWakeup
    ∧ (k.threads k₁.current).wakeupTick = wakeupTick) ⟨hinv₁.step hstep, ?_⟩ ?_
  · obtain ⟨sw, hsw, rfl⟩ := Option.map_eq_some_iff.mp hstep.2
    have henqueued := hinv₁.enqueued ha hsw
    exact ⟨(henqueued.mem _).mpr (.inl rfl), henqueued.deadline⟩
  · rintro _ k e k' ⟨hinv, hmem, htick⟩ ⟨hstep, hsleeps⟩
    obtain ⟨hstays, hsame⟩ := hinv.mem_step hstep hmem
    exact ⟨hinv.step hstep, hstays.mpr hsleeps, hsame.trans htick⟩

theorem Sleeps.step (h : Sleeps mlfqs values c wakeupTick k) (hstep : KernelStep k e k')
    (hsleeps : ¬ k.AlarmReadies c e k') : Sleeps mlfqs values c wakeupTick k' := by
  obtain ⟨events₁, k₁, e₁, k₂, events₂, hrun₁, hcurrent, ha, hstep₁, hrun₂⟩ := h
  exact ⟨events₁, k₁, e₁, k₂, _, hrun₁, hcurrent, ha, hstep₁, hrun₂.snoc ⟨hstep, hsleeps⟩⟩

/-- **A thread on the list sleeps.** -/
theorem sleeps_of_mem (hrun : Run KernelStep (boot mlfqs values) events k) :
    ∀ c ∈ k.threadsToWakeup, Sleeps mlfqs values c (k.threads c).wakeupTick k := by
  induction hrun with
  | nil => exact nofun
  | snoc hrun hstep ih =>
    rename_i events k k' e
    have hinv := alarmInv_of_run hrun
    intro c hc
    by_cases hmem : c ∈ k.threadsToWakeup
    · obtain ⟨hstays, htick⟩ := hinv.mem_step hstep hmem
      rw [htick]
      exact (ih c hmem).step hstep (hstays.mp hc)
    · obtain ⟨hcurrent, ha⟩ := hinv.enters hstep hc hmem
      exact ⟨events, k, e, k', [], hrun, hcurrent.symm, ha, hstep, .nil⟩

end

/-- **The list of sleeping threads.** In every state the kernel reaches, in either mode, the
list is in the order of the deadlines; every thread that sleeps is on it once, with its
deadline, and nobody else is. A timer interrupt takes just the threads off it whose deadline
has come, and leaves the others as they are, if and only if none that is due has still to call
`thread_block`. -/
theorem timerInterrupt_exact_iff {mlfqs : Bool} {values : ℕ → ℕ} {events : List Event}
    {k : Kernel} (hrun : Run KernelStep (boot mlfqs values) events k) :
    (k.threadsToWakeup.Pairwise fun a b => (k.threads a).wakeupTick ≤ (k.threads b).wakeupTick)
    ∧ (∀ c wakeupTick, Sleeps mlfqs values c wakeupTick k →
      k.threadsToWakeup.count c = 1 ∧ (k.threads c).wakeupTick = wakeupTick)
    ∧ (∀ c ∈ k.threadsToWakeup, Sleeps mlfqs values c (k.threads c).wakeupTick k)
    ∧ (k.interruptsOn = true → (k.AlarmExact ↔ k.DueHaveBlocked)) := by
  have hinv := alarmInv_of_run hrun
  refine ⟨hinv.sorted, fun c wakeupTick hsleeps => ?_, sleeps_of_mem hrun, hinv.alarmExact_iff⟩
  obtain ⟨-, hmem, htick⟩ := hsleeps.on_list
  exact ⟨List.count_eq_one_of_mem hinv.parked.sleepers_nodup hmem, htick⟩

/-- A thread sleeps for three ticks, then the main thread for one. -/
def twoSleepersEvents : List Event :=
  createEvents 40 ++ [.call (.timerSleep 3), .resume, .resume, .resume,
    .call (.timerSleep 1), .resume, .resume, .resume]

/-- The main thread is in front, and the next timer interrupt takes it off alone. -/
theorem timerInterrupt_exact_iff_twoSleepers :
    ∃ k k', Run KernelStep (boot false fun _ => 0) twoSleepersEvents k
      ∧ k.threadsToWakeup = [0, 2] ∧ KernelStep k .timerInterrupt k'
      ∧ k'.threadsToWakeup = [2] := by
  have hrun : (twoSleepersEvents.foldlM Kernel.next (boot false fun _ => 0)).any
      (fun k => k.interruptsOn ∧ k.threadsToWakeup = [0, 2] ∧ k.ticks = 0
        ∧ (k.threads 0).wakeupTick = 1 ∧ (k.threads 2).wakeupTick = 3
        ∧ (k.threads 0).pending.head? ≠ some .threadBlock) = true := by
    decide +kernel
  obtain ⟨k, hk, hstate⟩ := (Option.any_eq_true _ _).mp hrun
  obtain ⟨hon, hlist, hticks, hzero, htwo, hblocked⟩ := of_decide_eq_true hstate
  have hrun : Run KernelStep (boot false fun _ => 0) twoSleepersEvents k := by
    refine Run.of_foldlM (fun k e k' h => ?_) hk
    exact Kernel.kernelStep_of_next h
  have hdue : k.DueHaveBlocked := by
    intro t ht
    rw [Kernel.dueSleepers, hlist, hticks] at ht
    simp only [List.takeWhile, hzero, htwo] at ht
    obtain rfl : t = 0 := by simpa using ht
    exact hblocked
  obtain ⟨k', hstep, -, hleft⟩ := ((timerInterrupt_exact_iff hrun).2.2.2 hon).mpr hdue
  refine ⟨k, k', hrun, hlist, hstep, hleft.trans ?_⟩
  rw [hlist, hticks]
  simp [List.filter, hzero, htwo]

/-- Two threads of higher priority than the main one's sleep, for one tick and for two. The
main thread calls `timer_sleep` as well and reads the clock, and then the timer interrupts and
wakes the first; the main thread enters the list and is preempted when it releases the lock. -/
def overdueEvents : List Event :=
  createEvents 50 ++ [.call (.timerSleep 1), .resume, .resume, .resume]
    ++ createEvents 45 ++ [.call (.timerSleep 2), .resume, .resume, .resume]
    ++ [.call (.timerSleep 1), .timerInterrupt, .resume, .resume, .resume]

/-- **An interrupt that does not come to its end**: the main thread is due and only ready, so
that `thread_unblock` fails, and thread 3 behind it, which is due as well, is not woken. -/
theorem timerInterrupt_stuck :
    ∃ k, Run KernelStep (boot false fun _ => 0) overdueEvents k ∧ k.interruptsOn = true
      ∧ k.threadsToWakeup = [0, 3] ∧ k.status 0 = .ready ∧ k.status 3 = .blocked
      ∧ (k.threads 3).wakeupTick = ((k.ticks + 1 : ℕ) : ℤ) ∧ ¬ k.AlarmExact := by
  have hrun : (overdueEvents.foldlM Kernel.next (boot false fun _ => 0)).any
      (fun k => k.interruptsOn ∧ k.threadsToWakeup = [0, 3] ∧ k.status 0 = .ready
        ∧ k.status 3 = .blocked ∧ (k.threads 3).wakeupTick = ((k.ticks + 1 : ℕ) : ℤ)
        ∧ k.timerInterrupt.isNone) = true := by
    decide +kernel
  obtain ⟨k, hk, hstate⟩ := (Option.any_eq_true _ _).mp hrun
  obtain ⟨hon, hlist, hready, hblocked, htick, hnone⟩ := of_decide_eq_true hstate
  have hrun : Run KernelStep (boot false fun _ => 0) overdueEvents k := by
    refine Run.of_foldlM (fun k e k' h => ?_) hk
    exact Kernel.kernelStep_of_next h
  refine ⟨k, hrun, hon, hlist, hready, hblocked, htick, ?_⟩
  rintro ⟨k', hstep, -⟩
  obtain ⟨sw, hsw, -⟩ := Option.map_eq_some_iff.mp hstep.2
  simp only [Kernel.handle, hon, if_true] at hsw
  rw [hsw] at hnone
  cases hnone

end Pintos
