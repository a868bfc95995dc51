import Cs162.Mlfqs

/-!
# Incremental and full recalculation of priorities

Every fourth tick the timer recalculates the priority of one thread, the
running one, on the ground that only its account has changed; every hundredth
tick it recalculates all. Between two full recalculations a priority can
therefore be out of date: a thread that loses the processor between two
multiples of `TIME_SLICE` takes a charge with it that nobody looks at, and
`init_thread` gives a new thread the priority it is created with.

Where neither happens – threads give up the processor only when they have been
charged nothing since their last recalculation, and are created with
`PRI_MAX`, which is what a new account amounts to – the shortcut agrees with
recalculating all.
-/

namespace Pintos

open KernelList

/-- **The priority a full recalculation gives**: the value of the formula for
`recent_cpu` and `nice`, rounded and clamped. -/
def fullPriority (t : Thread) : ℤ :=
  max priMin (min priMax (fixRound
    (fixSub (fixSub (fixInt priMax) (fixUnscale t.recentCpu 4)) (fixInt (2 * t.nice)))))

theorem calculatedPriority_eq (t : Thread) : Kernel.calculatedPriority t = fullPriority t := by
  unfold Kernel.calculatedPriority fullPriority
  generalize fixRound _ = priority
  dsimp only
  unfold priMin priMax
  split
  · omega
  · split <;> omega

namespace Kernel

variable {k k' : Kernel} {t : ThreadId} {sw : Switch} {e : Event}

/-- The priority of a thread is the one a full recalculation would give. -/
def UpToDate (k : Kernel) (t : ThreadId) : Prop := k.priority t = fullPriority (k.threads t)

theorem UpToDate.congr (h : (k'.threads t).account = (k.threads t).account) :
    k'.UpToDate t ↔ k.UpToDate t := by
  obtain ⟨hpriority, hrest⟩ := Prod.mk.inj h
  obtain ⟨hnice, hcpu⟩ := Prod.mk.inj hrest
  unfold UpToDate Kernel.priority fullPriority
  rw [hpriority, hnice, hcpu]

theorem upToDate_of_calculated {th : Thread}
    (h : k.threads t = { th with priority := calculatedPriority th }) : k.UpToDate t := by
  unfold UpToDate Kernel.priority
  rw [h, calculatedPriority_eq]
  rfl

/-- **The running thread has been charged nothing since it got the processor or
since the last multiple of `TIME_SLICE`**, and some ticks have passed. -/
def onGrid (k : Kernel) : Bool :=
  k.ticks > 0 ∧ (k.ticks % timeSlice = 0 ∨ k.threadTicks = 0)

/-- **The condition on a step**: a thread is created with `PRI_MAX`, and, the
idle thread apart, gives up the processor only on the grid. One that exits has
no account any more, and `thread_set_nice` has just calculated the priority of
its caller. -/
def timely (k : Kernel) (e : Event) : Bool :=
  match k.action e with
  | some (.threadCreate priority) => priority = priMax
  | some (.threadSetNice _) | some .threadExit => true
  | _ =>
    match k.handle e with
    | some (.schedule k) => k.current = k.idleThread ∨ k.onGrid = true
    | _ => true

/-- **What the timer relies on**: every thread but the running one is up to
date, and so is the running one on the grid. -/
structure Kept (k : Kernel) : Prop where
  mlfqs : k.mlfqs = true
  others : ∀ t ∈ k.allList, t ≠ k.idleThread → t ≠ k.current → k.UpToDate t
  current : k.onGrid = true → k.current ≠ k.idleThread → k.UpToDate k.current

/-- Every thread is up to date. -/
def AllUpToDate (k : Kernel) : Prop := ∀ t ∈ k.allList, t ≠ k.idleThread → k.UpToDate t

theorem AllUpToDate.unaccounted (h : k.AllUpToDate) (hsame : Unaccounted k k') :
    k'.AllUpToDate := by
  intro t ht hidle
  rw [UpToDate.congr (hsame.account t)]
  exact h t (hsame.all t ht) (hsame.idle ▸ hidle)

theorem Kept.unaccounted (h : k.Kept) (hsame : Unaccounted k k') : k'.Kept where
  mlfqs := hsame.mlfqs.trans h.mlfqs
  others t ht hidle hcurrent := by
    rw [UpToDate.congr (hsame.account t)]
    exact h.others t (hsame.all t ht) (hsame.idle ▸ hidle) (hsame.current ▸ hcurrent)
  current hgrid hidle := by
    rw [hsame.current, UpToDate.congr (hsame.account _)]
    refine h.current ?_ (by rwa [hsame.current, hsame.idle] at hidle)
    unfold onGrid at hgrid ⊢
    rwa [hsame.ticks, hsame.threadTicks] at hgrid

/-- Where the running thread is up to date, or has left `all_list`, all are. -/
theorem Kept.allUpToDate (h : k.Kept)
    (hcurrent : k.current ∈ k.allList → k.current ≠ k.idleThread → k.UpToDate k.current) :
    k.AllUpToDate := by
  intro t ht hidle
  by_cases htc : t = k.current
  · subst htc
    exact hcurrent ht hidle
  · exact h.others t ht hidle htc

theorem AllUpToDate.kept (h : k.AllUpToDate) (hmlfqs : k.mlfqs = true)
    (hcurrent : k.current ∈ k.allList) : k.Kept :=
  ⟨hmlfqs, fun t ht hidle _ => h t ht hidle, fun _ hidle => h _ hcurrent hidle⟩

theorem AllUpToDate.schedule (h : k.AllUpToDate) : k.schedule.AllUpToDate := by
  intro t ht hidle
  have hsame : (k.schedule.threads t).account = (k.threads t).account := by
    unfold Kernel.schedule
    exact proj_updateCurrent Thread.account rfl t
  rw [UpToDate.congr hsame]
  exact h t ht hidle

/-! ## What each event keeps -/

/-- The charge of a tick leaves the other threads alone. -/
theorem Kept.upToDate_charged (h : k.Kept) (ht : t ∈ k.allList) (hidle : t ≠ k.idleThread)
    (hcurrent : t ≠ k.current) : k.charged.UpToDate t := by
  have hsame : k.charged.threads t = k.threads t := by
    rw [threads_charged, if_neg fun hnot => hcurrent hnot.1]
  rw [UpToDate.congr (congrArg Thread.account hsame)]
  exact h.others t ht hidle hcurrent

/-- **A full second brings every thread up to date.** -/
theorem allUpToDate_second (hnodup : k.allList.Nodup) (hsecond : (k.ticks + 1) % timerFreq = 0) :
    k.ticked.AllUpToDate := by
  have hsame := onlyThreads_ticked hnodup
  obtain ⟨-, hthreads⟩ := ticked_second hnodup hsecond
  intro t ht hidle
  rw [hsame.all] at ht
  rw [hsame.idle] at hidle
  exact upToDate_of_calculated ((hthreads t).trans (if_pos ⟨ht, hidle⟩))

/-- **On the grid a tick brings every thread up to date.** -/
theorem Kept.allUpToDate_ticked (h : k.Kept) (hnodup : k.allList.Nodup)
    (hgrid : (k.ticks + 1) % timeSlice = 0) : k.ticked.AllUpToDate := by
  have hcharged := onlyThreads_charged k
  by_cases hsecond : (k.ticks + 1) % timerFreq = 0
  · exact allUpToDate_second hnodup hsecond
  · rw [ticked_slice hsecond hgrid]
    have hsame := hcharged.trans (onlyThreads_calculatePriority k.charged k.current)
    intro t ht hidle
    have ht : t ∈ k.allList := hsame.all ▸ ht
    have hidle : t ≠ k.idleThread := hsame.idle ▸ hidle
    by_cases htc : t = k.current
    · exact upToDate_of_calculated ((threads_calculatePriority _ _ t).trans
        (if_pos ⟨htc, fun heq => hidle (heq.trans hcharged.idle)⟩))
    · have hkeep : (k.charged.calculatePriority k.current).threads t = k.charged.threads t := by
        rw [threads_calculatePriority, if_neg fun hnot => htc hnot.1]
      rw [UpToDate.congr (congrArg Thread.account hkeep)]
      exact h.upToDate_charged ht hidle htc

/-- **A tick**: off the grid, only the running thread may have fallen behind. -/
theorem Kept.ticked (h : k.Kept) (hnodup : k.allList.Nodup) (hcurrent : k.current ∈ k.allList) :
    k.ticked.Kept := by
  by_cases hgrid : (k.ticks + 1) % timeSlice = 0
  · have hsame := onlyThreads_ticked hnodup
    refine (h.allUpToDate_ticked hnodup hgrid).kept (hsame.mlfqs.trans h.mlfqs) ?_
    rw [hsame.current, hsame.all]
    exact hcurrent
  · rw [ticked_other hgrid]
    have hcharged := onlyThreads_charged k
    refine ⟨hcharged.mlfqs.trans h.mlfqs, fun t ht hidle htc => ?_, fun hon => ?_⟩
    · exact h.upToDate_charged (hcharged.all ▸ ht) (hcharged.idle ▸ hidle) (hcharged.current ▸ htc)
    · exfalso
      have hon := of_decide_eq_true hon
      rw [hcharged.ticks, hcharged.threadTicks] at hon
      rcases hon.2 with hon | hon
      · exact hgrid hon
      · exact absurd hon (Nat.succ_ne_zero _)

/-- **`thread_set_nice`** brings the running thread up to date. -/
theorem Kept.allUpToDate_niceSet (h : k.Kept) (nice : ℤ) : (k.niceSet nice).AllUpToDate := by
  have hsame := onlyThreads_niceSet k nice
  intro t ht hidle
  have ht : t ∈ k.allList := hsame.all ▸ ht
  have hidle : t ≠ k.idleThread := hsame.idle ▸ hidle
  by_cases htc : t = k.current
  · exact upToDate_of_calculated ((threads_calculatePriority _ _ t).trans (if_pos ⟨htc, hidle⟩))
  · have hkeep : ((k.niceSet nice).threads t).account = (k.threads t).account := by
      rw [account_niceSet, if_neg htc]
    rw [UpToDate.congr hkeep]
    exact h.others t ht hidle htc

/-- **A new thread** with `PRI_MAX` is up to date. -/
theorem Kept.initThread (h : k.Kept) (hactive : k.Active) : (k.initThread priMax).Kept := by
  have hnew : (k.initThread priMax).threads k.nextThread = newThread priMax := by
    unfold Kernel.initThread
    rw [update_threads, Function.update_self]
  have hold : ∀ t, t ≠ k.nextThread → (k.initThread priMax).threads t = k.threads t := by
    intro t ht
    unfold Kernel.initThread
    rw [update_threads, Function.update_of_ne ht]
  refine ⟨h.mlfqs, fun t ht hidle htc => ?_, fun hgrid hidle => ?_⟩
  · by_cases htn : t = k.nextThread
    · unfold UpToDate Kernel.priority
      rw [htn, hnew]
      decide
    · rw [UpToDate.congr (congrArg Thread.account (hold t htn))]
      refine h.others t ?_ hidle htc
      have ht : t ∈ k.allList ++ [k.nextThread] := ht
      simpa [htn] using ht
  · have hne : k.current ≠ k.nextThread := hactive.current_lt.ne
    show (k.initThread priMax).UpToDate k.current
    rw [UpToDate.congr (congrArg Thread.account (hold _ hne))]
    exact h.current hgrid hidle

theorem Kept.accounted (h : k.Kept) (hactive : k.Active) (htimely : k.timely e = true) :
    (k.accounted e).Kept := by
  have hcurrent : k.current ∈ k.allList := by
    rw [hactive.all_mem, hactive.running]
    exact nofun
  unfold timely at htimely
  unfold Kernel.accounted
  split
  · rename_i nice _
    have hsame := onlyThreads_niceSet k nice
    refine (h.allUpToDate_niceSet nice).kept (hsame.mlfqs.trans h.mlfqs) ?_
    rw [hsame.current, hsame.all]
    exact hcurrent
  · rename_i priority ha
    rw [ha] at htimely
    obtain rfl : priority = priMax := of_decide_eq_true htimely
    exact h.initThread hactive
  · exact h
  · split
    · exact h.ticked hactive.all_nodup hcurrent
    · exact h

/-- **Where the processor changes hands after an event that is timely, every
thread is up to date.** -/
theorem Kept.allUpToDate_schedule (h : k.Kept) (hactive : k.Active)
    (hexit : k.action e = some .threadExit → k.current ≠ k.idleThread)
    (htimely : k.timely e = true) {k₁ : Kernel} (hsw : k.handle e = some (.schedule k₁)) :
    k₁.AllUpToDate := by
  have hkept : k₁.Kept :=
    (h.accounted hactive htimely).unaccounted (handle_accounts h.mlfqs hsw)
  have hgrid : k₁.current = k₁.idleThread ∨ k₁.onGrid = true → k₁.AllUpToDate := fun hgrid =>
    hkept.allUpToDate fun _ hidle => hkept.current (hgrid.resolve_left hidle) hidle
  unfold timely at htimely
  split at htimely
  · rename_i priority ha
    obtain ⟨-, k', hstay⟩ := handle_threadCreate ha hsw
    cases hstay
  · rename_i nice ha
    have hsame := handle_accounts h.mlfqs hsw
    unfold Kernel.accounted at hsame
    rw [ha] at hsame
    exact (h.allUpToDate_niceSet nice).unaccounted hsame
  · rename_i ha
    have hwf : k₁.Wf := hactive.handle hexit hsw
    refine hkept.allUpToDate fun hin => ?_
    exact absurd (handle_threadExit ha hsw) ((hwf.all_mem _).mp hin)
  · rw [hsw] at htimely
    exact hgrid (of_decide_eq_true htimely)

end Kernel

/-- A step of the kernel that is timely. -/
def TimelyStep (k : Kernel) (e : Event) (k' : Kernel) : Prop :=
  KernelStep k e k' ∧ k.timely e = true

namespace Kernel

variable {k k' : Kernel} {e : Event}

/-- **Every timely step keeps it.** -/
theorem Kept.step (h : k.Kept) (hactive : k.Active) (hstep : TimelyStep k e k') : k'.Kept := by
  have hactive' := hstep.1.active hactive
  obtain ⟨⟨hexit, hmap⟩, htimely⟩ := hstep
  obtain ⟨sw, hsw, rfl⟩ := Option.map_eq_some_iff.mp hmap
  have hkept : sw.state.Kept :=
    (h.accounted hactive htimely).unaccounted (handle_accounts h.mlfqs hsw)
  cases sw with
  | stay k₁ => exact hkept
  | schedule k₁ =>
    have hall := h.allUpToDate_schedule hactive (fun ha => (hexit ha).1) htimely hsw
    have hactive' : k₁.schedule.Active := hactive'
    refine hall.schedule.kept hkept.mlfqs ((hactive'.all_mem _).mpr ?_)
    rw [hactive'.running]
    exact nofun

/-- **After a tick on the grid every thread is up to date**, whatever the tick
ends with. -/
theorem allUpToDate_timerInterrupt (hmlfqs : k.mlfqs = true) (hticked : k.ticked.AllUpToDate)
    (hstep : KernelStep k .timerInterrupt k') : k'.AllUpToDate := by
  obtain ⟨sw, hsw, rfl⟩ := Option.map_eq_some_iff.mp hstep.2
  have hall : sw.state.AllUpToDate := hticked.unaccounted (handle_accounts hmlfqs hsw)
  cases sw with
  | stay k₁ => exact hall
  | schedule k₁ => exact hall.schedule

end Kernel

/-- At boot there are the main thread, which runs, and the idle thread. -/
theorem boot_kept (values : ℕ → ℕ) : (boot true values).Kept where
  mlfqs := rfl
  others t ht hidle hcurrent := by
    have ht : t ∈ [0, 1] := ht
    rcases List.mem_pair.mp ht with rfl | rfl
    · exact absurd rfl hcurrent
    · exact absurd rfl hidle
  current := nofun

/-- **Incremental recalculation equals full recalculation** in every run all of
whose steps are timely: after every timer interrupt at a multiple of
`TIME_SLICE` or of `TIMER_FREQ`, the priority of every thread is the one a full
recalculation gives. At the multiples of `TIMER_FREQ` this is so in any run. -/
theorem mlfqs_matchesFull (values : ℕ → ℕ) :
    (∀ events k k', Transition.Run TimelyStep (boot true values) events k →
      KernelStep k .timerInterrupt k' →
      k'.ticks % timeSlice = 0 ∨ k'.ticks % timerFreq = 0 →
      ∀ t ∈ k'.allList, t ≠ k'.idleThread → k'.priority t = fullPriority (k'.threads t))
    ∧ ∀ events k k', Transition.Run KernelStep (boot true values) events k →
      KernelStep k .timerInterrupt k' → k'.ticks % timerFreq = 0 →
      ∀ t ∈ k'.allList, t ≠ k'.idleThread → k'.priority t = fullPriority (k'.threads t) := by
  refine ⟨fun events k k' hrun hstep hgrid => ?_, fun events k k' hrun hstep hsecond => ?_⟩
  · obtain ⟨hactive, hkept⟩ : k.Active ∧ k.Kept := hrun.invariant
      (I := fun _ k => k.Active ∧ k.Kept)
      ⟨boot_active true values, boot_kept values⟩
      fun _ k e k' h hstep => ⟨hstep.1.active h.1, h.2.step h.1 hstep⟩
    have hslice : (k.ticks + 1) % timeSlice = 0 := by
      rw [hstep.ticks_timerInterrupt hactive hkept.mlfqs] at hgrid
      unfold timerFreq timeSlice at *
      omega
    exact Kernel.allUpToDate_timerInterrupt hkept.mlfqs
      (hkept.allUpToDate_ticked hactive.all_nodup hslice) hstep
  · obtain ⟨hactive, hmlfqs⟩ : k.Active ∧ k.mlfqs = true := hrun.invariant
      (I := fun _ k => k.Active ∧ k.mlfqs = true) ⟨boot_active true values, rfl⟩
      fun _ k e k' h hstep => ⟨hstep.active h.1, hstep.mlfqs h.1 h.2⟩
    rw [hstep.ticks_timerInterrupt hactive hmlfqs] at hsecond
    exact Kernel.allUpToDate_timerInterrupt hmlfqs
      (Kernel.allUpToDate_second hactive.all_nodup hsecond) hstep

/-- Eight ticks, of which the main thread is charged the first four and a thread
of its making, created with `PRI_MAX`, the others. -/
def timelyEvents : List Event :=
  List.replicate 4 .timerInterrupt ++ createEvents priMax ++ List.replicate 3 .timerInterrupt

/-- Both are up to date after the eighth tick. -/
theorem mlfqs_matchesFull_two :
    ∃ k k', Transition.Run TimelyStep (boot true fun _ => 0) timelyEvents k
      ∧ KernelStep k .timerInterrupt k' ∧ k.current = 2 ∧ k'.ticks = 8 ∧ k'.allList = [0, 1, 2]
      ∧ k'.priority 0 = fullPriority (k'.threads 0)
      ∧ k'.priority 2 = fullPriority (k'.threads 2) := by
  have hrun : (timelyEvents.foldlM (fun (k : Kernel) e =>
      if k.timely e then k.next e else none) (boot true fun _ => 0)).any
      (fun k => (k.next .timerInterrupt).any fun k' =>
        k.current = 2 ∧ k'.ticks = 8 ∧ k'.allList = [0, 1, 2] ∧ k'.idleThread = 1) = true := by
    decide +kernel
  obtain ⟨k, hk, hstate⟩ := (Option.any_eq_true _ _).mp hrun
  obtain ⟨k', hk', hstate⟩ := (Option.any_eq_true _ _).mp hstate
  obtain ⟨hcurrent, hticks, hall, hidle⟩ := of_decide_eq_true hstate
  have hrun : Transition.Run TimelyStep (boot true fun _ => 0) timelyEvents k := by
    refine Transition.Run.of_foldlM (fun k e k' h => ?_) hk
    split at h
    · rename_i htimely
      exact ⟨Kernel.kernelStep_of_next h, htimely⟩
    · cases h
  have hstep : KernelStep k .timerInterrupt k' := Kernel.kernelStep_of_next hk'
  have hfull := (mlfqs_matchesFull _).1 _ k k' hrun hstep (.inl (by rw [hticks]; rfl))
  rw [hall, hidle] at hfull
  exact ⟨k, k', hrun, hstep, hcurrent, hticks, hall, hfull 0 (by decide) (by decide),
    hfull 2 (by decide) (by decide)⟩

/-- The main thread creates a thread with `PRI_DEFAULT` and runs for a time slice. -/
def staleEvents : List Event :=
  createEvents priDefault ++ List.replicate 3 .timerInterrupt

/-- **A thread the timer passes over**: after the tick that ends the time slice
the new thread still has the priority it was created with, and a full
recalculation would give it `PRI_MAX`. -/
theorem mlfqs_stale :
    ∃ k k', Transition.Run KernelStep (boot true fun _ => 0) staleEvents k
      ∧ KernelStep k .timerInterrupt k' ∧ k'.ticks % timeSlice = 0 ∧ k'.allList = [0, 1, 2]
      ∧ k'.idleThread = 1 ∧ k'.priority 2 = 31 ∧ fullPriority (k'.threads 2) = 63 := by
  have hrun : (staleEvents.foldlM Kernel.next (boot true fun _ => 0)).any
      (fun k => (k.next .timerInterrupt).any fun k' =>
        k'.ticks % timeSlice = 0 ∧ k'.allList = [0, 1, 2] ∧ k'.idleThread = 1
          ∧ k'.priority 2 = 31 ∧ fullPriority (k'.threads 2) = 63) = true := by
    decide +kernel
  obtain ⟨k, hk, hstate⟩ := (Option.any_eq_true _ _).mp hrun
  obtain ⟨k', hk', hstate⟩ := (Option.any_eq_true _ _).mp hstate
  have hrun : Transition.Run KernelStep (boot true fun _ => 0) staleEvents k := by
    refine Transition.Run.of_foldlM (fun k e k' h => ?_) hk
    exact Kernel.kernelStep_of_next h
  exact ⟨k, k', hrun, Kernel.kernelStep_of_next hk', of_decide_eq_true hstate⟩

end Pintos
