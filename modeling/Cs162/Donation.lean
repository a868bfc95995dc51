import Cs162.KernelInv

/-!
# Priority donation

`check_to_donate` follows the chain from a waiting thread to the holder of the
lock it waits for, from there to the holder of the lock that one waits for,
and so on, and raises each thread on the way to the donor's priority, up to
the first one that has it already. The threads it raises are the donees of the
lock (`Kernel.Donee`), and afterwards nobody on the way waits for a thread of
a lower priority (`Kernel.checkToDonate_spec`). The loop needs no depth limit:
every iteration raises another thread, so that a bound of as many iterations
as there are threads is never what ends it, also where the chain is a cycle.
-/

namespace Pintos

namespace Kernel

variable {k : Kernel} {d : ℤ} {l : LockId} {t h curr : ThreadId} {n : ℕ}

/-- **The donees of a lock** for a priority: the threads reached from it by
the fields `holder` and `wait_lock` through threads of lower priority. -/
inductive Donee (k : Kernel) (d : ℤ) : LockId → ThreadId → Prop
  | holder {l : LockId} {h : ThreadId} :
      k.holder l = some h → k.priority h < d → Donee k d l h
  | next {l m : LockId} {h t : ThreadId} :
      k.holder l = some h → k.priority h < d → (k.threads h).waitLock = some m →
        Donee k d m t → Donee k d l t

/-- The kernel with other priorities. -/
def setPriorities (k : Kernel) (p : ThreadId → ℤ) : Kernel :=
  { k with threads := fun t => { k.threads t with priority := p t } }

@[simp] theorem priority_setPriorities (p : ThreadId → ℤ) :
    (k.setPriorities p).priority t = p t := rfl

theorem update_priority_eq (k : Kernel) (h : ThreadId) (d : ℤ) :
    (k.update h fun t => { t with priority := d })
      = k.setPriorities (Function.update k.priority h d) := by
  unfold update setPriorities
  congr 1
  funext u
  rw [Function.update_apply, Function.update_apply]
  split
  · rename_i heq
    rw [heq]
  · rfl

/-- The number of threads below a priority. -/
def below (k : Kernel) (d : ℤ) : ℕ :=
  ((Finset.range k.nextThread).filter fun t => k.priority t < d).card

/-- Raising a thread to a priority leaves fewer below it. -/
theorem below_raise (hlt : h < k.nextThread) (hlow : k.priority h < d) :
    (k.setPriorities (Function.update k.priority h d)).below d < k.below d := by
  unfold below
  refine Finset.card_lt_card (Finset.ssubset_iff_subset_ne.mpr ⟨?_, ?_⟩)
  · intro u hu
    rw [Finset.mem_filter] at hu ⊢
    obtain ⟨hmem, hu⟩ := hu
    refine ⟨hmem, ?_⟩
    rw [priority_setPriorities, Function.update_apply] at hu
    split at hu
    · exact absurd hu (lt_irrefl d)
    · exact hu
  · intro heq
    have hmem : h ∈ (Finset.range k.nextThread).filter fun t => k.priority t < d :=
      Finset.mem_filter.mpr ⟨Finset.mem_range.mpr hlt, hlow⟩
    rw [← heq, Finset.mem_filter, priority_setPriorities, Function.update_self] at hmem
    exact lt_irrefl d hmem.2

/-- With no thread below a priority, no thread's is lower. -/
theorem le_priority_of_below (hzero : k.below d ≤ 0) (hlt : h < k.nextThread) :
    d ≤ k.priority h := by
  by_contra hlow
  have hmem : h ∈ (Finset.range k.nextThread).filter fun t => k.priority t < d :=
    Finset.mem_filter.mpr ⟨Finset.mem_range.mpr hlt, not_le.mp hlow⟩
  rw [Finset.card_eq_zero.mp (Nat.le_zero.mp hzero)] at hmem
  exact Finset.notMem_empty _ hmem

/-- Where priorities have been raised there are no more donees. -/
theorem Donee.of_raise {p : ThreadId → ℤ} (hle : ∀ t, k.priority t ≤ p t)
    (ht : Donee (k.setPriorities p) d l t) : Donee k d l t := by
  induction ht with
  | holder hholder hlow => exact .holder hholder (lt_of_le_of_lt (hle _) hlow)
  | next hholder hlow hwait _ ih =>
    exact .next hholder (lt_of_le_of_lt (hle _) hlow) hwait ih

/-- **What a donation leaves behind**: the donees, and only they, have the
donor's priority now, and neither the donor nor a donee waits for a thread of
a lower one. -/
structure Donated (k : Kernel) (curr : ThreadId) (p : ThreadId → ℤ) : Prop where
  raised : ∀ t, p t = k.priority t ∨ k.priority t < k.priority curr ∧ p t = k.priority curr
    ∧ ∃ l, (k.threads curr).waitLock = some l ∧ Donee k (k.priority curr) l t
  passed_on : ∀ t l h, t = curr ∨ p t ≠ k.priority t → (k.threads t).waitLock = some l →
    k.holder l = some h → k.priority curr ≤ p h

theorem Donated.le {p : ThreadId → ℤ} (hp : Donated k curr p) (t : ThreadId) :
    k.priority t ≤ p t := by
  rcases hp.raised t with heq | ⟨hlow, heq, -⟩
  · exact le_of_eq heq.symm
  · exact heq ▸ le_of_lt hlow

theorem Donated.none (hend : ∀ l h, (k.threads curr).waitLock = some l → k.holder l = some h →
    k.priority curr ≤ k.priority h) : Donated k curr k.priority := by
  refine ⟨fun t => .inl rfl, ?_⟩
  rintro t l h (rfl | hne) hwait hholder
  · exact hend l h hwait hholder
  · exact absurd rfl hne

/-- **One iteration**: the donor raises the holder of the lock it waits for,
and the rest is that thread's donation. -/
theorem Donated.raise {p : ThreadId → ℤ} (hwait : (k.threads curr).waitLock = some l)
    (hholder : k.holder l = some h) (hlow : k.priority h < k.priority curr)
    (hp : Donated (k.setPriorities (Function.update k.priority h (k.priority curr))) h p) :
    Donated k curr p := by
  have hself : (k.setPriorities (Function.update k.priority h (k.priority curr))).priority h
      = k.priority curr := Function.update_self ..
  have hother : ∀ t, t ≠ h →
      (k.setPriorities (Function.update k.priority h (k.priority curr))).priority t
        = k.priority t := fun t ht => Function.update_of_ne ht ..
  have hle : ∀ t, k.priority t ≤ Function.update k.priority h (k.priority curr) t := by
    intro t
    rw [Function.update_apply]
    split
    · rename_i heq
      exact heq ▸ le_of_lt hlow
    · exact le_rfl
  refine ⟨fun t => ?_, fun t m u ht hm hu => ?_⟩
  · rcases hp.raised t with heq | ⟨hlow', heq, m, hm, hdonee⟩
    · by_cases ht : t = h
      · subst ht
        exact .inr ⟨hlow, heq.trans hself, l, hwait, .holder hholder hlow⟩
      · exact .inl (heq.trans (hother t ht))
    · rw [hself] at hlow' heq hdonee
      exact .inr ⟨lt_of_le_of_lt (hle t) hlow', heq, l, hwait,
        .next hholder hlow hm (hdonee.of_raise hle)⟩
  · by_cases ht' : t = curr
    · subst ht'
      obtain rfl : l = m := Option.some.inj (hwait.symm.trans hm)
      obtain rfl : h = u := Option.some.inj (hholder.symm.trans hu)
      exact hself ▸ hp.le h
    · rw [← hself]
      refine hp.passed_on t m u ?_ hm hu
      by_cases hth : t = h
      · exact .inl hth
      · exact .inr (hother t hth ▸ ht.resolve_left ht')

/-- The loop with enough iterations, by induction on their number. -/
theorem donate_spec (hholders : ∀ l h, k.holder l = some h → h < k.nextThread)
    (hn : k.below (k.priority curr) ≤ n) :
    ∃ p, donate n curr k = k.setPriorities p ∧ Donated k curr p := by
  induction n generalizing k curr with
  | zero =>
    refine ⟨k.priority, rfl, Donated.none ?_⟩
    intro l h _ hholder
    exact le_priority_of_below hn (hholders l h hholder)
  | succ n ih =>
    rw [donate]
    split
    · rename_i hwait
      exact ⟨k.priority, rfl, Donated.none (fun l h hl _ => by rw [hwait] at hl; cases hl)⟩
    · rename_i l hwait
      split
      · rename_i hholder
        refine ⟨k.priority, rfl, Donated.none (fun m h hm hh => ?_)⟩
        rw [hwait] at hm
        rw [← Option.some.inj hm, hholder] at hh
        cases hh
      · rename_i h hholder
        split
        · rename_i hge
          refine ⟨k.priority, rfl, Donated.none (fun m u hm hu => ?_)⟩
          rw [hwait] at hm
          rw [← Option.some.inj hm, hholder] at hu
          exact Option.some.inj hu ▸ hge
        · rename_i hlow
          have hlow : k.priority h < k.priority curr := not_le.mp hlow
          rw [update_priority_eq]
          set k₁ := k.setPriorities (Function.update k.priority h (k.priority curr)) with hk₁
          have hself : k₁.priority h = k.priority curr := Function.update_self ..
          have hfew : k₁.below (k₁.priority h) ≤ n := by
            rw [hself]
            exact Nat.le_of_lt_succ (lt_of_lt_of_le (below_raise (hholders l h hholder) hlow) hn)
          obtain ⟨p, hp, hdonated⟩ := ih (show ∀ l h, k₁.holder l = some h → h < k₁.nextThread
            from hholders) hfew
          exact ⟨p, hp, hdonated.raise hwait hholder hlow⟩

/-- **`check_to_donate`** raises the donees of the lock the thread waits for,
and no others, and changes nothing else. -/
theorem checkToDonate_spec (hholders : ∀ l h, k.holder l = some h → h < k.nextThread)
    (curr : ThreadId) : ∃ p, k.checkToDonate curr = k.setPriorities p ∧ Donated k curr p := by
  refine donate_spec hholders (le_trans (Finset.card_filter_le _ _) ?_)
  rw [Finset.card_range]

end Kernel

end Pintos
