import Mathlib

/-!
# Tenure of a space

A space is shared out between owners: each holds a region, the regions do not
overlap, and everything held is marked as used. One more region is reserved, for
what is on its way from one owner to another, or between the free space and an
owner. Space is acquired and released only through the reserved region, and the
other rules move regions about.
-/

/-- **Regions that are in use and do not overlap.** -/
structure Tenure {ι α : Type*} (own : ι → Set α) (reserved used : Set α) : Prop where
  disjoint : ∀ i j, i ≠ j → Disjoint (own i) (own j)
  disjoint_reserved : ∀ i, Disjoint (own i) reserved
  own_used : ∀ i, own i ⊆ used
  reserved_used : reserved ⊆ used

namespace Tenure

variable {ι α : Type*} {own own' : ι → Set α} {reserved reserved' used used' region : Set α}

theorem unique (h : Tenure own reserved used) {i j : ι} {x : α} (hi : x ∈ own i)
    (hj : x ∈ own j) : i = j := by
  by_contra hne
  exact Set.disjoint_left.mp (h.disjoint i j hne) hi hj

theorem mono (h : Tenure own reserved used) (hown : ∀ i, own' i ⊆ own i)
    (hreserved : reserved' ⊆ reserved) : Tenure own' reserved' used where
  disjoint i j hne := (h.disjoint i j hne).mono (hown i) (hown j)
  disjoint_reserved i := (h.disjoint_reserved i).mono (hown i) hreserved
  own_used i := (hown i).trans (h.own_used i)
  reserved_used := hreserved.trans h.reserved_used

/-- **Free space is acquired.** -/
theorem acquire (h : Tenure own reserved used) (hfree : Disjoint region used) :
    Tenure own (reserved ∪ region) (used ∪ region) where
  disjoint := h.disjoint
  disjoint_reserved i :=
    Set.disjoint_union_right.mpr
      ⟨h.disjoint_reserved i, (hfree.mono_right (h.own_used i)).symm⟩
  own_used i := (h.own_used i).trans Set.subset_union_left
  reserved_used := Set.union_subset_union_left _ h.reserved_used

/-- **Reserved space is released.** -/
theorem release (h : Tenure own reserved used) (hregion : region ⊆ reserved) :
    Tenure own (reserved \ region) (used \ region) where
  disjoint := h.disjoint
  disjoint_reserved i := (h.disjoint_reserved i).mono_right Set.sdiff_subset
  own_used i _ hx :=
    ⟨h.own_used i hx, fun hmem =>
      Set.disjoint_left.mp (h.disjoint_reserved i) hx (hregion hmem)⟩
  reserved_used := Set.sdiff_subset_sdiff_left h.reserved_used

/-- **An owner takes over the reserved space.** -/
theorem adopt (h : Tenure own reserved used) (i : ι) (hi : own' i ⊆ own i ∪ reserved)
    (hown : ∀ j, j ≠ i → own' j ⊆ own j) : Tenure own' ∅ used where
  disjoint j k hne := by
    have hother : ∀ j, j ≠ i → Disjoint (own' i) (own' j) := fun j hj =>
      (Set.disjoint_union_left.mpr
        ⟨h.disjoint i j (Ne.symm hj), (h.disjoint_reserved j).symm⟩).mono hi (hown j hj)
    by_cases hj : j = i
    · subst hj
      exact hother k (Ne.symm hne)
    · by_cases hk : k = i
      · subst hk
        exact (hother j hj).symm
      · exact (h.disjoint j k hne).mono (hown j hj) (hown k hk)
  disjoint_reserved j := Set.disjoint_empty _
  own_used j := by
    by_cases hj : j = i
    · subst hj
      exact hi.trans (Set.union_subset (h.own_used j) h.reserved_used)
    · exact (hown j hj).trans (h.own_used j)
  reserved_used := Set.empty_subset _

/-- **An owner gives up its space**, which is reserved from then on. -/
theorem resign (h : Tenure own reserved used) (i : ι) (hi : own' i = ∅)
    (hown : ∀ j, j ≠ i → own' j ⊆ own j) : Tenure own' (reserved ∪ own i) used where
  disjoint j k hne := by
    by_cases hj : j = i
    · rw [hj, hi]
      exact Set.empty_disjoint _
    · by_cases hk : k = i
      · rw [hk, hi]
        exact Set.disjoint_empty _
      · exact (h.disjoint j k hne).mono (hown j hj) (hown k hk)
  disjoint_reserved j := by
    by_cases hj : j = i
    · rw [hj, hi]
      exact Set.empty_disjoint _
    · exact (Set.disjoint_union_right.mpr
        ⟨h.disjoint_reserved j, h.disjoint j i hj⟩).mono_left (hown j hj)
  own_used j := by
    by_cases hj : j = i
    · rw [hj, hi]
      exact Set.empty_subset _
    · exact (hown j hj).trans (h.own_used j)
  reserved_used := Set.union_subset h.reserved_used (h.own_used i)

end Tenure
