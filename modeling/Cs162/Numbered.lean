import Mathlib

/-!
# Numbered slots

A program that keeps a sequence as separately named objects – files, blocks,
cells – often names them by consecutive numbers and stores no length: the
end of the sequence is the first number that names nothing. Every walk over
such a sequence probes the numbers in turn and stops there, so a gap would
hide everything behind it.

`Holds slots l` says that the slots are exactly the list `l`, without a gap.
The probes `firstFree` and `findFrom` are written with fuel, since nothing
in their text bounds them; `Holds` says how much is enough, and with it each
probe is the list operation it stands for. The updates a program makes –
overwrite a slot, write the first free one, clear the last – keep `Holds`,
at the list with the same update.
-/

namespace Numbered

variable {α β : Type*}

/-- **The slots are exactly the list `l`**: slot `i` is the `i`-th element,
and nothing is stored past the end. -/
def Holds (slots : ℕ → Option α) (l : List α) : Prop :=
  ∀ i, slots i = l[i]?

/-- Probe from slot `i` on for the first slot that is free. -/
def firstFree (slots : ℕ → Option α) : ℕ → ℕ → ℕ
  | 0, i => i
  | fuel + 1, i =>
    if (slots i).isSome then firstFree slots fuel (i + 1) else i

/-- Probe from slot `i` on for the first slot whose content satisfies `p`,
giving up at the first slot that is free. -/
def findFrom (slots : ℕ → Option α) (p : α → Bool) : ℕ → ℕ → Option (ℕ × α)
  | 0, _ => none
  | fuel + 1, i =>
    match slots i with
    | none => none
    | some a => if p a then some (i, a) else findFrom slots p fuel (i + 1)

namespace Holds

variable {slots : ℕ → Option α} {l : List α}

/-- **The first free slot is the length**, from any slot not beyond it. -/
theorem firstFree_eq (h : Holds slots l) (fuel i : ℕ) (hi : i ≤ l.length)
    (hf : l.length - i ≤ fuel) : firstFree slots fuel i = l.length := by
  induction fuel generalizing i with
  | zero =>
    rw [firstFree]
    omega
  | succ fuel ih =>
    rw [firstFree, h i]
    by_cases hlt : i < l.length
    · rw [List.getElem?_eq_getElem hlt]
      exact ih (i + 1) hlt (by omega)
    · rw [List.getElem?_eq_none (by omega)]
      simp only [Option.isSome_none, Bool.false_eq_true, if_false]
      omega

/-- A probe that gives up has met no element satisfying `p`. -/
theorem findFrom_eq_none (h : Holds slots l) (p : α → Bool) (fuel i : ℕ)
    (hf : l.length - i < fuel) (hn : findFrom slots p fuel i = none) :
    ∀ j, i ≤ j → ∀ a, l[j]? = some a → p a = false := by
  induction fuel generalizing i with
  | zero => omega
  | succ fuel ih =>
    intro j hij a ha
    rw [findFrom, h i] at hn
    have hlt : i < l.length :=
      lt_of_le_of_lt hij (List.getElem?_eq_some_iff.mp ha).1
    rw [List.getElem?_eq_getElem hlt] at hn
    dsimp only at hn
    split at hn
    · exact absurd hn (by simp)
    · rename_i hp
      rcases Nat.eq_or_lt_of_le hij with rfl | hlt'
      · rw [List.getElem?_eq_getElem hlt, Option.some.injEq] at ha
        rw [← ha]
        exact Bool.eq_false_iff.mpr hp
      · exact ih (i + 1) (by omega) hn j hlt' a ha

/-- A probe that succeeds returns a slot with its content, and the content
satisfies `p`. -/
theorem findFrom_eq_some (h : Holds slots l) (p : α → Bool) (fuel i : ℕ)
    {r : ℕ × α} (hs : findFrom slots p fuel i = some r) : l[r.1]? = some r.2 ∧ p r.2 = true := by
  induction fuel generalizing i with
  | zero => simp [findFrom] at hs
  | succ fuel ih =>
    rw [findFrom] at hs
    cases hsi : slots i with
    | none => simp [hsi] at hs
    | some a =>
      rw [hsi] at hs
      dsimp only at hs
      split at hs
      · rename_i hp
        rw [Option.some.injEq] at hs
        subst hs
        exact ⟨(h i).symm.trans hsi, hp⟩
      · exact ih (i + 1) hs

/-- Where one element satisfies `p`, the probe from the start finds one. -/
theorem exists_findFrom (h : Holds slots l) (p : α → Bool) (fuel : ℕ)
    (hf : l.length < fuel) {j : ℕ} {a : α} (hj : l[j]? = some a)
    (hp : p a = true) : ∃ r, findFrom slots p fuel 0 = some r := by
  cases hr : findFrom slots p fuel 0 with
  | some r => exact ⟨r, rfl⟩
  | none =>
    have := h.findFrom_eq_none p fuel 0 (by omega) hr j (Nat.zero_le j) a hj
    rw [hp] at this
    exact absurd this (by simp)

theorem set (h : Holds slots l) {i : ℕ} (hi : i < l.length) (a : α) {slots' : ℕ → Option α}
    (hs : ∀ j, slots' j = if j = i then some a else slots j) : Holds slots' (l.set i a) := by
  intro j
  rw [hs j, List.getElem?_set]
  by_cases hj : i = j
  · subst hj
    simp [hi]
  · rw [if_neg (Ne.symm hj), if_neg hj, h j]

theorem append (h : Holds slots l) (a : α) {slots' : ℕ → Option α}
    (hs : ∀ j, slots' j = if j = l.length then some a else slots j) : Holds slots' (l ++ [a]) := by
  intro j
  rw [hs j, List.getElem?_append]
  by_cases hj : j < l.length
  · rw [if_neg (by omega), if_pos hj, h j]
  · rw [if_neg hj]
    by_cases hj' : j = l.length
    · simp [hj']
    · rw [if_neg hj', h j, List.getElem?_eq_none (by omega),
        List.getElem?_eq_none (by simp; omega)]

theorem dropLast (h : Holds slots l) {slots' : ℕ → Option α}
    (hs : ∀ j, slots' j = if j + 1 = l.length then none else slots j) :
    Holds slots' l.dropLast := by
  intro j
  rw [hs j, List.getElem?_dropLast]
  by_cases hj : j < l.length - 1
  · rw [if_neg (by omega), if_pos hj, h j]
  · rw [if_neg hj]
    split
    · rfl
    · rw [h j, List.getElem?_eq_none (by omega)]

end Holds

/-! ## Removal by moving the last element into the hole -/

/-- Remove the `i`-th element by overwriting it with the last one and
dropping the last. -/
def swapRemove (l : List α) (i : ℕ) : List α :=
  match l.getLast? with
  | none => []
  | some a => (l.set i a).dropLast

/-- **Up to order, the element and nothing else is removed.** -/
theorem swapRemove_perm (l : List α) {i : ℕ} (hi : i < l.length) :
    (swapRemove l i).Perm (l.eraseIdx i) := by
  induction l using List.reverseRecOn with
  | nil => simp at hi
  | append_singleton init z =>
    rw [swapRemove, List.getLast?_concat]
    dsimp only
    by_cases hlt : i < init.length
    · rw [List.set_append_left _ _ hlt, List.dropLast_concat,
        List.eraseIdx_append_of_lt_length hlt, List.set_eq_take_append_cons_drop,
        if_pos hlt, List.eraseIdx_eq_take_drop_succ]
      refine List.perm_middle.trans ?_
      exact (List.perm_append_singleton z _).symm
    · have hlast : i = init.length := by
        rw [List.length_append, List.length_singleton] at hi
        omega
      subst hlast
      rw [List.set_append_right _ _ (le_refl _), List.eraseIdx_append_of_length_le (le_refl _)]
      simp

/-- Moving the content of the last slot into slot `i` removes the `i`-th
element that way. -/
theorem Holds.swapRemove {slots : ℕ → Option α} {l : List α} (h : Holds slots l)
    {i : ℕ} (hi : i + 1 < l.length) {slots' : ℕ → Option α}
    (hs : ∀ j, slots' j = if j = i then slots (l.length - 1)
      else if j = l.length - 1 then none else slots j) :
    Holds slots' (Numbered.swapRemove l i) := by
  have hne : l ≠ [] := by
    rintro rfl
    simp at hi
  rw [Numbered.swapRemove, List.getLast?_eq_some_getLast hne]
  dsimp only
  have hset : Holds (fun j => if j = i then some (l.getLast hne) else slots j)
      (l.set i (l.getLast hne)) := h.set (by omega) _ (fun _ => rfl)
  refine hset.dropLast (fun j => ?_)
  rw [hs j, List.length_set, h (l.length - 1), ← List.getLast?_eq_getElem?,
    List.getLast?_eq_some_getLast hne]
  by_cases hj : j = i
  · rw [if_pos hj, if_neg (by omega), if_pos hj]
  · rw [if_neg hj, if_neg hj]
    by_cases hj' : j = l.length - 1
    · rw [if_pos hj', if_pos (by omega)]
    · rw [if_neg hj', if_neg (by omega)]

theorem swapRemove_last (l : List α) {i : ℕ} (hi : i + 1 = l.length) :
    swapRemove l i = l.dropLast := by
  induction l using List.reverseRecOn with
  | nil => simp at hi
  | append_singleton init z =>
    have hlast : i = init.length := by
      rw [List.length_append, List.length_singleton] at hi
      omega
    rw [swapRemove, List.getLast?_concat]
    dsimp only
    rw [hlast, List.set_append_right _ _ (le_refl _)]
    simp

theorem swapRemove_map (f : α → β) (l : List α) (i : ℕ) :
    swapRemove (l.map f) i = (swapRemove l i).map f := by
  unfold swapRemove
  rw [List.getLast?_map]
  cases l.getLast? with
  | none => rfl
  | some a =>
    dsimp only [Option.map_some]
    rw [← List.map_set, List.map_dropLast]

/-! ## Association lists

The elements are often pairs of a key and a value with no key twice. The
updates above are then those of a finite map. -/

section Assoc

variable {κ ν : Type*} {l : List (κ × ν)} {i : ℕ} {k : κ} {v : ν}

theorem map_fst_set (hi : l[i]? = some (k, v)) (v' : ν) :
    (l.set i (k, v')).map Prod.fst = l.map Prod.fst := by
  refine List.ext_getElem? (fun j => ?_)
  rw [List.getElem?_map, List.getElem?_map, List.getElem?_set]
  split
  · rename_i hij
    subst hij
    rw [hi, if_pos (List.getElem?_eq_some_iff.mp hi).1]
    rfl
  · rfl

/-- A key that occurs at position `i` occurs at no other. -/
theorem key_ne_of_ne (hnd : (l.map Prod.fst).Nodup) (hi : l[i]? = some (k, v))
    {j : ℕ} {p : κ × ν} (hj : l[j]? = some p) (hij : i ≠ j) : p.1 ≠ k := by
  intro hk
  have hlt : i < (l.map Prod.fst).length := by
    rw [List.length_map]
    exact (List.getElem?_eq_some_iff.mp hi).1
  refine hij ((List.getElem?_inj hlt hnd).mp ?_)
  rw [List.getElem?_map, List.getElem?_map, hi, hj]
  exact congrArg some hk.symm

/-- **Overwriting the value of a key is an update of the map.** -/
theorem mem_set_iff (hnd : (l.map Prod.fst).Nodup) (hi : l[i]? = some (k, v)) (v' : ν) (p : κ × ν) :
    p ∈ l.set i (k, v') ↔ p = (k, v') ∨ p ∈ l ∧ p.1 ≠ k := by
  have hlt := (List.getElem?_eq_some_iff.mp hi).1
  constructor
  · intro hp
    obtain ⟨j, hj⟩ := List.getElem?_of_mem hp
    rw [List.getElem?_set] at hj
    split at hj
    · exact Or.inl (Option.some.inj hj).symm
    · rename_i hij
      exact Or.inr ⟨List.mem_of_getElem? hj, key_ne_of_ne hnd hi hj hij⟩
  · rintro (rfl | ⟨hp, hne⟩)
    · exact List.mem_set hlt _
    · obtain ⟨j, hj⟩ := List.getElem?_of_mem hp
      refine List.mem_of_getElem? (i := j) ?_
      rw [List.getElem?_set, if_neg]
      · exact hj
      · rintro rfl
        rw [hi] at hj
        exact hne (congrArg Prod.fst (Option.some.inj hj)).symm

/-- **Removing the element of a key is an erasure from the map.** -/
theorem mem_swapRemove_iff (hnd : (l.map Prod.fst).Nodup) (hi : l[i]? = some (k, v))
    (p : κ × ν) : p ∈ swapRemove l i ↔ p ∈ l ∧ p.1 ≠ k := by
  have hlt := (List.getElem?_eq_some_iff.mp hi).1
  rw [(swapRemove_perm l hlt).mem_iff, List.mem_eraseIdx_iff_getElem?]
  constructor
  · rintro ⟨j, hij, hj⟩
    exact ⟨List.mem_of_getElem? hj, key_ne_of_ne hnd hi hj (Ne.symm hij)⟩
  · rintro ⟨hp, hne⟩
    obtain ⟨j, hj⟩ := List.getElem?_of_mem hp
    refine ⟨j, ?_, hj⟩
    rintro rfl
    rw [hi] at hj
    exact hne (congrArg Prod.fst (Option.some.inj hj)).symm

theorem nodup_swapRemove (hnd : (l.map Prod.fst).Nodup) (hi : i < l.length) :
    ((swapRemove l i).map Prod.fst).Nodup := by
  rw [((swapRemove_perm l hi).map Prod.fst).nodup_iff]
  exact hnd.sublist ((List.eraseIdx_sublist l i).map Prod.fst)

end Assoc

/-- **A finite map that holds a list has room for it**: where the slots are
named injectively in a finite map, the list is no longer than the map. -/
theorem Holds.length_le_card {κ : Type*} [DecidableEq κ]
    {files : Finmap (fun _ : κ => α)} {name : ℕ → κ} (hname : name.Injective)
    {l : List α} (h : Holds (fun i => files.lookup (name i)) l) : l.length ≤ files.keys.card := by
  have hsub : (Finset.range l.length).image name ⊆ files.keys := by
    intro k hk
    obtain ⟨i, hi, rfl⟩ := Finset.mem_image.mp hk
    have hlook : files.lookup (name i) = l[i]? := h i
    rw [Finmap.mem_keys, ← Finmap.lookup_isSome, hlook,
      List.getElem?_eq_getElem (Finset.mem_range.mp hi)]
    rfl
  calc l.length = ((Finset.range l.length).image name).card := by
        rw [Finset.card_image_of_injective _ hname, Finset.card_range]
    _ ≤ files.keys.card := Finset.card_le_card hsub

end Numbered
