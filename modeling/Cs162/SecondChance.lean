import Mathlib.Data.List.Basic
import Mathlib.Data.List.TakeWhile
import Mathlib.Tactic.Common

/-!
# Second-chance replacement

A queue of entries, each with a mark that says whether it was used. The oldest entry
without a mark is the one to go; those before it are given a second chance, which means that
they lose their marks and go to the back in their order. If all have marks, all lose them,
and the oldest one goes.

A program does this by taking entries from the front of the queue, one round after the other
(`rotate`). It comes to the same (`rotate_eq`).
-/

namespace SecondChance

variable {α : Type} (used : α → Bool) (clear : α → α)

/-- **The reference**: the entry that goes, and the queue that is left. -/
def secondChance (queue : List α) : Option α × List α :=
  match queue.dropWhile used with
  | victim :: rest => (some victim, rest ++ (queue.takeWhile used).map clear)
  | [] => (queue.head?, queue.tail.map clear)

/-- **Round after round**: an entry with a mark loses it and goes to the back, and the first
without one goes. -/
def rotate : ℕ → List α → List α
  | 0, queue => queue
  | _ + 1, [] => []
  | fuel + 1, a :: rest => if used a then rotate fuel (rest ++ [clear a]) else rest

variable {used clear}

/-- The rounds from a point at which some entries have lost their marks already. -/
theorem rotate_append (hclear : ∀ a, used (clear a) = false) (todo spared : List α) {fuel : ℕ}
    (hfuel : todo.countP used < fuel) : rotate used clear fuel (todo ++ spared.map clear)
      = match todo.dropWhile used with
        | _ :: rest => rest ++ (spared ++ todo.takeWhile used).map clear
        | [] => ((spared ++ todo).map clear).tail := by
  induction todo generalizing fuel spared with
  | nil =>
    obtain ⟨fuel, rfl⟩ := Nat.exists_eq_succ_of_ne_zero (Nat.ne_zero_of_lt hfuel)
    cases spared with
    | nil => rfl
    | cons a spared => simp [rotate, hclear]
  | cons a todo ih =>
    obtain ⟨fuel, rfl⟩ := Nat.exists_eq_succ_of_ne_zero (Nat.ne_zero_of_lt hfuel)
    cases ha : used a with
    | false => simp [rotate, ha]
    | true =>
      rw [List.countP_cons, if_pos ha] at hfuel
      have hnext := ih (spared ++ [a]) (Nat.lt_of_succ_lt_succ hfuel)
      rw [List.map_append, List.map_singleton, ← List.append_assoc] at hnext
      simp only [List.cons_append, rotate, ha, if_true, List.dropWhile_cons, List.takeWhile_cons]
      rw [hnext]
      simp only [List.append_assoc, List.singleton_append]

/-- **The rounds come to the reference.** -/
theorem rotate_eq (hclear : ∀ a, used (clear a) = false) {queue : List α} {fuel : ℕ}
    (hfuel : queue.countP used < fuel) :
    rotate used clear fuel queue = (secondChance used clear queue).2 := by
  have hrounds := rotate_append hclear queue [] hfuel
  rw [List.map_nil, List.append_nil] at hrounds
  rw [hrounds]
  unfold secondChance
  cases queue.dropWhile used with
  | nil => simp
  | cons a rest => simp

end SecondChance
