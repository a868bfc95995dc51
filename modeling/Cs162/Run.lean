import Mathlib

/-!
# Runs of a transition system

States and labels are arbitrary, and so is the step relation: a run is the
list of the labels of its steps together with the state it ends in. The list
is the history of the run, so a property of states may speak of what happened
before, and the rule for invariants (`Run.invariant`) carries it along.
-/

namespace Transition

variable {S L : Type*} {step : S → L → S → Prop}

/-- **A run** from a state, with the labels of its steps in order. -/
inductive Run (step : S → L → S → Prop) (s₀ : S) : List L → S → Prop
  | nil : Run step s₀ [] s₀
  | snoc {ls : List L} {s t : S} {l : L} :
      Run step s₀ ls s → step s l t → Run step s₀ (ls ++ [l]) t

/-- **The rule for invariants**: what holds at the start and is kept by every
step holds at the end of every run. -/
theorem Run.invariant {s₀ s : S} {ls : List L} {I : List L → S → Prop}
    (hrun : Run step s₀ ls s) (hinit : I [] s₀)
    (hstep : ∀ ls s l t, I ls s → step s l t → I (ls ++ [l]) t) : I ls s := by
  induction hrun with
  | nil => exact hinit
  | snoc _ hs ih => exact hstep _ _ _ _ ih hs

theorem Run.cons {s t u : S} {l : L} {ls : List L} (hs : step s l t) (hrun : Run step t ls u) :
    Run step s (l :: ls) u := by
  induction hrun with
  | nil => exact .snoc .nil hs
  | snoc _ hlast ih => exact .snoc ih hlast

/-- A run all of whose labels meet a condition is one of steps that meet it. -/
theorem Run.of_labels {P : L → Prop} {s₀ s : S} {ls : List L} (hrun : Run step s₀ ls s)
    (hls : ∀ l ∈ ls, P l) : Run (fun s l t => step s l t ∧ P l) s₀ ls s := by
  induction hrun with
  | nil => exact .nil
  | snoc _ hs ih =>
    exact .snoc (ih fun l hl => hls l (List.mem_append_left _ hl))
      ⟨hs, hls _ (List.mem_append_right _ (List.mem_singleton_self _))⟩

/-- A run that a function computes step by step. -/
theorem Run.of_foldlM {next : S → L → Option S}
    (hnext : ∀ s l t, next s l = some t → step s l t) {s₀ s : S} {ls : List L}
    (h : ls.foldlM next s₀ = some s) : Run step s₀ ls s := by
  induction ls using List.reverseRecOn generalizing s with
  | nil =>
    cases h
    exact .nil
  | append_singleton ls l ih =>
    rw [List.foldlM_append] at h
    obtain ⟨t, ht, h⟩ := Option.bind_eq_some_iff.mp h
    refine .snoc (ih ht) (hnext t l s ?_)
    simpa using h

end Transition
