import Mathlib.Init

/-!
# Commands

A command changes a state and returns a value, or stops with an error. What it
does from a given state is said by `Command.Ensures`: where it ends, the value
and the new state satisfy a postcondition, and where it stops, the error is one
of those allowed. The rules follow the structure of the code, so that a
specification is proved command by command.
-/

/-- **A command** over states in `σ`, with errors in `ε` and values in `α`. -/
def Command (ε σ α : Type) : Type := σ → Except ε (α × σ)

namespace Command

variable {ε σ α β : Type}

instance : Monad (Command ε σ) where
  pure a := fun s => .ok (a, s)
  bind c f := fun s =>
    match c s with
    | .ok (a, s) => f a s
    | .error e => .error e

/-- The state. -/
def get : Command ε σ σ := fun s => .ok (s, s)

/-- A change of the state. -/
def modify (f : σ → σ) : Command ε σ Unit := fun s => .ok ((), f s)

/-- A command that stops. -/
def stop (e : ε) : Command ε σ α := fun _ => .error e

theorem bind_apply {s s' : σ} {c : Command ε σ α} {f : α → Command ε σ β} {a : α}
    (h : c s = .ok (a, s')) : (c >>= f) s = f a s' := by
  show (match c s with
    | .ok (a, s) => f a s
    | .error e => .error e : Except ε (β × σ)) = _
  rw [h]

theorem bind_error {s : σ} {c : Command ε σ α} {f : α → Command ε σ β} {e : ε}
    (h : c s = .error e) : (c >>= f) s = .error e := by
  show (match c s with
    | .ok (a, s) => f a s
    | .error e => .error e : Except ε (β × σ)) = _
  rw [h]

theorem eq_ok_of_toOption {result : Except ε α} {a : α} (h : result.toOption = some a) :
    result = .ok a := by
  cases result with
  | error e => cases h
  | ok b =>
    cases h
    rfl

theorem get_bind_apply {s : σ} {f : σ → Command ε σ β} : (get >>= f) s = f s s := rfl

/-- **What a command does from a state.** -/
def Ensures (E : ε → Prop) (s : σ) (c : Command ε σ α) (Q : α → σ → Prop) : Prop :=
  match c s with
  | .ok (a, s) => Q a s
  | .error e => E e

namespace Ensures

variable {E : ε → Prop} {s s' : σ} {c : Command ε σ α} {f : α → Command ε σ β}
  {Q R : α → σ → Prop} {S : β → σ → Prop}

theorem pure {a : α} (h : Q a s) : Ensures E s (Pure.pure a) Q := h

theorem get {Q : σ → σ → Prop} (h : Q s s) : Ensures E s Command.get Q := h

theorem modify {g : σ → σ} {Q : Unit → σ → Prop} (h : Q () (g s)) :
    Ensures E s (Command.modify g) Q := h

theorem stop {e : ε} (h : E e) : Ensures E s (Command.stop e) Q := h

theorem ok {a : α} (hc : c s = .ok (a, s')) (h : Q a s') : Ensures E s c Q := by
  unfold Ensures
  rw [hc]
  exact h

/-- **The rule of sequence.** -/
theorem bind (hc : Ensures E s c Q) (hf : ∀ a s, Q a s → Ensures E s (f a) S) :
    Ensures E s (c >>= f) S := by
  unfold Ensures at hc
  cases hrun : c s with
  | ok result =>
    rw [hrun] at hc
    unfold Ensures
    rw [bind_apply hrun]
    exact hf _ _ hc
  | error e =>
    rw [hrun] at hc
    unfold Ensures
    rw [bind_error hrun]
    exact hc

theorem bind_ok {a : α} (hc : c s = .ok (a, s')) (hf : Ensures E s' (f a) S) :
    Ensures E s (c >>= f) S := by
  refine bind (ok hc (Q := fun b t => b = a ∧ t = s') ⟨rfl, rfl⟩) ?_
  rintro b t ⟨rfl, rfl⟩
  exact hf

theorem get_bind {f : σ → Command ε σ β} (hf : Ensures E s (f s) S) :
    Ensures E s (Command.get >>= f) S := hf

theorem modify_bind {g : σ → σ} {f : Unit → Command ε σ β} (hf : Ensures E (g s) (f ()) S) :
    Ensures E s (Command.modify g >>= f) S := hf

/-- **The rule of consequence.** -/
theorem mono (hc : Ensures E s c Q) (h : ∀ a s, Q a s → R a s) : Ensures E s c R := by
  unfold Ensures at hc ⊢
  cases hrun : c s with
  | ok result =>
    rw [hrun] at hc
    exact h _ _ hc
  | error e =>
    rw [hrun] at hc
    exact hc

/-- The rule of consequence for the errors. -/
theorem weaken {E' : ε → Prop} (hc : Ensures E s c Q) (h : ∀ e, E e → E' e) : Ensures E' s c Q := by
  unfold Ensures at hc ⊢
  cases hrun : c s with
  | ok result =>
    rw [hrun] at hc
    exact hc
  | error e =>
    rw [hrun] at hc
    exact h e hc

theorem ite {p : Prop} [Decidable p] {c' : Command ε σ α} (hpos : p → Ensures E s c Q)
    (hneg : ¬ p → Ensures E s c' Q) : Ensures E s (if p then c else c') Q := by
  split
  · exact hpos ‹p›
  · exact hneg ‹¬ p›

theorem run : Ensures (fun _ => True) s c fun a s' => c s = .ok (a, s') := by
  unfold Ensures
  cases hrun : c s with
  | ok result => rfl
  | error e => trivial

theorem and_run (hc : Ensures E s c Q) : Ensures E s c fun a s' => Q a s' ∧ c s = .ok (a, s') := by
  unfold Ensures at hc ⊢
  cases hrun : c s with
  | ok result =>
    rw [hrun] at hc
    exact ⟨hc, rfl⟩
  | error e =>
    rw [hrun] at hc
    exact hc

theorem of_ok (hc : Ensures E s c Q) {a : α} (hrun : c s = .ok (a, s')) : Q a s' := by
  unfold Ensures at hc
  rw [hrun] at hc
  exact hc

theorem of_error (hc : Ensures E s c Q) {e : ε} (hrun : c s = .error e) : E e := by
  unfold Ensures at hc
  rw [hrun] at hc
  exact hc

theorem exists_ok (hc : Ensures (fun _ => False) s c Q) : ∃ a s', c s = .ok (a, s') ∧ Q a s' := by
  cases hrun : c s with
  | ok result => exact ⟨result.1, result.2, rfl, hc.of_ok hrun⟩
  | error e => exact (hc.of_error hrun).elim

end Ensures

/-! ## Commands over a part of the state

Where `π` drops a part of the state that a command hardly looks at, the command
does the same with and without that part. -/

/-- **A command is mirrored** by another along `π`, from a state: it returns the same
value, or stops with the same error, and the states it ends in correspond. In
addition `J` holds of the value and the new state. -/
def Mirrors {τ : Type} (π : σ → τ) (s : σ) (c : Command ε σ α) (d : Command ε τ α)
    (J : α → σ → Prop) : Prop :=
  match c s with
  | .ok (a, s') => d (π s) = .ok (a, π s') ∧ J a s'
  | .error e => d (π s) = .error e

namespace Mirrors

variable {τ : Type} {π : σ → τ} {s s' : σ} {c : Command ε σ α} {d : Command ε τ α}
  {J K : α → σ → Prop}

theorem pure {a : α} (h : J a s) :
    Mirrors π s (Pure.pure a : Command ε σ α) (Pure.pure a) J := ⟨rfl, h⟩

theorem stop (e : ε) : Mirrors π s (Command.stop e : Command ε σ α) (Command.stop e) J := rfl

theorem modify {g : σ → σ} {g' : τ → τ} {J : Unit → σ → Prop} (hg : g' (π s) = π (g s))
    (h : J () (g s)) : Mirrors π s (Command.modify g : Command ε σ Unit) (Command.modify g') J :=
  ⟨congrArg (fun t => Except.ok ((), t)) hg, h⟩

theorem ok {a : α} (hc : c s = .ok (a, s')) (hd : d (π s) = .ok (a, π s')) (h : J a s') :
    Mirrors π s c d J := by
  unfold Mirrors
  rw [hc]
  exact ⟨hd, h⟩

/-- **The rule of sequence.** -/
theorem bind {f : α → Command ε σ β} {g : α → Command ε τ β} {K : β → σ → Prop}
    (hc : Mirrors π s c d J) (hf : ∀ a s', J a s' → Mirrors π s' (f a) (g a) K) :
    Mirrors π s (c >>= f) (d >>= g) K := by
  unfold Mirrors at hc
  cases hrun : c s with
  | ok result =>
    obtain ⟨a, s'⟩ := result
    rw [hrun] at hc
    have hnext := hf a s' hc.2
    unfold Mirrors at hnext ⊢
    rw [bind_apply hrun, bind_apply hc.1]
    exact hnext
  | error e =>
    rw [hrun] at hc
    unfold Mirrors
    rw [bind_error hrun]
    exact bind_error hc

theorem get_bind {f : σ → Command ε σ β} {g : τ → Command ε τ β} {K : β → σ → Prop}
    (h : Mirrors π s (f s) (g (π s)) K) : Mirrors π s (Command.get >>= f) (Command.get >>= g) K := h

/-- **The rule of consequence.** -/
theorem mono (hc : Mirrors π s c d J) (h : ∀ a s', J a s' → K a s') : Mirrors π s c d K := by
  unfold Mirrors at hc ⊢
  cases hrun : c s with
  | ok result =>
    rw [hrun] at hc
    exact ⟨hc.1, h _ _ hc.2⟩
  | error e =>
    rw [hrun] at hc
    exact hc

theorem ite {p : Prop} [Decidable p] {c' : Command ε σ α} {d' : Command ε τ α}
    (hpos : p → Mirrors π s c d J) (hneg : ¬ p → Mirrors π s c' d' J) :
    Mirrors π s (if p then c else c') (if p then d else d') J := by
  split
  · exact hpos ‹p›
  · exact hneg ‹¬ p›

/-- **What the mirror ensures holds of the command**, of the states that correspond. -/
theorem ensures {E : ε → Prop} {Q : α → τ → Prop} (hc : Mirrors π s c d J)
    (hd : Ensures E (π s) d Q) : Ensures E s c fun a s' => Q a (π s') ∧ J a s' := by
  unfold Mirrors at hc
  unfold Ensures at hd ⊢
  cases hrun : c s with
  | ok result =>
    rw [hrun] at hc
    rw [hc.1] at hd
    exact ⟨hd, hc.2⟩
  | error e =>
    rw [hrun] at hc
    rw [show d (π s) = .error e from hc] at hd
    exact hd

end Mirrors

/-! ## Commands inside a larger state -/

/-- A command over a part of the state, whose errors are among those of the whole. -/
def inside {ε' τ : Type} (part : σ → τ) (put : σ → τ → σ) (wrap : ε' → ε) (c : Command ε' τ α) :
    Command ε σ α := fun s =>
  match c (part s) with
  | .ok (a, t) => .ok (a, put s t)
  | .error e => .error (wrap e)

/-- **What a command ensures of its part** of the state. -/
theorem Ensures.inside {ε' τ : Type} {part : σ → τ} {put : σ → τ → σ} {wrap : ε' → ε}
    {E : ε → Prop} {s : σ} {c : Command ε' τ α} {Q : α → τ → Prop}
    (hc : Ensures (fun e => E (wrap e)) (part s) c Q) :
    Ensures E s (c.inside part put wrap) fun a s' => ∃ t, Q a t ∧ s' = put s t := by
  unfold Ensures at hc ⊢
  unfold Command.inside
  cases hrun : c (part s) with
  | ok result =>
    rw [hrun] at hc
    exact ⟨result.2, hc, rfl⟩
  | error e =>
    rw [hrun] at hc
    exact hc

end Command
