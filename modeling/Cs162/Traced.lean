import Mathlib.Init

/-!
# Computations that touch places

A computation that ends with a value or stops early, together with the places
it touches on the way, in order. The places are of any type, and so are the
reasons to stop. `Traced.Spec` bounds all three – the places touched, the
reason it stops with, the value it ends with – and is proved along the
structure of the code, by `Traced.Spec.bind`.
-/

/-- **A computation with the places it touches.** -/
structure Traced (ε ι α : Type) where
  /-- The value it ends with, or why it stops. -/
  result : Except ε α
  /-- The places it touches, in order. -/
  touched : List ι

namespace Traced

variable {ε ι α β : Type}

/-- A computation that stops. -/
def stop (e : ε) : Traced ε ι α := ⟨.error e, []⟩

/-- A place is touched. -/
def touch (i : ι) : Traced ε ι Unit := ⟨.ok (), [i]⟩

/-- A computation that touches nothing. -/
def ofOption (e : ε) (a : Option α) : Traced ε ι α := ⟨a.elim (.error e) .ok, []⟩

/-- **The value alone**, without the places. -/
def value? (c : Traced ε ι α) : Option α := c.result.toOption

instance : Monad (Traced ε ι) where
  pure a := ⟨.ok a, []⟩
  bind c f :=
    match c.result with
    | .ok a => ⟨(f a).result, c.touched ++ (f a).touched⟩
    | .error e => ⟨.error e, c.touched⟩

/-- What follows a computation that has ended. -/
theorem bind_of_ok {a : α} {touched : List ι} {c : Traced ε ι α} (h : c = ⟨.ok a, touched⟩)
    (f : α → Traced ε ι β) : c >>= f = ⟨(f a).result, touched ++ (f a).touched⟩ := by
  subst h
  rfl

@[simp] theorem value?_stop (e : ε) : (stop e : Traced ε ι α).value? = none := rfl

@[simp] theorem value?_pure (a : α) : (pure a : Traced ε ι α).value? = some a := rfl

@[simp] theorem value?_touch (i : ι) : (touch i : Traced ε ι Unit).value? = some () := rfl

@[simp] theorem value?_ofOption (e : ε) (a : Option α) :
    (ofOption e a : Traced ε ι α).value? = a := by
  cases a <;> rfl

@[simp] theorem value?_bind (c : Traced ε ι α) (f : α → Traced ε ι β) :
    (c >>= f).value? = c.value?.bind fun a => (f a).value? := by
  cases hc : c.result with
  | ok a =>
    rw [bind_of_ok (show c = ⟨.ok a, c.touched⟩ by rw [← hc]), show c.value? = some a by
      rw [value?, hc]
      rfl]
    rfl
  | error e => simp [Bind.bind, value?, hc, Except.toOption]

/-- What a place touched on the way is followed by. -/
theorem touch_bind (i : ι) (f : Unit → Traced ε ι β) :
    touch i >>= f = ⟨(f ()).result, i :: (f ()).touched⟩ := rfl

theorem touched_subset_bind (c : Traced ε ι α) (f : α → Traced ε ι β) :
    c.touched ⊆ (c >>= f).touched := by
  cases hc : c.result with
  | ok a =>
    rw [bind_of_ok (show c = ⟨.ok a, c.touched⟩ by rw [← hc])]
    exact List.subset_append_left ..
  | error e => simp [Bind.bind, hc]

/-- A computation that ends has come through its first part. -/
theorem bind_eq_ok {c : Traced ε ι α} {f : α → Traced ε ι β} {b : β}
    (h : (c >>= f).result = .ok b) : ∃ a, c.result = .ok a ∧ (f a).result = .ok b
      ∧ (f a).touched ⊆ (c >>= f).touched := by
  cases hc : c.result with
  | ok a =>
    rw [bind_of_ok (show c = ⟨.ok a, c.touched⟩ by rw [← hc])] at h ⊢
    exact ⟨a, rfl, h, List.subset_append_right ..⟩
  | error e =>
    have herror : (c >>= f).result = .error e := by simp [Bind.bind, hc]
    cases herror.symm.trans h

/-- **What a computation may do**: the places it touches satisfy `P`, and it
ends with a value in `R` or stops for a reason in `E`. -/
def Spec (P : ι → Prop) (E : ε → Prop) (R : α → Prop) (c : Traced ε ι α) : Prop :=
  (∀ i ∈ c.touched, P i) ∧ match c.result with
    | .ok a => R a
    | .error e => E e

variable {P P' : ι → Prop} {E E' : ε → Prop} {R R' : α → Prop} {S : β → Prop}
  {c : Traced ε ι α} {f : α → Traced ε ι β}

theorem Spec.pure {a : α} (h : R a) : Spec P E R (Pure.pure a : Traced ε ι α) :=
  ⟨fun _ hi => absurd hi List.not_mem_nil, h⟩

theorem Spec.touch {i : ι} (hi : P i) : Spec P E (fun _ => True) (touch i : Traced ε ι Unit) :=
  ⟨fun _ hj => List.mem_singleton.mp hj ▸ hi, trivial⟩

theorem Spec.bind (hc : Spec P E R c) (hf : ∀ a, R a → Spec P E S (f a)) :
    Spec P E S (c >>= f) := by
  obtain ⟨htouched, hresult⟩ := hc
  show Spec P E S (match c.result with
    | .ok a => ⟨(f a).result, c.touched ++ (f a).touched⟩
    | .error e => ⟨.error e, c.touched⟩)
  split
  · rename_i a ha
    rw [ha] at hresult
    obtain ⟨htouched', hresult'⟩ := hf a hresult
    refine ⟨fun i hi => ?_, hresult'⟩
    exact (List.mem_append.mp hi).elim (htouched i) (htouched' i)
  · rename_i e he
    rw [he] at hresult
    exact ⟨htouched, hresult⟩

theorem Spec.mono (hc : Spec P E R c) (hP : ∀ i, P i → P' i) (hE : ∀ e, E e → E' e)
    (hR : ∀ a, R a → R' a) : Spec P' E' R' c := by
  obtain ⟨htouched, hresult⟩ := hc
  refine ⟨fun i hi => hP i (htouched i hi), ?_⟩
  cases hc' : c.result with
  | ok a =>
    rw [hc'] at hresult
    exact hR a hresult
  | error e =>
    rw [hc'] at hresult
    exact hE e hresult

theorem Spec.exists_ok (hc : Spec P (fun _ => False) R c) : ∃ a, c.result = .ok a ∧ R a := by
  have hresult := hc.2
  cases hc' : c.result with
  | ok a =>
    rw [hc'] at hresult
    exact ⟨a, rfl, hresult⟩
  | error e =>
    rw [hc'] at hresult
    exact hresult.elim

end Traced
